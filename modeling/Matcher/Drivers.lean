import Matcher.Batch
import Matcher.EventJournal
import Matcher.Snapshot

/-!
# The command line drivers

`bench/matcherrun.cpp`, `matcherrecover.cpp`, `matchersnap.cpp`, `matcherfuzz.cpp`,
`matcherbench.cpp`.

A driver takes the texts of its files and leaves what it printed and its exit status.
`std::getline` cuts a file into the lines that `Journal.lines` cuts it into; a file that
cannot be read has none. `none` is a run that does not return, or a read of a command
nothing was read into.
-/

namespace Matcher

open JsonFlat

namespace Drivers

/-- What a driver leaves behind. -/
structure Outcome where
  out : Text
  status : Nat
deriving DecidableEq, Repr, Inhabited

/-- The configuration that `matcherrun` and `matchersnap` take from a header. -/
def configOf (h : Header) : BookConfig where
  priceMin := h.pmin
  priceMax := h.pmax
  maxOrders := h.maxOrders
  index := h.index

/-- The closure given to `submit_tagged`: the line of one event. -/
def printTagged (x : Symbol × Emission) : Option Text := do
  return (← Journal.writeCanonicalSym x.2.seq x.1 x.2.ev []) ++ ['\n']

/-- `submit_tagged`, and what is printed. -/
def submitPrint (e : Engine) (sym : Symbol) (c : Command) : Option (Engine × Text) := do
  let (e, out) ← e.submitTagged sym c
  return (e, (← out.mapM printTagged).flatten)

/-- `line.empty()` -/
def emptyLine (line : Text) : Bool := line = []

/-- `line.empty() || line.find("\"format\"") != std::string::npos` -/
def emptyOrHeader (line : Text) : Bool := emptyLine line || Snapshot.has line "\"format\"".toList

/-- The reading loop of `matcherrun` and `matcherrecover`, on the lines that are left. A
line that is no command ends it with status 2; `skip` tells the lines passed over. -/
def feed (skip : Text → Bool) : Engine → List Text → Option (Engine × Outcome)
  | e, [] => some (e, ⟨[], 0⟩)
  | e, line :: ls =>
    if skip line then feed skip e ls
    else match parseCommand line with
      | none => some (e, ⟨[], 2⟩)
      | some (sym, c) => do
        let (e, text) ← submitPrint e sym c
        let (e, rest) ← feed skip e ls
        return (e, ⟨text ++ rest.out, rest.status⟩)

/-- `matcherrun <cmd.jsonl> [--snap <path>]`: the outcome, and what is written to the
path if one is given. -/
def matcherrun (snap : Bool) (file : Text) : Option (Outcome × Option Text) := do
  let lines := Journal.lines file
  let h := parseHeader (lines.headD [])
  let (e, r) ← feed emptyLine { defaultCfg := configOf h } lines.tail
  if r.status ≠ 0 then return (r, none)
  if snap then return (r, some (← Snapshot.writeEngine e)) else return (r, none)

/-- `matcherrecover <snap.jsonl> <cmd-tail.jsonl>`. -/
def matcherrecover (snap tail : Text) : Option Outcome := do
  let e ← Snapshot.restoreEngine (Snapshot.parse snap)
  let (_, r) ← feed emptyOrHeader e (Journal.lines tail)
  return r

/-- The loop of `matchersnap`. It does not look at what `parse_command` returns: on a line
that is no command `c` is still the last command, and only the symbol is the line's. -/
def submitLines : Engine → Option Command → List Text → Option Engine
  | e, _, [] => some e
  | e, last, line :: ls =>
    if emptyLine line then submitLines e last ls
    else do
      let c ← match parseCommand line with
        | some (_, c) => some c
        | none => last
      let (e, _) ← e.submitTagged ((getU64 line "symbol".toList).getD 0).toUInt32 c
      submitLines e (some c) ls

/-- `matchersnap <cmd.jsonl>`. -/
def matchersnap (file : Text) : Option Outcome := do
  let lines := Journal.lines file
  let h := parseHeader (lines.headD [])
  let e ← submitLines { defaultCfg := configOf h } none lines.tail
  return ⟨← Snapshot.writeEngine e, 0⟩

/-- The output of `matcherfuzz`: what was flushed, and the buffer. -/
structure Buffered where
  flushed : Text := []
  out : Text := []

def Buffered.flush (w : Buffered) : Buffered := ⟨w.flushed ++ w.out, []⟩

/-- `if (out.size() > (1 << 20)) flush();` after a command's lines are appended. -/
def Buffered.append (w : Buffered) (text : Text) : Buffered :=
  let w := { w with out := w.out ++ text }
  if w.out.length > 1 <<< 20 then w.flush else w

/-- The loop of `matcherfuzz` over an engine or a book: `run` applies one line's command
and gives its event lines. A line that is no command returns without a flush. -/
def fuzzLines {σ : Type} (run : σ → Symbol → Command → Option (σ × Text)) :
    σ → Buffered → List Text → Option Outcome
  | _, w, [] => some ⟨w.flush.flushed, 0⟩
  | s, w, line :: ls =>
    if emptyLine line then fuzzLines run s w ls
    else match parseCommand line with
      | none => some ⟨w.flushed, 2⟩
      | some (sym, c) => do
        let (s, text) ← run s sym c
        fuzzLines run s (w.append text) ls

/-- `OutSink`: the line of one event of a book. -/
def printPlain (x : Emission) : Option Text := do
  return (← Journal.writeCanonical x.seq x.ev []) ++ ['\n']

def applyPrint (b : OrderBook) (_ : Symbol) (c : Command) : Option (OrderBook × Text) := do
  let (b, out) ← b.apply c
  return (b, (← out.mapM printPlain).flatten)

/-- `matcherfuzz <corpus.cmd.jsonl>`: always a ladder. -/
def matcherfuzz (file : Text) : Option Outcome := do
  let lines := Journal.lines file
  let h := parseHeader (lines.headD [])
  let cfg := { configOf h with index := .ladder }
  if h.engine then fuzzLines submitPrint { defaultCfg := cfg } {} lines.tail
  else fuzzLines applyPrint (← OrderBook.new cfg) {} lines.tail

/-- `load` of `matcherbench`: the commands of a file, and its header's configuration in
place of `cfg`. Lines that are no commands are passed over. -/
def load (cfg : BookConfig) (file : Text) : BookConfig × List Command :=
  match Journal.lines file with
  | [] => (cfg, [])
  | head :: ls =>
    (configOf (parseHeader head), ls.filterMap fun line =>
      if emptyLine line then none else (parseCommand line).map Prod.snd)

/-- `replay` of `matcherbench`: the book, and the events before and after the clock is
started. -/
def replay (cfg : BookConfig) (setup run : List Command) :
    Option (OrderBook × List Emission × List Emission) := do
  let b ← OrderBook.new cfg
  let (b, untimed) ← b.prefault.applyBatch setup
  let (b, timed) ← b.applyBatch run
  return (b, untimed, timed)

/-- `matcherbench <corpus-prefix> --mode throughput`, one repetition, without its clock. -/
def matcherbench (setupFile runFile : Text) : Option (OrderBook × List Emission × List Emission) :=
  let (cfg, setup) := load {} setupFile
  let (_, run) := load {} runFile
  replay cfg setup run

end Drivers

end Matcher
