import Matcher.Drivers
import Matcher.Logic.SnapshotCut
import Matcher.Theorems.EventStreams
import Matcher.Theorems.JournalReplay
import Matcher.Theorems.Restarts
import Matcher.Theorems.TornJournal

/-!
# Recovery (`spec/JOURNAL.md` section 4)

`matcherrun` runs a journal and saves a snapshot; `matcherrecover` loads the snapshot and
runs the rest of the journal. What the two print is, byte for byte, what one run over the
whole journal prints. A tail that was cut off adds nothing wrong to the lines that are
whole.
-/

namespace Matcher

open Kit JsonFlat

namespace Drivers

/-! ## Drivers that read alike -/

theorem parseCommand_symbol {line : Text} {s : Symbol} {c : Command}
    (h : parseCommand line = some (s, c)) :
    s = ((getU64 line "symbol".toList).getD 0).toUInt32 := by
  unfold parseCommand at h
  dsimp only at h
  split at h
  · exact (Prod.mk.inj (Option.some.inj h)).1.symm
  split at h
  · exact (Prod.mk.inj (Option.some.inj h)).1.symm
  split at h
  · exact (Prod.mk.inj (Option.some.inj h)).1.symm
  · cases h

/-- The cases of one round of the reading loop, when it returns. -/
theorem feed_cons {skip : Text → Bool} {e e' : Engine} {line : Text} {ls : List Text} {r : Outcome}
    (h : feed skip e (line :: ls) = some (e', r)) :
    skip line = true ∧ feed skip e ls = some (e', r) ∨
      skip line = false ∧ parseCommand line = none ∧ e' = e ∧ r = ⟨[], 2⟩ ∨
      skip line = false ∧ ∃ s c e1 text rest, parseCommand line = some (s, c) ∧
      submitPrint e s c = some (e1, text) ∧
        feed skip e1 ls = some (e', rest) ∧ r = ⟨text ++ rest.out, rest.status⟩ := by
  unfold feed at h
  by_cases hskip : skip line = true
  · rw [if_pos hskip] at h
    exact Or.inl ⟨hskip, h⟩
  rw [if_neg hskip] at h
  have hread := Bool.eq_false_iff.mpr hskip
  cases hparse : parseCommand line with
  | none =>
    rw [hparse] at h
    cases h
    exact Or.inr (Or.inl ⟨hread, rfl, rfl, rfl⟩)
  | some y =>
    rw [hparse] at h
    obtain ⟨⟨e1, text⟩, hrun, h⟩ := Option.bind_eq_some_iff.mp h
    obtain ⟨⟨e2, rest⟩, hrest, h⟩ := Option.bind_eq_some_iff.mp h
    cases h
    exact Or.inr (Or.inr ⟨hread, y.1, y.2, e1, text, rest, rfl, hrun, hrest, rfl⟩)

/-- On lines that are all commands `matchersnap` does what `matcherrun` does. -/
theorem submitLines_of_feed {e e' : Engine} {ls : List Text} {out : Text}
    (h : feed emptyLine e ls = some (e', ⟨out, 0⟩)) (last : Option Command) :
    submitLines e last ls = some e' := by
  induction ls generalizing e out last with
  | nil =>
    cases h
    rfl
  | cons line ls ih =>
    unfold submitLines
    rcases feed_cons h with ⟨hskip, h⟩ | ⟨_, _, _, hr⟩ | ⟨hread, s, c, e1, text, rest, hparse,
      hrun, hrest, hr⟩
    · rw [if_pos hskip]
      exact ih h last
    · cases hr
    · obtain ⟨rout, rstatus⟩ := rest
      cases hr
      obtain ⟨⟨e2, out2⟩, hsubmit, hprint⟩ := Option.bind_eq_some_iff.mp hrun
      obtain ⟨texts, _, hprint⟩ := Option.bind_eq_some_iff.mp hprint
      cases hprint
      rw [hread, if_neg Bool.false_ne_true, ← parseCommand_symbol hparse, hparse]
      simp only [hsubmit, Option.bind_eq_bind, Option.bind_some]
      exact ih hrest (some c)

/-- All that `matcherfuzz` has produced. -/
def Buffered.all (w : Buffered) : Text := w.flushed ++ w.out

theorem Buffered.append_all (w : Buffered) (text : Text) : (w.append text).all = w.all ++ text := by
  unfold Buffered.append Buffered.all Buffered.flush
  dsimp only
  split <;> simp

theorem Buffered.flushed_prefix (w : Buffered) : w.flushed <+: w.all := List.prefix_append _ _

/-- `matcherfuzz` prints what `matcherrun` prints, but for what is not flushed when it stops
at a line that is no command. -/
theorem fuzzLines_of_feed {e e' : Engine} {ls : List Text} {r : Outcome}
    (h : feed emptyLine e ls = some (e', r)) (w : Buffered) :
    ∃ out, fuzzLines submitPrint e w ls = some ⟨out, r.status⟩ ∧ out <+: w.all ++ r.out ∧
      (r.status = 0 → out = w.all ++ r.out) := by
  induction ls generalizing e r w with
  | nil =>
    cases h
    refine ⟨w.all, by simp [fuzzLines, Buffered.flush, Buffered.all], ?_, fun _ => ?_⟩
    · exact List.prefix_append _ _
    · exact (List.append_nil _).symm
  | cons line ls ih =>
    unfold fuzzLines
    rcases feed_cons h with ⟨hskip, h⟩ | ⟨hread, hparse, _, rfl⟩ | ⟨hread, s, c, e1, text, rest,
      hparse, hrun, hrest, rfl⟩
    · rw [if_pos hskip]
      exact ih h w
    · rw [hread, if_neg Bool.false_ne_true, hparse]
      refine ⟨w.flushed, rfl, w.flushed_prefix.trans (List.prefix_append _ _), fun hzero => ?_⟩
      cases hzero
    · obtain ⟨out, hfuzz, hbegins, hall⟩ := ih hrest (w.append text)
      rw [Buffered.append_all, List.append_assoc] at hbegins hall
      rw [hread, if_neg Bool.false_ne_true, hparse]
      simp only [hrun, Option.bind_eq_bind, Option.bind_some]
      exact ⟨out, hfuzz, hbegins, hall⟩

/-! ## What is printed -/

/-- The line of one delivery. -/
def deliveryLine (y : Symbol × UInt64 × Event) : Text :=
  Journal.eventLine y.2.1 (some y.1) y.2.2 ++ ['\n']

def printed (ys : List (Symbol × UInt64 × Event)) : Text := ys.flatMap deliveryLine

@[simp] theorem printed_append (ys zs : List (Symbol × UInt64 × Event)) :
    printed (ys ++ zs) = printed ys ++ printed zs :=
  List.flatMap_append

theorem submitPrint_eq {e e' : Engine} {s : Symbol} {c : Command} {out : List (Symbol × Emission)}
    (h : e.submitTagged s c = some (e', out)) :
    submitPrint e s c = some (e', printed (out.map Engine.tagged)) := by
  have hline : ∀ x ∈ out, printTagged x = some (deliveryLine (Engine.tagged x)) := by
    intro x _
    unfold printTagged
    rw [Journal.writeCanonicalSym_eq]
    rfl
  unfold submitPrint
  rw [h, Option.bind_eq_bind, Option.bind_some]
  dsimp only
  rw [mapM_eq_some hline, printed, List.flatMap_map, List.flatMap_def]
  rfl

/-! ## The reading loop -/

section Feed

variable {skip : Text → Bool} {cfg : BookConfig} {e : Engine} {V : Spec.Market}

/-- A line with a command: its events are printed before the rest. -/
theorem feed_command {line : Text} {ls : List Text} {s : Symbol} {c : Command}
    {e' : Engine} {text : Text} (hskip : skip line = false)
    (hparse : parseCommand line = some (s, c)) (hrun : submitPrint e s c = some (e', text)) :
    feed skip e (line :: ls) = (feed skip e' ls).map fun r =>
      (r.1, ⟨text ++ r.2.out, r.2.status⟩) := by
  rw [feed, hskip, hparse]
  simp only [Bool.false_eq_true, if_false, hrun, Option.bind_eq_bind, Option.bind_some,
    Option.map_eq_bind]
  rfl

/-- The lines of a journal deliver what the market answers, and the loop goes on. -/
theorem feed_journal (hopens : cfg.Opens) (h : Engine.Stands cfg e V)
    (hskip : ∀ c s, skip (Journal.writeCmd c (some s)) = false) (cmds : List (Symbol × Command))
    (ls : List Text) :
    ∃ e', Engine.Stands cfg e' (Spec.Market.run cfg V cmds).1 ∧
      feed skip e (cmds.map (fun x => Journal.writeCmd x.2 (some x.1)) ++ ls) =
        (feed skip e' ls).map fun r =>
        (r.1, ⟨printed (Spec.Market.run cfg V cmds).2 ++ r.2.out, r.2.status⟩) := by
  induction cmds generalizing e V with
  | nil => exact ⟨e, h, by simp [printed]⟩
  | cons x cmds ih =>
    obtain ⟨e1, out, hrun, hout, h1⟩ := h.submitTagged hopens x
    obtain ⟨e', h', hfeed⟩ := ih h1
    rw [← Journal.submitTagged_kept] at hrun
    refine ⟨e', h', ?_⟩
    rw [List.map_cons, List.cons_append,
      feed_command (hskip x.2 x.1) (Journal.parse_writeCmd x.2 (some x.1)) (submitPrint_eq hrun),
      hfeed, Option.map_map, Spec.Market.run, Spec.Market.run, answer_cons, printed_append, ← hout]
    simp only [Function.comp_def, List.append_assoc]

/-- A whole journal is read to its end. -/
theorem feed_all (hopens : cfg.Opens) (h : Engine.Stands cfg e V)
    (hskip : ∀ c s, skip (Journal.writeCmd c (some s)) = false) (cmds : List (Symbol × Command)) :
    ∃ e', Engine.Stands cfg e' (Spec.Market.run cfg V cmds).1 ∧
      feed skip e (cmds.map fun x => Journal.writeCmd x.2 (some x.1)) =
        some (e', ⟨printed (Spec.Market.run cfg V cmds).2, 0⟩) := by
  obtain ⟨e', h', hfeed⟩ := feed_journal hopens h hskip cmds []
  rw [List.append_nil, feed, Option.map_some, List.append_nil] at hfeed
  exact ⟨e', h', hfeed⟩

end Feed

/-! ## Lines that are passed over -/

theorem writeCmd_ne_nil (c : Command) (sym : Option Symbol) : Journal.writeCmd c sym ≠ [] := by
  rw [Journal.writeCmd_record]
  exact List.cons_ne_nil _ _

/-- No journal line is taken for a header. -/
theorem has_format (c : Command) (sym : Option Symbol) :
    Snapshot.has (Journal.writeCmd c sym) "\"format\"".toList = false := by
  have hnone : (Journal.nameField c.kind :: (Journal.symFields sym ++ Journal.argFields c)).all
      (fun f =>
      decide (f.key ≠ "format".toList ∧ (f.quoted = true → f.value ≠ "format".toList))) = true := by
    obtain ⟨kind, id, side, otype, price, qty, tif⟩ := c
    cases kind <;> cases otype <;> cases side <;> cases tif <;> cases sym <;> rfl
  have hword : ∀ c ∈ "format".toList, PlainChar c := plain_of_all rfl
  have hmissing := word_missing (Journal.plain_fields c sym) (by decide) hword fun f hf =>
    of_decide_eq_true (List.all_eq_true.mp hnone f hf)
  unfold Snapshot.has
  rw [Journal.writeCmd_record]
  exact congrArg Option.isSome hmissing

/-- What `matcherrecover` passes over is no line of a journal, whole or cut off. -/
theorem recover_reads (c : Command) (sym : Option Symbol) {t : Text} (ht : t ≠ [])
    (hbegins : t <+: Journal.writeCmd c sym) :
    emptyOrHeader t = false := by
  unfold emptyOrHeader emptyLine
  rw [decide_eq_false ht, Snapshot.has_torn (has_format c sym) hbegins]
  rfl

theorem run_reads (c : Command) (sym : Option Symbol) :
    emptyLine (Journal.writeCmd c sym) = false :=
  decide_eq_false (writeCmd_ne_nil c sym)

/-! ## The drivers on a journal -/

theorem newline_writeCmd (c : Command) (sym : Option Symbol) : '\n' ∉ Journal.writeCmd c sym := by
  rw [Journal.writeCmd_record]
  exact newline_not_mem (Journal.plain_fields c sym)

theorem journal_text (cmds : List (Symbol × Command)) :
    Journal.text cmds = (cmds.map fun x => Journal.writeCmd x.2 (some x.1)).flatMap fun w =>
      w ++ ['\n'] := by
  rw [Journal.text, List.flatMap_map]
  rfl

section Journals

variable {header : Text}

/-- `matcherrun` on a header and a journal prints what the market answers, and saves the
engine that stands for it. -/
theorem matcherrun_journal (hheader : '\n' ∉ header)
    (hopens : (configOf (parseHeader header)).Opens) (cmds : List (Symbol × Command)) :
    ∃ e, Engine.Stands (configOf (parseHeader header)) e
        (Spec.Market.run (configOf (parseHeader header)) (fun _ => none) cmds).1 ∧
      matcherrun true (header ++ '\n' :: Journal.text cmds) =
        (Snapshot.writeEngine e).map fun snap =>
          (⟨printed (Spec.Market.run (configOf (parseHeader header)) (fun _ => none) cmds).2, 0⟩,
            some snap) := by
  have hlines : Journal.lines (header ++ '\n' :: Journal.text cmds) =
      header :: cmds.map fun x => Journal.writeCmd x.2 (some x.1) := by
    rw [← Journal.lines_text]
    exact Journal.linesFrom_line hheader [] (Journal.text cmds)
  obtain ⟨e, hstands, hfeed⟩ :=
    feed_all hopens (Engine.Stands.new _) (fun c s => run_reads c (some s)) cmds
  refine ⟨e, hstands, ?_⟩
  unfold matcherrun
  rw [hlines]
  simp only [List.headD_cons, List.tail_cons, hfeed, Option.bind_eq_bind, Option.bind_some,
    Option.map_eq_bind]
  rfl

/-- An engine that stands for a market has its snapshot, and `matcherrecover` continues
from it. -/
theorem matcherrecover_feed {cfg : BookConfig} {e : Engine} {V : Spec.Market}
    (h : Engine.Stands cfg e V) :
    ∃ snap e', Snapshot.writeEngine e = some snap ∧ Engine.Stands cfg e' V ∧
      ∀ tail, matcherrecover snap tail =
      (feed emptyOrHeader e' (Journal.lines tail)).map Prod.snd := by
  obtain ⟨e', hrun, hstands⟩ := h.rebuilt
  refine ⟨_, e', h.writeEngine, hstands, fun tail => ?_⟩
  unfold matcherrecover
  rw [Snapshot.parse_written, hrun, Option.bind_eq_bind, Option.bind_some, Option.map_eq_bind]
  rfl

end Journals

/-! ## A tail that was cut off -/

/-- The journal line of a tagged command. -/
def journalLine (x : Symbol × Command) : Text := Journal.writeCmd x.2 (some x.1)

/-- Without the whole name of its command a line is refused. -/
theorem parse_unnamed (x : Symbol × Command) {t : Text} (ht : t <+: journalLine x)
    (hlen : t.length < (Journal.nameText x.2.kind).length) : parseCommand t = none := by
  have htake : t = (Journal.nameText x.2.kind).take t.length :=
    List.prefix_iff_eq_take.mp (List.prefix_of_prefix_length_le ht (Journal.nameText_prefix x.2
      (some x.1)) (Nat.le_of_lt hlen))
  have hnone := Journal.getStr_torn x.2.kind hlen
  rw [← htake] at hnone
  unfold parseCommand
  rw [hnone]
  rfl

/-- With it a line is taken for a command, whatever follows. -/
theorem parse_named (x : Symbol × Command) {t : Text} (ht : t <+: journalLine x)
    (hlen : (Journal.nameText x.2.kind).length ≤ t.length) : ∃ y, parseCommand t = some y := by
  obtain ⟨s, rfl⟩ :=
    List.prefix_of_prefix_length_le (Journal.nameText_prefix x.2 (some x.1)) ht hlen
  have hname := Journal.getStr_name x.2.kind s
  unfold parseCommand
  rw [hname]
  cases x.2.kind <;> exact ⟨_, rfl⟩

/-- A journal that was cut off anywhere has some whole lines, and at most one that is not. A
line that only lacks its line break counts as whole. -/
theorem journal_cut {cmds : List (Symbol × Command)} {tail : Text}
    (htail : tail <+: Journal.text cmds) :
    ∃ done rest, cmds = done ++ rest ∧ (Journal.lines tail = done.map journalLine ∨
      ∃ t x more, rest = x :: more ∧ Journal.lines tail = done.map journalLine ++ [t] ∧ t ≠ [] ∧
        t <+: journalLine x ∧ t ≠ journalLine x) := by
  obtain ⟨r, htail⟩ := htail
  rw [journal_text] at htail
  obtain ⟨front, back, t, hsplit, rfl, hcut⟩ := Journal.cut_lines htail
  obtain ⟨done, rest, rfl, rfl, rfl⟩ := List.map_eq_append_iff.mp hsplit
  have hlines : ∀ w ∈ done.map fun x => Journal.writeCmd x.2 (some x.1), '\n' ∉ w := by
    intro w hw
    obtain ⟨x, _, rfl⟩ := List.mem_map.mp hw
    exact newline_writeCmd x.2 (some x.1)
  rcases hcut with rfl | ⟨u, more, hback, _⟩
  · -- the cut is at the end of a line
    refine ⟨done, rest, rfl, Or.inl ?_⟩
    rw [List.append_nil, Journal.lines_written hlines]
    rfl
  obtain ⟨x, rest, rfl, hx, rfl⟩ := List.map_eq_cons_iff.mp hback
  have ht : '\n' ∉ t := by
    intro h
    refine newline_writeCmd x.2 (some x.1) ?_
    rw [hx]
    exact List.mem_append_left u h
  rw [Journal.lines_torn hlines ht]
  by_cases hnil : t = []
  · refine ⟨done, x :: rest, rfl, Or.inl ?_⟩
    rw [if_pos hnil, List.append_nil]
    rfl
  rw [if_neg hnil]
  by_cases hwhole : t = journalLine x
  · -- only the line break is missing: the line counts as written
    refine ⟨done ++ [x], rest, by simp, Or.inl ?_⟩
    rw [hwhole, List.map_append]
    rfl
  · exact ⟨done, x :: rest, rfl, Or.inr ⟨t, x, rest, rfl, rfl, hnil, ⟨u, hx.symm⟩, hwhole⟩⟩

/-! ## A small file -/

/-- The header of an engine of small books. -/
def smallHeader : Text :=
  "\x7b\"format\":\"matcher-vector/1\",\"name\":\"small\",\"pmin\":1,\"pmax\":8,".toList ++
    "\"max_orders\":4,\"index\":\"ladder\",\"engine\":true\x7d".toList

theorem smallHeader_line : '\n' ∉ smallHeader := by decide +kernel

theorem smallHeader_parsed :
    parseHeader smallHeader = { pmin := 1, pmax := 8, maxOrders := 4, engine := true } := by
  decide +kernel

theorem smallHeader_opens : (configOf (parseHeader smallHeader)).Opens := by
  rw [smallHeader_parsed]
  exact smallBook_opens

/-- A bid for one symbol, a cancel for another, and a market order. -/
def smallTraffic : List (Symbol × Command) :=
  [(7, .newLimit 1 .bid 5 10 .gtc), (9, .cancel 1), (7, .newMarket 2 .ask 4)]

end Drivers

/-- On every file: if `matcherrun` reads it to the end, `matchersnap` prints the snapshot that
`matcherrun` saves. If the header asks for an engine with ladders, `matcherfuzz` ends with
the status of `matcherrun` and prints the same, or on a line that is no command a part of
it from the beginning. -/
theorem drivers_agree {file : Text} {out : Text} {status : Nat} {snap : Option Text}
    (hrun : Drivers.matcherrun true file = some (⟨out, status⟩, snap)) :
    (∀ text, snap = some text → Drivers.matchersnap file = some ⟨text, 0⟩) ∧
    ((parseHeader ((Journal.lines file).headD [])).engine = true →
      (parseHeader ((Journal.lines file).headD [])).index = .ladder →
      ∃ out', Drivers.matcherfuzz file = some ⟨out', status⟩ ∧ out' <+: out ∧
        (status = 0 → out' = out)) := by
  obtain ⟨⟨e, r⟩, hfeed, hrun⟩ := Option.bind_eq_some_iff.mp hrun
  constructor
  · intro text hsnap
    dsimp only at hrun
    by_cases hstatus : r.status = 0
    · obtain ⟨rout, rstatus⟩ := r
      cases hstatus
      obtain ⟨text', htext, hrun⟩ := Option.bind_eq_some_iff.mp hrun
      cases hrun
      cases hsnap
      unfold Drivers.matchersnap
      simp only [Drivers.submitLines_of_feed hfeed none, htext, Option.bind_eq_bind,
        Option.bind_some]
      rfl
    · -- a run that failed writes no snapshot
      rw [if_pos hstatus] at hrun
      cases hrun
      cases hsnap
  · intro hengine hladder
    have hr : r = ⟨out, status⟩ := by
      dsimp only at hrun
      split at hrun
      · cases hrun
        rfl
      · obtain ⟨text', _, hrun⟩ := Option.bind_eq_some_iff.mp hrun
        cases hrun
        rfl
    subst hr
    have hcfg : { Drivers.configOf (parseHeader ((Journal.lines file).headD []))
        with index := .ladder } =
        Drivers.configOf (parseHeader ((Journal.lines file).headD [])) := by
      unfold Drivers.configOf
      rw [hladder]
    obtain ⟨out', hfuzz, hbegins, hall⟩ := Drivers.fuzzLines_of_feed hfeed {}
    unfold Drivers.matcherfuzz
    dsimp only
    rw [if_pos hengine, hcfg]
    exact ⟨out', hfuzz, hbegins, hall⟩

theorem drivers_agree_small : ∃ out snap,
    Drivers.matcherrun true (Drivers.smallHeader ++ '\n' :: Journal.text Drivers.smallTraffic) =
      some (⟨out, 0⟩, some snap) ∧
    Drivers.matchersnap (Drivers.smallHeader ++ '\n' :: Journal.text Drivers.smallTraffic) =
      some ⟨snap, 0⟩ ∧
    ∃ out', Drivers.matcherfuzz (Drivers.smallHeader ++ '\n' :: Journal.text Drivers.smallTraffic) =
      some ⟨out', 0⟩ ∧ out' <+: out ∧ (0 = 0 → out' = out) := by
  obtain ⟨e, hstands, hrun⟩ :=
    Drivers.matcherrun_journal Drivers.smallHeader_line Drivers.smallHeader_opens
      Drivers.smallTraffic
  rw [hstands.writeEngine, Option.map_some] at hrun
  obtain ⟨hsnap, hfuzz⟩ := drivers_agree hrun
  have hheader : (Journal.lines (Drivers.smallHeader ++ '\n' ::
      Journal.text Drivers.smallTraffic)).headD [] =
      Drivers.smallHeader := by
    rw [Journal.lines, Journal.linesFrom_line Drivers.smallHeader_line]
    rfl
  rw [hheader, Drivers.smallHeader_parsed] at hfuzz
  exact ⟨_, _, hrun, hsnap _ rfl, hfuzz rfl rfl⟩

/-- Whatever the header, as long as its configuration fits the code's 32 bits, and wherever
a journal is split: `matcherrun` on the first part prints and saves a snapshot,
`matcherrecover` prints from the snapshot and the second part, and the two outputs
together are the output of `matcherrun` on the whole journal. -/
theorem recovery_resumes {header : Text} (hheader : '\n' ∉ header)
    (hopens : (Drivers.configOf (JsonFlat.parseHeader header)).Opens)
    (pre post : List (Symbol × Command)) :
    ∃ out snap out' snap', Drivers.matcherrun true (header ++ '\n' :: Journal.text pre) =
      some (⟨out, 0⟩, some snap) ∧
      Drivers.matcherrecover snap (Journal.text post) = some ⟨out', 0⟩ ∧
      Drivers.matcherrun true (header ++ '\n' :: Journal.text (pre ++ post)) =
        some (⟨out ++ out', 0⟩, some snap') := by
  obtain ⟨e, hstands, hrun⟩ := Drivers.matcherrun_journal hheader hopens pre
  obtain ⟨e1, hstands1, hrun1⟩ := Drivers.matcherrun_journal hheader hopens (pre ++ post)
  obtain ⟨snap, e2, hsnap, hstands2, hrecover⟩ := Drivers.matcherrecover_feed hstands
  obtain ⟨e3, _, hfeed⟩ := Drivers.feed_all hopens hstands2
    (fun c s => Drivers.recover_reads c (some s) (Drivers.writeCmd_ne_nil c _) (List.prefix_refl _))
      post
  rw [hsnap, Option.map_some] at hrun
  rw [hstands1.writeEngine, Option.map_some, Spec.Market.run, answer_append, Drivers.printed_append]
    at hrun1
  refine ⟨_, snap, _, _, hrun, ?_, hrun1⟩
  rw [hrecover, Journal.lines_text, hfeed]
  rfl

theorem recovery_resumes_small : ∃ out snap out' snap',
    Drivers.matcherrun true (Drivers.smallHeader ++ '\n' :: Journal.text Drivers.smallTraffic) =
      some (⟨out, 0⟩, some snap) ∧
    Drivers.matcherrecover snap (Journal.text [(7, .cancel 1)]) = some ⟨out', 0⟩ ∧
    Drivers.matcherrun true
      (Drivers.smallHeader ++ '\n' :: Journal.text (Drivers.smallTraffic ++ [(7, .cancel 1)])) =
        some (⟨out ++ out', 0⟩, some snap') :=
  recovery_resumes Drivers.smallHeader_line Drivers.smallHeader_opens Drivers.smallTraffic
    [(7, .cancel 1)]

/-- The second part of the journal may be cut off anywhere. `matcherrecover` then prints
what `matcherrun` prints for the commands whose lines are whole; if there is a torn line
too, it stops there with status 2 when the cut comes before the end of the command's name,
and otherwise runs what it takes the line for after them, with status 0. -/
theorem recovery_torn {header : Text} (hheader : '\n' ∉ header)
    (hopens : (Drivers.configOf (JsonFlat.parseHeader header)).Opens)
    (pre post : List (Symbol × Command)) {tail : Text} (htail : tail <+: Journal.text post) :
    ∃ done rest out snap out' snap' r, post = done ++ rest ∧
      Drivers.matcherrun true (header ++ '\n' :: Journal.text pre) = some (⟨out, 0⟩, some snap) ∧
      Drivers.matcherrun true (header ++ '\n' :: Journal.text (pre ++ done)) =
        some (⟨out ++ out', 0⟩, some snap') ∧
      Drivers.matcherrecover snap tail = some r ∧
      (Journal.lines tail = done.map Drivers.journalLine ∧ r = ⟨out', 0⟩ ∨
        ∃ t x more, rest = x :: more ∧ Journal.lines tail = done.map Drivers.journalLine ++ [t] ∧
          t ≠ [] ∧ t <+: Drivers.journalLine x ∧ t ≠ Drivers.journalLine x ∧ out' <+: r.out ∧
          (t.length < (Journal.nameText x.2.kind).length → r = ⟨out', 2⟩) ∧
          ((Journal.nameText x.2.kind).length ≤ t.length → r.status = 0)) := by
  obtain ⟨done, rest, rfl, hlines⟩ := Drivers.journal_cut htail
  obtain ⟨e, hstands, hrun⟩ := Drivers.matcherrun_journal hheader hopens pre
  obtain ⟨e1, hstands1, hrun1⟩ := Drivers.matcherrun_journal hheader hopens (pre ++ done)
  obtain ⟨snap, e2, hsnap, hstands2, hrecover⟩ := Drivers.matcherrecover_feed hstands
  have hreads : ∀ c s, Drivers.emptyOrHeader (Journal.writeCmd c (some s)) = false := fun c s =>
    Drivers.recover_reads c (some s) (Drivers.writeCmd_ne_nil c _) (List.prefix_refl _)
  rw [hsnap, Option.map_some] at hrun
  rw [hstands1.writeEngine, Option.map_some, Spec.Market.run, answer_append, Drivers.printed_append]
    at hrun1
  rcases hlines with hlines | ⟨t, x, more, rfl, hlines, hnil, hbegins, hpart⟩
  · obtain ⟨e3, _, hfeed⟩ := Drivers.feed_all hopens hstands2 hreads done
    refine ⟨done, rest, _, snap, _, _, _, rfl, hrun, hrun1, ?_, Or.inl ⟨hlines, rfl⟩⟩
    rw [hrecover, hlines]
    exact congrArg (Option.map Prod.snd) hfeed
  · obtain ⟨e3, hstands3, hfeed⟩ := Drivers.feed_journal hopens hstands2 hreads done [t]
    have hread : Drivers.emptyOrHeader t = false :=
      Drivers.recover_reads x.2 (some x.1) hnil hbegins
    have hrecover' := hrecover tail
    rw [hlines, show done.map Drivers.journalLine = done.map fun x =>
      Journal.writeCmd x.2 (some x.1) from rfl, hfeed,
      Option.map_map] at hrecover'
    by_cases hname : t.length < (Journal.nameText x.2.kind).length
    · -- without its name the line is no command, and reading ends there
      rw [Drivers.feed, hread, Drivers.parse_unnamed x hbegins hname] at hrecover'
      refine ⟨done, x :: more, _, snap, _, _, _, rfl, hrun, hrun1, hrecover',
        Or.inr ⟨t, x, more, rfl, hlines, hnil, hbegins, hpart, List.prefix_append _ _, fun _ =>
          ?_, fun hle => absurd hname (Nat.not_lt.mpr hle)⟩⟩
      exact congrArg (Drivers.Outcome.mk · 2) (List.append_nil _)
    · -- the torn line is some command, and every command runs
      obtain ⟨y, hparse⟩ := Drivers.parse_named x hbegins (Nat.le_of_not_lt hname)
      obtain ⟨e4, out, hsubmit, _, _⟩ := hstands3.submitTagged hopens y
      rw [Drivers.feed_command hread hparse (Drivers.submitPrint_eq hsubmit)] at hrecover'
      exact ⟨done, x :: more, _, snap, _, _, _, rfl, hrun, hrun1, hrecover',
        Or.inr ⟨t, x, more, rfl, hlines, hnil, hbegins, hpart, List.prefix_append _ _, fun h =>
          absurd h hname, fun _ => rfl⟩⟩

/-- A cancel of which only the first five characters were written. -/
theorem recovery_torn_small :
    ∃ done rest out snap out' snap' r, [((7 : Symbol), Command.cancel 1)] = done ++ rest ∧
      Drivers.matcherrun true (Drivers.smallHeader ++ '\n' :: Journal.text Drivers.smallTraffic) =
        some (⟨out, 0⟩, some snap) ∧
      Drivers.matcherrun true
        (Drivers.smallHeader ++ '\n' :: Journal.text (Drivers.smallTraffic ++ done)) =
          some (⟨out ++ out', 0⟩, some snap') ∧
      Drivers.matcherrecover snap ((Journal.text [(7, .cancel 1)]).take 5) = some r ∧
      (Journal.lines ((Journal.text [(7, .cancel 1)]).take 5) = done.map Drivers.journalLine ∧
        r = ⟨out', 0⟩ ∨
        ∃ t x more, rest = x :: more ∧
          Journal.lines ((Journal.text [(7, .cancel 1)]).take 5) =
            done.map Drivers.journalLine ++ [t] ∧ t ≠ [] ∧
          t <+: Drivers.journalLine x ∧ t ≠ Drivers.journalLine x ∧ out' <+: r.out ∧
          (t.length < (Journal.nameText x.2.kind).length → r = ⟨out', 2⟩) ∧
          ((Journal.nameText x.2.kind).length ≤ t.length → r.status = 0)) :=
  recovery_torn Drivers.smallHeader_line Drivers.smallHeader_opens Drivers.smallTraffic
    [(7, .cancel 1)] (List.take_prefix 5 _)

end Matcher
