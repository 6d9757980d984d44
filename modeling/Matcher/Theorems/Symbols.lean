import Matcher.Logic.Runs
import Matcher.Snapshot

/-!
# Books of different symbols never interact

What a run of tagged commands does to one symbol is what the symbol's own commands do
to a book that stands alone. So two interleavings of the same streams end in the same
engine, and a finite map has no order in which its history could show.
-/

namespace Matcher

namespace Engine

/-- The commands for one symbol, in order. -/
def commandsFor (s : Symbol) (cmds : List (Symbol × Command)) : List Command :=
  (cmds.filter fun x => x.1 = s).map Prod.snd

/-- What was delivered under one symbol, in order. -/
def stream (s : Symbol) (out : List (Symbol × Emission)) : List Emission :=
  (out.filter fun x => x.1 = s).map Prod.snd

theorem commandsFor_cons (s t : Symbol) (c : Command) (cmds : List (Symbol × Command)) :
    commandsFor s ((t, c) :: cmds) =
      if t = s then c :: commandsFor s cmds else commandsFor s cmds := by
  by_cases hs : t = s <;> simp [commandsFor, hs]

theorem stream_append (s : Symbol) (out out' : List (Symbol × Emission)) :
    stream s (out ++ out') = stream s out ++ stream s out' := by
  rw [stream, List.filter_append, List.map_append]
  rfl

theorem stream_tagged (s t : Symbol) (out : List Emission) :
    stream s (out.map fun x => (t, x)) = if t = s then out else [] := by
  by_cases hs : t = s <;> simp [stream, hs, List.filter_map, Function.comp_def]

/-- What the commands `cs` do to the book of `s`, as the engine `e` has it or would
create it. -/
def solo (e : Engine) (s : Symbol) (cs : List Command) :
    Option (Option OrderBook × List Emission) :=
  match e.book s, cs with
  | some b, cs => (b.applyAll cs).map fun r => (some r.1, r.2)
  | none, [] => some (none, [])
  | none, c :: cs => do
    let b ← OrderBook.new e.defaultCfg
    (b.applyAll (c :: cs)).map fun r => (some r.1, r.2)

section Step

variable {e e' : Engine} {s t : Symbol} {c : Command} {cs : List Command}

theorem solo_nil (e : Engine) (s : Symbol) : e.solo s [] = some (e.book s, []) := by
  unfold solo
  cases e.book s <;> rfl

theorem solo_congr (hbook : e'.book s = e.book s) (hcfg : e'.defaultCfg = e.defaultCfg)
    (cs : List Command) :
    e'.solo s cs = e.solo s cs := by
  unfold solo
  rw [hbook, hcfg]

/-- One command: its own book changes as it would alone, the others stay. -/
theorem submitTagged_some {out : List (Symbol × Emission)}
    (hrun : e.submitTagged s c = some (e', out)) :
    e'.defaultCfg = e.defaultCfg ∧ (∀ t, t ≠ s → e'.book t = e.book t) ∧
    ∃ out', out = out'.map (fun x => (s, x)) ∧
      ∀ cs, e.solo s (c :: cs) = (e'.solo s cs).map fun r => (r.1, out' ++ r.2) := by
  obtain ⟨⟨e1, out1⟩, hsubmit, hrun⟩ := Option.bind_eq_some_iff.mp hrun
  cases hrun
  obtain ⟨b0, b1, hmine, happly, hcfg, hafter, hothers⟩ := submit_some hsubmit
  refine ⟨hcfg, hothers, out1, rfl, fun cs => ?_⟩
  have happlyAll : b0.applyAll (c :: cs) = (b1.applyAll cs).map fun r => (r.1, out1 ++ r.2) := by
    rw [OrderBook.applyAll, happly, Option.map_eq_bind]
    rfl
  rcases hmine with hfound | ⟨hfound, hnew⟩
  · simp only [solo, hfound, hafter, happlyAll, Option.map_map]
    rfl
  · simp only [solo, hfound, hafter, hnew, happlyAll, Option.map_map, Option.bind_eq_bind,
      Option.bind_some]
    rfl

/-- The engine does not return only if the book would not. -/
theorem submitTagged_none (hrun : e.submitTagged s c = none) (cs : List Command) :
    e.solo s (c :: cs) = none := by
  have happly : ∀ b : OrderBook, b.apply c = none → b.applyAll (c :: cs) = none := by
    intro b hb
    rw [OrderBook.applyAll, hb]
    rfl
  unfold submitTagged submit bookOrCreate at hrun
  unfold solo book
  cases hfound : e.books.lookup s with
  | some b =>
    rw [hfound] at hrun
    cases hb : b.apply c with
    | some r => simp [hb] at hrun
    | none => simp [happly b hb]
  | none =>
    rw [hfound] at hrun
    cases hnew : OrderBook.new e.defaultCfg with
    | none => rfl
    | some b =>
      cases hb : b.apply c with
      | some r => simp [hnew, hb] at hrun
      | none => simp [happly b hb]

end Step

/-- A run of tagged commands does to every symbol what its own commands do; and it does
not return only if one of the books would not. -/
theorem submitAll_solo (e : Engine) (cmds : List (Symbol × Command)) :
    match e.submitAll cmds with
    | some (e', out) => ∀ s, e.solo s (commandsFor s cmds) = some (e'.book s, stream s out)
    | none => ∃ s, commandsFor s cmds ≠ [] ∧ e.solo s (commandsFor s cmds) = none := by
  induction cmds generalizing e with
  | nil => exact fun s => solo_nil e s
  | cons x cmds ih =>
    obtain ⟨s, c⟩ := x
    rw [submitAll]
    cases hrun : e.submitTagged s c with
    | none =>
      refine ⟨s, ?_, ?_⟩
      · rw [commandsFor_cons, if_pos rfl]
        exact List.cons_ne_nil _ _
      · rw [commandsFor_cons, if_pos rfl]
        exact submitTagged_none hrun _
    | some r =>
      obtain ⟨e1, out1⟩ := r
      obtain ⟨hcfg, hothers, out', rfl, hmine⟩ := submitTagged_some hrun
      have hih := ih e1
      -- the run that is left, seen by `s` and by the others
      have hsplit : ∀ t, e.solo t (commandsFor t ((s, c) :: cmds)) =
          (e1.solo t (commandsFor t cmds)).map fun r =>
            (r.1, (if s = t then out' else []) ++ r.2) := by
        intro t
        rw [commandsFor_cons]
        by_cases ht : s = t
        · subst ht
          rw [if_pos rfl, if_pos rfl, hmine]
        · rw [if_neg ht, if_neg ht, solo_congr (hothers t (Ne.symm ht)) hcfg]
          simp
      simp only [Option.bind_eq_bind, Option.bind_some]
      cases hrest : e1.submitAll cmds with
      | none =>
        rw [hrest] at hih
        obtain ⟨t, hne, ht⟩ := hih
        refine ⟨t, ?_, ?_⟩
        · rw [commandsFor_cons]
          split
          · exact List.cons_ne_nil _ _
          · exact hne
        · rw [hsplit, ht]
          rfl
      | some r =>
        obtain ⟨e2, out2⟩ := r
        rw [hrest] at hih
        intro t
        rw [hsplit, hih t, Option.map_some, stream_append, stream_tagged]

theorem submitAll_cfg {e e' : Engine} {cmds : List (Symbol × Command)}
    {out : List (Symbol × Emission)} (hrun : e.submitAll cmds = some (e', out)) :
    e'.defaultCfg = e.defaultCfg := by
  induction cmds generalizing e out with
  | nil =>
    cases hrun
    rfl
  | cons x cmds ih =>
    obtain ⟨⟨e1, out1⟩, hrun1, hrun⟩ := Option.bind_eq_some_iff.mp hrun
    obtain ⟨⟨e2, out2⟩, hrun2, hrun⟩ := Option.bind_eq_some_iff.mp hrun
    cases hrun
    exact (ih hrun2).trans (submitTagged_some hrun1).1

/-! ## Registration -/

/-- `add_symbol` for every symbol of a list. -/
def register : Engine → List (Symbol × BookConfig) → Option Engine
  | e, [] => some e
  | e, (sym, cfg) :: regs => do
    let e ← e.addSymbol sym cfg
    e.register regs

/-- The configuration of a symbol's book: the first it was registered with, else the
default. -/
def cfgOf (default : BookConfig) (regs : List (Symbol × BookConfig)) (s : Symbol) : BookConfig :=
  ((regs.find? fun r => r.1 = s).map Prod.snd).getD default

theorem register_spec (e : Engine) (regs : List (Symbol × BookConfig)) :
    match e.register regs with
    | some e' => e'.defaultCfg = e.defaultCfg ∧ ∀ s, e'.book s =
        match e.book s with
        | some b => some b
        | none => (regs.find? fun r => r.1 = s).bind fun r => OrderBook.new r.2
    | none => ∃ r ∈ regs, OrderBook.new r.2 = none := by
  induction regs generalizing e with
  | nil =>
    refine ⟨rfl, fun s => ?_⟩
    cases e.book s <;> rfl
  | cons r regs ih =>
    obtain ⟨sym, cfg⟩ := r
    rw [register, addSymbol]
    cases hnew : OrderBook.new cfg with
    | none => exact ⟨(sym, cfg), List.mem_cons_self, hnew⟩
    | some b =>
      simp only [Option.bind_eq_bind, Option.bind_some, Option.pure_def]
      have hih := ih (e.addBook sym b)
      cases hrest : (e.addBook sym b).register regs with
      | none =>
        rw [hrest] at hih
        obtain ⟨r, hr, hnone⟩ := hih
        exact ⟨r, List.mem_cons_of_mem _ hr, hnone⟩
      | some e' =>
        rw [hrest] at hih
        obtain ⟨hcfg, hbooks⟩ := hih
        have hdefault : (e.addBook sym b).defaultCfg = e.defaultCfg := by
          rw [addBook]
          split <;> rfl
        have hbook : ∀ s, (e.addBook sym b).book s =
            match e.book s with
            | some b => some b
            | none => if sym = s then some b else none := by
          intro s
          -- a symbol that has a book keeps it: the first registration counts
          rw [addBook]
          by_cases hmem : sym ∈ e.books
          · rw [if_pos hmem]
            cases hs : e.book s with
            | some b' => rfl
            | none =>
              have hne : sym ≠ s := by
                rintro rfl
                exact Finmap.lookup_eq_none.mp hs hmem
              simp only [if_neg hne]
          · rw [if_neg hmem]
            by_cases hs : sym = s
            · subst hs
              rw [show e.book sym = none from Finmap.lookup_eq_none.mpr hmem]
              simp only [if_true]
              exact Finmap.lookup_insert _
            · have hother : Engine.book { e with books := e.books.insert sym b } s = e.book s :=
                Finmap.lookup_insert_of_ne _ (Ne.symm hs)
              rw [hother]
              cases e.book s <;> simp [hs]
        refine ⟨hcfg.trans hdefault, fun s => ?_⟩
        rw [hbooks, hbook]
        cases e.book s with
        | some b' => rfl
        | none =>
          by_cases hs : sym = s
          · simp [hs, hnew]
          · simp [hs]

/-- Registration returns only if every constructor does. -/
theorem register_new {e e' : Engine} {regs : List (Symbol × BookConfig)}
    (h : e.register regs = some e') {r : Symbol × BookConfig} (hr : r ∈ regs) :
    OrderBook.new r.2 ≠ none := by
  induction regs generalizing e with
  | nil => cases hr
  | cons r' regs ih =>
    obtain ⟨sym, cfg⟩ := r'
    obtain ⟨e1, hadd, h⟩ := Option.bind_eq_some_iff.mp h
    rcases List.mem_cons.mp hr with rfl | hr
    · obtain ⟨b, hnew, _⟩ := Option.bind_eq_some_iff.mp hadd
      rw [hnew]
      exact Option.some_ne_none b
    · exact ih h hr

/-! ## Whole runs -/

/-- A new engine, its registrations, and a run of tagged commands. -/
def play (default : BookConfig) (regs : List (Symbol × BookConfig))
    (cmds : List (Symbol × Command)) :
    Option (Engine × List (Symbol × Emission)) := do
  let e ← register { defaultCfg := default } regs
  e.submitAll cmds

/-- A book that stands alone, fed a run of commands. -/
def standAlone (cfg : BookConfig) (cs : List Command) : Option (OrderBook × List Emission) := do
  let b ← OrderBook.new cfg
  b.applyAll cs

/-- The engine has a book for `s`: it was registered, or got a command. -/
def Used (regs : List (Symbol × BookConfig)) (cs : List Command) (s : Symbol) : Prop :=
  s ∈ regs.map Prod.fst ∨ cs ≠ []

section Play

variable {default : BookConfig} {regs : List (Symbol × BookConfig)} {e : Engine} {s : Symbol}
    {cs : List Command}

theorem used_iff : Used regs cs s ↔ (regs.find? fun r => r.1 = s).isSome ∨ cs ≠ [] := by
  rw [Used, List.find?_isSome, List.mem_map]
  simp only [decide_eq_true_eq]

/-- After registration a book in use runs as it would alone. -/
theorem solo_used (hreg : register { defaultCfg := default } regs = some e)
    (hused : Used regs cs s) :
    e.solo s cs = (standAlone (cfgOf default regs s) cs).map fun r => (some r.1, r.2) := by
  have hspec := register_spec { defaultCfg := default } regs
  rw [hreg] at hspec
  obtain ⟨hcfg, hbooks⟩ := hspec
  have hbook : e.book s = (regs.find? fun r => r.1 = s).bind fun r => OrderBook.new r.2 := hbooks s
  unfold solo
  rw [hbook, cfgOf, standAlone]
  rw [used_iff] at hused
  cases hfind : regs.find? fun r => r.1 = s with
  | some r =>
    simp only [Option.bind_some, Option.map_some, Option.getD_some]
    cases hnew : OrderBook.new r.2 with
    | some b => rfl
    | none =>
      -- a registration that does not return leaves no engine
      exact absurd hnew (register_new hreg (List.mem_of_find?_eq_some hfind))
  | none =>
    simp only [Option.bind_none, Option.map_none, Option.getD_none]
    have hne : cs ≠ [] := by
      rw [hfind] at hused
      exact hused.resolve_left (by simp)
    cases cs with
    | nil => exact absurd rfl hne
    | cons c cs =>
      rw [hcfg]
      cases OrderBook.new default <;> rfl

/-- A symbol that is not in use has no book. -/
theorem solo_unused (hreg : register { defaultCfg := default } regs = some e)
    (hunused : ¬ Used regs cs s) :
    e.solo s cs = some (none, []) := by
  have hspec := register_spec { defaultCfg := default } regs
  rw [hreg] at hspec
  obtain ⟨hcfg, hbooks⟩ := hspec
  have hbook : e.book s = (regs.find? fun r => r.1 = s).bind fun r => OrderBook.new r.2 := hbooks s
  rw [used_iff, not_or, not_not] at hunused
  obtain ⟨hfind, rfl⟩ := hunused
  rw [Option.not_isSome_iff_eq_none] at hfind
  rw [solo_nil, hbook, hfind]
  rfl

/-- Interleavings of the same streams end in the same engine. -/
theorem play_congr (default : BookConfig) (regs : List (Symbol × BookConfig))
    {cmds cmds' : List (Symbol × Command)} (hsame : ∀ s, commandsFor s cmds' = commandsFor s cmds) :
    (play default regs cmds').map Prod.fst = (play default regs cmds).map Prod.fst ∧
      ∀ s, (play default regs cmds').map (fun r => stream s r.2) =
        (play default regs cmds).map fun r => stream s r.2 := by
  rw [play, play]
  cases register { defaultCfg := default } regs with
  | none => exact ⟨rfl, fun _ => rfl⟩
  | some e0 =>
    simp only [Option.bind_eq_bind, Option.bind_some]
    have hsolo := submitAll_solo e0 cmds
    have hsolo' := submitAll_solo e0 cmds'
    cases hrun : e0.submitAll cmds with
    | none =>
      rw [hrun] at hsolo
      obtain ⟨s, _, hs⟩ := hsolo
      cases hrun' : e0.submitAll cmds' with
      | none => exact ⟨rfl, fun _ => rfl⟩
      | some r =>
        rw [hrun'] at hsolo'
        have hs' := hsolo' s
        rw [hsame, hs] at hs'
        cases hs'
    | some r =>
      obtain ⟨e, out⟩ := r
      rw [hrun] at hsolo
      cases hrun' : e0.submitAll cmds' with
      | none =>
        rw [hrun'] at hsolo'
        obtain ⟨s, _, hs'⟩ := hsolo'
        rw [hsame, hsolo s] at hs'
        cases hs'
      | some r' =>
        obtain ⟨e', out'⟩ := r'
        rw [hrun'] at hsolo'
        have heq : ∀ s, e'.book s = e.book s ∧ stream s out' = stream s out := by
          intro s
          have hs' := hsolo' s
          rw [hsame, hsolo s] at hs'
          obtain ⟨hb, hout⟩ := Prod.mk.inj (Option.some.inj hs')
          exact ⟨hb.symm, hout.symm⟩
        have hengine : e' = e := by
          have hbooks : e'.books = e.books := Finmap.ext_lookup fun s => (heq s).1
          have hcfg : e'.defaultCfg = e.defaultCfg :=
            (submitAll_cfg hrun').trans (submitAll_cfg hrun).symm
          cases e
          cases e'
          cases hbooks
          cases hcfg
          rfl
        refine ⟨?_, fun s => ?_⟩
        · rw [Option.map_some, Option.map_some, hengine]
        · rw [Option.map_some, Option.map_some, (heq s).2]

end Play

end Engine

/-- For every default configuration, registrations and sequence of tagged commands:
what is delivered under a symbol, and the book it ends with, are those of a book that
stands alone and is fed the symbol's own commands; the engine does not return only if
one of these books does not. So another interleaving of the same streams gives the same
streams of events, the same symbols and the same snapshot. -/
theorem symbols_independent (default : BookConfig) (regs : List (Symbol × BookConfig))
    (cmds : List (Symbol × Command)) :
    (match Engine.play default regs cmds with
      | some (e, out) => ∀ s,
          (Engine.Used regs (Engine.commandsFor s cmds) s → ∃ b, e.book s = some b ∧
            Engine.standAlone (Engine.cfgOf default regs s) (Engine.commandsFor s cmds) =
              some (b, Engine.stream s out)) ∧
          (¬ Engine.Used regs (Engine.commandsFor s cmds) s → e.book s = none ∧
            Engine.stream s out = [])
      | none => (∃ r ∈ regs, OrderBook.new r.2 = none) ∨ ∃ s,
          Engine.Used regs (Engine.commandsFor s cmds) s ∧
          Engine.standAlone (Engine.cfgOf default regs s) (Engine.commandsFor s cmds) = none) ∧
    ∀ cmds', (∀ s, Engine.commandsFor s cmds' = Engine.commandsFor s cmds) →
      (∀ s, (Engine.play default regs cmds').map (fun r => Engine.stream s r.2) =
        (Engine.play default regs cmds).map fun r => Engine.stream s r.2) ∧
      (Engine.play default regs cmds').map (fun r => r.1.symbols) =
        (Engine.play default regs cmds).map (fun r => r.1.symbols) ∧
      (Engine.play default regs cmds').map (fun r => Snapshot.writeEngine r.1) =
        (Engine.play default regs cmds).map fun r => Snapshot.writeEngine r.1 := by
  refine ⟨?_, fun cmds' hsame => ?_⟩
  · rw [Engine.play]
    cases hreg : Engine.register { defaultCfg := default } regs with
    | none =>
      have hspec := Engine.register_spec { defaultCfg := default } regs
      rw [hreg] at hspec
      exact Or.inl hspec
    | some e0 =>
      simp only [Option.bind_eq_bind, Option.bind_some]
      have hsolo := Engine.submitAll_solo e0 cmds
      cases hrun : e0.submitAll cmds with
      | some r =>
        obtain ⟨e, out⟩ := r
        rw [hrun] at hsolo
        refine fun s => ⟨fun hused => ?_, fun hunused => ?_⟩
        · have hs := hsolo s
          rw [Engine.solo_used hreg hused] at hs
          obtain ⟨⟨b, evs⟩, halone, hpair⟩ := Option.map_eq_some_iff.mp hs
          obtain ⟨hb, rfl⟩ := Prod.mk.inj hpair
          exact ⟨b, hb.symm, halone⟩
        · have hs := hsolo s
          rw [Engine.solo_unused hreg hunused] at hs
          obtain ⟨hb, hout⟩ := Prod.mk.inj (Option.some.inj hs)
          exact ⟨hb.symm, hout.symm⟩
      | none =>
        rw [hrun] at hsolo
        obtain ⟨s, hne, hs⟩ := hsolo
        rw [Engine.solo_used hreg (Or.inr hne)] at hs
        exact Or.inr ⟨s, Or.inr hne, Option.map_eq_none_iff.mp hs⟩
  · have hplay := Engine.play_congr default regs hsame
    refine ⟨fun s => ?_, ?_, ?_⟩
    · exact hplay.2 s
    · have hmap := congrArg (Option.map Engine.symbols) hplay.1
      rwa [Option.map_map, Option.map_map] at hmap
    · have hmap := congrArg (Option.map Snapshot.writeEngine) hplay.1
      rwa [Option.map_map, Option.map_map] at hmap

end Matcher
