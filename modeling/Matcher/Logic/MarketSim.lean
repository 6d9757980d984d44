import Matcher.Engine
import Matcher.Logic.Runs
import Matcher.Spec.Market

/-!
# The engine is the naive market

`Denotes` forgets how a book is laid out: it keeps the lists, the number of the last
event and the configuration. `Stands` does the same for an engine. A command does to a
book, and a tagged command to an engine, what the specification does to what it stands
for; so two books or engines that stand for the same cannot be told apart.
-/

namespace Matcher

open Kit

/-- The events of a command that is answered as the specification answers it. -/
theorem Emission.events_of_serve {cfg : BookConfig}
    {available : Side → Price → List Spec.Order → Nat} {a : Spec.Sheet}
    {c : Command} {out : List Emission}
    (h : out.map Emission.record = (Spec.serve cfg available a c).2) :
    out.map Emission.ev = (Spec.step cfg available a.1 c).2 :=
  events_of_numbered h

namespace OrderBook

/-- The book stands for the sheet `a`. -/
def Denotes (cfg : BookConfig) (b : OrderBook) (a : Spec.Sheet) : Prop :=
  ∃ C, Rep none none b C ∧ C.spec = a.1 ∧ b.seq = a.2 ∧ b.cfg = cfg

section Denotes

variable {cfg : BookConfig} {b b' : OrderBook} {a a' : Spec.Sheet}

theorem Denotes.restingOrders (h : b.Denotes cfg a) : b.restingOrders = some a.1.resting := by
  obtain ⟨C, hrep, hspec, _, _⟩ := h
  rw [← hspec]
  exact hrep.restingOrders_eq

theorem Denotes.seq (h : b.Denotes cfg a) : b.seq = a.2 := by
  obtain ⟨_, _, _, hseq, _⟩ := h
  exact hseq

theorem Denotes.sound (h : b.Denotes cfg a) : Spec.Sound a.1 := by
  obtain ⟨C, hrep, hspec, _, _⟩ := h
  rw [← hspec]
  exact hrep.sound

/-- A book stands for one sheet only. -/
theorem Denotes.unique (h : b.Denotes cfg a) (h' : b.Denotes cfg a') : a = a' := by
  have horders := h.restingOrders.symm.trans h'.restingOrders
  exact Prod.ext (Spec.resting_inj (Option.some.inj horders)) (h.seq.symm.trans h'.seq)

theorem Denotes.shows (hn : cfg.Narrow) (h : b.Denotes cfg a) : b.Shows a.1 := by
  obtain ⟨C, hrep, hspec, _, hcfg⟩ := h
  rw [← hspec]
  exact hrep.shows (hcfg ▸ hn)

/-- No query tells two books apart that stand for the same sheet. -/
theorem Denotes.agree (hn : cfg.Narrow) (h : b.Denotes cfg a) (h' : b'.Denotes cfg a) :
    b.Agree b' :=
  (h.shows hn).agree (h'.shows hn)

theorem denotes_new (hopens : cfg.Opens) : ∃ b, OrderBook.new cfg = some b ∧
    b.Denotes cfg ({}, 0) := by
  obtain ⟨b, hnew, hrep, hseq, hcfg⟩ := new_rep cfg hopens.orders hopens.builds
  exact ⟨b, hnew, blank, hrep, blank_spec, hseq, hcfg⟩

/-- A reachable book stands for something. -/
theorem Reaches.denotes (hfits : cfg.Fits) (h : Reaches cfg b) : ∃ a, b.Denotes cfg a := by
  obtain ⟨C, hrep, hcfg⟩ := h.rep hfits
  exact ⟨(C.spec, b.seq), C, hrep, rfl, rfl, hcfg⟩

theorem Denotes.apply (hn : cfg.Narrow) (h : b.Denotes cfg a) (c : Command) :
    ∃ b' out, b.apply c = some (b', out) ∧
      out.map Emission.record = (Spec.serve cfg (Spec.summed cfg) a c).2 ∧
      b'.Denotes cfg (Spec.serve cfg (Spec.summed cfg) a c).1 := by
  obtain ⟨C, hrep, hspec, hseq, hcfg⟩ := h
  obtain ⟨b', C', out, hrun, hdone⟩ := hrep.apply (hcfg ▸ hn) c
  rw [hcfg, hspec] at hdone
  refine ⟨b', out, hrun, ?_, C', hdone.rep, hdone.spec, ?_, hdone.cfg.trans hcfg⟩
  · rw [hdone.record, hseq]
    rfl
  · rw [hdone.seq, hseq]
    rfl

theorem apply_implements (hn : cfg.Narrow) :
    Implements OrderBook.apply (Spec.serve cfg (Spec.summed cfg)) (fun c =>
      [c]) Emission.record (Denotes cfg) := by
  refine ⟨fun h c => ?_⟩
  rw [answer_singleton]
  exact h.apply hn c

theorem applyAll_eq_runAll (b : OrderBook) (cs : List Command) :
    b.applyAll cs = runAll OrderBook.apply b cs := by
  induction cs generalizing b with
  | nil => rfl
  | cons c cs ih =>
    unfold applyAll runAll
    simp only [ih]

/-- A run of commands. -/
theorem Denotes.applyAll (hn : cfg.Narrow) (h : b.Denotes cfg a) (cs : List Command) :
    ∃ b' out, b.applyAll cs = some (b', out) ∧
      out.map Emission.record = (answer (Spec.serve cfg (Spec.summed cfg)) a cs).2 ∧
      b'.Denotes cfg (answer (Spec.serve cfg (Spec.summed cfg)) a cs).1 := by
  have hrun := (apply_implements hn).run h cs
  rw [List.flatMap_singleton'] at hrun
  rw [applyAll_eq_runAll]
  exact hrun

/-- A book restored from what a book stands for stands for the same. -/
theorem Denotes.restore (h : b.Denotes cfg a) :
    ∃ b', OrderBook.restore cfg a.2 a.1.resting = some b' ∧ b'.Denotes cfg a := by
  obtain ⟨C, hrep, hspec, hseq, hcfg⟩ := h
  obtain ⟨b', C', hrun, hrep', hspec', hseq', hcfg'⟩ := hrep.restore
  rw [hcfg, hseq, hspec] at hrun
  exact ⟨b', hrun, C', hrep', hspec'.trans hspec, hseq'.trans hseq, hcfg'.trans hcfg⟩

end Denotes

end OrderBook

/-- A run of tagged commands in the naive market, with the sums of `fillable`. -/
abbrev Spec.Market.run (cfg : BookConfig) (V : Spec.Market) (cmds : List (Symbol × Command)) :
    Spec.Market × List (Symbol × UInt64 × Event) :=
  answer (Spec.Market.serve cfg (Spec.summed cfg)) V cmds

namespace Engine

/-- What is seen of one delivery: the symbol, the number and the event. -/
def tagged (x : Symbol × Emission) : Symbol × UInt64 × Event := (x.1, x.2.record)

/-- The engine stands for the market `V`: each book for the sheet of its symbol. -/
structure Stands (cfg : BookConfig) (e : Engine) (V : Spec.Market) : Prop where
  default : e.defaultCfg = cfg
  books : ∀ s, Option.Rel (OrderBook.Denotes cfg) (e.book s) (V s)

section Stands

variable {cfg : BookConfig} {e e' : Engine} {V V' : Spec.Market} {s : Symbol} {b : OrderBook}

theorem Stands.new (cfg : BookConfig) : Stands cfg { defaultCfg := cfg } fun _ => none :=
  ⟨rfl, fun _ => Option.Rel.none⟩

theorem Stands.found (h : Stands cfg e V) (hbook : e.book s = some b) :
    ∃ a, V s = some a ∧ b.Denotes cfg a := by
  have hrel := h.books s
  rw [hbook] at hrel
  cases hV : V s with
  | none =>
    rw [hV] at hrel
    cases hrel
  | some a =>
    rw [hV] at hrel
    cases hrel with
    | some hden => exact ⟨a, rfl, hden⟩

theorem Stands.missing (h : Stands cfg e V) : e.book s = none ↔ V s = none := by
  have hrel := h.books s
  cases hbook : e.book s <;> cases hV : V s <;> rw [hbook, hV] at hrel <;> simp <;> cases hrel

/-- An engine stands for one market only. -/
theorem Stands.unique (h : Stands cfg e V) (h' : Stands cfg e V') : V = V' := by
  funext s
  cases hbook : e.book s with
  | none => exact (h.missing.mp hbook).trans (h'.missing.mp hbook).symm
  | some b =>
    obtain ⟨a, ha, hden⟩ := h.found hbook
    obtain ⟨a', ha', hden'⟩ := h'.found hbook
    rw [ha, ha', hden.unique hden']

/-- The book a command runs on stands for the sheet it runs on, created or not. -/
theorem Stands.bookOrCreate (hopens : cfg.Opens) (h : Stands cfg e V) (s : Symbol) :
    ∃ e1 b, e.bookOrCreate s = some (e1, b) ∧ b.Denotes cfg ((V s).getD ({}, 0)) ∧
      e1.defaultCfg = cfg ∧ ∀ t, t ≠ s → e1.book t = e.book t := by
  unfold Engine.bookOrCreate
  cases hbook : e.books.lookup s with
  | some b =>
    obtain ⟨a, ha, hden⟩ := h.found hbook
    rw [ha]
    exact ⟨e, b, rfl, hden, h.default, fun _ _ => rfl⟩
  | none =>
    obtain ⟨b, hnew, hden⟩ := OrderBook.denotes_new hopens
    rw [h.missing.mp hbook, h.default]
    simp only [hnew, Option.bind_eq_bind, Option.bind_some, addBook,
      if_neg (Finmap.lookup_eq_none.mp hbook)]
    refine ⟨_, b, rfl, hden, h.default, fun t ht => ?_⟩
    exact Finmap.lookup_insert_of_ne _ ht

theorem Stands.submitTagged (hopens : cfg.Opens) (h : Stands cfg e V) (x : Symbol × Command) :
    ∃ e' out, e.submitTagged x.1 x.2 = some (e', out) ∧
      out.map tagged = (Spec.Market.serve cfg (Spec.summed cfg) V x).2 ∧
      Stands cfg e' (Spec.Market.serve cfg (Spec.summed cfg) V x).1 := by
  obtain ⟨s, c⟩ := x
  obtain ⟨e1, b, hbook, hden, hcfg, hothers⟩ := h.bookOrCreate hopens s
  obtain ⟨b', out, hrun, hout, hden'⟩ := hden.apply hopens.narrow c
  refine ⟨{ e1 with books := e1.books.insert s b' }, out.map fun x => (s, x), ?_, ?_, hcfg, fun t =>
    ?_⟩
  · unfold Engine.submitTagged Engine.submit
    simp only [hbook, hrun, Option.bind_eq_bind, Option.bind_some]
    rfl
  · unfold Spec.Market.serve
    dsimp only
    rw [← hout, List.map_map, List.map_map]
    rfl
  · unfold Spec.Market.serve Engine.book
    dsimp only
    by_cases ht : t = s
    · rw [ht, Finmap.lookup_insert, Function.update_self]
      exact Option.Rel.some hden'
    · rw [Finmap.lookup_insert_of_ne _ ht, Function.update_of_ne ht]
      have hbooks := h.books t
      rwa [← hothers t ht] at hbooks

theorem submitTagged_implements (hopens : cfg.Opens) :
    Implements (fun (e : Engine) (x : Symbol × Command) => e.submitTagged x.1 x.2)
      (Spec.Market.serve cfg (Spec.summed cfg)) (fun x => [x]) tagged (Stands cfg) := by
  refine ⟨fun h x => ?_⟩
  rw [answer_singleton]
  exact h.submitTagged hopens x

theorem submitAll_eq_runAll (e : Engine) (cmds : List (Symbol × Command)) :
    e.submitAll cmds = runAll (fun (e : Engine) (x : Symbol × Command) =>
      e.submitTagged x.1 x.2) e cmds := by
  induction cmds generalizing e with
  | nil => rfl
  | cons x cmds ih =>
    unfold submitAll runAll
    simp only [ih]

/-- A run of tagged commands. -/
theorem Stands.submitAll (hopens : cfg.Opens) (h : Stands cfg e V)
    (cmds : List (Symbol × Command)) :
    ∃ e' out, e.submitAll cmds = some (e', out) ∧ out.map tagged = (Spec.Market.run cfg V cmds).2 ∧
      Stands cfg e' (Spec.Market.run cfg V cmds).1 := by
  have hrun := (submitTagged_implements hopens).run h cmds
  rw [List.flatMap_singleton'] at hrun
  rw [submitAll_eq_runAll]
  exact hrun

end Stands

end Engine

end Matcher
