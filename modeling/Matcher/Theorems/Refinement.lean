import Matcher.Logic.Runs

/-!
# The book refines the naive price-time book

`Rep.applyAll` relates the program to the specification with `summed`, the sum
the program itself computes. Here that sum is traded for the exact one: as long
as no side's quantities reach 2^64, and in tree mode no bid rests above half the
largest price, both say the same at every fill-or-kill check.
-/

namespace Matcher

open Kit

namespace Spec

/-- Quantities add up without wrapping, and a tree's sums reach every bid. -/
structure Tame (cfg : BookConfig) (R : Book) : Prop where
  bids : (R.bids.map fun o => o.qty.toNat).sum < 2 ^ 64
  asks : (R.asks.map fun o => o.qty.toNat).sum < 2 ^ 64
  reach : cfg.index = .tree → ∀ o ∈ R.bids, o.price ≤ Int64.maxValue / 2

instance decidableTame (cfg : BookConfig) (R : Book) : Decidable (Tame cfg R) :=
  decidable_of_iff ((R.bids.map fun o => o.qty.toNat).sum < 2 ^ 64 ∧
      (R.asks.map fun o => o.qty.toNat).sum < 2 ^ 64 ∧
      (cfg.index = .tree → ∀ o ∈ R.bids, o.price ≤ Int64.maxValue / 2))
    ⟨fun h => ⟨h.1, h.2.1, h.2.2⟩, fun h => ⟨h.bids, h.asks, h.reach⟩⟩

/-- A 64-bit sum that does not wrap. -/
theorem sum_toNat {qs : List Qty} (h : (qs.map UInt64.toNat).sum < 2 ^ 64) :
    qs.sum.toNat = (qs.map UInt64.toNat).sum := by
  induction qs with
  | nil => rfl
  | cons q qs ih =>
    rw [List.map_cons, List.sum_cons] at h
    rw [List.sum_cons, UInt64.toNat_add, ih (by omega), List.map_cons, List.sum_cons,
      Nat.mod_eq_of_lt h]

theorem sum_filter_le (os : List Order) (f : Order → Bool) :
    ((os.filter f).map fun o => o.qty.toNat).sum ≤ (os.map fun o => o.qty.toNat).sum :=
  ((List.filter_sublist (p := f) (l := os)).map _).sum_le_sum fun _ _ => Nat.zero_le _

/-- Within the limit, the program's range leaves nothing out. -/
theorem summed_eq_offered {cfg : BookConfig} {R : Book} (htame : Tame cfg R)
    (hvalid : ∀ s, ∀ o ∈ R.side s, cfg.Valid o.price) (s : Side) (price : Price) :
    summed cfg s price (R.side (opposite s)) = offered s price (R.side (opposite s)) := by
  have hrange : ∀ (f : Order → Bool) (os : List Order), (os.map fun o => o.qty.toNat).sum < 2 ^ 64 →
      (∀ o ∈ os, f o = admits s (some price) o.price) →
      ((os.filter f).map Order.qty).sum.toNat = offered s price os := by
    intro f os hsum hf
    have hle := sum_filter_le os f
    rw [sum_toNat (by rw [List.map_map]; exact lt_of_le_of_lt hle hsum), List.map_map, offered,
      List.filter_congr hf]
    rfl
  have hbase : ∀ o ∈ R.asks, OrderBook.fillLo cfg ≤ o.price :=
    fun o ho => OrderBook.fillLo_le (hvalid .ask o ho)
  have htop : ∀ o ∈ R.bids, o.price ≤ OrderBook.fillHi cfg := fun o ho =>
    OrderBook.le_fillHi (hvalid .bid o ho) fun hk => htame.reach hk o ho
  cases s with
  | bid =>
    refine hrange _ R.asks htame.asks fun o ho => ?_
    simp [admits, hbase o ho]
  | ask =>
    refine hrange _ R.bids htame.bids fun o ho => ?_
    simp [admits, htop o ho]

/-- What is available matters to one check only. -/
theorem step_congr {cfg : BookConfig} {av av' : Side → Price → List Order → Nat}
    {R : Book} {c : Command} (h : av c.side c.price (R.side (opposite c.side)) =
      av' c.side c.price (R.side (opposite c.side))) :
    step cfg av R c = step cfg av' R c := by
  have hcheck : checkNew cfg av R c = checkNew cfg av' R c := by
    unfold checkNew
    rw [h]
  unfold step
  cases c.kind
  · simp only [newOrder, hcheck]
  · rfl
  · rfl

end Spec

namespace OrderBook

variable {b : OrderBook} {C : Content}

theorem Rep.run_offered (h : Rep none none b C) (hn : b.cfg.Narrow) (cs : List Command)
    (htame : ∀ pre, pre <+: cs → Spec.Tame b.cfg (Spec.run b.cfg Spec.offered C.spec pre).1) :
    Spec.run b.cfg (Spec.summed b.cfg) C.spec cs = Spec.run b.cfg Spec.offered C.spec cs := by
  induction cs generalizing b C with
  | nil => rfl
  | cons c cs ih =>
    have hstep : Spec.step b.cfg (Spec.summed b.cfg) C.spec c =
        Spec.step b.cfg Spec.offered C.spec c :=
      Spec.step_congr (Spec.summed_eq_offered (htame [] List.nil_prefix) (fun s o ho =>
        (h.valid_spec s o ho).1) _ _)
    obtain ⟨b1, C1, out1, _, hdone1⟩ := h.apply hn c
    have hspec : C1.spec = (Spec.step b.cfg Spec.offered C.spec c).1 := by rw [hdone1.spec, hstep]
    have hrest := ih hdone1.rep (hdone1.cfg ▸ hn) fun pre hpre => by
      have := htame (c :: pre) (List.cons_prefix_cons.mpr ⟨rfl, hpre⟩)
      rw [hdone1.cfg, hspec]
      exact this
    rw [hdone1.cfg, hspec] at hrest
    rw [Spec.run_cons, Spec.run_cons, hstep, hrest]

end OrderBook

/-- From the empty book, any run of commands returns, emits exactly the
specification's events numbered from 1, and leaves a book on which every query
answers as on the specification's lists. Prefixes of a run are runs, so this
holds after every command. -/
theorem book_refines_spec (cfg : BookConfig) (hopens : cfg.Opens) (cs : List Command)
    (htame : ∀ pre, pre <+: cs → Spec.Tame cfg (Spec.run cfg Spec.offered {} pre).1) :
    ∃ b0 b out, OrderBook.new cfg = some b0 ∧ b0.applyAll cs = some (b, out) ∧
      out.map Emission.record = Spec.numbered 0 (Spec.run cfg Spec.offered {} cs).2 ∧
      b.Shows (Spec.run cfg Spec.offered {} cs).1 := by
  obtain ⟨b0, hnew, hrep, hseq, hcfg⟩ := OrderBook.new_rep cfg hopens.orders hopens.builds
  have hn : b0.cfg.Narrow := hcfg ▸ hopens.narrow
  obtain ⟨b, C, out, hrun, hdone⟩ := hrep.applyAll hn cs
  have hoffered := hrep.run_offered hn cs (by rw [hcfg]; exact htame)
  rw [OrderBook.blank_spec, hcfg] at hoffered
  rw [OrderBook.blank_spec, hcfg, hoffered] at hdone
  refine ⟨b0, b, out, hnew, hrun, ?_, ?_⟩
  · rw [hdone.record, hseq]
  · rw [← hdone.spec]
    exact hdone.rep.shows (hdone.cfg ▸ hn)

theorem book_refines_spec_small : ∃ b0 b out, OrderBook.new smallBook = some b0 ∧
    b0.applyAll smallRun = some (b, out) ∧
    out.map Emission.record = Spec.numbered 0 (Spec.run smallBook Spec.offered {} smallRun).2 ∧
    b.Shows (Spec.run smallBook Spec.offered {} smallRun).1 :=
  book_refines_spec smallBook smallBook_opens smallRun fun pre hpre =>
    (by decide +kernel : ∀ pre ∈ smallRun.inits,
      Spec.Tame smallBook (Spec.run smallBook Spec.offered {} pre).1) pre
        ((List.mem_inits pre smallRun).mpr hpre)

end Matcher
