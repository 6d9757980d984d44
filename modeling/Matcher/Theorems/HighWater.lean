import Matcher.Logic.MarketSim
import Matcher.Theorems.ChunkPool

/-!
# The high-water mark of the chunks

A chunk that no order has used before is taken only when none is free, and then every chunk
in use holds a resting order. So the storage a book has ever touched is bounded by the most
orders that ever rested at the same time, however long it runs.
-/

namespace Matcher

open Kit

namespace OrderBook

section HighWater

variable {cfg : BookConfig} {b b' : OrderBook} {C C' : Content}

/-- One command raises the mark to the number of orders now resting, at most. -/
theorem Rep.high_water (h : Rep none none b C) (hstocked : Stocked b) {c : Command}
    {out : List Emission} (hrun : b.apply c = some (b', out)) (hrep' : Rep none none b' C') :
    b'.store.used ≤ max b.store.used b'.orderCount ∧
      b'.store.chunks.size ≤ max b.store.chunks.size (max b.store.used b'.orderCount) := by
  unfold orderCount
  obtain ⟨_, _, hdrawn⟩ := apply_drawn hrun
  rcases hdrawn with hsteady | ⟨hfree, hused, hsize⟩
  · rw [hsteady.used, hsteady.size]
    omega
  · -- the chunk taken is in use, and so is every other one
    have hlive := hrep'.store.used_le_live hfree
    have hbounded := hstocked.bounded
    have hsmall := h.small
    rw [incr_of_lt (by omega)] at hused
    omega

/-- At most `k` orders rest after each command of the run. -/
def Peaks (b : OrderBook) (cs : List Command) (k : Nat) : Prop :=
  ∀ pre, pre <+: cs → ∀ b' out, b.applyAll pre = some (b', out) → b'.orderCount ≤ k

end HighWater

end OrderBook

/-- A run in which at most `k` orders ever rest at a time uses no chunk beyond the first `k`,
or beyond those that were in use or constructed before it. -/
theorem memory_high_water {cfg : BookConfig} (horders : cfg.maxOrders.toNat ≤ 2 ^ 29)
    {b : OrderBook} (h : OrderBook.Operated cfg b) {cs : List Command} {k : Nat}
    (hpeak : b.Peaks cs k) {b' : OrderBook} {out : List Emission}
    (hrun : b.applyAll cs = some (b', out)) :
    b'.store.used ≤ max b.store.used k ∧
      b'.store.chunks.size ≤ max b.store.chunks.size (max b.store.used k) := by
  induction cs generalizing b out with
  | nil =>
    cases hrun
    omega
  | cons c cs ih =>
    obtain ⟨⟨b1, out1⟩, hrun1, hrun⟩ := Option.bind_eq_some_iff.mp hrun
    obtain ⟨⟨b2, out2⟩, hrun2, hout⟩ := Option.bind_eq_some_iff.mp hrun
    cases hout
    obtain ⟨C, hrep, _, hstocked⟩ := h.stocked horders
    obtain ⟨C1, hrep1, _, _⟩ := (h.apply hrun1).stocked horders
    have hstep := hrep.high_water hstocked hrun1 hrep1
    have hpeak1 : b1.Peaks cs k := by
      intro pre hpre b' out hrun'
      refine hpeak (c :: pre) (List.cons_prefix_cons.mpr ⟨rfl, hpre⟩) b' (out1 ++ out) ?_
      rw [OrderBook.applyAll_eq_runAll] at hrun' ⊢
      exact runAll_cons hrun1 hrun'
    have hrest := ih (h.apply hrun1) hpeak1 hrun2
    have hcount : b1.orderCount ≤ k := hpeak1 [] List.nil_prefix b1 [] rfl
    omega

theorem memory_high_water_small : ∃ b b' out, OrderBook.new smallBook = some b ∧
    b.applyAll smallRun = some (b', out) ∧
    b'.store.used ≤ max b.store.used 1 ∧
      b'.store.chunks.size ≤ max b.store.chunks.size (max b.store.used 1) := by
  obtain ⟨b, hnew, hden⟩ := OrderBook.denotes_new smallBook_opens
  obtain ⟨b', out, hrun, _, _⟩ := hden.applyAll smallBook_fits.narrow smallRun
  refine ⟨b, b', out, hnew, hrun, memory_high_water smallBook_fits.orders (.start hnew) ?_ hrun⟩
  have hlive : ∀ pre ∈ smallRun.inits, (Spec.run smallBook (Spec.summed smallBook) {} pre).1.live ≤
      1 := by decide
  intro pre hpre b1 out1 hrun1
  obtain ⟨b1', out1', hrun1', _, hden1⟩ := hden.applyAll smallBook_fits.narrow pre
  cases hrun1.symm.trans hrun1'
  rw [Spec.answer_serve] at hden1
  rw [(hden1.shows smallBook_fits.narrow).orderCount]
  exact hlive pre ((List.mem_inits pre smallRun).mpr hpre)

end Matcher
