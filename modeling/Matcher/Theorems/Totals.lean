import Matcher.Logic.Wide

/-!
# When totals are exact

Level totals and the sum behind the fill-or-kill check are kept in 64 bits and
never checked. Each is the true sum as long as that sum is below 2^64, and only
then.
-/

namespace Matcher

open Kit

namespace Spec

/-- The exact quantity resting at a price. -/
def resting (os : List Order) (p : Price) : Nat :=
  ((os.filter fun o => o.price = p).map fun o => o.qty.toNat).sum

/-- Is `p` in the range `fillable` sums over? -/
def inRange (cfg : BookConfig) (s : Side) (price p : Price) : Bool :=
  match s with
  | .bid => OrderBook.fillLo cfg ≤ p ∧ p ≤ price
  | .ask => price ≤ p ∧ p ≤ OrderBook.fillHi cfg

/-- The exact quantity in the range of `fillable`. -/
def ranged (cfg : BookConfig) (s : Side) (price : Price) (os : List Order) : Nat :=
  ((os.filter fun o => inRange cfg s price o.price).map fun o => o.qty.toNat).sum

/-- A 64-bit sum is the sum modulo 2^64. -/
theorem sum_toNat_mod (qs : List Qty) : qs.sum.toNat = (qs.map UInt64.toNat).sum % 2 ^ 64 := by
  induction qs with
  | nil => rfl
  | cons q qs ih =>
    rw [List.sum_cons, UInt64.toNat_add, ih, List.map_cons, List.sum_cons, Nat.add_mod_mod]

theorem sum_toNat_filter (f : Order → Bool) (os : List Order) :
    ((os.filter f).map Order.qty).sum.toNat = ((os.filter f).map fun o => o.qty.toNat).sum % 2 ^
      64 := by
  rw [sum_toNat_mod, List.map_map]
  rfl

theorem summed_eq_ranged (cfg : BookConfig) (s : Side) (price : Price) (os : List Order) :
    summed cfg s price os = ranged cfg s price os % 2 ^ 64 := by
  cases s
  · exact sum_toNat_filter (fun o => inRange cfg .bid price o.price) os
  · exact sum_toNat_filter (fun o => inRange cfg .ask price o.price) os

/-- What is cut to 64 bits is exact just when it fits. -/
theorem mod_eq_self_iff (n : Nat) : n % 2 ^ 64 = n ↔ n < 2 ^ 64 :=
  ⟨fun h => h ▸ Nat.mod_lt n (by decide), Nat.mod_eq_of_lt⟩

end Spec

/-- In a reachable book a level's total is the true sum of its orders just when
that sum is below 2^64, and so is `fillable` of the quantities in its range. -/
theorem totals_exact_iff {cfg : BookConfig} (horders : cfg.maxOrders.toNat ≤ 2 ^ 29)
    (hshort : cfg.Short) {b : OrderBook} (h : OrderBook.Reaches cfg b) :
    ∃ R : Spec.Book, (∀ s, b.restingSide s = some (R.restingSide s)) ∧
      (∀ s p, (b.levelTotal s p).toNat = Spec.resting (R.side s) p ↔
        Spec.resting (R.side s) p < 2 ^ 64) ∧
      ∀ s p, b.priceOk p = true → ∃ q, b.fillable s p = some q ∧
        (q.toNat = Spec.ranged cfg s p (R.side (opposite s)) ↔
          Spec.ranged cfg s p (R.side (opposite s)) < 2 ^ 64) := by
  obtain ⟨C, hrep, hcfg⟩ := h.keeps horders
  refine ⟨C.spec, hrep.restingSide_eq, fun s p => ?_, fun s p hok => ?_⟩
  · have htotal : (b.levelTotal s p).toNat = Spec.resting (C.spec.side s) p % 2 ^ 64 := by
      rw [hrep.levelTotal_eq]
      exact Spec.sum_toNat_filter (fun o => decide (o.price = p)) _
    rw [htotal]
    exact Spec.mod_eq_self_iff _
  · rw [OrderBook.priceOk_eq, OrderBook.validPrice_iff] at hok
    obtain ⟨q, hrun, hq⟩ := hrep.fillable_eq (hcfg ▸ hshort) (s := s) hok
    refine ⟨q, hrun, ?_⟩
    rw [hq, hcfg, Content.spec_side, Spec.summed_eq_ranged]
    exact Spec.mod_eq_self_iff _

theorem totals_exact_iff_small : ∃ b, OrderBook.Reaches smallBook b ∧
    ∃ R : Spec.Book, (∀ s, b.restingSide s = some (R.restingSide s)) ∧
      (∀ s p, (b.levelTotal s p).toNat = Spec.resting (R.side s) p ↔
        Spec.resting (R.side s) p < 2 ^ 64) ∧
      ∀ s p, b.priceOk p = true → ∃ q, b.fillable s p = some q ∧
        (q.toNat = Spec.ranged smallBook s p (R.side (opposite s)) ↔
          Spec.ranged smallBook s p (R.side (opposite s)) < 2 ^ 64) := by
  obtain ⟨b, h⟩ := OrderBook.exists_reaches smallBook_opens smallRun
  exact ⟨b, h, totals_exact_iff smallBook_fits.orders smallBook_fits.narrow.short h⟩

/-- Two bids at one price that add up to more than 64 bits hold. -/
def hugeBids : List Command :=
  [.newLimit 1 .bid 5 (2 ^ 64 - 1) .gtc, .newLimit 2 .bid 5 (2 ^ 64 - 1) .gtc]

/-- Their level's total and their range sum are too small. -/
theorem totals_wrap : ∃ b R, OrderBook.Reaches smallBook b ∧ b.Shows R ∧
    (b.levelTotal .bid 5).toNat < Spec.resting (R.side .bid) 5 ∧
    ∃ q, b.fillable .ask 5 = some q ∧ q.toNat < Spec.ranged smallBook .ask 5 (R.side .bid) := by
  obtain ⟨b, C, hreach, hrep, hcfg, hspec⟩ := OrderBook.exists_reaches_rep smallBook_opens hugeBids
  have hn : b.cfg.Narrow := hcfg ▸ smallBook_fits.narrow
  have hvalid : b.cfg.Valid 5 := by
    rw [hcfg, ← OrderBook.validPrice_iff]
    rfl
  obtain ⟨q, hrun, hq⟩ := hrep.fillable_eq hn.short (s := .ask) hvalid
  rw [hcfg, ← Content.spec_side, hspec] at hq
  refine ⟨b, C.spec, hreach, hrep.shows hn, ?_, q, hrun, ?_⟩
  · rw [hrep.levelTotal_eq, hspec]
    decide +kernel
  · rw [hq, hspec]
    decide +kernel

end Matcher
