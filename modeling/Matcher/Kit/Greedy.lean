import Mathlib.Algebra.BigOperators.Group.List.Basic
import Mathlib.Algebra.Order.Ring.Defs
import Mathlib.Tactic.Linarith
import Mathlib.Tactic.Ring

/-!
# Taking from the front is cheapest

Offers stand in a list, the cheapest first, each with room for some amount. To take an
amount from the front, exhausting offer after offer, costs no more than to take it in any
other way.
-/

namespace Kit

section Greedy

variable {α K : Type*} [CommRing K] (price : α → K) (room : α → ℕ)

/-- The cost of the amounts `x`. -/
def spend (x : α → ℕ) (os : List α) : K := (os.map fun o => (x o : K) * price o).sum

/-- The cost of taking `t` from the front. -/
def frontCost : List α → ℕ → K
  | [], _ => 0
  | o :: os, t => ((min (room o) t : ℕ) : K) * price o + frontCost os (t - room o)

variable {price room} {os : List α} {x : α → ℕ} {t : ℕ} {p : K}

@[simp] theorem spend_cons (o : α) (os : List α) :
    spend price x (o :: os) = (x o : K) * price o + spend price x os := by
  simp [spend]

/-- Nothing taken, nothing paid. -/
@[simp] theorem frontCost_zero (os : List α) : frontCost price room os 0 = 0 := by
  induction os with
  | nil => rfl
  | cons o os ih => simp [frontCost, ih]

variable [LinearOrder K] [IsStrictOrderedRing K]

/-- No amount can be had for less than it is worth at the lowest price. -/
theorem le_spend (hp : ∀ o ∈ os, p ≤ price o) : p * ((os.map x).sum : ℕ) ≤ spend price x os := by
  induction os with
  | nil => simp [spend]
  | cons o os ih =>
    have hrest := ih fun o' ho' => hp o' (List.mem_cons_of_mem o ho')
    have hfirst : (x o : K) * p ≤ (x o : K) * price o :=
      mul_le_mul_of_nonneg_left (hp o List.mem_cons_self) (Nat.cast_nonneg _)
    rw [spend_cons, List.map_cons, List.sum_cons, Nat.cast_add]
    linarith

/-- If `x` takes more than `t`, the rest of it costs at least the lowest price. -/
theorem frontCost_add_le (hsorted : os.Pairwise fun a b => price a ≤ price b)
    (hx : ∀ o ∈ os, x o ≤ room o) (ht : t ≤ (os.map x).sum) (hp : ∀ o ∈ os, p ≤ price o) :
    frontCost price room os t + p * (((os.map x).sum - t : ℕ) : K) ≤ spend price x os := by
  induction os generalizing t p with
  | nil => simp [frontCost, spend]
  | cons o os ih =>
    rw [List.pairwise_cons] at hsorted
    have hpo := hp o List.mem_cons_self
    have hxo := hx o List.mem_cons_self
    rw [List.map_cons, List.sum_cons] at ht ⊢
    generalize hS : (os.map x).sum = S at ht ⊢
    have hmore : (0 : K) ≤ ((x o + S - t : ℕ) : K) := Nat.cast_nonneg _
    rw [spend_cons]
    unfold frontCost
    by_cases hroom : t ≤ room o
    · -- the first offer has room for all of `t`
      have hrest := le_spend (p := price o) (x := x) hsorted.1
      rw [hS] at hrest
      rw [Nat.min_eq_right hroom, Nat.sub_eq_zero_of_le hroom, frontCost_zero, add_zero]
      have hsum : ((x o + S - t : ℕ) : K) + (t : K) = (x o : K) + (S : K) := by
        rw [← Nat.cast_add, Nat.sub_add_cancel ht, Nat.cast_add]
      have hle := mul_le_mul_of_nonneg_right hpo hmore
      have hwhole : (t : K) * price o + price o * ((x o + S - t : ℕ) : K) = (x o : K) * price o +
          price o * (S : K) := by
        rw [← mul_comm (price o) (t : K), ← mul_add, add_comm (t : K), hsum]
        ring
      linarith
    · -- it is exhausted; what `x` leaves of it costs more elsewhere
      have hroom' : room o ≤ t := Nat.le_of_lt (Nat.not_le.mp hroom)
      have hle : t - room o ≤ S := by omega
      have hrest := ih hsorted.2 (fun o' ho' => hx o' (List.mem_cons_of_mem o ho'))
        (hS ▸ hle) hsorted.1
      rw [hS] at hrest
      rw [Nat.min_eq_left hroom']
      have hsum : ((S - (t - room o) : ℕ) : K) = ((x o + S - t : ℕ) : K) +
          ((room o - x o : ℕ) : K) := by
        rw [← Nat.cast_add]
        congr 1
        omega
      have hxroom : (room o : K) = (x o : K) + ((room o - x o : ℕ) : K) := by
        rw [← Nat.cast_add, Nat.add_sub_cancel' hxo]
      have hprice := mul_le_mul_of_nonneg_right hpo hmore
      rw [hsum] at hrest
      rw [hxroom]
      linarith

/-- Taking `t` from the front costs no more than taking it in any other way. -/
theorem frontCost_le (hsorted : os.Pairwise fun a b => price a ≤ price b)
    (hx : ∀ o ∈ os, x o ≤ room o) (ht : (os.map x).sum = t) :
    frontCost price room os t ≤ spend price x os := by
  cases os with
  | nil => simp [frontCost, spend]
  | cons o os =>
    have hlowest : ∀ o' ∈ o :: os, price o ≤ price o' := by
      intro o' ho'
      rcases List.mem_cons.mp ho' with rfl | ho'
      · exact le_refl _
      · exact (List.pairwise_cons.mp hsorted).1 o' ho'
    have hle := frontCost_add_le hsorted hx ht.ge hlowest
    rwa [ht, Nat.sub_self, Nat.cast_zero, mul_zero, add_zero] at hle

end Greedy

end Kit
