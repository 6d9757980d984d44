import Matcher.Spec.Facts
import Matcher.Spec.Queries

/-!
# A resting order's time in force is never looked at

It is recorded, copied by a replace and reported. Two books that differ in it
alone answer every command with the same events, and go on differing in it alone.
-/

namespace Matcher.Spec

open Matcher

/-- The order with its time in force forgotten. -/
def Order.untimed (o : Order) : Order := { o with tif := .gtc }

@[simp] theorem untimed_price (o : Order) : o.untimed.price = o.price := rfl

@[simp] theorem untimed_qty (o : Order) : o.untimed.qty = o.qty := rfl

@[simp] theorem untimed_orderId (o : Order) : o.untimed.orderId = o.orderId := rfl

def Book.untimed (R : Book) : Book := ⟨R.bids.map Order.untimed, R.asks.map Order.untimed⟩

@[simp] theorem side_untimed (R : Book) (s : Side) :
    R.untimed.side s = (R.side s).map Order.untimed := by
  cases s <;> rfl

theorem untimed_set (R : Book) (s : Side) (os : List Order) :
    (R.set s os).untimed = R.untimed.set s (os.map Order.untimed) := by cases s <;> rfl

/-- Whatever keeps prices can be done before an order is put in its place or after. -/
theorem insertBack_map {f : Order → Order} (hf : ∀ o, (f o).price = o.price) (s : Side) (o : Order)
    (os : List Order) : (insertBack s o os).map f = insertBack s (f o) (os.map f) := by
  induction os with
  | nil => rfl
  | cons x xs ih =>
    rw [insertBack, List.map_cons, insertBack, hf, hf]
    split
    · rfl
    · rw [List.map_cons, ih]

theorem fill_untimed (s : Side) (limit : Option Price) (taker : OrderId)
    (os : List Order) (qty : Qty) :
    fill s limit taker (os.map Order.untimed) qty =
      ((fill s limit taker os qty).1.map Order.untimed,
      (fill s limit taker os qty).2.1, (fill s limit taker os qty).2.2) := by
  induction os generalizing qty with
  | nil => rfl
  | cons x xs ih =>
    rw [List.map_cons, fill, fill, ih, untimed_price, untimed_qty, untimed_orderId]
    by_cases hstop : qty = 0 ∨ admits s limit x.price = false
    · rw [if_pos hstop, if_pos hstop]
      rfl
    rw [if_neg hstop, if_neg hstop]
    by_cases hle : x.qty ≤ qty
    · rw [if_pos hle, if_pos hle]
    · rw [if_neg hle, if_neg hle]
      rfl

theorem find_untimed (R : Book) (id : OrderId) :
    R.untimed.find id = (R.find id).map fun so => (so.1, so.2.untimed) := by
  have hside : ∀ os : List Order, (os.map Order.untimed).find? (fun o => decide (o.orderId = id)) =
      (os.find? fun o => decide (o.orderId = id)).map Order.untimed := fun os => List.find?_map
  rw [Book.find, Book.find, Book.untimed, hside, hside]
  cases R.bids.find? (fun o => decide (o.orderId = id)) with
  | some o => rfl
  | none =>
    show _ = Option.map _ (Option.map _ _)
    rw [Option.map_map, Option.map_map]
    rfl

theorem live_untimed (R : Book) : R.untimed.live = R.live := by
  simp [Book.live, Book.untimed]

theorem remove_untimed (R : Book) (s : Side) (id : OrderId) :
    (R.remove s id).untimed = R.untimed.remove s id := by
  rw [Book.remove, Book.remove, untimed_set, side_untimed, List.filter_map]
  rfl

theorem untimed_twice (R : Book) : R.untimed.untimed = R.untimed := by
  simp only [Book.untimed, List.map_map]
  rfl

theorem put_untimed (R : Book) (s : Side) {o o' : Order} (h : o.untimed = o'.untimed) :
    (R.untimed.set s (insertBack s o (R.untimed.side s))).untimed =
      (R.set s (insertBack s o' (R.side s))).untimed := by
  rw [untimed_set, untimed_set, untimed_twice, side_untimed, insertBack_map untimed_price,
    insertBack_map untimed_price, List.map_map, h]
  rfl

theorem crosses_untimed (s : Side) (price : Price) (os : List Order) :
    crosses s price (os.map Order.untimed) = crosses s price os := by
  cases os with
  | nil => rfl
  | cons x xs => rfl

section Step

variable {cfg : BookConfig} {available : Side → Price → List Order → Nat} {R R' : Book}

theorem checkNew_untimed (hav : ∀ s p os, available s p (os.map Order.untimed) = available s p os)
    (c : Command) :
    checkNew cfg available R.untimed c = checkNew cfg available R c := by
  unfold checkNew
  rw [find_untimed, live_untimed, side_untimed, crosses_untimed, hav, Option.isSome_map]

/-- One command on a book with its times forgotten. -/
theorem step_untimed (cfg : BookConfig) (R : Book)
    (hav : ∀ s p os, available s p (os.map Order.untimed) = available s p os) (c : Command) :
    (step cfg available R.untimed c).1.untimed = (step cfg available R c).1.untimed ∧
      (step cfg available R.untimed c).2 = (step cfg available R c).2 := by
  unfold step
  cases c.kind with
  | new =>
    simp only [newOrder, checkNew_untimed hav]
    cases checkNew cfg available R c with
    | some r => exact ⟨untimed_twice R, rfl⟩
    | none =>
      generalize (if c.otype = .limit then some c.price else none) = limit
      simp only [side_untimed, fill_untimed, ← untimed_set]
      split
      · exact ⟨untimed_twice _, rfl⟩
      split
      · refine ⟨?_, rfl⟩
        dsimp only
        rw [← side_untimed]
        exact put_untimed _ _ rfl
      · exact ⟨untimed_twice _, rfl⟩
  | cancel =>
    simp only [cancel, find_untimed]
    cases R.find c.orderId with
    | none => exact ⟨untimed_twice R, rfl⟩
    | some so =>
      refine ⟨?_, rfl⟩
      show (R.untimed.remove so.1 c.orderId).untimed = (R.remove so.1 c.orderId).untimed
      rw [← remove_untimed, untimed_twice]
  | replace =>
    simp only [replace, find_untimed]
    cases R.find c.orderId with
    | none => exact ⟨untimed_twice R, rfl⟩
    | some so =>
      obtain ⟨s, o⟩ := so
      simp only [Option.map_some, ← remove_untimed, side_untimed, fill_untimed, ← untimed_set]
      split
      · exact ⟨untimed_twice R, rfl⟩
      split
      · exact ⟨untimed_twice R, rfl⟩
      rw [untimed_price, untimed_qty]
      by_cases hkeep : c.price = o.price ∧ c.qty ≤ o.qty
      · rw [if_pos hkeep, if_pos hkeep]
        refine ⟨?_, rfl⟩
        dsimp only
        rw [untimed_set, untimed_set, untimed_twice, List.map_map, List.map_map, List.map_map]
        congr 1
        refine List.map_congr_left fun x _ => ?_
        simp only [Function.comp_apply, Order.untimed]
        split <;> rfl
      · rw [if_neg hkeep, if_neg hkeep]
        split
        · exact ⟨untimed_twice _, rfl⟩
        · refine ⟨?_, rfl⟩
          dsimp only
          rw [← side_untimed]
          exact put_untimed _ _ rfl

/-- A run of commands on books that differ in times alone. -/
theorem run_untimed (cfg : BookConfig)
    (hav : ∀ s p os, available s p (os.map Order.untimed) = available s p os)
    (h : R.untimed = R'.untimed) (cs : List Command) :
    (run cfg available R cs).1.untimed = (run cfg available R' cs).1.untimed ∧
      (run cfg available R cs).2 = (run cfg available R' cs).2 := by
  induction cs generalizing R R' with
  | nil => exact ⟨h, rfl⟩
  | cons c cs ih =>
    obtain ⟨hbook, hevs⟩ := step_untimed cfg R hav c
    obtain ⟨hbook', hevs'⟩ := step_untimed cfg R' hav c
    rw [h] at hbook hevs
    obtain ⟨hrest, hrestevs⟩ := ih (hbook.symm.trans hbook')
    rw [run_cons, run_cons]
    exact ⟨hrest, by rw [hrestevs, ← hevs, hevs']⟩

end Step

end Matcher.Spec
