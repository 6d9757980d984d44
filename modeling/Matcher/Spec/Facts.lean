import Matcher.Spec.Book

/-!
# What matching and resting do to the lists
-/

namespace Matcher.Spec

open Matcher

theorem mem_insertBack {s : Side} {o x : Order} {os : List Order} :
    x ∈ insertBack s o os ↔ x = o ∨ x ∈ os := by
  induction os with
  | nil => simp [insertBack]
  | cons y ys ih =>
    rw [insertBack]
    split
    · simp
    · simp only [List.mem_cons, ih]
      exact or_left_comm

@[simp] theorem length_insertBack (s : Side) (o : Order) (os : List Order) :
    (insertBack s o os).length = os.length + 1 := by
  induction os with
  | nil => rfl
  | cons x xs ih =>
    unfold insertBack
    split <;> simp [ih]

theorem side_eq_or (s s' : Side) : s' = s ∨ s' = opposite s := by
  cases s <;> cases s' <;> simp [opposite]

/-- The orders of one side and of the other are all there are. -/
theorem live_eq (R : Book) (s : Side) :
    R.live = (R.side s).length + (R.side (opposite s)).length := by
  unfold Book.live
  cases s
  · rfl
  · exact Nat.add_comm _ _

/-- What holds of the lists of every book: best price first, each id once, and
something left of each order. -/
structure Sound (R : Book) : Prop where
  sorted : ∀ s, (R.side s).Pairwise fun o o' => ¬ Better s o'.price o.price
  nodup : ∀ s, ((R.side s).map Order.orderId).Nodup
  apart : ∀ o ∈ R.bids, ∀ o' ∈ R.asks, o.orderId ≠ o'.orderId
  live : ∀ s, ∀ o ∈ R.side s, o.qty ≠ 0

theorem Sound.apart_side {R : Book} (h : Sound R) (s : Side) :
    ∀ o ∈ R.side s, ∀ o' ∈ R.side (opposite s), o.orderId ≠ o'.orderId := by
  cases s
  · exact h.apart
  · exact fun o ho o' ho' heq => h.apart o' ho' o ho heq.symm

/-- A removed id is gone from both sides. -/
theorem Sound.remove_side {R : Book} (hR : Sound R) {id : OrderId} {s : Side} {o : Order}
    (ho : o ∈ R.side s) (hid : o.orderId = id) (s' : Side) :
    (R.remove s id).side s' = (R.side s').filter fun x => x.orderId ≠ id := by
  rcases side_eq_or s s' with rfl | rfl
  · rw [Book.side_remove]
  · rw [Book.side_remove_opposite]
    have hne : ∀ x ∈ R.side (opposite s), x.orderId ≠ id := fun x hx heq =>
      hR.apart_side s o ho x hx (hid.trans heq.symm)
    exact (List.filter_eq_self.mpr fun x hx => decide_eq_true (hne x hx)).symm

theorem find_eq_none {R : Book} {id : OrderId} :
    R.find id = none ↔ ∀ s, ∀ o ∈ R.side s, o.orderId ≠ id := by
  have hside : ∀ os : List Order, os.find? (fun x => decide (x.orderId = id)) = none ↔
      ∀ o ∈ os, o.orderId ≠ id := fun os => by simp [List.find?_eq_none]
  constructor
  · intro h
    rw [Book.find] at h
    cases hb : R.bids.find? (fun x => decide (x.orderId = id)) with
    | some o =>
      rw [hb] at h
      cases h
    | none =>
      rw [hb] at h
      rintro (_ | _)
      · exact (hside _).mp hb
      · exact (hside _).mp (Option.map_eq_none_iff.mp h)
  · intro h
    rw [Book.find, (hside R.bids).mpr (h .bid), (hside R.asks).mpr (h .ask)]
    rfl

theorem find_eq_some {R : Book} {id : OrderId} {s : Side} {o : Order}
    (h : R.find id = some (s, o)) :
    o ∈ R.side s ∧ o.orderId = id := by
  rw [Book.find] at h
  split at h
  · next o' ho' =>
    cases h
    exact ⟨List.mem_of_find?_eq_some ho', by simpa using List.find?_some ho'⟩
  · obtain ⟨o', ho', heq⟩ := Option.map_eq_some_iff.mp h
    cases heq
    exact ⟨List.mem_of_find?_eq_some ho', by simpa using List.find?_some ho'⟩

section Fill

variable {s : Side} {limit : Option Price} {taker : OrderId}

/-- What is left of a list is a part of it from the end, its first order perhaps
reduced; if some quantity is left over, nothing reachable remains. -/
theorem fill_rest (s : Side) (limit : Option Price) (taker : OrderId)
    (os : List Order) (qty : Qty) :
    ∃ pre post, os = pre ++ post ∧
      ((fill s limit taker os qty).1 = post ∧ ((fill s limit taker os qty).2.1 = 0 ∨
          ∀ o, post.head? = some o → admits s limit o.price = false) ∨
        ∃ o post' q, post = o :: post' ∧ (fill s limit taker os qty).1 = { o with qty := q } ::
          post' ∧ (fill s limit taker os qty).2.1 = 0) := by
  induction os generalizing qty with
  | nil => exact ⟨[], [], rfl, Or.inl ⟨rfl, Or.inr fun o ho => by cases ho⟩⟩
  | cons x xs ih =>
    rw [fill]
    split
    · next hstop =>
      refine ⟨[], x :: xs, rfl, Or.inl ⟨rfl, ?_⟩⟩
      rcases hstop with hzero | hbeyond
      · exact Or.inl hzero
      · refine Or.inr fun o ho => ?_
        cases ho
        exact hbeyond
    split
    · obtain ⟨pre, post, hsplit, hpost⟩ := ih (qty - x.qty)
      exact ⟨x :: pre, post, by rw [hsplit]; rfl, hpost⟩
    · exact ⟨[], x :: xs, rfl, Or.inr ⟨x, xs, _, rfl, rfl, rfl⟩⟩

/-- Nothing within the limit, nothing traded. -/
theorem fill_none {os : List Order} (h : ∀ o ∈ os, admits s limit o.price = false) (qty : Qty) :
    fill s limit taker os qty = (os, qty, []) := by
  cases os with
  | nil => rfl
  | cons o os => rw [fill, if_pos (Or.inr (h o List.mem_cons_self))]

/-- Every order left was there before, at the same price. -/
theorem fill_sub (os : List Order) (qty : Qty) :
    ∀ o ∈ (fill s limit taker os qty).1, ∃ o' ∈ os, o'.orderId = o.orderId ∧
      o'.price = o.price := by
  intro o ho
  obtain ⟨pre, post, rfl, ⟨hrest, _⟩ | ⟨x, post', q, rfl, hrest, _⟩⟩ :=
    fill_rest s limit taker os qty
  · rw [hrest] at ho
    exact ⟨o, List.mem_append_right _ ho, rfl, rfl⟩
  · rw [hrest] at ho
    rcases List.mem_cons.mp ho with rfl | ho
    · exact ⟨x, by simp, rfl, rfl⟩
    · exact ⟨o, by simp [ho], rfl, rfl⟩

/-- What is behind a price beyond the limit is beyond it too. -/
theorem admits_behind {p q : Price} (h : admits s limit p = false)
    (hworse : ¬ Better (opposite s) q p) :
    admits s limit q = false := by
  cases limit with
  | none => cases s <;> cases h
  | some l =>
    cases s
    · simp only [admits, opposite, Better, decide_eq_false_iff_not, Int64.not_le, Int64.not_lt]
        at h hworse ⊢
      exact Int64.lt_of_lt_of_le h hworse
    · simp only [admits, opposite, Better, decide_eq_false_iff_not, Int64.not_le, Int64.not_lt]
        at h hworse ⊢
      exact Int64.lt_of_le_of_lt hworse h

/-- If quantity is left over, no order left is within the limit. -/
theorem fill_left {os : List Order}
    (hsorted : os.Pairwise fun o o' => ¬ Better (opposite s) o'.price o.price)
    {qty : Qty} (hleft : (fill s limit taker os qty).2.1 ≠ 0) :
    ∀ o ∈ (fill s limit taker os qty).1, admits s limit o.price = false := by
  obtain ⟨pre, post, rfl, ⟨hrest, hstop⟩ | ⟨x, post', q, rfl, _, hzero⟩⟩ :=
    fill_rest s limit taker os qty
  · rw [hrest]
    have hhead := hstop.resolve_left hleft
    cases post with
    | nil => exact fun o ho => absurd ho List.not_mem_nil
    | cons y ys =>
      have hy := hhead y rfl
      intro o ho
      rcases List.mem_cons.mp ho with rfl | ho
      · exact hy
      exact admits_behind hy ((List.pairwise_cons.mp (List.pairwise_append.mp hsorted).2.1).1 o ho)
  · exact absurd hzero hleft

end Fill

end Matcher.Spec
