import Matcher.Logic.BookRep
import Matcher.Logic.ApplySim
import Matcher.Spec.Queries

/-!
# The queries answer from the content

`Rep.shows`: a book that represents a content answers every query as the
specification's lists of that content do.
-/

namespace Matcher

open Kit

namespace OrderBook

section Queries

variable {b : OrderBook} {C : Content}

/-- The orders of a side stand in price order. -/
theorem Rep.orders_sorted (h : Rep none none b C) (s : Side) :
    (C.orders s).Pairwise fun o o' => o.price = o'.price ∨ Better s o.price o'.price := by
  rw [Content.orders, List.pairwise_flatMap]
  constructor
  · intro p _
    rw [List.pairwise_map]
    exact List.pairwise_of_forall fun _ _ => Or.inl rfl
  · refine (h.sorted s).imp fun {p q} hpq o ho o' ho' => Or.inr ?_
    obtain ⟨x, _, rfl⟩ := List.mem_map.mp ho
    obtain ⟨y, _, rfl⟩ := List.mem_map.mp ho'
    exact hpq

/-- The resting prices are valid ones. -/
theorem Rep.valid_spec (h : Rep none none b C) (s : Side) :
    ∀ o ∈ C.spec.side s, b.cfg.Valid o.price ∧ b.cfg.HasRoom o.price := by
  intro o ho
  rw [Content.spec_side] at ho
  obtain ⟨p, hp, x, _, rfl⟩ := Content.mem_orders.mp ho
  exact ⟨h.valid hp, h.hasRoom hp⟩

/-- A resting order has something left. -/
theorem Rep.qty_spec (h : Rep none none b C) (s : Side) : ∀ o ∈ C.spec.side s, o.qty ≠ 0 := by
  intro o ho
  rw [Content.spec_side] at ho
  obtain ⟨p, _, x, hx, rfl⟩ := Content.mem_orders.mp ho
  exact h.store.qty_ne_zero hx

/-- Nothing stands behind a worse price. -/
theorem Rep.sorted_spec (h : Rep none none b C) (s : Side) :
    (C.spec.side s).Pairwise fun o o' => ¬ Better s o'.price o.price := by
  rw [Content.spec_side]
  refine (h.orders_sorted s).imp fun {o o'} hor hlt => ?_
  rcases hor with heq | hbetter
  · rw [heq] at hlt
    exact irrefl_of (Better s) _ hlt
  · exact irrefl_of (Better s) _ (trans_of (Better s) hlt hbetter)

theorem Rep.sound (h : Rep none none b C) : Spec.Sound C.spec where
  sorted := h.sorted_spec
  nodup s := by
    rw [Content.spec_side]
    exact h.nodup_orders s
  apart _ ho _ ho' := h.disjoint_orders ho ho'
  live := h.qty_spec

/-- The listed prices are the prices of the orders. -/
theorem Rep.prices_eq (h : Rep none none b C) (s : Side) : C.spec.prices s = C.prices s := by
  have hsorted : (C.spec.prices s).Pairwise (Better s) := by
    have hprices : ((C.orders s).map Spec.Order.price).dedup.Pairwise
        fun p q => p = q ∨ Better s p q :=
      ((List.pairwise_map).mpr (h.orders_sorted s)).sublist (List.dedup_sublist _)
    rw [Spec.Book.prices, Content.spec_side]
    exact hprices.imp₂ (fun _ _ hor hne => hor.resolve_left hne) (List.nodup_dedup _)
  refine ranked_ext hsorted (h.sorted s) fun p => ?_
  rw [Spec.Book.prices, Content.spec_side, List.mem_dedup, List.mem_map]
  constructor
  · rintro ⟨o, ho, rfl⟩
    obtain ⟨q, hq, x, _, rfl⟩ := Content.mem_orders.mp ho
    exact hq
  · intro hp
    obtain ⟨x, hx⟩ := List.exists_mem_of_ne_nil _ ((h.listed (s, p) (by simp)).mp hp)
    exact ⟨x.order p, Content.mem_orders.mpr ⟨p, hp, x, hx, rfl⟩, rfl⟩

/-- A level's total is the sum of its orders' quantities. -/
theorem Rep.total_eq (h : Rep none none b C) (s : Side) (p : Price) :
    (C.level (s, p)).total = C.spec.total s p := by
  rw [Spec.Book.total, Content.spec_side, ← h.sum_totals s fun q => decide (q = p)]
  by_cases hp : p ∈ C.prices s
  · rw [show (C.prices s).filter (fun q => decide (q = p)) = [p] from ?_]
    · simp
    · rw [List.filter_eq, List.count_eq_one_of_mem (h.index s).nodup hp]
      rfl
  · have hnone : (C.prices s).filter (fun q => decide (q = p)) = [] :=
      List.filter_eq_nil_iff.mpr fun q hq hqp => hp (of_decide_eq_true hqp ▸ hq)
    rw [hnone, (h.store.level_empty (s, p)).2 (h.unlisted hp)]
    rfl

theorem Rep.levelTotal_eq (h : Rep none none b C) (s : Side) (p : Price) :
    b.levelTotal s p = C.spec.total s p := by
  rw [← h.total_eq, levelTotal, (h.index s).levelMut p]
  split
  · next l hl =>
    split at hl
    · cases hl
    · rw [← Option.some.inj hl]
  · next hl =>
    split at hl
    · next hempty =>
      rw [(h.store.level_empty (s, p)).2 ((h.store.level_empty (s, p)).1.mp hempty)]
    · cases hl

theorem Rep.depth_eq (h : Rep none none b C) (s : Side) (n : Nat) :
    b.depth s n = some (C.spec.depth s n) := by
  rw [OrderBook.depth, (h.index s).depth n, Spec.Book.depth, h.prices_eq]
  simp only [h.total_eq]

theorem Rep.order_eq (h : Rep none none b C) (id : OrderId) :
    b.order id = some (C.spec.info id) := by
  cases hloc : C.locs.lookup id with
  | none =>
    rw [Spec.Book.info, h.find_none hloc]
    simp [OrderBook.order, h.ids.models.get_none h.ids.room hloc]
  | some loc =>
    obtain ⟨ploc, hget, hval, _⟩ := h.ids.models.get_some hloc
    obtain ⟨s, p, x, hx, hid, rfl, hfind⟩ := h.find_some hloc
    obtain ⟨ch, hch, hside, hprice, hs, _⟩ := (h.store.reads hx).read
    rw [Spec.Book.info, hfind]
    simp [OrderBook.order, hget, hval, hch, hs, show ch.side = s from hside, show ch.price =
      p from hprice, Cell.order]

/-- One level's orders, in queue order. -/
theorem Rep.restingLevel_eq {hold : Option OrderId} (h : Rep hold none b C) {s : Side} {p : Price}
    (hp : p ∈ C.prices s) (q : Qty) :
    b.restingLevel s ⟨p, q⟩ = some ((C.queue (s, p)).map fun x => (x.order p).resting s) := by
  have hbusy : (C.level (s, p)).empty = false := by
    rw [← Bool.not_eq_true, (h.store.level_empty (s, p)).1]
    exact (h.listed (s, p) (by simp)).mp hp
  have hlevel := (h.index s).levelMut p
  rw [hbusy, if_neg Bool.false_ne_true] at hlevel
  simp only [restingLevel, hlevel, h.store.forEach (s, p), Option.bind_eq_bind, Option.bind_some]
  have hat : ∀ x ∈ C.queue (s, p), b.restingAt s x.loc = some ((x.order p).resting s) := by
    intro x hx
    obtain ⟨ch, hch, _, hprice, hs, htif⟩ := (h.store.reads hx).read
    simp only [restingAt, hch, hs, htif, show ch.price = p from hprice, Option.bind_eq_bind,
      Option.bind_some]
    rfl
  rw [List.mapM_map]
  exact mapM_eq_some hat

theorem Rep.restingSide_eq {hold : Option OrderId} (h : Rep hold none b C) (s : Side) :
    b.restingSide s = some (C.spec.restingSide s) := by
  have hall : (C.prices s).take (2 ^ 64 - 1) = C.prices s := by
    have h1 := h.length_prices_le s
    have h2 := h.live_le
    exact List.take_of_length_le (by omega)
  have hlevels : ((C.prices s).map fun p => (⟨p, (C.level (s, p)).total⟩ : LevelDepth)).mapM
      (b.restingLevel s) =
      some ((C.prices s).map fun p => (C.queue (s, p)).map fun x => (x.order p).resting s) := by
    rw [List.mapM_map]
    exact mapM_eq_some fun p hp => h.restingLevel_eq hp _
  simp only [restingSide, OrderBook.depth, (h.index s).depth, hall, hlevels, Option.bind_eq_bind,
    Option.bind_some]
  rw [Spec.Book.restingSide, Content.spec_side, Content.orders, List.map_flatMap, List.flatMap_def]
  simp only [List.map_map]
  rfl

/-- All live orders, in book order. -/
theorem Rep.restingOrders_eq (h : Rep none none b C) : b.restingOrders = some C.spec.resting := by
  simp only [OrderBook.restingOrders, h.restingSide_eq, Option.bind_eq_bind, Option.bind_some]
  rfl

theorem Rep.shows (h : Rep none none b C) (hn : b.cfg.Narrow) : b.Shows C.spec where
  bestBid := by
    rw [Spec.Book.best, Content.spec_side]
    exact h.bestPrice hn .bid
  bestAsk := by
    rw [Spec.Book.best, Content.spec_side]
    exact h.bestPrice hn .ask
  orderCount := h.live_eq
  levelCount s := by rw [h.prices_eq, levelCount, (h.index s).len]
  levelTotal := h.levelTotal_eq
  depth := h.depth_eq
  order := h.order_eq
  restingSide := h.restingSide_eq
  restingOrders := h.restingOrders_eq

end Queries

end OrderBook

end Matcher
