import Matcher.Logic.MarketSim
import Matcher.Theorems.CrossStructure
import Matcher.Theorems.EventLog

/-!
# Restoring from any list

A snapshot lists its orders in the order of the book. `restore` does not depend on it: an
order goes behind what is already there at its price, so of a list only the orders of each
level count, in their order, and of these as many as the book takes.
-/

namespace Matcher

open Kit

/-- The orders of one level, in the order of the list. -/
def atLevel (s : Side) (p : Price) (os : List RestingOrder) : List RestingOrder :=
  os.filter fun o => o.side = s ∧ o.price = p

/-- Orders that a book with this configuration may hold. -/
structure Loadable (cfg : BookConfig) (os : List RestingOrder) : Prop where
  price : ∀ o ∈ os, Spec.validPrice cfg o.price = true
  qty : ∀ o ∈ os, o.qty ≠ 0
  ids : (os.map RestingOrder.orderId).Nodup

/-- In another order they are as good. -/
theorem Loadable.reorder {cfg : BookConfig} {os os' : List RestingOrder} (h : Loadable cfg os)
    (hsame : ∀ s p, atLevel s p os = atLevel s p os') : Loadable cfg os' := by
  have hperm : os.Perm os' := by
    rw [List.perm_iff_count]
    intro o
    have hcount : ∀ os : List RestingOrder, (atLevel o.side o.price os).count o = os.count o := by
      intro os
      unfold atLevel
      exact List.count_filter (by simp)
    rw [← hcount os, ← hcount os', hsame]
  refine ⟨?_, ?_, ?_⟩
  · intro o ho
    exact h.price o (hperm.mem_iff.mpr ho)
  · intro o ho
    exact h.qty o (hperm.mem_iff.mpr ho)
  · exact (hperm.map _).nodup_iff.mp h.ids

namespace Spec

section Put

variable {R R' : Book}

/-- Rest an order of a snapshot. -/
def Book.put (R : Book) (o : RestingOrder) : Book :=
  R.set o.side (insertBack o.side ⟨o.orderId, o.price, o.qty, o.tif⟩ (R.side o.side))

theorem atLevel_resting (R : Book) (s : Side) (p : Price) :
    atLevel s p R.resting = ((R.side s).filter fun o => o.price = p).map (Order.resting s) := by
  have hfilter : atLevel s p R.resting = (R.resting.filter fun o => o.side = s).filter fun o =>
      o.price = p := by
    unfold atLevel
    rw [List.filter_filter]
    refine List.filter_congr fun o _ => ?_
    simp [Bool.and_comm]
  rw [hfilter, Book.resting_filter]
  unfold Book.restingSide
  rw [List.filter_map]
  rfl

/-- The order goes behind everything of its level, and no other level changes. -/
theorem Book.put_level (hR : Sound R) (o : RestingOrder) (s : Side) (p : Price) :
    atLevel s p (R.put o).resting = atLevel s p R.resting ++ atLevel s p [o] := by
  rw [atLevel_resting, atLevel_resting]
  unfold Book.put atLevel
  rw [List.filter_singleton]
  rcases side_eq_or o.side s with rfl | rfl
  · rw [Book.side_set, Mirror.filter_insertBack (hR.sorted _), List.map_append]
    congr 1
    by_cases hp : o.price = p
    · subst hp
      simp [Order.resting]
    · simp [hp]
  · have hne : o.side ≠ opposite o.side := (OrderBook.opposite_ne o.side).symm
    rw [Book.side_set_opposite]
    simp [hne]

theorem Book.put_live (R : Book) (o : RestingOrder) : (R.put o).live = R.live + 1 := by
  unfold Book.put
  rw [live_eq _ o.side, live_eq R o.side, Book.side_set, Book.side_set_opposite, length_insertBack]
  omega

theorem Book.put_find {o : RestingOrder} {id : OrderId} (h : R.find id = none)
    (hne : id ≠ o.orderId) :
    (R.put o).find id = none :=
  OrderBook.find_insert (o := ⟨o.orderId, o.price, o.qty, o.tif⟩) h hne fun _ hx =>
    mem_insertBack.mp hx

/-- The lists of a book are determined by the levels. -/
theorem levels_inj (hR : Sound R) (hR' : Sound R')
    (h : ∀ s p, atLevel s p R.resting = atLevel s p R'.resting) : R = R' := by
  refine resting_inj ?_
  have hside : ∀ s, R.side s = R'.side s := by
    intro s
    have hanti : ∀ p q, ¬ Better s q p → ¬ Better s p q → p = q := by
      intro p q hqp hpq
      rcases trichotomous_of (Better s) p q with hlt | heq | hlt
      · exact absurd hlt hpq
      · exact heq
      · exact absurd hlt hqp
    refine keyed_ext hanti (hR.sorted s) (hR'.sorted s) fun p => ?_
    have hlevel := h s p
    rw [atLevel_resting, atLevel_resting] at hlevel
    refine List.map_injective_iff.mpr ?_ hlevel
    intro x y hxy
    cases x
    cases y
    cases hxy
    rfl
  unfold Book.resting Book.restingSide
  rw [hside, hside]

end Put

end Spec

namespace OrderBook

section Load

variable {cfg : BookConfig} {b : OrderBook} {a : Spec.Sheet}

theorem Denotes.live (h : b.Denotes cfg a) : b.store.live = a.1.live ∧ b.cfg = cfg := by
  obtain ⟨C, hrep, hspec, _, hcfg⟩ := h
  rw [← hspec, hrep.spec_live]
  exact ⟨rfl, hcfg⟩

theorem Denotes.rest (hn : cfg.Narrow) (h : b.Denotes cfg a) {o : RestingOrder}
    (hprice : Spec.validPrice cfg o.price = true) (hqty : o.qty ≠ 0)
    (hfree : a.1.find o.orderId = none) (hroom : a.1.live < cfg.maxOrders.toNat) :
    ∃ b', b.rest o.orderId o.side o.price o.qty o.tif = some b' ∧
      b'.Denotes cfg (a.1.put o, a.2) := by
  obtain ⟨C, hrep, hspec, hseq, hcfg⟩ := h
  rw [← hspec] at hfree hroom
  rw [hrep.spec_live, ← hcfg] at hroom
  rw [← hcfg, validPrice_iff] at hprice
  have hn' : b.cfg.Narrow := hcfg ▸ hn
  obtain ⟨b', C', hrun, hrep', hseq', hcfg', hspec'⟩ :=
    hrep.rest o.side hprice (hrep.room hn'.short hprice) (hrep.unfound hfree) hroom hqty o.tif
  refine ⟨b', hrun, C', hrep', ?_, hseq'.trans hseq, hcfg'.trans hcfg⟩
  rw [hspec', hspec]
  rfl

/-- The book is full or there is nothing left to restore: of the list, what there was room
for has come behind what stood there. -/
theorem Denotes.restoreFrom (hn : cfg.Narrow) (h : b.Denotes cfg a) {os : List RestingOrder}
    (hos : Loadable cfg (os.take (cfg.maxOrders.toNat - a.1.live)))
    (hfree : ∀ o ∈ os.take (cfg.maxOrders.toNat - a.1.live), a.1.find o.orderId = none) :
    ∃ b' R, b.restoreFrom os = some b' ∧ b'.Denotes cfg (R, a.2) ∧ ∀ s p, atLevel s p R.resting =
      atLevel s p a.1.resting ++ atLevel s p (os.take (cfg.maxOrders.toNat - a.1.live)) := by
  induction os generalizing b a with
  | nil =>
    refine ⟨b, a.1, rfl, h, fun s p => ?_⟩
    rw [List.take_nil]
    exact (List.append_nil _).symm
  | cons o os ih =>
    obtain ⟨hlive, hcfg⟩ := h.live
    by_cases hfull : cfg.maxOrders.toNat ≤ a.1.live
    · -- a full book takes nothing of what is left
      refine ⟨b, a.1, ?_, h, fun s p => ?_⟩
      · unfold OrderBook.restoreFrom
        rw [hlive, hcfg, if_pos hfull]
        rfl
      · rw [Nat.sub_eq_zero_of_le hfull, List.take_zero]
        exact (List.append_nil _).symm
    · have hroom := Nat.not_le.mp hfull
      obtain ⟨n, hn'⟩ : ∃ n, cfg.maxOrders.toNat - a.1.live = n + 1 :=
        Nat.exists_eq_succ_of_ne_zero (by omega)
      rw [hn', List.take_succ_cons] at hos hfree
      obtain ⟨b1, hrest, hden1⟩ :=
        h.rest hn (hos.price o List.mem_cons_self) (hos.qty o List.mem_cons_self)
        (hfree o List.mem_cons_self) hroom
      have hids := hos.ids
      rw [List.map_cons, List.nodup_cons] at hids
      have hleft : cfg.maxOrders.toNat - (a.1.put o).live = n := by
        rw [Spec.Book.put_live]
        omega
      have hos1 : Loadable cfg (os.take n) := ⟨fun x hx => hos.price x (List.mem_cons_of_mem o hx),
        fun x hx => hos.qty x (List.mem_cons_of_mem o hx), hids.2⟩
      have hfree1 : ∀ x ∈ os.take n, (a.1.put o).find x.orderId = none := by
        intro x hx
        refine Spec.Book.put_find (hfree x (List.mem_cons_of_mem o hx)) fun heq => hids.1 ?_
        rw [← heq]
        exact List.mem_map_of_mem hx
      obtain ⟨b', R, hrun, hden', hlevels⟩ := ih hden1 (hleft ▸ hos1) (hleft ▸ hfree1)
      refine ⟨b', R, ?_, hden', fun s p => ?_⟩
      · unfold OrderBook.restoreFrom
        rw [hlive, hcfg, if_neg hfull]
        simp only [hrest, Option.bind_eq_bind, Option.bind_some]
        exact hrun
      · rw [hlevels, hleft, Spec.Book.put_level h.sound, hn', List.take_succ_cons,
          List.append_assoc]
        congr 1
        unfold atLevel
        rw [← List.filter_append]
        rfl

/-- `restore` from any list of orders that the configuration allows. -/
theorem restore_denotes (hopens : cfg.Opens) (seq : UInt64) {os : List RestingOrder}
    (hos : Loadable cfg (os.take cfg.maxOrders.toNat)) :
    ∃ b R, OrderBook.restore cfg seq os = some b ∧ b.Denotes cfg (R, seq) ∧
      ∀ s p, atLevel s p R.resting = atLevel s p (os.take cfg.maxOrders.toNat) := by
  obtain ⟨b0, hnew, C, hrep, hspec, _, hcfg⟩ := denotes_new hopens
  have hden : OrderBook.Denotes cfg { b0 with seq } ({}, seq) :=
    ⟨C, hrep.set_seq seq, hspec, rfl, hcfg⟩
  obtain ⟨b, R, hrun, hden', hlevels⟩ := hden.restoreFrom hopens.narrow hos fun _ _ => rfl
  refine ⟨b, R, ?_, hden', hlevels⟩
  unfold OrderBook.restore
  rw [hnew, Option.bind_eq_bind, Option.bind_some]
  exact hrun

end Load

end OrderBook

/-- `restore` depends on a list of orders only through the orders of each level and their
order, of the list up to `max_orders`: two such lists give books of the same lists, sorted
by price, and every further run of either is the specification's run from there. -/
theorem restore_canonical {cfg : BookConfig} (hopens : cfg.Opens) (seq : UInt64)
    {os os' : List RestingOrder} (hos : Loadable cfg (os.take cfg.maxOrders.toNat))
    (hsame : ∀ s p, atLevel s p (os.take cfg.maxOrders.toNat) =
      atLevel s p (os'.take cfg.maxOrders.toNat)) :
    ∃ b b' R, OrderBook.restore cfg seq os = some b ∧ OrderBook.restore cfg seq os' = some b' ∧
      (∀ s, (R.side s).Pairwise fun o o' => ¬ Better s o'.price o.price) ∧
      (∀ s p, atLevel s p R.resting = atLevel s p (os.take cfg.maxOrders.toNat)) ∧
      ∀ cs, ∃ b1 out b1' out', b.applyAll cs = some (b1, out) ∧ b'.applyAll cs = some (b1', out') ∧
        out.map Emission.record = Spec.numbered seq (Spec.run cfg (Spec.summed cfg) R cs).2 ∧
        out'.map Emission.record = Spec.numbered seq (Spec.run cfg (Spec.summed cfg) R cs).2 ∧
        b1.Shows (Spec.run cfg (Spec.summed cfg) R cs).1 ∧
        b1'.Shows (Spec.run cfg (Spec.summed cfg) R cs).1 := by
  have hn := hopens.narrow
  obtain ⟨b, R, hrestore, hden, hlevels⟩ := OrderBook.restore_denotes hopens seq hos
  obtain ⟨b', R', hrestore', hden', hlevels'⟩ :=
    OrderBook.restore_denotes hopens seq (hos.reorder hsame)
  have hlists : R' = R := by
    refine Spec.levels_inj hden'.sound hden.sound fun s p => ?_
    rw [hlevels, hlevels', hsame]
  rw [hlists] at hden'
  refine ⟨b, b', R, hrestore, hrestore', hden.sound.sorted, hlevels, fun cs => ?_⟩
  obtain ⟨b1, out, hrun, hout, hden1⟩ := hden.applyAll hn cs
  obtain ⟨b1', out', hrun', hout', hden1'⟩ := hden'.applyAll hn cs
  rw [Spec.answer_serve] at hout hout' hden1 hden1'
  exact ⟨b1, out, b1', out', hrun, hrun', hout, hout', hden1.shows hn, hden1'.shows hn⟩

theorem restore_canonical_small : ∃ b b' R,
    OrderBook.restore smallBook 7 [⟨1, .bid, 4, 5, .gtc⟩, ⟨2, .bid, 6, 5, .gtc⟩,
      ⟨3, .bid, 4, 2, .gtc⟩] = some b ∧
    OrderBook.restore smallBook 7 [⟨2, .bid, 6, 5, .gtc⟩, ⟨1, .bid, 4, 5, .gtc⟩,
      ⟨3, .bid, 4, 2, .gtc⟩] = some b' ∧
      (∀ s, (R.side s).Pairwise fun o o' => ¬ Better s o'.price o.price) ∧
      (∀ s p, atLevel s p R.resting = atLevel s p [⟨1, .bid, 4, 5, .gtc⟩, ⟨2, .bid, 6, 5, .gtc⟩,
        ⟨3, .bid, 4, 2, .gtc⟩]) ∧
      ∀ cs, ∃ b1 out b1' out', b.applyAll cs = some (b1, out) ∧ b'.applyAll cs = some (b1', out') ∧
        out.map Emission.record =
          Spec.numbered 7 (Spec.run smallBook (Spec.summed smallBook) R cs).2 ∧
        out'.map Emission.record =
          Spec.numbered 7 (Spec.run smallBook (Spec.summed smallBook) R cs).2 ∧
        b1.Shows (Spec.run smallBook (Spec.summed smallBook) R cs).1 ∧
        b1'.Shows (Spec.run smallBook (Spec.summed smallBook) R cs).1 := by
  refine restore_canonical smallBook_opens 7 ⟨by decide, by decide, by decide⟩ fun s p => ?_
  by_cases h4 : p = 4
  · subst h4
    cases s <;> rfl
  · have h4' : ¬ 4 = p := fun h => h4 h.symm
    simp [smallBook, atLevel, List.filter_cons, h4']

end Matcher
