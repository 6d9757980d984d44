import Matcher.Theorems.DerivedOrders

/-!
# An order that never trades leaves no trace

Orders meet in trades, in the check for room, and in what a post-only or fill-or-kill order
is refused for. Apart from these nobody notices an order: leave out all commands of one
that trades with nobody, and all others get the same events.
-/

namespace Matcher

open Kit

/-- Is the event about the order `x`? -/
def Event.names (x : OrderId) : Event → Bool
  | .accepted id _ => id = x
  | .rejected id _ => id = x
  | .trade maker taker _ _ => maker = x || taker = x
  | .closed id _ => id = x
  | .replaced id _ _ => id = x

/-- Is it a trade of the order `x`? -/
def Event.tradeOf (x : OrderId) : Event → Bool
  | .trade maker taker _ _ => maker = x || taker = x
  | _ => false

theorem Event.tradeOf_trade {x maker taker : OrderId} {p : Price} {q : Qty} :
    (Event.trade maker taker p q).tradeOf x = false ↔ maker ≠ x ∧ taker ≠ x := by
  simp [tradeOf]

/-- Is an order refused for the orders that stand in the book? -/
def Event.displaced : Event → Bool
  | .rejected _ .bookFull => true
  | .rejected _ .postOnlyWouldCross => true
  | _ => false

namespace Spec

/-- The book without the order `x`. -/
def Book.without (R : Book) (x : OrderId) : Book :=
  ⟨R.bids.filter fun o => o.orderId ≠ x, R.asks.filter fun o => o.orderId ≠ x⟩

section Without

variable {R Q : Book} {x id : OrderId} {s : Side} {limit : Option Price} {taker : OrderId}
    {os : List Order} {qty : Qty}

@[simp] theorem side_without (R : Book) (x : OrderId) (s : Side) :
    (R.without x).side s = (R.side s).filter fun o => o.orderId ≠ x := by
  cases s <;> rfl

theorem without_set (R : Book) (s : Side) (os : List Order) (x : OrderId) :
    (R.set s os).without x = (R.without x).set s (os.filter fun o => o.orderId ≠ x) := by
  cases s <;> rfl

theorem without_congr (h : ∀ s, (Q.side s).filter (fun o => o.orderId ≠ x) =
    (R.side s).filter fun o => o.orderId ≠ x) :
    Q.without x = R.without x := by
  unfold Book.without
  congr 1
  · exact h .bid
  · exact h .ask

theorem without_free (h : R.find x = none) : R.without x = R := by
  have hside : ∀ s, (R.side s).filter (fun o => o.orderId ≠ x) = R.side s := by
    intro s
    refine List.filter_eq_self.mpr fun o ho => ?_
    exact decide_eq_true (find_eq_none.mp h s o ho)
  unfold Book.without
  have hbids := hside .bid
  have hasks := hside .ask
  unfold Book.side at hbids hasks
  dsimp only at hbids hasks
  rw [hbids, hasks]

theorem find_without (hne : id ≠ x) : (R.without x).find id = R.find id := by
  have hfind : ∀ os : List Order, (os.filter fun o => o.orderId ≠ x).find? (fun o =>
      o.orderId = id) = os.find? fun o => o.orderId = id := by
    intro os
    rw [List.find?_filter]
    congr 1
    funext o
    by_cases hid : o.orderId = id
    · simp [hid, hne]
    · simp [hid]
  unfold Book.find Book.without
  rw [hfind, hfind]

theorem live_without_le (R : Book) (x : OrderId) : (R.without x).live ≤ R.live := by
  have hbids := List.length_filter_le (fun o : Order => decide (o.orderId ≠ x)) R.bids
  have hasks := List.length_filter_le (fun o : Order => decide (o.orderId ≠ x)) R.asks
  unfold Book.live Book.without
  dsimp only
  omega

theorem remove_without (R : Book) (s : Side) (id x : OrderId) :
    (R.remove s id).without x = (R.without x).remove s id := by
  unfold Book.remove
  rw [without_set, side_without, List.filter_filter, List.filter_filter]
  congr 1
  refine List.filter_congr fun o _ => ?_
  exact Bool.and_comm _ _

theorem without_cons {o : Order} (hne : o.orderId ≠ x) (os : List Order) :
    (o :: os).filter (fun o => decide (o.orderId ≠ x)) = o :: os.filter fun o => o.orderId ≠ x :=
  List.filter_cons_of_pos (decide_eq_true hne)

/-- Matching that does not touch an order goes the same without it. -/
theorem fill_without (hsorted : os.Pairwise fun o o' => ¬ Better (opposite s) o'.price o.price)
    (hquiet : ∀ e ∈ (fill s limit taker os qty).2.2, e.tradeOf x = false) :
    fill s limit taker (os.filter fun o => o.orderId ≠ x) qty =
      ((fill s limit taker os qty).1.filter (fun o => o.orderId ≠ x),
        (fill s limit taker os qty).2.1, (fill s limit taker os qty).2.2) := by
  induction os generalizing qty with
  | nil => rfl
  | cons o os ih =>
    by_cases hstop : qty = 0 ∨ admits s limit o.price = false
    · -- it stops before the first order, and then before every other
      have hstays : fill s limit taker (o :: os) qty = (o :: os, qty, []) := by
        unfold fill
        rw [if_pos hstop]
      rw [hstays]
      rcases hstop with rfl | hbeyond
      · exact fill_zero _ _ _ _
      · refine fill_none (fun y hy => ?_) qty
        rcases List.mem_cons.mp (List.mem_filter.mp hy).1 with rfl | hy
        · exact hbeyond
        · exact admits_behind hbeyond ((List.pairwise_cons.mp hsorted).1 y hy)
    · -- the first order trades, so it is not `x` and stays at the front
      have hrest := @ih (qty - o.qty) (List.pairwise_cons.mp hsorted).2
      unfold fill at hquiet
      rw [if_neg hstop] at hquiet
      by_cases hle : o.qty ≤ qty
      · rw [if_pos hle] at hquiet
        dsimp only at hquiet
        have hne := (Event.tradeOf_trade.mp (hquiet _ List.mem_cons_self)).1
        have hthen := hrest fun e he =>
          hquiet e (List.mem_cons_of_mem _ (List.mem_cons_of_mem _ he))
        rw [without_cons hne, fill, fill, if_neg hstop, if_neg hstop, if_pos hle, if_pos hle, hthen]
      · rw [if_neg hle] at hquiet
        have hne := (Event.tradeOf_trade.mp (hquiet _ List.mem_cons_self)).1
        have hcut := without_cons (x := x) (o := { o with qty := o.qty - qty }) hne os
        rw [without_cons hne, fill, fill, if_neg hstop, if_neg hstop, if_neg hle, if_neg hle, hcut]

/-- Without a trade nothing was matched. -/
theorem fill_still (hquiet : ∀ e ∈ (fill s limit taker os qty).2.2, e.tradeOf taker = false) :
    fill s limit taker os qty = (os, qty, []) := by
  cases os with
  | nil => rfl
  | cons o os =>
    unfold fill at hquiet ⊢
    by_cases hstop : qty = 0 ∨ admits s limit o.price = false
    · rw [if_pos hstop]
    · rw [if_neg hstop] at hquiet
      split at hquiet
      · exact absurd rfl (Event.tradeOf_trade.mp (hquiet _ List.mem_cons_self)).2
      · exact absurd rfl (Event.tradeOf_trade.mp (hquiet _ List.mem_cons_self)).2

/-- What a sweep does to an order it does not trade with: nothing it would tell. -/
theorem fill_names (hquiet : ∀ e ∈ (fill s limit taker os qty).2.2, e.tradeOf x = false) :
    ∀ e ∈ (fill s limit taker os qty).2.2, e.names x = false := by
  induction os generalizing qty with
  | nil => exact List.forall_mem_nil _
  | cons o os ih =>
    have hrest := @ih (qty - o.qty)
    unfold fill at hquiet ⊢
    by_cases hstop : qty = 0 ∨ admits s limit o.price = false
    · rw [if_pos hstop]
      exact List.forall_mem_nil _
    rw [if_neg hstop] at hquiet ⊢
    by_cases hle : o.qty ≤ qty
    · rw [if_pos hle] at hquiet ⊢
      dsimp only at hquiet ⊢
      have htrade := hquiet _ List.mem_cons_self
      have hmaker := (Event.tradeOf_trade.mp htrade).1
      intro e he
      rcases List.mem_cons.mp he with rfl | he
      · exact htrade
      rcases List.mem_cons.mp he with rfl | he
      · exact decide_eq_false hmaker
      · exact hrest (fun e he => hquiet e (List.mem_cons_of_mem _ (List.mem_cons_of_mem _ he))) e he
    · rw [if_neg hle] at hquiet ⊢
      intro e he
      rw [List.mem_singleton.mp he]
      exact hquiet _ List.mem_cons_self

/-- Another order finds its place without the order `x` as with it. -/
theorem insertBack_without {o : Order}
    (hsorted : os.Pairwise fun o o' => ¬ Better s o'.price o.price) (hne : o.orderId ≠ x) :
    (insertBack s o os).filter (fun o => o.orderId ≠ x) = insertBack s o (os.filter fun o =>
      o.orderId ≠ x) := by
  induction os with
  | nil => exact without_cons hne []
  | cons y ys ih =>
    rw [List.pairwise_cons] at hsorted
    by_cases hbetter : Better s o.price y.price
    · -- everything behind is worse still
      have hworse : ∀ z ∈ (y :: ys).filter (fun o => decide (o.orderId ≠ x)),
          Better s o.price z.price := by
        intro z hz
        rcases List.mem_cons.mp (List.mem_filter.mp hz).1 with rfl | hz
        · exact hbetter
        · rcases trichotomous_of (Better s) y.price z.price with hlt | heq | hlt
          · exact trans_of (Better s) hbetter hlt
          · rw [← heq]
            exact hbetter
          · exact absurd hlt (hsorted.1 z hz)
      rw [insertBack, if_pos hbetter, without_cons hne]
      have hfirst := insertBack_append (List.forall_mem_nil fun y : Order =>
        ¬ Better s o.price y.price) hworse
      rw [List.nil_append, List.nil_append] at hfirst
      exact hfirst.symm
    · rw [insertBack, if_neg hbetter]
      by_cases hy : y.orderId ≠ x
      · rw [without_cons hy, without_cons hy, ih hsorted.2, insertBack, if_neg hbetter]
      · have hgone : ∀ zs : List Order, (y :: zs).filter (fun o => decide (o.orderId ≠ x)) =
            zs.filter fun o => o.orderId ≠ x :=
          fun zs => List.filter_cons_of_neg (by simpa using hy)
        rw [hgone, hgone, ih hsorted.2]

theorem rest_without {o : Order}
    (hsorted : (R.side s).Pairwise fun o o' => ¬ Better s o'.price o.price) (hne : o.orderId ≠ x) :
    (R.set s (insertBack s o (R.side s))).without x =
      (R.without x).set s (insertBack s o ((R.without x).side s)) := by
  rw [without_set, side_without, insertBack_without hsorted hne]

/-- What crosses some of the orders crosses all of them. -/
theorem crosses_filter {price : Price} {P : Order → Bool}
    (hsorted : os.Pairwise fun o o' => ¬ Better (opposite s) o'.price o.price)
    (h : crosses s price (os.filter P) = true) : crosses s price os = true := by
  cases hfirst : (os.filter P).head? with
  | none =>
    unfold crosses at h
    rw [hfirst] at h
    cases h
  | some o =>
    have hadmits : admits s (some price) o.price = true := by
      unfold crosses at h
      rwa [hfirst] at h
    have ho := (List.mem_filter.mp (List.mem_of_head? hfirst)).1
    cases os with
    | nil => cases ho
    | cons y ys =>
      have hhead : crosses s price (y :: ys) = admits s (some price) y.price := rfl
      rw [hhead, ← Bool.not_eq_false]
      intro hbeyond
      rcases List.mem_cons.mp ho with rfl | ho
      · exact Bool.false_ne_true (hbeyond.symm.trans hadmits)
      · exact Bool.false_ne_true
          ((admits_behind hbeyond ((List.pairwise_cons.mp hsorted).1 o ho)).symm.trans hadmits)

end Without

section Step

variable {cfg : BookConfig} {available : Side → Price → List Order → Nat} {R : Book}
    {x : OrderId} {c : Command}

/-- A check that refuses nothing for what stands in the book comes out the same without `x`. -/
theorem checkNew_without (hR : Sound R) (hne : c.orderId ≠ x) (hfok : c.tif ≠ .fok)
    (hlet : ∀ r, checkNew cfg available R c = some r → (Event.rejected c.orderId r).displaced =
      false) :
    checkNew cfg available (R.without x) c = checkNew cfg available R c := by
  unfold checkNew at hlet ⊢
  rw [find_without hne]
  by_cases hqty : c.qty = 0
  · rw [if_pos hqty, if_pos hqty]
  simp only [if_neg hqty] at hlet ⊢
  by_cases hprice : c.otype = .limit ∧ validPrice cfg c.price = false
  · rw [if_pos hprice, if_pos hprice]
  simp only [if_neg hprice] at hlet ⊢
  by_cases hdup : (R.find c.orderId).isSome = true
  · rw [if_pos hdup, if_pos hdup]
  simp only [if_neg hdup] at hlet ⊢
  by_cases hfull : cfg.maxOrders.toNat ≤ R.live
  · rw [if_pos hfull] at hlet
    exact Bool.noConfusion (hlet _ rfl)
  have hroom : ¬ cfg.maxOrders.toNat ≤ (R.without x).live := by
    have hle := live_without_le R x
    omega
  simp only [if_neg hfull, if_neg hroom] at hlet ⊢
  have hnofok : ∀ n, ¬ (c.otype = .limit ∧ c.tif = .fok ∧ n < c.qty.toNat) := fun n h => hfok h.2.1
  rw [if_neg (hnofok _), if_neg (hnofok _)]
  by_cases hcross : c.otype = .limit ∧ c.tif = .postOnly ∧
    crosses c.side c.price (R.side (opposite c.side)) = true
  · rw [if_pos hcross] at hlet
    exact Bool.noConfusion (hlet _ rfl)
  rw [if_neg hcross]
  refine if_neg fun h => hcross ⟨h.1, h.2.1, ?_⟩
  have hwithout := h.2.2
  rw [side_without] at hwithout
  exact crosses_filter (hR.sorted _) hwithout

theorem newOrder_without (hR : Sound R) (hne : c.orderId ≠ x) (hfok : c.tif ≠ .fok)
    (hquiet : ∀ e ∈ (newOrder cfg available R c).2, e.tradeOf x = false)
    (hlet : ∀ e ∈ (newOrder cfg available R c).2, e.displaced = false) :
    newOrder cfg available (R.without x) c = ((newOrder cfg available R c).1.without x,
      (newOrder cfg available R c).2) := by
  have hcheck : checkNew cfg available (R.without x) c = checkNew cfg available R c := by
    refine checkNew_without hR hne hfok fun r hr => hlet _ ?_
    unfold newOrder
    rw [hr]
    exact List.mem_singleton.mpr rfl
  unfold newOrder at hquiet ⊢
  rw [hcheck]
  cases hnone : checkNew cfg available R c with
  | some r => rfl
  | none =>
    rw [hnone] at hquiet
    dsimp only at hquiet ⊢
    generalize (if c.otype = .limit then some c.price else none) = limit at hquiet ⊢
    have hfill : ∀ e ∈ (fill c.side limit c.orderId (R.side (opposite c.side)) c.qty).2.2,
        e.tradeOf x = false := by
      intro e he
      refine hquiet e ?_
      split
      · exact List.mem_append_left _ he
      · split <;> exact List.mem_append_left _ he
    have hwithout := fill_without (x := x) (hR.sorted (opposite c.side)) hfill
    rw [side_without, hwithout]
    generalize fill c.side limit c.orderId (R.side (opposite c.side)) c.qty = r
    obtain ⟨opp, left, evs⟩ := r
    dsimp only
    rw [← without_set]
    by_cases hleft : left = 0
    · rw [if_pos hleft, if_pos hleft]
    rw [if_neg hleft, if_neg hleft]
    by_cases hrests : c.otype = .limit ∧ (c.tif = .gtc ∨ c.tif = .postOnly)
    · rw [if_pos hrests, if_pos hrests, ← rest_without ?_ hne]
      rw [Book.side_opposite_set]
      exact hR.sorted c.side
    · rw [if_neg hrests, if_neg hrests]

theorem cancel_without {id : OrderId} (hne : id ≠ x) :
    cancel (R.without x) id = ((cancel R id).1.without x, (cancel R id).2) := by
  unfold cancel
  rw [find_without hne]
  cases R.find id with
  | none => rfl
  | some so =>
    dsimp only
    rw [remove_without]

theorem replace_without (hR : Sound R) {id : OrderId} {p : Price} {q : Qty} (hne : id ≠ x)
    (hquiet : ∀ e ∈ (replace cfg R id p q).2, e.tradeOf x = false) :
    replace cfg (R.without x) id p q = ((replace cfg R id p q).1.without x,
      (replace cfg R id p q).2) := by
  unfold replace at hquiet ⊢
  rw [find_without hne]
  cases hfind : R.find id with
  | none => rfl
  | some so =>
    obtain ⟨s, o⟩ := so
    obtain ⟨ho, hid⟩ := find_eq_some hfind
    rw [hfind] at hquiet
    dsimp only at hquiet ⊢
    by_cases hzero : q = 0
    · rw [if_pos hzero, if_pos hzero]
    rw [if_neg hzero] at hquiet ⊢
    rw [if_neg hzero]
    by_cases hinvalid : validPrice cfg p = false
    · rw [if_pos hinvalid, if_pos hinvalid]
    rw [if_neg hinvalid] at hquiet ⊢
    rw [if_neg hinvalid]
    by_cases hkeep : p = o.price ∧ q ≤ o.qty
    · -- in its place: changing one quantity and leaving `x` out commute
      have hmap : ((R.side s).map fun x =>
            if x.orderId = id then { x with qty := q } else x).filter
              (fun o => decide (o.orderId ≠ x)) =
          ((R.side s).filter fun o => o.orderId ≠ x).map fun x =>
            if x.orderId = id then { x with qty := q } else x := by
        rw [List.filter_map]
        congr 1
        refine List.filter_congr fun y _ => ?_
        dsimp only [Function.comp_apply]
        split <;> rfl
      rw [if_pos hkeep, if_pos hkeep, without_set, side_without, hmap]
    · rw [if_neg hkeep] at hquiet ⊢
      rw [if_neg hkeep, ← remove_without]
      have hsound : ∀ s', ((R.remove s id).side s').Pairwise fun o o' =>
          ¬ Better s' o'.price o.price := by
        intro s'
        rw [hR.remove_side ho hid]
        exact (hR.sorted s').filter _
      generalize R.remove s id = Q at hquiet hsound ⊢
      have hfill : ∀ e ∈ (fill s (some p) id (Q.side (opposite s)) q).2.2, e.tradeOf x = false := by
        intro e he
        refine hquiet e ?_
        split <;> exact List.mem_append_left _ he
      have hwithout := fill_without (x := x) (hsound (opposite s)) hfill
      rw [side_without, hwithout]
      generalize fill s (some p) id (Q.side (opposite s)) q = r
      obtain ⟨opp, left, evs⟩ := r
      dsimp only
      rw [← without_set]
      by_cases hleft : left = 0
      · rw [if_pos hleft, if_pos hleft]
      · rw [if_neg hleft, if_neg hleft, ← rest_without ?_ hne]
        rw [Book.side_opposite_set]
        exact hsound s

/-- A command for another order. -/
theorem step_without (hR : Sound R) (hne : c.orderId ≠ x) (hfok : c.tif ≠ .fok)
    (hquiet : ∀ e ∈ (step cfg available R c).2, e.tradeOf x = false)
    (hlet : ∀ e ∈ (step cfg available R c).2, e.displaced = false) :
    step cfg available (R.without x) c = ((step cfg available R c).1.without x,
      (step cfg available R c).2) := by
  unfold step at hquiet hlet ⊢
  cases hkind : c.kind with
  | new =>
    rw [hkind] at hquiet hlet
    exact newOrder_without hR hne hfok hquiet hlet
  | cancel => exact cancel_without hne
  | replace =>
    rw [hkind] at hquiet
    exact replace_without hR hne hquiet

theorem SetsOut.without {Q : Book} {s : Side} {limit : Option Price} {t : Tif} (hR : Sound R)
    (h : SetsOut cfg R c Q s limit t) :
    Q.without c.orderId = R.without c.orderId := by
  refine without_congr fun s' => ?_
  rw [h.lists hR, List.filter_filter]
  refine List.filter_congr fun o _ => ?_
  exact Bool.and_self _

/-- The events of a new, cancelled or replaced order, apart from its trades. -/
theorem Course.own {r : Book × List Event} (hR : Sound R) (h : Course cfg R c r)
    (hquiet : ∀ e ∈ r.2, e.tradeOf c.orderId = false) :
    r.1.without c.orderId = R.without c.orderId ∧ ∀ e ∈ r.2, e.names c.orderId = true := by
  have hone : ∀ {e : Event}, e.names c.orderId = true → ∀ x ∈ [e], x.names c.orderId = true := by
    intro e he x hx
    rw [List.mem_singleton.mp hx]
    exact he
  cases h with
  | refused r => exact ⟨rfl, hone (decide_eq_true rfl)⟩
  | @cancelled s o hkind hfind =>
    obtain ⟨ho, hid⟩ := find_eq_some hfind
    refine ⟨without_congr fun s' => ?_, hone (decide_eq_true rfl)⟩
    rw [hR.remove_side ho hid, List.filter_filter]
    refine List.filter_congr fun o _ => ?_
    exact Bool.and_self _
  | @shrunk s o hkind _ _ _ _ =>
    refine ⟨without_congr fun s' => ?_, hone (decide_eq_true rfl)⟩
    rcases side_eq_or s s' with rfl | rfl
    · rw [Book.side_set, List.filter_map]
      have hids : ((R.side s').filter ((fun o => decide (o.orderId ≠ c.orderId)) ∘
          fun x => if x.orderId = c.orderId then { x with qty := c.qty } else x)) =
          (R.side s').filter fun o => o.orderId ≠ c.orderId := by
        refine List.filter_congr fun y _ => ?_
        dsimp only [Function.comp_apply]
        split <;> rfl
      rw [hids]
      refine (List.map_congr_left fun y hy => ?_).trans (List.map_id _)
      exact if_neg (of_decide_eq_true (List.mem_filter.mp hy).2)
    · rw [Book.side_set_opposite]
  | @filled Q s limit t hout hleft =>
    -- an order with nothing left has traded
    have hstill : sweep c Q s limit = (Q.side (opposite s), c.qty, []) :=
      fill_still fun e he => hquiet e (List.mem_append_left _ he)
    rw [hstill] at hleft
    exact absurd hleft hout.qty
  | @rested Q s t hout hleft =>
    have hstill : sweep c Q s (some c.price) = (Q.side (opposite s), c.qty, []) :=
      fill_still fun e he => hquiet e (List.mem_append_left _ he)
    rw [hstill]
    refine ⟨?_, ?_⟩
    · rw [← hout.without hR]
      refine without_congr fun s' => ?_
      dsimp only
      rcases side_eq_or s s' with rfl | rfl
      · have hgone := insertBack_remove (s := s') (o := ⟨c.orderId, c.price, c.qty, t⟩)
          (hout.absent hR s')
        have hfree : (Q.side s').filter (fun o => o.orderId ≠ c.orderId) = Q.side s' :=
          List.filter_eq_self.mpr fun o ho => decide_eq_true (hout.absent hR s' o ho)
        rw [Book.side_set, hfree]
        exact hgone
      · rw [Book.side_set_opposite, Book.side_set]
    · refine hone ?_
      unfold restEvent
      split <;> exact decide_eq_true rfl
  | @expired Q s limit t hout hleft hkind =>
    have hstill : sweep c Q s limit = (Q.side (opposite s), c.qty, []) :=
      fill_still fun e he => hquiet e (List.mem_append_left _ he)
    rw [hstill]
    refine ⟨?_, hone (decide_eq_true rfl)⟩
    rw [← hout.without hR]
    refine without_congr fun s' => ?_
    dsimp only
    rcases side_eq_or s s' with rfl | rfl
    · rw [Book.side_opposite_set]
    · rw [Book.side_set]

/-- The events of a command for another order, apart from trades of `x`, are not about `x`. -/
theorem Course.others {r : Book × List Event} (h : Course cfg R c r) (hne : c.orderId ≠ x)
    (hquiet : ∀ e ∈ r.2, e.tradeOf x = false) :
    ∀ e ∈ r.2, e.names x = false := by
  have hone : ∀ {e : Event}, e.names x = false → ∀ y ∈ [e], y.names x = false := by
    intro e he y hy
    rw [List.mem_singleton.mp hy]
    exact he
  have hsweep : ∀ {Q : Book} {s : Side} {limit : Option Price} {e : Event},
      (∀ y ∈ (sweep c Q s limit).2.2 ++ [e], y.tradeOf x = false) → e.names x = false →
        ∀ y ∈ (sweep c Q s limit).2.2 ++ [e], y.names x = false := by
    intro Q s limit e hall he y hy
    rcases List.mem_append.mp hy with hy | hy
    · exact fill_names (fun e he => hall e (List.mem_append_left _ he)) y hy
    · exact hone he y hy
  cases h with
  | refused r => exact hone (decide_eq_false hne)
  | cancelled => exact hone (decide_eq_false hne)
  | shrunk => exact hone (decide_eq_false hne)
  | filled => exact hsweep hquiet (decide_eq_false hne)
  | rested =>
    refine hsweep hquiet ?_
    unfold restEvent
    split <;> exact decide_eq_false hne
  | expired => exact hsweep hquiet (decide_eq_false hne)

end Step

end Spec

namespace OrderBook

/-- A run in which `x` takes part in no trade, and no other order is refused for what stands
in the book or is fill-or-kill. -/
structure Bystands (cfg : BookConfig) (x : OrderId) (R : Spec.Book) (cs : List Command) : Prop where
  quiet : ∀ e ∈ (Spec.run cfg (Spec.summed cfg) R cs).2, e.tradeOf x = false
  admitted : ∀ e ∈ (Spec.run cfg (Spec.summed cfg) R cs).2, e.names x = false → e.displaced = false
  tifs : ∀ c ∈ cs, c.orderId ≠ x → c.tif ≠ .fok

/-- Such a run, and the run without the commands for `x`. -/
theorem Denotes.run_without {cfg : BookConfig} (hn : cfg.Narrow) {x : OrderId} {b : OrderBook}
    {a : Spec.Sheet} (h : b.Denotes cfg a) {cs : List Command} (hcs : Bystands cfg x a.1 cs) :
    Spec.run cfg (Spec.summed cfg) (a.1.without x) (cs.filter fun c => c.orderId ≠ x) =
      ((Spec.run cfg (Spec.summed cfg) a.1 cs).1.without x,
        (Spec.run cfg (Spec.summed cfg) a.1 cs).2.filter fun e => !e.names x) := by
  let P : Spec.Sheet → List Command → Prop := fun a cs => Bystands cfg x a.1 cs →
    Spec.run cfg (Spec.summed cfg) (a.1.without x) (cs.filter fun c => c.orderId ≠ x) =
      ((Spec.run cfg (Spec.summed cfg) a.1 cs).1.without x,
        (Spec.run cfg (Spec.summed cfg) a.1 cs).2.filter fun e => !e.names x)
  refine (apply_implements hn).induction (P := P) (fun a _ => rfl) (fun b a c cs h ih hcs =>
    ?_) h cs hcs
  obtain ⟨hquiet, hlet, hfok⟩ := hcs
  rw [Spec.run_cons] at hquiet hlet ⊢
  dsimp only at hquiet hlet ⊢
  have hcourse := Spec.step_course cfg (Spec.summed cfg) a.1 c
  have hquiet1 : ∀ e ∈ (Spec.step cfg (Spec.summed cfg) a.1 c).2, e.tradeOf x = false :=
    fun e he => hquiet e (List.mem_append_left _ he)
  have hrest := ih ⟨fun e he => hquiet e (List.mem_append_right _ he), fun e he =>
    hlet e (List.mem_append_right _ he),
    fun d hd => hfok d (List.mem_cons_of_mem c hd)⟩
  have hserve : (Spec.serve cfg (Spec.summed cfg) a c).1.1 =
      (Spec.step cfg (Spec.summed cfg) a.1 c).1 := rfl
  rw [hserve] at hrest
  rw [List.filter_append]
  by_cases hown : c.orderId = x
  · -- the command is left out, and so are its events
    have hcons : (c :: cs).filter (fun c => decide (c.orderId ≠ x)) = cs.filter fun c =>
        c.orderId ≠ x :=
      List.filter_cons_of_neg (by simpa using hown)
    rw [hcons]
    rw [← hown] at hquiet1 hrest ⊢
    obtain ⟨hlists, hnames⟩ := hcourse.own h.sound hquiet1
    have hgone : (Spec.step cfg (Spec.summed cfg) a.1 c).2.filter (fun e => !e.names c.orderId) =
        [] := by
      refine List.filter_eq_nil_iff.mpr fun e he => ?_
      simp [hnames e he]
    rw [hgone, List.nil_append, ← hlists]
    exact hrest
  · -- the command stays, and does on the smaller book what it did on the larger one
    have hcons : (c :: cs).filter (fun c => decide (c.orderId ≠ x)) = c :: cs.filter fun c =>
        c.orderId ≠ x :=
      List.filter_cons_of_pos (decide_eq_true hown)
    rw [hcons, Spec.run_cons]
    have hnames := hcourse.others hown hquiet1
    have hstep := Spec.step_without (x := x) h.sound hown (hfok c List.mem_cons_self hown) hquiet1
      fun e he => hlet e (List.mem_append_left _ he) (hnames e he)
    have hkept : (Spec.step cfg (Spec.summed cfg) a.1 c).2.filter (fun e => !e.names x) =
        (Spec.step cfg (Spec.summed cfg) a.1 c).2 := by
      refine List.filter_eq_self.mpr fun e he => ?_
      simp [hnames e he]
    rw [hstep, hkept]
    dsimp only
    rw [hrest]

end OrderBook

/-- From a reachable book on, let the order `x`, which is not in it, take no part in any
trade of a run in which no other order is refused for want of room or for crossing, and none
is fill-or-kill. Then the run without the commands for `x` gives all others the same events,
and ends in the same book without `x`. -/
theorem bystander_invisible {cfg : BookConfig} (hfits : cfg.Fits) {b : OrderBook}
    (hreach : OrderBook.Reaches cfg b) {x : OrderId} (hfree : b.order x = some none)
    {cs : List Command} {b1 : OrderBook} {out1 : List Emission}
    (hrun : b.applyAll cs = some (b1, out1)) (hquiet : ∀ e ∈ out1, e.ev.tradeOf x = false)
    (hlet : ∀ e ∈ out1, e.ev.names x = false → e.ev.displaced = false)
    (hfok : ∀ c ∈ cs, c.orderId ≠ x → c.tif ≠ .fok) :
    ∃ b2 out2 R, b.applyAll (cs.filter fun c => c.orderId ≠ x) = some (b2, out2) ∧
      out2.map Emission.ev = (out1.map Emission.ev).filter (fun e => !e.names x) ∧ b1.Shows R ∧
      b2.Shows (R.without x) := by
  have hn := hfits.narrow
  obtain ⟨a, hden⟩ := hreach.denotes hfits
  obtain ⟨b1', out1', hrun', hout1, hden1⟩ := hden.applyAll hn cs
  cases hrun.symm.trans hrun'
  obtain ⟨b2, out2, hrun2, hout2, hden2⟩ := hden.applyAll hn (cs.filter fun c => c.orderId ≠ x)
  rw [Spec.answer_serve] at hout1 hden1 hout2 hden2
  have hevents1 := Emission.events_of_numbered hout1
  have hevents2 := Emission.events_of_numbered hout2
  -- both runs begin with the same lists, since `x` is not in them
  have habsent : a.1.without x = a.1 := by
    refine Spec.without_free ?_
    rw [(hden.shows hn).order] at hfree
    unfold Spec.Book.info at hfree
    exact Option.map_eq_none_iff.mp (Option.some.inj hfree)
  have hcs : OrderBook.Bystands cfg x a.1 cs := by
    refine ⟨fun e he => ?_, fun e he => ?_, hfok⟩
    · rw [← hevents1] at he
      obtain ⟨y, hy, rfl⟩ := List.mem_map.mp he
      exact hquiet y hy
    · rw [← hevents1] at he
      obtain ⟨y, hy, rfl⟩ := List.mem_map.mp he
      exact hlet y hy
  have hwithout := hden.run_without hn hcs
  rw [habsent] at hwithout
  rw [hwithout] at hevents2 hden2
  refine ⟨b2, out2, _, hrun2, ?_, hden1.shows hn, hden2.shows hn⟩
  rw [hevents2, hevents1]

/-- Order 1 rests below a trade of the orders 2 and 3, and is cancelled. -/
def smallCrowd : List Command :=
  [.newLimit 1 .bid 3 5 .gtc, .newLimit 2 .ask 6 4 .gtc, .newLimit 3 .bid 6 4 .ioc, .cancel 1]

theorem bystander_invisible_small : ∃ b b1 out1, OrderBook.Reaches smallBook b ∧
    b.applyAll smallCrowd = some (b1, out1) ∧
    ∃ b2 out2 R, b.applyAll (smallCrowd.filter fun c => c.orderId ≠ 1) = some (b2, out2) ∧
      out2.map Emission.ev = (out1.map Emission.ev).filter (fun e => !e.names 1) ∧ b1.Shows R ∧
      b2.Shows (R.without 1) := by
  obtain ⟨b, hnew, hden⟩ := OrderBook.denotes_new smallBook_opens
  obtain ⟨b1, out1, hrun, hout, _⟩ := hden.applyAll smallBook_fits.narrow smallCrowd
  rw [Spec.answer_serve] at hout
  have hquiet : ∀ y ∈ out1.map Emission.record, y.2.tradeOf 1 = false := by
    rw [hout]
    decide
  have hlet : ∀ y ∈ out1.map Emission.record, y.2.names 1 = false → y.2.displaced = false := by
    rw [hout]
    decide
  have hreach := OrderBook.Reaches.start hnew
  refine ⟨b, b1, out1, hreach, hrun, bystander_invisible smallBook_fits hreach ?_ hrun ?_ ?_ (by
    decide)⟩
  · exact (hden.shows smallBook_fits.narrow).order 1
  · intro e he
    exact hquiet _ (List.mem_map_of_mem he)
  · intro e he
    exact hlet _ (List.mem_map_of_mem he)

end Matcher
