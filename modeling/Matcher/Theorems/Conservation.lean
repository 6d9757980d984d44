import Matcher.Logic.MarketSim
import Matcher.Spec.Blotter
import Matcher.Spec.Sweep

/-!
# Every share is accounted for

Over a whole run, what an order was ordered for is what it executed and what is left of
it: in every event, and in the book after every command. Accounts are open for the
resting orders and no others. The invariant is that the account of a resting order leaves
the quantity that rests; a sweep moves quantity from both accounts at once.
-/

namespace Matcher

open Kit

namespace Blotter

section Accounts

variable {B : Blotter} {id k : OrderId} {q left : Qty}

@[simp] theorem execute_self : B.execute id q id = (B id).map fun a =>
    { a with executed := a.executed + q.toNat } :=
  Function.update_self ..

theorem execute_ne (h : k ≠ id) : B.execute id q k = B k := Function.update_of_ne h ..

theorem Leaves.execute (h : B.Leaves id left) (hle : q ≤ left) :
    (B.execute id q).Leaves id (left - q) := by
  obtain ⟨a, ha, hsum⟩ := h
  refine ⟨{ a with executed := a.executed + q.toNat }, ?_, ?_⟩
  · rw [execute_self, ha]
    rfl
  · have hsub := UInt64.toNat_sub_of_le _ _ hle
    have hle' := UInt64.le_iff_toNat_le.mp hle
    dsimp only
    omega

theorem Leaves.execute_ne (h : B.Leaves k left) (hne : k ≠ id) :
    (B.execute id q).Leaves k left := by
  unfold Leaves
  rw [Blotter.execute_ne hne]
  exact h

theorem Leaves.covers (h : B.Leaves id left) (hle : q ≤ left) : B.Covers id q := by
  obtain ⟨a, ha, hsum⟩ := h
  have hle' := UInt64.le_iff_toNat_le.mp hle
  exact ⟨a, ha, by omega⟩

/-- A trade of no more than both orders have left. -/
theorem trade_balanced {maker taker : OrderId} {p : Price} {m t : Qty}
    (hne : maker ≠ taker) (hq : q ≠ 0) (hm : B.Leaves maker m) (ht : B.Leaves taker t)
    (hqm : q ≤ m) (hqt : q ≤ t) :
    B.Balanced (.trade maker taker p q) ∧ (B.see (.trade maker taker p q)).Leaves maker (m - q) ∧
      (B.see (.trade maker taker p q)).Leaves taker (t - q) ∧
      ∀ k, k ≠ maker → k ≠ taker → B.see (.trade maker taker p q) k = B k := by
  refine ⟨⟨hne, hq, hm.covers hqm, ht.covers hqt⟩, (hm.execute hqm).execute_ne hne, ?_,
    fun k hkm hkt => ?_⟩
  · exact (ht.execute_ne hne.symm).execute hqt
  · unfold see
    dsimp only
    rw [Blotter.execute_ne hkt, Blotter.execute_ne hkm]

end Accounts

/-- The accounts of the orders of the lists `R` leave what rests, and no others are open. -/
structure Tallies (B : Blotter) (R : Spec.Book) : Prop where
  listed : ∀ s, ∀ o ∈ R.side s, B.Leaves o.orderId o.qty
  closed : ∀ k, (∀ s, ∀ o ∈ R.side s, o.orderId ≠ k) → B k = none

/-- The same but for the order `id`, which is in no list. -/
structure Apart (B : Blotter) (R : Spec.Book) (id : OrderId) : Prop where
  listed : ∀ s, ∀ o ∈ R.side s, o.orderId ≠ id ∧ B.Leaves o.orderId o.qty
  closed : ∀ k, k ≠ id → (∀ s, ∀ o ∈ R.side s, o.orderId ≠ k) → B k = none

section Sweep

variable {B : Blotter} {R : Spec.Book} {id : OrderId}

/-- A sweep, fill by fill: the events agree with the accounts, what is left of the lists
and of the taker is what their accounts leave, and the accounts of makers that are gone
are closed. -/
theorem fill_audit (s : Side) (limit : Option Price) (taker : OrderId) :
    ∀ (os : List Spec.Order) (B : Blotter) (qty : Qty), (∀ o ∈ os, o.orderId ≠ taker ∧ o.qty ≠ 0 ∧
      B.Leaves o.orderId o.qty) →
      (os.map Spec.Order.orderId).Nodup → B.Leaves taker qty →
      let r := Spec.fill s limit taker os qty
      Audit see Balanced B r.2.2 ∧ (∀ o ∈ r.1, (r.2.2.foldl see B).Leaves o.orderId o.qty) ∧
        (r.2.2.foldl see B).Leaves taker r.2.1 ∧
        (∀ k, k ≠ taker → (∀ o ∈ os, o.orderId ≠ k) → r.2.2.foldl see B k = B k) ∧
        ∀ o ∈ os, (∀ o' ∈ r.1, o'.orderId ≠ o.orderId) → r.2.2.foldl see B o.orderId = none := by
  intro os
  induction os with
  | nil =>
    intro B qty _ _ htaker
    exact ⟨trivial, fun o ho => absurd ho List.not_mem_nil, htaker, fun _ _ _ => rfl, fun o ho =>
      absurd ho List.not_mem_nil⟩
  | cons x xs ih =>
    intro B qty hall hnd htaker
    rw [List.map_cons, List.nodup_cons] at hnd
    obtain ⟨hne, hx, hleaves⟩ := hall x List.mem_cons_self
    have hother : ∀ o ∈ xs, o.orderId ≠ x.orderId :=
      fun o ho heq => hnd.1 (heq ▸ List.mem_map_of_mem ho)
    unfold Spec.fill
    split
    · exact ⟨trivial, fun o ho => (hall o ho).2.2, htaker, fun _ _ _ => rfl, fun o ho hgone =>
        absurd rfl (hgone o ho)⟩
    next hgo =>
    have hqty : qty ≠ 0 := fun h0 => hgo (Or.inl h0)
    split
    · next hle =>
      -- the maker is filled, and its account closed
      obtain ⟨hbal, hmaker, htaker', hframe⟩ :=
        trade_balanced (p := x.price) hne hx hleaves htaker UInt64.le_rfl hle
      rw [UInt64.sub_self] at hmaker
      generalize hB : B.see (.trade x.orderId taker x.price x.qty) = B1 at hmaker htaker' hframe
      have hclosed : ∀ k, k ≠ x.orderId → B1.see (.closed x.orderId .filled) k = B1 k :=
        fun k hk => Function.update_of_ne hk ..
      have hlater : ∀ o ∈ xs, o.orderId ≠ taker ∧ o.qty ≠ 0 ∧
          (B1.see (.closed x.orderId .filled)).Leaves o.orderId o.qty := by
        intro o ho
        obtain ⟨hot, hoq, hol⟩ := hall o (List.mem_cons_of_mem x ho)
        refine ⟨hot, hoq, ?_⟩
        unfold Leaves
        rw [hclosed _ (hother o ho), hframe _ (hother o ho) hot]
        exact hol
      have htaker1 : (B1.see (.closed x.orderId .filled)).Leaves taker (qty - x.qty) := by
        unfold Leaves
        rw [hclosed _ hne.symm]
        exact htaker'
      obtain ⟨haudit, hrest, hleft, hothers, hgone⟩ := ih _ (qty - x.qty) hlater hnd.2 htaker1
      dsimp only
      rw [List.foldl_cons, List.foldl_cons, hB]
      refine ⟨⟨hbal, ?_⟩, hrest, hleft, fun k hkt hk => ?_, fun o ho hnone => ?_⟩
      · rw [hB]
        exact ⟨hmaker, haudit⟩
      · have hkx : k ≠ x.orderId := (hk x List.mem_cons_self).symm
        rw [hothers k hkt fun o ho => hk o (List.mem_cons_of_mem x ho), hclosed k hkx,
          hframe k hkx hkt]
      · rcases List.mem_cons.mp ho with rfl | ho
        · rw [hothers _ hne hother]
          exact Function.update_self ..
        · exact hgone o ho hnone
    · next hle =>
      -- the taker is filled, and the maker keeps a rest
      have hlt : qty ≤ x.qty := UInt64.le_of_lt (UInt64.not_le.mp hle)
      obtain ⟨hbal, hmaker, htaker', hframe⟩ :=
        trade_balanced (p := x.price) hne hqty hleaves htaker hlt UInt64.le_rfl
      rw [UInt64.sub_self] at htaker'
      dsimp only
      rw [List.foldl_cons, List.foldl_nil]
      refine ⟨⟨hbal, trivial⟩, fun o ho => ?_, htaker', fun k hkt hk =>
        hframe k (hk x List.mem_cons_self).symm hkt,
        fun o ho hnone => ?_⟩
      · rcases List.mem_cons.mp ho with rfl | ho
        · exact hmaker
        · obtain ⟨hot, _, hol⟩ := hall o (List.mem_cons_of_mem x ho)
          unfold Leaves
          rw [hframe _ (hother o ho) hot]
          exact hol
      · rcases List.mem_cons.mp ho with rfl | ho
        · exact absurd rfl (hnone { o with qty := o.qty - qty } List.mem_cons_self)
        · exact absurd rfl (hnone o (List.mem_cons_of_mem _ ho))

/-- The opposite side is swept by an order that is in no list. -/
theorem Apart.sweep {c : Command} (h : B.Apart R c.orderId) (hR : Spec.Sound R) (s : Side)
    (limit : Option Price) (hqty : B.Leaves c.orderId c.qty) :
    Audit see Balanced B (Spec.sweep c R s limit).2.2 ∧
      ((Spec.sweep c R s limit).2.2.foldl see B).Apart
        (R.set (opposite s) (Spec.sweep c R s limit).1) c.orderId ∧
      ((Spec.sweep c R s limit).2.2.foldl see B).Leaves c.orderId (Spec.sweep c R s limit).2.1 := by
  obtain ⟨haudit, hrest, hleft, hothers, hgone⟩ :=
    fill_audit s limit c.orderId (R.side (opposite s)) B c.qty
    (fun o ho => ⟨(h.listed _ o ho).1, hR.live _ o ho, (h.listed _ o ho).2⟩) (hR.nodup _) hqty
  refine ⟨haudit, ⟨fun s' o ho => ?_, fun k hk hfree => ?_⟩, hleft⟩
  · rcases Spec.side_eq_or s s' with rfl | rfl
    · rw [Spec.Book.side_opposite_set] at ho
      obtain ⟨hne, hleaves⟩ := h.listed _ o ho
      refine ⟨hne, ?_⟩
      unfold Leaves Spec.sweep
      rw [hothers _ hne fun o' ho' => (hR.apart_side _ o ho o' ho').symm]
      exact hleaves
    · rw [Spec.Book.side_set] at ho
      obtain ⟨o', ho', hid, _⟩ := Spec.fill_sub _ _ o ho
      exact ⟨hid ▸ (h.listed _ o' ho').1, hrest o ho⟩
  · -- an id that is on neither side now was there before, or was not
    have hown := hfree s
    have hopp := hfree (opposite s)
    rw [Spec.Book.side_opposite_set] at hown
    rw [Spec.Book.side_set] at hopp
    by_cases hwas : ∃ o ∈ R.side (opposite s), o.orderId = k
    · obtain ⟨o, ho, rfl⟩ := hwas
      exact hgone o ho hopp
    · have hnot : ∀ o ∈ R.side (opposite s), o.orderId ≠ k := fun o ho heq => hwas ⟨o, ho, heq⟩
      unfold Spec.sweep
      rw [hothers k hk hnot]
      refine h.closed k hk fun s' => ?_
      rcases Spec.side_eq_or s s' with rfl | rfl
      · exact hown
      · exact hnot

/-- The order's account is closed. -/
theorem Apart.close (h : B.Apart R id) : Tallies (Function.update B id none) R := by
  refine ⟨fun s o ho => ?_, fun k hk => ?_⟩
  · obtain ⟨hne, hleaves⟩ := h.listed s o ho
    unfold Leaves
    rw [Function.update_of_ne hne]
    exact hleaves
  · by_cases hid : k = id
    · rw [hid, Function.update_self]
    · rw [Function.update_of_ne hid]
      exact h.closed k hid hk

/-- What is left of the order comes to rest. -/
theorem Apart.rest (h : B.Apart R id) (s : Side) {p : Price} {q : Qty} {t : Tif}
    (hleaves : B.Leaves id q) :
    Tallies B (R.set s (Spec.insertBack s ⟨id, p, q, t⟩ (R.side s))) := by
  refine ⟨fun s' o ho => ?_, fun k hk => ?_⟩
  · rcases Spec.side_eq_or s s' with rfl | rfl
    · rw [Spec.Book.side_set] at ho
      rcases Spec.mem_insertBack.mp ho with rfl | ho
      · exact hleaves
      · exact (h.listed _ o ho).2
    · rw [Spec.Book.side_set_opposite] at ho
      exact (h.listed _ o ho).2
  · have hown := hk s
    have hopp := hk (opposite s)
    rw [Spec.Book.side_set] at hown
    rw [Spec.Book.side_set_opposite] at hopp
    refine h.closed k (hown ⟨id, p, q, t⟩ (Spec.mem_insertBack.mpr (Or.inl rfl))).symm
      fun s' o ho => ?_
    rcases Spec.side_eq_or s s' with rfl | rfl
    · exact hown o (Spec.mem_insertBack.mpr (Or.inr ho))
    · exact hopp o ho

end Sweep

/-! ## One command -/

section Step

variable {cfg : BookConfig} {B : Blotter} {R Q : Spec.Book} {c : Command} {s : Side}
    {limit : Option Price} {t : Tif}

theorem Tallies.leaves (h : B.Tallies R) {o : Spec.Order} (hfind : R.find c.orderId = some (s, o)) :
    B.Leaves c.orderId o.qty := by
  obtain ⟨ho, hid⟩ := Spec.find_eq_some hfind
  exact hid ▸ h.listed s o ho

/-- A replace orders anew what is not executed. -/
theorem Leaves.reorder {q : Qty} (h : B.Leaves c.orderId q) : Leaves
    (Function.update B c.orderId ((B c.orderId).map fun a =>
      { a with ordered := a.executed + c.qty.toNat })) c.orderId c.qty := by
  obtain ⟨a, ha, _⟩ := h
  refine ⟨{ a with ordered := a.executed + c.qty.toNat }, ?_, rfl⟩
  rw [Function.update_self, ha]
  rfl

/-- The lists without an order, whatever its account is. -/
theorem Tallies.apart (h : B.Tallies R)
    (hQ : ∀ s, Q.side s = (R.side s).filter fun o => o.orderId ≠ c.orderId)
    (x : Option Account) : Apart (Function.update B c.orderId x) Q c.orderId := by
  refine ⟨fun s o ho => ?_, fun k hk hfree => ?_⟩
  · rw [hQ] at ho
    obtain ⟨ho, hne⟩ := List.mem_filter.mp ho
    have hne' := of_decide_eq_true hne
    refine ⟨hne', ?_⟩
    unfold Leaves
    rw [Function.update_of_ne hne']
    exact h.listed s o ho
  · rw [Function.update_of_ne hk]
    refine h.closed k fun s o ho hid => hfree s o ?_ hid
    rw [hQ]
    exact List.mem_filter.mpr ⟨ho, decide_eq_true (hid ▸ hk)⟩

/-- An order that sets out has an account, which leaves all it is for. -/
theorem Tallies.setsOut (h : B.Tallies R) (hR : Spec.Sound R)
    (hout : Spec.SetsOut cfg R c Q s limit t) {evs : List Event} (hlet : refused evs = false) :
    (B.enter c evs).Apart Q c.orderId ∧ (B.enter c evs).Leaves c.orderId c.qty := by
  have hlists := hout.lists hR
  unfold enter
  rw [if_neg (by rw [hlet]; exact Bool.false_ne_true)]
  cases hout with
  | new hkind =>
    rw [hkind]
    refine ⟨h.apart hlists _, ⟨c.qty.toNat, 0⟩, Function.update_self .., Nat.zero_add _⟩
  | replace hkind _ hfind =>
    rw [hkind]
    exact ⟨h.apart hlists _, (h.leaves hfind).reorder⟩

/-- The events of a sweep and the last one do not begin with a rejection. -/
theorem not_refused {e : Event} (he : ∀ id r, e ≠ .rejected id r) :
    refused ((Spec.sweep c Q s limit).2.2 ++ [e]) = false := by
  have hall : ∀ x ∈ (Spec.sweep c Q s limit).2.2 ++ [e], ∀ id r, x ≠ .rejected id r := by
    intro x hx
    rcases List.mem_append.mp hx with hx | hx
    · rcases Spec.fill_event hx with ⟨_, _, _, rfl⟩ | ⟨_, _, rfl⟩
      · exact fun _ _ => Event.noConfusion
      · exact fun _ _ => Event.noConfusion
    · rw [List.mem_singleton.mp hx]
      exact he
  generalize (Spec.sweep c Q s limit).2.2 ++ [e] = evs at hall
  cases evs with
  | nil => rfl
  | cons x xs =>
    cases x with
    | rejected id r => exact absurd rfl (hall _ List.mem_cons_self id r)
    | accepted | trade | closed | replaced => rfl

/-- An order sets out and sweeps; `e` is the last event. -/
theorem Tallies.sweep (h : B.Tallies R) (hR : Spec.Sound R)
    (hout : Spec.SetsOut cfg R c Q s limit t) {e : Event} (he : ∀ id r, e ≠ .rejected id r) :
    ∃ B' : Blotter, B'.Apart (Q.set (opposite s) (Spec.sweep c Q s limit).1) c.orderId ∧
      B'.Leaves c.orderId (Spec.sweep c Q s limit).2.1 ∧
      B.book c ((Spec.sweep c Q s limit).2.2 ++ [e]) = B'.see e ∧
      (B'.Balanced e → B.Audited c ((Spec.sweep c Q s limit).2.2 ++ [e])) := by
  have hlet : refused ((Spec.sweep c Q s limit).2.2 ++ [e]) = false := not_refused he
  obtain ⟨hapart, hqty⟩ := h.setsOut hR hout hlet
  obtain ⟨haudit, hapart', hleft⟩ := hapart.sweep (hout.sound hR) s limit hqty
  refine ⟨_, hapart', hleft, ?_, fun hbal => ?_⟩
  · unfold book
    rw [List.foldl_append]
    rfl
  · unfold Audited
    rw [audit_append]
    exact ⟨haudit, hbal, trivial⟩

/-- The books stay balanced through a command. -/
theorem Tallies.course (h : B.Tallies R) (hR : Spec.Sound R) {r : Spec.Book × List Event}
    (hcourse : Spec.Course cfg R c r) :
    B.Audited c r.2 ∧ (B.book c r.2).Tallies r.1 := by
  cases hcourse with
  | refused reason => exact ⟨⟨trivial, trivial⟩, h⟩
  | @cancelled s o hkind hfind =>
    have hleaves := h.leaves hfind
    obtain ⟨ho, hid⟩ := Spec.find_eq_some hfind
    have hB : B.enter c [.closed c.orderId .cancelled] = B := by
      unfold enter
      rw [hkind]
      rfl
    -- the account is closed with what is left of the order
    have hlive : o.qty ≠ 0 := hR.live s o ho
    have hapart := h.apart (hR.remove_side ho hid) none
    unfold Audited book
    rw [hB]
    refine ⟨⟨⟨o.qty, hlive, hleaves⟩, trivial⟩, ?_⟩
    have hclose := hapart.close
    rwa [Function.update_idem] at hclose
  | @shrunk s o hkind _ hfind =>
    -- the account is reopened for the smaller order, and no other account changes
    have hleaves := (h.leaves hfind).reorder
    have hB : B.enter c [.replaced c.orderId c.price c.qty] =
        Function.update B c.orderId ((B c.orderId).map fun a =>
          { a with ordered := a.executed + c.qty.toNat }) := by
      unfold enter
      rw [hkind]
      rfl
    unfold Audited book
    rw [hB]
    refine ⟨⟨hleaves, trivial⟩, fun s' x hx => ?_, fun k hk => ?_⟩
    · rcases Spec.side_eq_or s s' with rfl | rfl
      · rw [Spec.Book.side_set] at hx
        obtain ⟨y, hy, rfl⟩ := List.mem_map.mp hx
        dsimp only [List.foldl_cons, List.foldl_nil, see]
        split
        · next hid =>
          rw [hid]
          exact hleaves
        · next hid =>
          unfold Leaves
          rw [Function.update_of_ne hid]
          exact h.listed _ y hy
      · rw [Spec.Book.side_set_opposite] at hx
        obtain ⟨ho, hid⟩ := Spec.find_eq_some hfind
        have hne : x.orderId ≠ c.orderId :=
          fun heq => hR.apart_side _ o ho x hx (hid.trans heq.symm)
        dsimp only [List.foldl_cons, List.foldl_nil, see]
        unfold Leaves
        rw [Function.update_of_ne hne]
        exact h.listed _ x hx
    · obtain ⟨ho, hid⟩ := Spec.find_eq_some hfind
      have hids : ∀ s', ∀ x ∈ R.side s', x.orderId ≠ k := by
        intro s' x hx
        rcases Spec.side_eq_or s s' with rfl | rfl
        · have hmem := hk _ (if x.orderId = c.orderId then { x with qty := c.qty } else x) (by
            rw [Spec.Book.side_set]
            exact List.mem_map.mpr ⟨x, hx, rfl⟩)
          split at hmem <;> exact hmem
        · exact hk _ x (by rwa [Spec.Book.side_set_opposite])
      have hne : k ≠ c.orderId := fun heq => hids s o ho (hid.trans heq.symm)
      dsimp only [List.foldl_cons, List.foldl_nil, see]
      rw [Function.update_of_ne hne]
      exact h.closed k hids
  | @filled Q s limit _ hout hleft =>
    obtain ⟨B', hapart, hleaves, hbook, haudit⟩ :=
      h.sweep hR hout (e := .closed c.orderId .filled) fun _ _ => Event.noConfusion
    rw [hleft] at hleaves
    rw [hbook]
    exact ⟨haudit hleaves, hapart.close⟩
  | @rested Q s t hout hleft =>
    have hrest : ∀ id r, Spec.restEvent c (Spec.sweep c Q s (some c.price)).2.1 ≠
        .rejected id r := by
      intro id r
      unfold Spec.restEvent
      split <;> exact Event.noConfusion
    obtain ⟨B', hapart, hleaves, hbook, haudit⟩ := h.sweep hR hout hrest
    have htallies := hapart.rest s (p := c.price) (t := t) hleaves
    rw [Spec.Book.side_opposite_set] at htallies
    rw [hbook]
    unfold Spec.restEvent at haudit ⊢
    split at haudit
    · exact ⟨haudit hleaves, htallies⟩
    · exact ⟨haudit hleaves, htallies⟩
  | @expired Q s limit _ hout hleft =>
    obtain ⟨B', hapart, hleaves, hbook, haudit⟩ :=
      h.sweep hR hout (e := .closed c.orderId .expired) fun _ _ => Event.noConfusion
    rw [hbook]
    exact ⟨haudit ⟨_, hleft, hleaves⟩, hapart.close⟩

end Step

end Blotter

/-- The accounts are those of the book's orders, and leave what rests of each. -/
def OrderBook.Settled (b : OrderBook) (B : Blotter) : Prop :=
  ∀ id, ∃ x, b.order id = some x ∧
    Option.Rel (fun i a => a.executed + i.qty.toNat = a.ordered) x (B id)

theorem OrderBook.Denotes.settled {cfg : BookConfig} {b : OrderBook} {a : Spec.Sheet} {B : Blotter}
    (hn : cfg.Narrow) (h : b.Denotes cfg a) (hB : B.Tallies a.1) : b.Settled B := by
  intro id
  refine ⟨_, (h.shows hn).order id, ?_⟩
  unfold Spec.Book.info
  cases hfind : a.1.find id with
  | none =>
    rw [hB.closed id (Spec.find_eq_none.mp hfind)]
    exact Option.Rel.none
  | some so =>
    obtain ⟨s, o⟩ := so
    obtain ⟨ho, hid⟩ := Spec.find_eq_some hfind
    obtain ⟨x, hx, hsum⟩ := hB.listed s o ho
    rw [← hid, hx]
    exact Option.Rel.some hsum

/-- Whoever keeps the blotter of a run from a new book on finds every event to agree with
the accounts, and the accounts to agree with the book before and after every command. -/
theorem quantity_conserved {cfg : BookConfig} (hopens : cfg.Opens) (cs : List Command) :
    ∃ b0, OrderBook.new cfg = some b0 ∧
      Watch OrderBook.apply Emission.ev OrderBook.Settled Blotter.Audited Blotter.book b0
        (fun _ => none) cs := by
  have hn := hopens.narrow
  obtain ⟨b0, hnew, hden⟩ := OrderBook.denotes_new hopens
  have hempty : Blotter.Tallies (fun _ => none) ({} : Spec.Book) := by
    refine ⟨fun s o ho => ?_, fun _ _ => rfl⟩
    cases s <;> exact absurd ho List.not_mem_nil
  refine ⟨b0, hnew, (OrderBook.apply_implements hn).watch (I := fun a B =>
    B.Tallies a.1) (f := Prod.snd)
    (fun b a B hb hB => hb.settled hn hB) (fun b a B c hb hB => ?_) hden hempty cs⟩
  have hcourse := hB.course hb.sound (Spec.step_course cfg (Spec.summed cfg) a.1 c)
  unfold Spec.serve
  dsimp only
  rw [Spec.numbered_snd]
  exact hcourse

theorem quantity_conserved_small : ∃ b0, OrderBook.new smallBook = some b0 ∧
    Watch OrderBook.apply Emission.ev OrderBook.Settled Blotter.Audited Blotter.book b0
      (fun _ => none) smallRun :=
  quantity_conserved smallBook_opens smallRun

end Matcher
