import Matcher.Logic.Wide
import Matcher.Theorems.Totals
import Matcher.Spec.Sweep

/-!
# The fill-or-kill check

A fill-or-kill order is turned away when `fillable` is less than its quantity.
`fillable` sums over a price range, and in tree mode the range ends at half the
largest price, though a bid may rest above: exactly the bids up there can make a
fillable order be rejected.
-/

namespace Matcher

open Kit

namespace OrderBook

/-! ## Only the check emits the rejection -/

/-- What a sweep may emit. -/
def Fills (out : List Emission) : Prop :=
  ∀ e ∈ out, (∃ m t p q, e.ev = .trade m t p q) ∨ ∃ m, e.ev = .closed m .filled

theorem Fills.append {out out' : List Emission} (h : Fills out) (h' : Fills out') :
    Fills (out ++ out') :=
  fun e he => (List.mem_append.mp he).elim (h e) (h' e)

theorem Fills.nil : Fills [] := fun _ he => absurd he List.not_mem_nil

section Sweep

variable {opp side : Side} {bp : Price} {taker : OrderId} {bound : Option Price}

theorem fillFront_fills {b : OrderBook} {qty : Qty} {r : OrderBook × Qty × List Emission}
    (h : b.fillFront opp bp taker qty = some r) : Fills r.2.2 := by
  simp only [fillFront, Option.bind_eq_bind, Option.bind_eq_some_iff] at h
  obtain ⟨_, _, _, _, _, _, m, _, _, _, _, _, h⟩ := h
  generalize (if qty < m.qty then qty else m.qty) = q at h
  split at h
  · simp only [Option.bind_eq_some_iff] at h
    obtain ⟨_, _, _, _, _, _, _, _, h⟩ := h
    cases h
    intro e he
    rcases List.mem_pair.mp he with rfl | rfl
    · exact Or.inl ⟨_, _, _, _, rfl⟩
    · exact Or.inr ⟨_, rfl⟩
  · cases h
    intro e he
    cases List.mem_singleton.mp he
    exact Or.inl ⟨_, _, _, _, rfl⟩

theorem fillLevel_fills : ∀ (fuel : Nat) (b : OrderBook) (qty : Qty)
    (r : OrderBook × Qty × List Emission), fillLevel opp bp taker fuel b qty = some r →
    Fills r.2.2 := by
  intro fuel
  induction fuel with
  | zero =>
    intro b qty r h
    cases h
  | succ fuel ih =>
    intro b qty r h
    obtain ⟨lv, _, h⟩ := Option.bind_eq_some_iff.mp h
    split at h
    · cases h
      exact Fills.nil
    obtain ⟨⟨b1, q1, out1⟩, hfront, h⟩ := Option.bind_eq_some_iff.mp h
    dsimp only at h
    split at h
    · cases h
      exact fillFront_fills hfront
    · obtain ⟨r2, hrest, h⟩ := Option.bind_eq_some_iff.mp h
      cases h
      exact (fillFront_fills hfront).append (ih _ _ _ hrest)

theorem sweepLevel_fills {b : OrderBook} {qty : Qty} {r : OrderBook × Qty × List Emission}
    (h : sweepLevel opp bp taker b qty = some r) : Fills r.2.2 := by
  obtain ⟨⟨b1, q1, out1⟩, hfill, h⟩ := Option.bind_eq_some_iff.mp h
  have hout := fillLevel_fills _ _ _ _ hfill
  obtain ⟨lv, _, h⟩ := Option.bind_eq_some_iff.mp h
  split at h
  · obtain ⟨b2, _, h⟩ := Option.bind_eq_some_iff.mp h
    cases h
    exact hout
  · cases h
    exact hout

theorem crossFrom_fills : ∀ (fuel : Nat) (b : OrderBook) (qty : Qty)
    (r : OrderBook × Qty × List Emission), crossFrom side bound taker fuel b qty = some r →
    Fills r.2.2 := by
  intro fuel
  induction fuel with
  | zero =>
    intro b qty r h
    cases h
  | succ fuel ih =>
    intro b qty r h
    rw [crossFrom] at h
    split at h
    · next bp _ =>
      split at h
      · cases h
        exact Fills.nil
      split at h
      · obtain ⟨⟨b1, q1, out1⟩, hsweep, h⟩ := Option.bind_eq_some_iff.mp h
        dsimp only at h
        split at h
        · cases h
          exact sweepLevel_fills hsweep
        · obtain ⟨r2, hrest, h⟩ := Option.bind_eq_some_iff.mp h
          cases h
          exact (sweepLevel_fills hsweep).append (ih _ _ _ hrest)
      · cases h
        exact Fills.nil
    · cases h
      exact Fills.nil

end Sweep

/-- The book turns `c` away for `r`. -/
def Rejects (b : OrderBook) (c : Command) (r : RejectReason) : Prop :=
  ∃ b' out, b.apply c = some (b', out) ∧ ∃ e ∈ out, e.ev = .rejected c.orderId r

/-- In any state at all, a new order is rejected for what its checks say. -/
theorem rejects_iff {b : OrderBook} {c : Command} (hkind : c.kind = .new) (r : RejectReason) :
    b.Rejects c r ↔ b.checkNew c = some (some r) := by
  have happly : b.apply c = b.newOrder c := by rw [OrderBook.apply, hkind]
  constructor
  · rintro ⟨b', out, hrun, e, he, hev⟩
    rw [happly, newOrder] at hrun
    obtain ⟨verdict, hcheck, hrun⟩ := Option.bind_eq_some_iff.mp hrun
    cases verdict with
    | some r' =>
      cases hrun
      cases List.mem_singleton.mp he
      cases hev
      exact hcheck
    | none =>
      obtain ⟨⟨b1, left, out1⟩, hcross, hrun⟩ := Option.bind_eq_some_iff.mp hrun
      have hfills := crossFrom_fills _ _ _ _ hcross
      have hlast : ∃ b2 ev, out = out1 ++ (emit b2 ev).2 ∧ ∀ i r', ev ≠ .rejected i r' := by
        dsimp only at hrun
        split at hrun
        · cases hrun
          exact ⟨b1, .closed c.orderId .filled, rfl, fun _ _ => Event.noConfusion⟩
        split at hrun
        · obtain ⟨b2, _, hrun⟩ := Option.bind_eq_some_iff.mp hrun
          cases hrun
          exact ⟨b2, .accepted c.orderId left, rfl, fun _ _ => Event.noConfusion⟩
        · cases hrun
          exact ⟨b1, .closed c.orderId .expired, rfl, fun _ _ => Event.noConfusion⟩
      obtain ⟨b2, ev, rfl, hne⟩ := hlast
      rcases List.mem_append.mp he with he | he
      · rcases hfills e he with ⟨m, t, p, q, heq⟩ | ⟨m, heq⟩
        · cases hev.symm.trans heq
        · cases hev.symm.trans heq
      · cases List.mem_singleton.mp he
        exact absurd hev (hne _ _)
  · intro hcheck
    refine ⟨(b.reject c.orderId r).1, (b.reject c.orderId r).2, ?_, _, List.mem_singleton_self _,
      rfl⟩
    rw [happly, newOrder, hcheck]
    rfl

end OrderBook

/-! ## What the check decides -/

namespace Spec

/-- The bids a tree's range leaves out make the difference to this order. -/
def Shadowed (cfg : BookConfig) (R : Book) (c : Command) : Prop :=
  cfg.index = .tree ∧ c.side = .ask ∧ ranged cfg .ask c.price R.bids < c.qty.toNat ∧
    c.qty.toNat ≤ offered .ask c.price R.bids

/-- Quantities of a part of the list. -/
theorem sum_filter_imp (os : List Order) {f g : Order → Bool}
    (hfg : ∀ o ∈ os, f o = true → g o = true) :
    ((os.filter f).map fun o => o.qty.toNat).sum ≤ ((os.filter g).map fun o =>
      o.qty.toNat).sum := by
  have hsub : os.filter f = (os.filter g).filter f := by
    rw [List.filter_filter]
    refine List.filter_congr fun o ho => ?_
    cases hf : f o
    · rfl
    · rw [hfg o ho hf]
      rfl
  rw [hsub]
  exact (List.filter_sublist.map _).sum_le_sum fun _ _ => Nat.zero_le _

section Ranged

variable {cfg : BookConfig} {s : Side} {price : Price} {os : List Order}

/-- The range admits nothing beyond the limit, -/
theorem ranged_le_offered : ranged cfg s price os ≤ offered s price os := by
  refine sum_filter_imp os fun o _ h => ?_
  cases s <;> simp only [inRange, admits, Bool.decide_and, Bool.and_eq_true] at h ⊢
  · exact h.2
  · exact h.1

/-- and, but for asks in a tree, leaves nothing within it out. -/
theorem ranged_eq_offered (hvalid : ∀ o ∈ os, cfg.Valid o.price)
    (h : ¬ (cfg.index = .tree ∧ s = .ask)) :
    ranged cfg s price os = offered s price os := by
  refine le_antisymm ranged_le_offered (sum_filter_imp os fun o ho hadmits => ?_)
  have hv := hvalid o ho
  cases s with
  | bid =>
    have hlo := OrderBook.fillLo_le hv
    simp only [inRange, admits, Bool.decide_and, Bool.and_eq_true] at hadmits ⊢
    exact ⟨decide_eq_true hlo, hadmits⟩
  | ask =>
    have hhi := OrderBook.le_fillHi hv fun hk => absurd ⟨hk, rfl⟩ h
    simp only [inRange, admits, Bool.decide_and, Bool.and_eq_true] at hadmits ⊢
    exact ⟨hadmits, decide_eq_true hhi⟩

/-- While nothing wraps, the check compares with what the range holds. -/
theorem summed_eq_of_lt (h : volume os < 2 ^ 64) :
    summed cfg s price os = ranged cfg s price os := by
  have hle : ranged cfg s price os ≤ volume os := by
    have := sum_filter_imp os (f := fun o => inRange cfg s price o.price) (g := fun _ =>
      true) fun _ _ _ => rfl
    rwa [List.filter_true] at this
  rw [summed_eq_ranged, Nat.mod_eq_of_lt (lt_of_le_of_lt hle h)]

end Ranged

end Spec

/-- A fill-or-kill limit order that passes the earlier checks, on a book whose
opposite side adds up to less than 2^64, is rejected just when the quantities
within its limit fall short of its own, unless it is an ask in a tree book and
only the bids above half the largest price make up for it. -/
theorem fok_rejected_iff {cfg : BookConfig} (horders : cfg.maxOrders.toNat ≤ 2 ^ 29)
    (hshort : cfg.Short) {b : OrderBook} (h : OrderBook.Reaches cfg b) {c : Command}
    (hkind : c.kind = .new) (htype : c.otype = .limit) (htif : c.tif = .fok) (hqty : c.qty ≠ 0)
    (hprice : b.priceOk c.price = true) (hid : b.order c.orderId = some none)
    (hroom : b.orderCount < cfg.maxOrders.toNat) :
    ∃ R : Spec.Book, (∀ s, b.restingSide s = some (R.restingSide s)) ∧
      (Spec.volume (R.side (opposite c.side)) < 2 ^ 64 →
        ((b.Rejects c .fokCannotFill ↔
          Spec.offered c.side c.price (R.side (opposite c.side)) < c.qty.toNat) ↔
            ¬ Spec.Shadowed cfg R c)) := by
  obtain ⟨C, hrep, hcfg⟩ := h.keeps horders
  refine ⟨C.spec, hrep.restingSide_eq, fun hsum => ?_⟩
  have hvalid : b.cfg.Valid c.price := by
    rw [← OrderBook.validPrice_iff, ← OrderBook.priceOk_eq]
    exact hprice
  obtain ⟨q, hfillable, hq⟩ := hrep.fillable_eq (hcfg ▸ hshort) (s := c.side) hvalid
  have hcontains : b.map.contains c.orderId = some false := by
    have hnone : C.spec.find c.orderId = none := by
      rw [hrep.order_eq, Spec.Book.info] at hid
      exact Option.map_eq_none_iff.mp (Option.some.inj hid)
    rw [hrep.ids.models.contains_eq hrep.ids.room, ← hrep.find_isSome, hnone]
    rfl
  have hcheck : b.checkNew c = some (if q < c.qty then some .fokCannotFill else none) := by
    have hopen : ¬ b.store.live ≥ b.cfg.maxOrders.toNat := Nat.not_le.mpr (hcfg ▸ hroom)
    simp only [OrderBook.checkNew, if_neg hqty, htype, hprice, hcontains, if_neg hopen,
      htif, hfillable, Option.bind_eq_bind, Option.bind_some]
    simp only [decide_true, Bool.not_true, Bool.and_false, Bool.false_eq_true, if_false, if_true,
      reduceCtorEq, decide_false, Bool.false_and]
    split <;> rfl
  have hrejects : b.Rejects c .fokCannotFill ↔
      Spec.ranged cfg c.side c.price (C.spec.side (opposite c.side)) < c.qty.toNat := by
    rw [OrderBook.rejects_iff hkind, hcheck, ← Spec.summed_eq_of_lt hsum, Content.spec_side,
      ← hcfg, ← hq, ← UInt64.lt_iff_toNat_lt]
    split
    · next hlt => exact iff_of_true rfl hlt
    · next hge => exact iff_of_false (fun heq => by cases heq) hge
  have hle : Spec.ranged cfg c.side c.price (C.spec.side (opposite c.side)) ≤
      Spec.offered c.side c.price (C.spec.side (opposite c.side)) := Spec.ranged_le_offered
  rw [hrejects]
  by_cases hcase : cfg.index = .tree ∧ c.side = .ask
  · obtain ⟨hk, hside⟩ := hcase
    rw [hside] at hle ⊢
    simp only [Spec.Shadowed, hk, hside, true_and]
    show (Spec.ranged cfg .ask c.price C.spec.bids < _ ↔ Spec.offered .ask c.price C.spec.bids <
        _) ↔ _
    have hle' : Spec.ranged cfg .ask c.price C.spec.bids ≤ Spec.offered .ask c.price C.spec.bids :=
      hle
    omega
  · rw [Spec.ranged_eq_offered (fun o ho => by rw [← hcfg]; exact (hrep.valid_spec _ o ho).1) hcase]
    exact iff_of_true Iff.rfl fun hs => hcase ⟨hs.1, hs.2.1⟩

theorem fok_rejected_iff_small : ∃ b, OrderBook.Reaches smallBook b ∧
    ∃ R : Spec.Book, (∀ s, b.restingSide s = some (R.restingSide s)) ∧
      (Spec.volume R.bids < 2 ^ 64 →
        ((b.Rejects (.newLimit 3 .ask 5 4 .fok) .fokCannotFill ↔ Spec.offered .ask 5 R.bids < 4) ↔
          ¬ Spec.Shadowed smallBook R (.newLimit 3 .ask 5 4 .fok))) := by
  obtain ⟨b, C, hreach, hrep, hcfg, hspec⟩ := OrderBook.exists_reaches_rep smallBook_opens smallRun
  refine ⟨b, hreach, fok_rejected_iff smallBook_fits.orders smallBook_fits.narrow.short hreach
    (c := .newLimit 3 .ask 5 4 .fok) rfl rfl rfl (by decide) ?_ ?_ ?_⟩
  · rw [OrderBook.priceOk_eq, hcfg]
    rfl
  · rw [hrep.order_eq, hspec]
    decide +kernel
  · show b.store.live < _
    rw [← hrep.spec_live, hspec]
    decide +kernel

/-- A tree book. -/
def treeBook : BookConfig := { maxOrders := 4, index := .tree }

theorem treeBook_opens : treeBook.Opens where
  orders := by decide
  narrow hk := by cases hk
  ordered := by decide
  length := by decide

/-- A bid at the largest price. -/
def highBid : List Command := [.newLimit 1 .bid Int64.maxValue 5 .gtc]

/-- It offers all that this order asks for, and the order is rejected. -/
theorem fok_shadowed : ∃ b R, OrderBook.Reaches treeBook b ∧ b.Shows R ∧
    Spec.volume R.bids < 2 ^ 64 ∧ ¬ Spec.offered .ask 1 R.bids < 5 ∧
    b.Rejects (.newLimit 2 .ask 1 5 .fok) .fokCannotFill := by
  obtain ⟨b, C, hreach, hrep, hcfg, hspec⟩ := OrderBook.exists_reaches_rep treeBook_opens highBid
  have hn : b.cfg.Narrow := hcfg ▸ treeBook_opens.narrow
  refine ⟨b, C.spec, hreach, hrep.shows hn, ?_, ?_, ?_⟩
  · rw [hspec]
    decide +kernel
  · rw [hspec]
    decide +kernel
  · rw [OrderBook.rejects_iff rfl, hrep.checkNew_eq hn, hcfg, hspec]
    decide +kernel

end Matcher
