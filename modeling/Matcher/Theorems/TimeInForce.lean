import Matcher.Logic.TopTick
import Matcher.Theorems.FillOrKill

/-!
# The checks of a time in force and the sweep agree

Fill-or-kill and post-only orders are judged before matching, by a range sum and
by a look at the best price. The sweep that follows keeps their promise: a range
sum, wrapped or not, never exceeds what the sweep can reach, and the best price
is the first thing the sweep looks at.
-/

namespace Matcher

open Kit

namespace Spec

/-- What a taker's order may emit while it is matched. -/
def FillsFor (taker : OrderId) (e : Event) : Prop :=
  (∃ m p q, e = .trade m taker p q) ∨ ∃ m, m ≠ taker ∧ e = .closed m .filled

/-- Does anything trade? -/
def Trades (evs : List Event) : Prop := ∃ m t p q, Event.trade m t p q ∈ evs

section Checks

variable {cfg : BookConfig} {available : Side → Price → List Order → Nat} {R : Book} {c : Command}

/-- A fill-or-kill order that passes asks for no more than is available. -/
theorem checkNew_fok (htype : c.otype = .limit) (htif : c.tif = .fok)
    (h : checkNew cfg available R c = none) :
    c.qty.toNat ≤ available c.side c.price (R.side (opposite c.side)) := by
  unfold checkNew at h
  split at h
  · cases h
  split at h
  · cases h
  split at h
  · cases h
  split at h
  · cases h
  split at h
  · cases h
  split at h
  · cases h
  · next hno => exact Nat.le_of_not_lt fun hlt => hno ⟨htype, htif, hlt⟩

/-- A fill-or-kill order is turned away, or is filled whole. -/
theorem newOrder_fok (cfg : BookConfig) (available : Side → Price → List Order → Nat) (hR : Sound R)
    (htype : c.otype = .limit) (htif : c.tif = .fok)
    (hle : available c.side c.price (R.side (opposite c.side)) ≤
      offered c.side c.price (R.side (opposite c.side))) :
    (∃ r, newOrder cfg available R c = (R, [.rejected c.orderId r])) ∨
      ∃ fills, (newOrder cfg available R c).2 = fills ++ [.closed c.orderId .filled] ∧
        (∀ e ∈ fills, FillsFor c.orderId e) ∧ (fills.map traded).sum = c.qty.toNat ∧
        (newOrder cfg available R c).1.find c.orderId = none := by
  rw [newOrder]
  split
  · next r _ => exact Or.inl ⟨r, rfl⟩
  next hcheck =>
  refine Or.inr ?_
  rw [if_pos htype]
  have hid := (checkNew_eq_none hcheck).2.2.1
  have henough := checkNew_fok htype htif hcheck
  have hzero : (fill c.side (some c.price) c.orderId (R.side (opposite c.side)) c.qty).2.1 = 0 := by
    rw [fill_left_eq_zero, volume_reach (hR.sorted _)]
    exact henough.trans hle
  have htraded := fill_traded c.side (some c.price) c.orderId (R.side (opposite c.side)) c.qty
  rw [hzero, UInt64.toNat_zero, Nat.add_zero] at htraded
  dsimp only
  rw [if_pos hzero]
  refine ⟨_, rfl, fun e he => ?_, htraded, find_eq_none.mpr fun s o ho => ?_⟩
  · rcases fill_event he with h | ⟨o, ho, rfl⟩
    · exact Or.inl h
    · exact Or.inr ⟨o.orderId, find_eq_none.mp hid _ o ho, rfl⟩
  · rcases side_eq_or c.side s with rfl | rfl
    · rw [Book.side_opposite_set] at ho
      exact find_eq_none.mp hid _ o ho
    · rw [Book.side_set] at ho
      obtain ⟨o', ho', heq, _⟩ := fill_sub _ _ o ho
      exact heq ▸ find_eq_none.mp hid _ o' ho'

/-- An order that crosses trades at once. -/
theorem fill_trades {s : Side} {price : Price} (taker : OrderId) {os : List Order} {qty : Qty}
    (hqty : qty ≠ 0) (h : crosses s price os = true) :
    Trades (fill s (some price) taker os qty).2.2 := by
  cases os with
  | nil => cases h
  | cons o os =>
    have hgo : ¬ (qty = 0 ∨ admits s (some price) o.price = false) := by
      rintro (h0 | hf)
      · exact hqty h0
      · exact Bool.false_ne_true (hf.symm.trans h)
    rw [fill, if_neg hgo]
    split
    · exact ⟨_, _, _, _, List.mem_cons_self⟩
    · exact ⟨_, _, _, _, List.mem_cons_self⟩

/-- An order that does not cross trades with nothing. -/
theorem fill_uncrossed {s : Side} {price : Price} {taker : OrderId} {os : List Order} {qty : Qty}
    (h : crosses s price os = false) : fill s (some price) taker os qty = (os, qty, []) := by
  cases os with
  | nil => rfl
  | cons o os =>
    have hbeyond : admits s (some price) o.price = false := h
    rw [fill, if_pos (Or.inr hbeyond)]

/-- The checks on a post-only order are those on a good-till-cancel order and one more. -/
theorem checkNew_postOnly (cfg : BookConfig) (available : Side → Price → List Order → Nat)
    (R : Book) (htype : c.otype = .limit) (htif : c.tif = .postOnly) :
    checkNew cfg available R c = match checkNew cfg available R { c with tif := .gtc } with
      | some r => some r
      | none =>
        if crosses c.side c.price (R.side (opposite c.side)) then some .postOnlyWouldCross
        else none := by
  simp only [checkNew, htype, htif, true_and, reduceCtorEq, false_and, if_false]
  by_cases hqty : c.qty = 0
  · simp [hqty]
  by_cases hprice : validPrice cfg c.price = false
  · simp [hqty, hprice]
  by_cases hdup : (R.find c.orderId).isSome = true
  · simp [hqty, hprice, hdup]
  by_cases hfull : cfg.maxOrders.toNat ≤ R.live
  · simp [hqty, hprice, hdup, hfull]
  · simp [hqty, hprice, hdup, hfull]

/-- Other orders are not rejected for crossing. -/
theorem gtc_not_postOnly (h : checkNew cfg available R { c with tif := .gtc } =
    some .postOnlyWouldCross) :
    False := by
  unfold checkNew at h
  split at h
  · cases h
  split at h
  · cases h
  split at h
  · cases h
  split at h
  · cases h
  split at h
  · next hpost => cases hpost.2.1
  split at h
  · cases h
  · cases h

/-- A post-only order is turned away, or rests whole; and it is turned away for
crossing just when it would trade as good till cancelled. -/
theorem newOrder_postOnly (cfg : BookConfig) (available : Side → Price → List Order → Nat)
    (R : Book) (htype : c.otype = .limit) (htif : c.tif = .postOnly) :
    ((∃ r, (newOrder cfg available R c).2 = [.rejected c.orderId r]) ∨
      (newOrder cfg available R c).2 = [.accepted c.orderId c.qty]) ∧
    ((newOrder cfg available R c).2 = [.rejected c.orderId .postOnlyWouldCross] ↔
      Trades (newOrder cfg available R { c with tif := .gtc }).2) := by
  have hcheck := checkNew_postOnly cfg available R htype htif
  simp only [newOrder, hcheck]
  cases hgtc : checkNew cfg available R { c with tif := .gtc } with
  | some r =>
    refine ⟨Or.inl ⟨r, rfl⟩, iff_of_false (fun heq => ?_) ?_⟩
    · -- the good-till-cancel order is never rejected for crossing
      cases heq
      exact gtc_not_postOnly hgtc
    · rintro ⟨m, t, p, q, hmem⟩
      cases List.mem_singleton.mp hmem
  | none =>
    have hqty : c.qty ≠ 0 := (checkNew_eq_none hgtc).1
    cases hcross : crosses c.side c.price (R.side (opposite c.side)) with
    | true =>
      refine ⟨Or.inl ⟨_, rfl⟩, iff_of_true rfl ?_⟩
      obtain ⟨m, t, p, q, hmem⟩ := fill_trades c.orderId hqty hcross
      simp only [if_pos htype]
      refine ⟨m, t, p, q, ?_⟩
      split
      · exact List.mem_append_left _ hmem
      split
      · exact List.mem_append_left _ hmem
      · exact List.mem_append_left _ hmem
    | false =>
      simp only [fill_uncrossed hcross, if_neg hqty, htype, htif, Bool.false_eq_true, if_false,
        or_true, true_or, and_self, if_true]
      refine ⟨Or.inr rfl, iff_of_false (fun heq => by cases heq) ?_⟩
      rintro ⟨m, t, p, q, hmem⟩
      cases List.mem_singleton.mp hmem

end Checks

/-- A sum that wraps is only smaller. -/
theorem summed_le_offered {s : Side} {price : Price} {os : List Order} :
    summed cfg s price os ≤ offered s price os := by
  rw [summed_eq_ranged]
  exact (Nat.mod_le _ _).trans ranged_le_offered

end Spec

/-- In a reachable book, a fill-or-kill limit order is rejected and changes nothing, or
trades exactly its quantity and is closed; a post-only limit order is rejected, or
comes to rest whole with no trade, and it is rejected for crossing just when the same
order would trade as good till cancelled. -/
theorem tif_checks_sound {cfg : BookConfig} (hfits : cfg.Fits) {b : OrderBook}
    (h : OrderBook.Reaches cfg b) {c : Command} (hkind : c.kind = .new) (htype : c.otype = .limit) :
    ∃ b' out, b.apply c = some (b', out) ∧
      (c.tif = .fok →
        (∃ r, out.map Emission.ev = [.rejected c.orderId r] ∧ b'.restingOrders = b.restingOrders) ∨
        ∃ fills, out.map Emission.ev = fills ++ [.closed c.orderId .filled] ∧
          (∀ e ∈ fills, Spec.FillsFor c.orderId e) ∧ (fills.map Spec.traded).sum = c.qty.toNat ∧
          b'.order c.orderId = some none) ∧
      (c.tif = .postOnly →
        ((∃ r, out.map Emission.ev = [.rejected c.orderId r]) ∨
          out.map Emission.ev = [.accepted c.orderId c.qty]) ∧
        ∃ b'' out', b.apply { c with tif := .gtc } = some (b'', out') ∧
          (out.map Emission.ev = [.rejected c.orderId .postOnlyWouldCross] ↔
            Spec.Trades (out'.map Emission.ev))) := by
  obtain ⟨C, hrep, hcfg⟩ := h.rep hfits
  have hn : b.cfg.Narrow := hcfg ▸ hfits.narrow
  obtain ⟨b', C', out, hrun, hdone⟩ := hrep.apply hn c
  have hstep : ∀ c' : Command, c'.kind = .new → Spec.step b.cfg (Spec.summed b.cfg) C.spec c' =
      Spec.newOrder b.cfg (Spec.summed b.cfg) C.spec c' := fun c' hk => by rw [Spec.step, hk]
  refine ⟨b', out, hrun, fun htif => ?_, fun htif => ?_⟩
  · have hnew := Spec.newOrder_fok b.cfg (Spec.summed b.cfg) hrep.sound htype htif
      Spec.summed_le_offered
    have hevents := hdone.events
    have hspec := hdone.spec
    rw [hstep c hkind] at hevents hspec
    rcases hnew with ⟨r, hr⟩ | ⟨fills, hevs, hfills, hsum, hfind⟩
    · refine Or.inl ⟨r, by rw [hevents, hr], ?_⟩
      rw [(hdone.rep.shows (hdone.cfg ▸ hn)).restingOrders, (hrep.shows hn).restingOrders, hspec,
        hr]
    · refine Or.inr ⟨fills, hevents.trans hevs, hfills, hsum, ?_⟩
      rw [hdone.rep.order_eq, Spec.Book.info, hspec, hfind]
      rfl
  · obtain ⟨b'', C'', out', hrun', hdone'⟩ := hrep.apply hn { c with tif := .gtc }
    have hevents := hdone.events
    have hevents' := hdone'.events
    rw [hstep c hkind] at hevents
    rw [hstep { c with tif := .gtc } hkind] at hevents'
    obtain ⟨hshape, hiff⟩ := Spec.newOrder_postOnly b.cfg (Spec.summed b.cfg) C.spec
      htype htif
    rw [← hevents, ← hevents'] at hiff
    rw [← hevents] at hshape
    exact ⟨hshape, b'', out', hrun', hiff⟩

theorem tif_checks_sound_small : ∃ b, OrderBook.Reaches smallBook b ∧
    ∃ b' out, b.apply (.newLimit 3 .ask 5 4 .fok) = some (b', out) ∧
      ((∃ r, out.map Emission.ev = [.rejected 3 r] ∧ b'.restingOrders = b.restingOrders) ∨
        ∃ fills, out.map Emission.ev = fills ++ [.closed 3 .filled] ∧
          (∀ e ∈ fills, Spec.FillsFor 3 e) ∧ (fills.map Spec.traded).sum = 4 ∧
          b'.order 3 = some none) := by
  obtain ⟨b, h⟩ := OrderBook.exists_reaches smallBook_opens smallRun
  obtain ⟨b', out, hrun, hfok, _⟩ :=
    tif_checks_sound smallBook_fits h (c := .newLimit 3 .ask 5 4 .fok) rfl rfl
  exact ⟨b, h, b', out, hrun, hfok rfl⟩

/-- With 2^32 ticks, a fill-or-kill order passes its check and then expires. -/
theorem fok_expires_at_top_tick : ∃ b, OrderBook.Reaches wideBook b ∧
    ∃ b' out, b.apply (.newLimit 2 .ask 5 3 .fok) = some (b', out) ∧
      out.map Emission.ev = [.closed 2 .expired] := by
  obtain ⟨b, C, hreach, hrep, hcfg, hspec, hcursor⟩ := OrderBook.exists_hidden_bid
  have hvalid : b.cfg.Valid 5 := by
    rw [hcfg, ← OrderBook.validPrice_iff]
    rfl
  obtain ⟨q, hfillable, hq⟩ := hrep.fillable_eq (hcfg ▸ wideBook_short) (s := .ask) hvalid
  rw [hcfg, ← Content.spec_side, hspec] at hq
  have hcheck : b.checkNew (.newLimit 2 .ask 5 3 .fok) = some none := by
    have hcontains : b.map.contains 2 = some false := by
      rw [hrep.ids.models.contains_eq hrep.ids.room, ← hrep.find_isSome, hspec]
      rfl
    have hopen : ¬ b.store.live ≥ b.cfg.maxOrders.toNat := by
      rw [← hrep.spec_live, hspec, hcfg]
      decide
    have hprice : b.priceOk 5 = true := by
      rw [OrderBook.priceOk_eq, hcfg]
      rfl
    have henough : ¬ q < 3 := by
      rw [UInt64.lt_iff_toNat_lt, hq]
      decide
    simp [OrderBook.checkNew, Command.newLimit, hprice, hcontains, hopen, hfillable, henough]
  have hcross : b.cross .ask (some 5) 2 3 = some (b, 3, []) := (hcursor .bid).cross
  refine ⟨b, hreach, (b.emit (.closed 2 .expired)).1, (b.emit (.closed 2 .expired)).2, ?_, rfl⟩
  show b.newOrder (.newLimit 2 .ask 5 3 .fok) = _
  rw [OrderBook.newOrder, hcheck]
  simp only [Command.newLimit, if_true, hcross, Option.bind_eq_bind, Option.bind_some]
  rfl

end Matcher
