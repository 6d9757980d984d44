import Matcher.Spec.Stamps
import Matcher.Spec.Sweep
import Matcher.Logic.MarketSim
import Matcher.Logic.TopTick
import Matcher.Theorems.Uncrossed

/-!
# Price-time priority

Over whole runs the orders of a price stand in the order of their stamps, and every trade
is made by the order that is first in line on its side.
-/

namespace Matcher

open Kit

namespace Spec

variable {order : OrderId → Option OrderInfo} {st : Stamps}

/-! ## One command -/

section Step

variable {cfg : BookConfig} {available : Side → Price → List Order → Nat} {R R' : Book}
    {n : Nat} {seq : UInt64}
  {evs : List Event}

theorem fill_quiet {s : Side} {limit : Option Price} {taker : OrderId}
    {os : List Order} {qty : Qty} :
    ∀ e ∈ (fill s limit taker os qty).2.2, e.Quiet := by
  intro e he
  rcases fill_event he with ⟨m, p, q, rfl⟩ | ⟨o, _, rfl⟩
  · exact Event.quiet_trade m taker p q
  · exact Event.quiet_closed o.orderId .filled

/-- The number of the last of `m + 1` events after `n`. -/
theorem last_number (hseq : seq.toNat = n) {m : Nat} (hn : n + (m + 1) < 2 ^ 64) :
    (seq + UInt64.ofNat m + 1).toNat = n + (m + 1) := by
  rw [UInt64.toNat_add, UInt64.toNat_add, UInt64.toNat_ofNat_of_lt' (show m < 2 ^ 64 by omega),
    hseq]
  have hone : (1 : UInt64).toNat = 1 := rfl
  omega

/-- Quiet events leave an order's stamp alone. -/
theorem InLine.quiet (h : InLine R' st n) (hquiet : ∀ e ∈ evs, e.Quiet) :
    InLine R' (stampsAfter order st (numbered seq evs)) (n + evs.length) := by
  rw [stampsAfter_quiet (numbered_quiet hquiet seq)]
  exact h.later (Nat.le_add_right _ _)

theorem quiet_append {e : Event} (hevs : ∀ e ∈ evs, e.Quiet) (he : e.Quiet) :
    ∀ x ∈ evs ++ [e], x.Quiet := by
  intro x hx
  rcases List.mem_append.mp hx with hx | hx
  · exact hevs x hx
  · exact List.mem_singleton.mp hx ▸ he

theorem InLine.newOrder (h : InLine R st n) (hR : Sound R) (hseq : seq.toNat = n) {c : Command}
    (hr : Spec.newOrder cfg available R c = (R', evs)) (hn : n + evs.length < 2 ^ 64) :
    InLine R' (stampsAfter order st (numbered seq evs)) (n + evs.length) := by
  rw [Spec.newOrder] at hr
  split at hr
  · cases hr
    exact h.quiet (List.forall_mem_singleton.mpr (Event.quiet_rejected _ _))
  next hcheck =>
  obtain ⟨_, _, hid, _⟩ := checkNew_eq_none hcheck
  generalize (if c.otype = .limit then some c.price else none) = limit at hr
  dsimp only at hr
  have hmatched := h.fill c.side limit c.orderId c.qty
  split at hr
  · cases hr
    exact hmatched.quiet (quiet_append fill_quiet (Event.quiet_closed _ _))
  split at hr
  · cases hr
    rw [List.length_append, List.length_singleton] at hn ⊢
    have hk := last_number hseq hn
    have hlast := Nat.lt_of_lt_of_eq (Nat.lt_add_of_pos_right (Nat.succ_pos _)) hk.symm
    rw [stampsAfter_last fill_quiet, ← hk]
    exact h.rest (hR.sorted c.side) (find_eq_none.mp hid) limit c.orderId c.qty hlast
  · cases hr
    exact hmatched.quiet (quiet_append fill_quiet (Event.quiet_closed _ _))

theorem InLine.cancel (h : InLine R st n) {id : OrderId} (hr : Spec.cancel R id = (R', evs)) :
    InLine R' (stampsAfter order st (numbered seq evs)) (n + evs.length) := by
  rw [Spec.cancel] at hr
  split at hr
  · cases hr
    exact h.quiet (List.forall_mem_singleton.mpr (Event.quiet_rejected _ _))
  · cases hr
    exact (h.remove _ id).quiet (List.forall_mem_singleton.mpr (Event.quiet_closed _ _))

/-- A replace in place changes no price. -/
theorem requantify_places (id : OrderId) (qty : Qty) (os : List Order) :
    (os.map fun x => if x.orderId = id then { x with qty } else x).map Order.place =
      os.map Order.place := by
  rw [List.map_map]
  refine List.map_congr_left fun x _ => ?_
  show Order.place (if x.orderId = id then { x with qty } else x) = x.place
  split <;> rfl

/-- A replace keeps its place or gets the last one: it cannot come to rest at its own
price with less than it asked for, because nothing there is good enough to trade with. -/
theorem InLine.replace (h : InLine R st n) (hR : Sound R) (hU : Uncrossed R) (hseq : seq.toNat = n)
    {id : OrderId} {price : Price} {qty : Qty} (hr : Spec.replace cfg R id price qty = (R', evs))
    (hn : n + evs.length < 2 ^ 64) :
    InLine R' (stampsAfter R.info st (numbered seq evs)) (n + evs.length) := by
  rw [Spec.replace] at hr
  split at hr
  · cases hr
    exact h.quiet (List.forall_mem_singleton.mpr (Event.quiet_rejected _ _))
  next s o hfind =>
  obtain ⟨ho, hid⟩ := find_eq_some hfind
  have hinfo : R.info id = some ⟨o.orderId, s, o.price, o.qty⟩ := by
    rw [Book.info, hfind]
    rfl
  split at hr
  · cases hr
    exact h.quiet (List.forall_mem_singleton.mpr (Event.quiet_rejected _ _))
  split at hr
  · cases hr
    exact h.quiet (List.forall_mem_singleton.mpr (Event.quiet_rejected _ _))
  split at hr
  · next hsame =>
    cases hr
    -- it keeps its place, and its stamp with it
    have hkeep : stampsAfter R.info st (numbered seq [.replaced id price qty]) = st := by
      show stampAfter R.info st (seq + 1, .replaced id price qty) = st
      simp only [stampAfter, hinfo, if_pos hsame]
    rw [hkeep]
    refine h.mono (fun s' => ?_) (Nat.le_add_right _ _)
    rcases side_eq_or s s' with rfl | rfl
    · rw [Book.side_set, requantify_places]
    · rw [Book.side_set_opposite]
  next hmoved =>
  dsimp only at hr
  have hremoved := h.remove s id
  split at hr
  · cases hr
    exact (hremoved.fill _ _ _ _).quiet (quiet_append fill_quiet (Event.quiet_closed _ _))
  cases hr
  rw [List.length_append, List.length_singleton] at hn ⊢
  have hk := last_number hseq hn
  have hlast := Nat.lt_of_lt_of_eq (Nat.lt_add_of_pos_right (Nat.succ_pos _)) hk.symm
  have hsides := hR.remove_side ho hid
  have hgone : ∀ s', ∀ x ∈ (R.remove s id).side s', x.orderId ≠ id := by
    intro s' x hx
    rw [hsides] at hx
    exact of_decide_eq_true (List.mem_filter.mp hx).2
  have hsorted : ((R.remove s id).side s).Pairwise fun x y => ¬ Better s y.price x.price := by
    rw [hsides]
    exact (hR.sorted s).filter _
  have hrest := hremoved.rest hsorted
    (o := ⟨id, price, (Spec.fill s (some price) id ((R.remove s id).side (opposite s)) qty).2.1,
      o.tif⟩) hgone (some price) id qty
    hlast
  -- what the sweep left cannot pass for a replace that kept its place: at the old
  -- price nothing trades, so no less is left than was asked for
  have hnew : ¬ (price = o.price ∧
      (Spec.fill s (some price) id ((R.remove s id).side (opposite s)) qty).2.1 ≤ o.qty) := by
    rintro ⟨rfl, hle⟩
    have hfar : ∀ x ∈ (R.remove s id).side (opposite s), admits s (some o.price) x.price =
        false := by
      intro x hx
      rw [hsides] at hx
      exact (uncrossed_iff s).mp hU o ho x (List.mem_of_mem_filter hx)
    rw [fill_none hfar] at hle
    exact hmoved ⟨rfl, hle⟩
  rw [stampsAfter_last fill_quiet, ← hk]
  simp only [stampAfter, hinfo, if_neg hnew]
  exact hrest

/-- One command keeps the orders in line. -/
theorem InLine.step (h : InLine R st n) (hR : Sound R) (hU : Uncrossed R)
    (hseq : seq.toNat = n) {c : Command} (hr : Spec.step cfg available R c = (R', evs))
    (hn : n + evs.length < 2 ^ 64) :
    InLine R' (stampsAfter R.info st (numbered seq evs)) (n + evs.length) := by
  rw [Spec.step] at hr
  split at hr
  · exact h.newOrder hR hseq hr hn
  · exact h.cancel hr
  · exact h.replace hR hU hseq hr hn

/-- Only the last event of a command can give an order a place. -/
theorem step_quiet (cfg : BookConfig) (available : Side → Price → List Order → Nat)
    (R : Book) (c : Command) :
    ∀ e ∈ (Spec.step cfg available R c).2.dropLast, e.Quiet := by
  rw [Spec.step]
  split
  · rw [Spec.newOrder]
    split
    · exact List.forall_mem_nil _
    generalize (if c.otype = .limit then some c.price else none) = limit
    dsimp only
    split
    · rw [List.dropLast_concat]
      exact fill_quiet
    split <;>
    · rw [List.dropLast_concat]
      exact fill_quiet
  · rw [Spec.cancel]
    split <;> exact List.forall_mem_nil _
  · rw [Spec.replace]
    split
    · exact List.forall_mem_nil _
    split
    · exact List.forall_mem_nil _
    split
    · exact List.forall_mem_nil _
    split
    · exact List.forall_mem_nil _
    dsimp only
    split <;>
    · rw [List.dropLast_concat]
      exact fill_quiet

end Step

end Spec

namespace OrderBook

/-- What the book tells of an order. -/
def info (b : OrderBook) (id : OrderId) : Option OrderInfo := (b.order id).join

/-- Some run from the empty book leads to `b`. It emitted `n` events, and they left the
stamps `st`. -/
inductive Stamped (cfg : BookConfig) : Nat → OrderBook → Stamps → Prop
  | start {b : OrderBook} (hnew : new cfg = some b) : Stamped cfg 0 b fun _ => 0
  | step {n : Nat} {b b' : OrderBook} {st : Stamps} {c : Command} {out : List Emission}
      (h : Stamped cfg n b st) (hrun : b.apply c = some (b', out)) :
      Stamped cfg (n + out.length) b' (stampsAfter b.info st (out.map Emission.record))

/-- On each side the orders of a price are listed in the order of their stamps. -/
def InLine (b : OrderBook) (st : Stamps) : Prop :=
  ∀ s, ∃ os, b.restingSide s = some os ∧ os.Pairwise fun x y => x.price = y.price →
    st x.orderId < st y.orderId

/-- A trade that `c` makes: at that moment the maker rests at the price of the trade,
within the limit of the taker. No other live order of its side has a better price, and
none has the price and a smaller stamp. -/
def FirstInLine (st : Stamps) (c : Command) (e : Emission) : Prop :=
  ∀ m t p q, e.ev = .trade m t p q → ∃ s os o, e.book.restingSide s = some os ∧ o ∈ os ∧
    o.orderId = m ∧ o.price = p ∧ beyond (opposite s) (takerLimit c) p = false ∧
    ∀ x ∈ os, x.orderId ≠ m → ¬ Better s x.price p ∧ (x.price = p → st m < st x.orderId)

section Priority

variable {cfg : BookConfig} {b b' : OrderBook} {C : Content} {st : Stamps} {n : Nat}

theorem Rep.info_eq (h : Rep none none b C) : b.info = C.spec.info := by
  funext id
  rw [info, h.order_eq]
  rfl

/-- What the lists say of the orders' line, the book says. -/
theorem Rep.inLine (h : Rep none none b C) (hline : Spec.InLine C.spec st n) : b.InLine st := by
  intro s
  refine ⟨_, h.restingSide_eq s, ?_⟩
  rw [Spec.Book.restingSide, List.pairwise_map]
  exact List.pairwise_map.mp (hline.order s)

/-- A stamped book represents lists that are in line. -/
theorem Stamped.line (hfits : cfg.Fits) (h : Stamped cfg n b st) (hn : n < 2 ^ 64) :
    ∃ C, Rep none none b C ∧ b.cfg = cfg ∧ b.seq.toNat = n ∧ Spec.Uncrossed C.spec ∧
      Spec.InLine C.spec st n := by
  induction h with
  | start hnew =>
    obtain ⟨hrep, hseq, hcfg⟩ := rep_of_new hfits.orders hnew
    refine ⟨blank, hrep, hcfg, by rw [hseq]; rfl, blank_uncrossed, fun s => ?_, fun s x hx => ?_⟩
    · cases s <;> exact List.Pairwise.nil
    · cases s <;> exact absurd hx List.not_mem_nil
  | @step n b b' st c out h hrun ih =>
    obtain ⟨C, hrep, hcfg, hseq, hC, hline⟩ := ih (Nat.lt_of_le_of_lt (Nat.le_add_right _ _) hn)
    obtain ⟨b1, C1, out1, hrun1, hdone⟩ := hrep.apply (hcfg ▸ hfits.narrow) c
    cases hrun.symm.trans hrun1
    have hlen : out.length = (Spec.step b.cfg (Spec.summed b.cfg) C.spec c).2.length := by
      rw [← hdone.events, List.length_map]
    have hstep := hline.step hrep.sound hC hseq rfl (hlen ▸ hn)
    refine ⟨C1, hdone.rep, hdone.cfg.trans hcfg, ?_, ?_, ?_⟩
    · rw [hdone.seq, ← hlen, UInt64.toNat_add, UInt64.toNat_ofNat_of_lt' (show out.length <
        2 ^ 64 by omega), hseq]
      exact Nat.mod_eq_of_lt hn
    · rw [hdone.spec]
      exact hC.step hrep.sorted_spec c
    · rw [hdone.spec, hdone.record, hrep.info_eq, hlen]
      exact hstep

/-- An order that is accepted gets the number of its event for a stamp. -/
theorem Stamped.accepted (h : Stamped cfg n b st) {c : Command} {out : List Emission}
    (hrun : b.apply c = some (b', out)) {seq : UInt64} {id : OrderId} {q : Qty}
    (hout : out.map Emission.record = [(seq, .accepted id q)]) :
    Stamped cfg (n + 1) b' (Function.update st id seq) := by
  have hlen := congrArg List.length hout
  rw [List.length_map, List.length_singleton] at hlen
  have hnext := h.step hrun
  rwa [hlen, hout] at hnext

/-- The maker of a trade heads what is left of its side, which was in line before. -/
theorem Rep.firstInLine (h : Rep none none b C) (hline : Spec.InLine C.spec st n)
    {c : Command} {e : Emission} (htrade : TradeFor C c e) : FirstInLine st c e := by
  intro m t p q hev
  obtain ⟨hold, own, mine, _, htrade⟩ := htrade
  obtain ⟨Ce, o, rest, pre, hrep, _, htheirs, hsplit, hid, hprice, _, hadmits, _⟩ :=
    htrade m t p q hev
  have hlist : Ce.spec.restingSide (opposite own) =
      (o :: rest).map (Spec.Order.resting (opposite own)) := by
    rw [Spec.Book.restingSide, Content.spec_side, htheirs]
  refine ⟨opposite own, _, o.resting (opposite own), hrep.restingSide_eq _, ?_, hid, hprice, ?_,
    fun x hx hne => ?_⟩
  · rw [hlist]
    exact List.mem_map_of_mem List.mem_cons_self
  · have hback : opposite (opposite own) = own := by cases own <;> rfl
    rw [hback, beyond_eq, hadmits]
    rfl
  · rw [hlist] at hx
    obtain ⟨y, hy, rfl⟩ := List.mem_map.mp hx
    have hrest : y ∈ rest := (List.mem_cons.mp hy).resolve_left fun heq => hne (heq ▸ hid)
    -- what follows the maker in the list follows it in price and in stamp
    have hsorted := h.sorted_spec (opposite own)
    have hstamps := List.pairwise_map.mp (hline.order (opposite own))
    rw [Content.spec_side, hsplit] at hsorted hstamps
    have hworse := (List.pairwise_cons.mp (List.pairwise_append.mp hsorted).2.1).1 y hrest
    have hlater := (List.pairwise_cons.mp (List.pairwise_append.mp hstamps).2.1).1 y hrest
    rw [← hid, ← hprice]
    exact ⟨hworse, fun heq => hlater heq.symm⟩

end Priority

end OrderBook

/-- While the events are fewer than 2^64 and locations and ladder indices fit their 32
bits: after every run the orders of each price are listed in the order of their stamps,
and every trade the next command makes is with the order that is first in line. -/
theorem price_time_priority {cfg : BookConfig} (hfits : cfg.Fits) {n : Nat}
    {b : OrderBook} {st : Stamps} (h : OrderBook.Stamped cfg n b st) (hn : n < 2 ^ 64) :
    b.InLine st ∧ ∀ c b' out, b.apply c = some (b', out) → ∀ pre e post, out = pre ++ e :: post →
      OrderBook.FirstInLine (stampsAfter b.info st (pre.map Emission.record)) c e := by
  obtain ⟨C, hrep, hcfg, _, _, hline⟩ := h.line hfits hn
  refine ⟨hrep.inLine hline, fun c b' out hrun pre e post hsplit => ?_⟩
  obtain ⟨b1, C1, out1, hrun1, hdone⟩ := hrep.apply (hcfg ▸ hfits.narrow) c
  cases hrun.symm.trans hrun1
  -- the events before a trade gave no order a place
  have hquiet : ∀ x ∈ pre.map Emission.record, x.2.Quiet := by
    intro x hx
    obtain ⟨e', he', rfl⟩ := List.mem_map.mp hx
    refine Spec.step_quiet b.cfg (Spec.summed b.cfg) C.spec c e'.ev ?_
    rw [← hdone.events, hsplit, List.map_append, List.map_cons,
      List.dropLast_append_of_ne_nil (List.cons_ne_nil _ _)]
    exact List.mem_append_left _ (List.mem_map_of_mem he')
  rw [Spec.stampsAfter_quiet hquiet]
  exact hrep.firstInLine hline
    (hdone.trades e (hsplit ▸ List.mem_append_right pre List.mem_cons_self))

/-- Three bids came in, and a market order trades with the best one first, and with the other
two in the order in which they came. -/
theorem price_time_priority_small : ∃ n b st, OrderBook.Stamped smallBook n b st ∧ n < 2 ^ 64 ∧
    (st 1 = 1 ∧ st 2 = 2 ∧ st 3 = 3) ∧
    (∃ b' out, b.apply (.newMarket 9 .ask 14) = some (b', out) ∧
      out.map Emission.ev = [.trade 3 9 6 3, .closed 3 .filled, .trade 1 9 5 10, .closed 1 .filled,
        .trade 2 9 5 1, .closed 9 .filled]) ∧
    b.InLine st ∧ ∀ c b' out, b.apply c = some (b', out) → ∀ pre e post, out = pre ++ e :: post →
      OrderBook.FirstInLine (stampsAfter b.info st (pre.map Emission.record)) c e := by
  obtain ⟨b0, hnew, hden0⟩ := OrderBook.denotes_new smallBook_opens
  have hn := smallBook_fits.narrow
  obtain ⟨b1, out1, hrun1, hout1, hden1⟩ := hden0.apply hn (.newLimit 1 .bid 5 10 .gtc)
  obtain ⟨b2, out2, hrun2, hout2, hden2⟩ := hden1.apply hn (.newLimit 2 .bid 5 4 .gtc)
  obtain ⟨b3, out3, hrun3, hout3, hden3⟩ := hden2.apply hn (.newLimit 3 .bid 6 3 .gtc)
  obtain ⟨b4, out4, hrun4, hout4, _⟩ := hden3.apply hn (.newMarket 9 .ask 14)
  have hstamped := (((OrderBook.Stamped.start hnew).accepted hrun1 hout1).accepted hrun2
    (hout2.trans rfl)).accepted hrun3 (hout3.trans rfl)
  exact ⟨3, b3, _, hstamped, by decide, ⟨rfl, rfl, rfl⟩,
    ⟨b4, out4, hrun4, (Emission.events_of_serve hout4).trans rfl⟩,
    price_time_priority smallBook_fits hstamped (by decide)⟩

namespace OrderBook

/-- The bid at the top tick is out of sight, and the cursor is at the worse bid. -/
theorem exists_passed_bid : ∃ b0 b C out, new wideBook = some b0 ∧
    b0.applyAll [.newLimit 1 .bid (2 ^ 32) 5 .gtc, .newLimit 2 .bid 5 5 .gtc] = some (b, out) ∧
    Rep none none b C ∧ b.cfg = wideBook ∧ C.spec = ⟨[⟨1, 2 ^ 32, 5, .gtc⟩, ⟨2, 5, 5, .gtc⟩], []⟩ ∧
    b.Cursor .bid 4 := by
  obtain ⟨b0, hnew, hrep0, _, hcfg0⟩ := new_rep wideBook (by decide) (by decide)
  have hvalid : ∀ p : Price, Spec.validPrice wideBook p = true → b0.cfg.Valid p := fun p hp =>
    hcfg0 ▸ validPrice_iff.mp hp
  have hroom : ∀ p : Price, b0.cfg.Valid p → b0.cfg.HasRoom p :=
    fun p => hrep0.room (hcfg0 ▸ wideBook_short)
  have hfive : (5 : Qty) ≠ 0 := by decide
  obtain ⟨b1, C1, out1, hrun1, _, hrep1, hcfg1, hspec1, hask1, hbid1⟩ := hrep0.newOrder_unseen
    (new_cursor rfl hnew : b0.Cursor (opposite .bid) NIL) 1 (hvalid (2 ^ 32) rfl)
      (hroom _ (hvalid _ rfl)) rfl
    (by rw [hcfg0]; decide) hfive
  have htop := hbid1 (new_cursor rfl hnew) List.not_mem_nil
  rw [hcfg0] at htop
  have hspec1' : C1.spec = ⟨[⟨1, 2 ^ 32, 5, .gtc⟩], []⟩ := hspec1
  obtain ⟨b2, C2, out2, hrun2, _, hrep2, hcfg2, hspec2, _, hbid2⟩ := hrep1.newOrder_unseen hask1 2
    (hcfg1 ▸ hvalid 5 rfl) (hcfg1 ▸ hroom 5 (hvalid 5 rfl)) (by rw [hspec1']; rfl)
    (by rw [hspec1', hcfg1, hcfg0]; decide) hfive
  have hlow := hbid2 htop (by
    rw [← hrep1.prices_eq, hspec1']
    decide)
  rw [hcfg1, hcfg0] at hlow
  refine ⟨b0, b2, C2, out1 ++ (out2 ++ []), hnew, ?_, hrep2, hcfg2.trans (hcfg1.trans hcfg0), ?_,
    hlow⟩
  · simp only [applyAll, hrun1, hrun2, Option.bind_eq_bind, Option.bind_some]
    rfl
  · rw [hspec2, hspec1']
    rfl

/-- The bid at the top tick is live, and there is no ask. -/
def Passed (C : Content) : Prop :=
  C.prices .ask = [] ∧ 2 ^ 32 ∈ C.prices .bid ∧ ∃ x ∈ C.queue (.bid, 2 ^ 32), x.id = 1

/-- It stays so while the level at 5 is swept. -/
theorem vouches_passed (taker : OrderId) : Vouches none .ask taker 5
    (fun e => ∀ m t p q, e.ev = .trade m t p q → ∃ C, Rep none none e.book C ∧
      Passed C) Passed where
  atTrade := fun C x xs n b q hC _ h _ _ m t p q' _ => ⟨C, h, hC⟩
  atOther := fun n ev b hev m t p q heq => absurd heq (hev m t p q)
  next := by
    rintro C C' x xs ⟨hasks, hbid, y, hy, hid⟩ _ hprices hqueue
    have hne : ((.bid, 2 ^ 32) : Key) ≠ (opposite .ask, 5) := by decide
    refine ⟨by rw [hprices]; exact hasks, by rw [hprices]; exact hbid, y, ?_, hid⟩
    rw [hqueue, Function.update_of_ne hne]
    exact hy

/-- The queue at one price is the part of the list with that price. -/
theorem queue_eq_filter {C : Content} {s : Side} {p : Price} (hnd : (C.prices s).Nodup)
    (hp : p ∈ C.prices s) :
    (C.queue (s, p)).map (Cell.order p) = (C.orders s).filter fun o => o.price = p := by
  have hkept : ((C.queue (s, p)).map (Cell.order p)).filter (fun o => o.price = p) =
      (C.queue (s, p)).map (Cell.order p) := by
    refine List.filter_eq_self.mpr fun o ho => ?_
    obtain ⟨x, _, rfl⟩ := List.mem_map.mp ho
    exact decide_eq_true rfl
  have hgone : ∀ qs : List Price, p ∉ qs →
      (qs.flatMap fun q => ((C.queue (s, q)).map (Cell.order q)).filter fun o => o.price = p) =
        [] := by
    intro qs hqs
    refine List.flatMap_eq_nil_iff.mpr fun q hq => List.filter_eq_nil_iff.mpr fun o ho hprice => ?_
    obtain ⟨x, _, rfl⟩ := List.mem_map.mp ho
    exact hqs (of_decide_eq_true hprice ▸ hq)
  -- no other price of the side is `p`
  obtain ⟨ls, rs, hps⟩ := List.append_of_mem hp
  rw [hps, List.nodup_middle, List.nodup_cons, List.mem_append, not_or] at hnd
  rw [Content.orders, List.filter_flatMap, hps, List.flatMap_append, List.flatMap_cons,
    hgone ls hnd.1.1, hgone rs hnd.1.2, hkept, List.nil_append, List.append_nil]

end OrderBook

/-- With 2^32 ticks a market order can trade while a live bid has a better price. -/
theorem priority_lost : ∃ b0 b out0 b' out, OrderBook.new wideBook = some b0 ∧
    b0.applyAll [.newLimit 1 .bid (2 ^ 32) 5 .gtc, .newLimit 2 .bid 5 5 .gtc] = some (b, out0) ∧
    b.apply (.newMarket 3 .ask 1) = some (b', out) ∧
    ∃ e ∈ out, ∀ st, ¬ OrderBook.FirstInLine st (.newMarket 3 .ask 1) e := by
  obtain ⟨b0, b, C, out0, hnew, hrun, hrep, hcfg, hspec, hcursor⟩ := OrderBook.exists_passed_bid
  have hprices : C.prices .bid = [2 ^ 32, 5] := by
    rw [← hrep.prices_eq, hspec]
    decide
  have hasks : C.prices .ask = [] := by
    rw [← hrep.prices_eq, hspec]
    rfl
  have horders : C.orders .bid = [⟨1, 2 ^ 32, 5, .gtc⟩, ⟨2, 5, 5, .gtc⟩] := by
    rw [← Content.spec_side, hspec]
    rfl
  have hlow : (5 : Price) ∈ C.prices .bid := by rw [hprices]; decide
  have hqueue : (C.queue (.bid, 5)).map (Cell.order 5) = [⟨2, 5, 5, .gtc⟩] := by
    rw [OrderBook.queue_eq_filter (hrep.index .bid).nodup hlow, horders]
    decide
  -- the cursor stands on 5, and the bid at 2^32 is still live
  have hpassed : OrderBook.Passed C := by
    have hmem : (⟨1, 2 ^ 32, 5, .gtc⟩ : Spec.Order) ∈ C.orders .bid := by
      rw [horders]; exact List.mem_cons_self
    obtain ⟨p, hp, x, hx, heq⟩ := Content.mem_orders.mp hmem
    obtain rfl : p = 2 ^ 32 := congrArg Spec.Order.price heq
    exact ⟨hasks, hp, x, hx, congrArg Spec.Order.orderId heq⟩
  have hbest : (b.ownIndex (opposite .ask)).bestPrice = some 5 := by
    have hbest := hcursor.bestPrice
    rw [if_neg (by decide), hcfg] at hbest
    exact hbest
  have hfill : Spec.fill .ask none 3 ((C.queue (opposite .ask, 5)).map (Cell.order 5)) 1 =
      ([⟨2, 5, 4, .gtc⟩], 0, [.trade 2 3 5 1]) := by
    rw [show opposite .ask = Side.bid from rfl, hqueue]
    decide
  have hlive : C.spec.live < b.cfg.maxOrders.toNat := by
    rw [hspec, hcfg]
    decide
  have hfresh : C.spec.find 3 = none := by
    rw [hspec]
    rfl
  have hone : (1 : Qty) ≠ 0 := by decide
  obtain ⟨b', out, last, happly, hevents, htrades⟩ :=
    hrep.newMarket_at hbest hlow (OrderBook.vouches_passed 3) hpassed hfresh hlive hone hfill
  obtain ⟨e, rfl, hev⟩ := List.map_eq_singleton_iff.mp hevents
  refine ⟨b0, b, out0, b', _, hnew, hrun, happly, e,
    List.mem_append_left _ (List.mem_singleton_self e), fun st hfirst => ?_⟩
  obtain ⟨Ce, hrepe, hnone, hp, x, hx, hid⟩ := htrades e (List.mem_singleton_self e) _ _ _ _ hev
  obtain ⟨s, os, o, hos, ho, _, _, _, hall⟩ := hfirst _ _ _ _ hev
  rw [hrepe.restingSide_eq s] at hos
  cases hos
  cases s with
  | ask =>
    rw [Spec.Book.restingSide, Content.spec_side, Content.orders, hnone] at ho
    cases ho
  | bid =>
    have hbetter : (x.order (2 ^ 32)).resting .bid ∈ Ce.spec.restingSide .bid := by
      rw [Spec.Book.restingSide, Content.spec_side]
      exact List.mem_map_of_mem (Content.mem_orders.mpr ⟨2 ^ 32, hp, x, hx, rfl⟩)
    have hne : ((x.order (2 ^ 32)).resting .bid).orderId ≠ 2 := by
      show x.id ≠ 2
      rw [hid]
      decide
    exact (hall _ hbetter hne).1 (show (5 : Price) < 2 ^ 32 by decide)

end Matcher
