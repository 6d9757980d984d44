import Matcher.Logic.Robbed
import Matcher.Logic.Runs
import Matcher.Spec.Sweep
import Matcher.Spec.Untimed
import Matcher.Theorems.TimeInForce

/-!
# A replace that loses its place is a cancel and a new order

Both take the order out, match its new quantity at its new price and rest what is
left at the back. They differ in the last event's kind, in the one event of the
cancel, and in the time in force that is recorded with the order.
-/

namespace Matcher

open Kit

namespace Spec

variable {cfg : BookConfig} {available : Side → Price → List Order → Nat} {R : Book}

/-- The time in force of the order `id`, forgotten. -/
def Order.untimedFor (id : OrderId) (o : Order) : Order := if o.orderId = id then o.untimed else o

theorem untimedFor_price (id : OrderId) (o : Order) : (o.untimedFor id).price = o.price := by
  rw [Order.untimedFor]
  split <;> rfl

/-- What both orders of commands come to: the events of the sweep, and the last one. -/
structure SameCourse (id : OrderId) (s : Side) (price : Price) (r n : Book × List Event)
    (fills : List Event) (last last' : Event) :
    Prop where
  replaced : r.2 = fills ++ [last]
  submitted : n.2 = fills ++ [last']
  fills : ∀ e ∈ fills, FillsFor id e
  last : last = .closed id .filled ∧ last' = .closed id .filled ∨
    ∃ left, last = .replaced id price left ∧ last' = .accepted id left
  books : ∀ s', (r.1.side s').map (Order.untimedFor id) = (n.1.side s').map (Order.untimedFor id)

theorem SameCourse.untimed {id : OrderId} {s : Side} {price : Price} {r n : Book × List Event}
    {fills : List Event} {last last' : Event} (h : SameCourse id s price r n fills last last') :
    r.1.untimed = n.1.untimed := by
  have hforget : ∀ os : List Order, (os.map (Order.untimedFor id)).map Order.untimed =
      os.map Order.untimed := by
    intro os
    rw [List.map_map]
    refine List.map_congr_left fun o _ => ?_
    rw [Function.comp_apply, Order.untimedFor]
    split <;> rfl
  have hside : ∀ s', (r.1.side s').map Order.untimed = (n.1.side s').map Order.untimed :=
    fun s' => by
    rw [← hforget, h.books s', hforget]
  have hbids := hside .bid
  have hasks := hside .ask
  exact congrArg₂ Book.mk hbids hasks

/-- A canceled order is gone, and there is room for another. -/
theorem live_remove_lt {id : OrderId} {s : Side} {o : Order} (hfind : R.find id = some (s, o)) :
    (R.remove s id).live < R.live := by
  obtain ⟨ho, hid⟩ := find_eq_some hfind
  have hlt : ((R.side s).filter fun x => x.orderId ≠ id).length < (R.side s).length :=
    List.length_filter_lt_length_iff_exists.mpr ⟨o, ho, by simp [hid]⟩
  cases s
  · exact Nat.add_lt_add_right hlt _
  · exact Nat.add_lt_add_left hlt _

theorem find_remove (hR : Sound R) {id : OrderId} {s : Side} {o : Order}
    (hfind : R.find id = some (s, o)) :
    (R.remove s id).find id = none := by
  obtain ⟨ho, hid⟩ := find_eq_some hfind
  refine find_eq_none.mpr fun s' x hx => ?_
  rw [hR.remove_side ho hid] at hx
  simpa using List.of_mem_filter hx

/-- The replace, and the new order after the cancel. -/
theorem replace_sameCourse (cfg : BookConfig) (available : Side → Price → List Order → Nat)
    (hR : Sound R) (hfull : R.live ≤ cfg.maxOrders.toNat) {id : OrderId} {s : Side} {o : Order}
    (hfind : R.find id = some (s, o)) {price : Price} {qty : Qty} (hqty : qty ≠ 0)
    (hvalid : validPrice cfg price = true) (hlose : ¬ (price = o.price ∧ qty ≤ o.qty)) :
    ∃ fills last last', SameCourse id s price (replace cfg R id price qty)
      (newOrder cfg available (R.remove s id) (.newLimit id s price qty .gtc)) fills
        last last' := by
  have hfind' := find_remove hR hfind
  have hcheck : checkNew cfg available (R.remove s id) (.newLimit id s price qty .gtc) = none := by
    have hopen : ¬ cfg.maxOrders.toNat ≤ (R.remove s id).live :=
      Nat.not_le.mpr (lt_of_lt_of_le (live_remove_lt hfind) hfull)
    simp [checkNew, Command.newLimit, hqty, hvalid, hfind', hopen]
  have hfills : ∀ e ∈ (fill s (some price) id ((R.remove s id).side (opposite s)) qty).2.2,
      FillsFor id e := by
    intro e he
    rcases fill_event he with h | ⟨x, hx, rfl⟩
    · exact Or.inl h
    · exact Or.inr ⟨x.orderId, find_eq_none.mp hfind' _ x hx, rfl⟩
  rw [replace, hfind, newOrder, hcheck]
  simp only [if_neg hqty, hvalid, if_neg hlose, Command.newLimit, if_true, Bool.true_eq_false,
    if_false, true_or, and_self]
  by_cases hleft : (fill s (some price) id ((R.remove s id).side (opposite s)) qty).2.1 = 0
  · simp only [if_pos hleft]
    exact ⟨_, _, _, rfl, rfl, hfills, Or.inl ⟨rfl, rfl⟩, fun _ => rfl⟩
  · simp only [if_neg hleft]
    refine ⟨_, _, _, rfl, rfl, hfills, Or.inr ⟨_, rfl, rfl⟩, fun s' => ?_⟩
    rcases side_eq_or s s' with rfl | rfl
    · rw [Book.side_set, Book.side_set, insertBack_map (untimedFor_price id),
        insertBack_map (untimedFor_price id)]
      congr 1
      simp [Order.untimedFor, Order.untimed]
    · rw [Book.side_set_opposite, Book.side_set_opposite]

/-- The range sum looks at no time in force. -/
theorem summed_untimed (s : Side) (price : Price) (os : List Order) :
    summed cfg s price (os.map Order.untimed) = summed cfg s price os := by
  cases s
  · simp only [summed, List.filter_map, List.map_map]
    rfl
  · simp only [summed, List.filter_map, List.map_map]
    rfl

theorem numbered_succ (n : UInt64) (evs : List Event) :
    numbered (n + 1) evs = (numbered n evs).map fun e => (e.1 + 1, e.2) := by
  induction evs generalizing n with
  | nil => rfl
  | cons e es ih => rw [numbered, numbered, ih, List.map_cons]

end Spec

/-- A resting order with the time in force of `id` forgotten. -/
def RestingOrder.untimedFor (id : OrderId) (o : RestingOrder) : RestingOrder :=
  if o.orderId = id then { o with tif := .gtc } else o

theorem resting_untimedFor {id : OrderId} {R R' : Spec.Book}
    (h : ∀ s, (R.side s).map (Spec.Order.untimedFor id) =
      (R'.side s).map (Spec.Order.untimedFor id)) :
    R.resting.map (RestingOrder.untimedFor id) = R'.resting.map (RestingOrder.untimedFor id) := by
  have hside : ∀ (Q : Spec.Book) s, (Q.restingSide s).map (RestingOrder.untimedFor id) =
      ((Q.side s).map (Spec.Order.untimedFor id)).map (Spec.Order.resting s) := by
    intro Q s
    rw [Spec.Book.restingSide, List.map_map, List.map_map]
    refine List.map_congr_left fun o _ => ?_
    rw [Function.comp_apply, Function.comp_apply, RestingOrder.untimedFor, Spec.Order.untimedFor]
    by_cases hid : o.orderId = id
    · rw [if_pos hid, if_pos (show (o.resting s).orderId = id from hid)]
      rfl
    · rw [if_neg hid, if_neg (show ¬ (o.resting s).orderId = id from hid)]
  rw [Spec.Book.resting, Spec.Book.resting, List.map_append, List.map_append, hside, hside, hside,
    hside, h, h]

/-- In `b`, a replace of the live order `id` of side `s` to price `p` and quantity `q`,
beside a cancel of `id` and a new good-till-cancel order: the same trades and closures
one number earlier, `replaced` where the other says `accepted`, the same orders left but
for the time in force recorded for `id`, and the same answers to every later run. -/
def OrderBook.ReplacesAsNew (b : OrderBook) (id : OrderId) (s : Side) (p : Price)
    (q : Qty) : Prop :=
  ∃ br outr bc outc bn outn fills last last' osr osn,
    b.apply (.replace id p q) = some (br, outr) ∧ b.apply (.cancel id) = some (bc, outc) ∧
    bc.apply (.newLimit id s p q .gtc) = some (bn, outn) ∧
    outr.map Emission.record = Spec.numbered b.seq (fills ++ [last]) ∧
    outc.map Emission.record = Spec.numbered b.seq [.closed id .cancelled] ∧
    outn.map Emission.record = Spec.numbered (b.seq + 1) (fills ++ [last']) ∧
    (∀ e ∈ fills, Spec.FillsFor id e) ∧
    (last = .closed id .filled ∧ last' = .closed id .filled ∨
      ∃ left, last = .replaced id p left ∧ last' = .accepted id left) ∧
    br.restingOrders = some osr ∧ bn.restingOrders = some osn ∧
    osr.map (RestingOrder.untimedFor id) = osn.map (RestingOrder.untimedFor id) ∧
    ∀ cs, ∃ br' outr' bn' outn', br.applyAll cs = some (br', outr') ∧
      bn.applyAll cs = some (bn', outn') ∧
      outn'.map Emission.record = (outr'.map Emission.record).map fun e => (e.1 + 1, e.2)

/-- In a reachable book, a replace of a live order at a valid new price that does not
keep its place is a cancel and a new order. -/
theorem replace_as_new {cfg : BookConfig} (hfits : cfg.Fits) {b : OrderBook}
    (h : OrderBook.Reaches cfg b) {id : OrderId} {s : Side} {p0 p : Price} {q0 q : Qty}
    (hlive : b.order id = some (some ⟨id, s, p0, q0⟩)) (hok : b.priceOk p = true) (hqty : q ≠ 0)
    (hlose : ¬ (p = p0 ∧ q ≤ q0)) : b.ReplacesAsNew id s p q := by
  obtain ⟨C, hrep, hcfg⟩ := h.rep hfits
  have hn : b.cfg.Narrow := hcfg ▸ hfits.narrow
  obtain ⟨o, hfind, hinfo⟩ : ∃ o, C.spec.find id = some (s, o) ∧ o.price = p0 ∧ o.qty = q0 := by
    rw [hrep.order_eq, Spec.Book.info] at hlive
    obtain ⟨⟨s', o⟩, hfind, heq⟩ := Option.map_eq_some_iff.mp (Option.some.inj hlive)
    cases heq
    exact ⟨o, hfind, rfl, rfl⟩
  obtain ⟨rfl, rfl⟩ := hinfo
  have hvalid : Spec.validPrice b.cfg p = true := by rwa [OrderBook.priceOk_eq] at hok
  have hfull : C.spec.live ≤ b.cfg.maxOrders.toNat := by
    have h1 := hrep.ids.card
    have h2 := hrep.ids.full
    rw [hrep.spec_live]
    omega
  -- the three commands, run on the book and on its lists
  obtain ⟨br, Cr, outr, hrunr, hdoner⟩ := hrep.apply hn (.replace id p q)
  obtain ⟨bc, Cc, outc, hrunc, hdonec⟩ := hrep.apply hn (.cancel id)
  obtain ⟨bn, Cn, outn, hrunn, hdonen⟩ :=
    hdonec.rep.apply (hdonec.cfg ▸ hn) (.newLimit id s p q .gtc)
  have hcancel : Spec.step b.cfg (Spec.summed b.cfg) C.spec (.cancel id) =
      (C.spec.remove s id, [.closed id .cancelled]) := by
    show Spec.cancel C.spec id = _
    rw [Spec.cancel, hfind]
  -- on the lists both ways trade alike and end alike, up to the time in force
  obtain ⟨fills, last, last', hsame⟩ :=
    Spec.replace_sameCourse b.cfg (Spec.summed b.cfg) hrep.sound hfull hfind hqty hvalid hlose
  have hspecr : Cr.spec = (Spec.replace b.cfg C.spec id p q).1 := hdoner.spec
  have hspecn : Cn.spec = (Spec.newOrder b.cfg (Spec.summed b.cfg) (C.spec.remove s id)
      (.newLimit id s p q .gtc)).1 := by
    have hspec := hdonen.spec
    rw [hdonec.cfg, hdonec.spec, hcancel] at hspec
    exact hspec
  have hevsn : (Spec.step bc.cfg (Spec.summed bc.cfg) Cc.spec (.newLimit id s p q .gtc)).2 =
      fills ++ [last'] := by
    rw [hdonec.cfg, hdonec.spec, hcancel]
    exact hsame.submitted
  have hseqc : bc.seq = b.seq + 1 := by
    rw [hdonec.seq, hcancel]
    rfl
  refine ⟨br, outr, bc, outc, bn, outn, fills, last, last', _, _, hrunr, hrunc, hrunn, ?_, ?_, ?_,
    hsame.fills, hsame.last, (hdoner.rep.shows (hdoner.cfg ▸ hn)).restingOrders,
    (hdonen.rep.shows (by rw [hdonen.cfg, hdonec.cfg]; exact hn)).restingOrders, ?_, fun cs => ?_⟩
  · rw [hdoner.record]
    exact congrArg _ hsame.replaced
  · rw [hdonec.record, hcancel]
  · rw [hdonen.record, hevsn, hseqc]
  · rw [hspecr, hspecn]
    exact resting_untimedFor hsame.books
  · obtain ⟨br', Cr', outr', hrunr', hdoner'⟩ := hdoner.rep.applyAll (hdoner.cfg ▸ hn) cs
    obtain ⟨bn', Cn', outn', hrunn', hdonen'⟩ := hdonen.rep.applyAll
      (by rw [hdonen.cfg, hdonec.cfg]; exact hn) cs
    refine ⟨br', outr', bn', outn', hrunr', hrunn', ?_⟩
    -- from here on neither book shows which way it came
    have huntimed : Cr.spec.untimed = Cn.spec.untimed := by
      rw [hspecr, hspecn]
      exact hsame.untimed
    obtain ⟨_, hevs⟩ :=
      Spec.run_untimed b.cfg (fun s p os => Spec.summed_untimed s p os) huntimed cs
    -- one event apart: the cancel's
    have hseq : bn.seq = br.seq + 1 := by
      have hr : br.seq = b.seq + UInt64.ofNat (fills ++ [last]).length := by
        rw [hdoner.seq]
        exact congrArg (fun evs : List Event => b.seq + UInt64.ofNat evs.length) hsame.replaced
      rw [hdonen.seq, hevsn, hseqc, hr, List.length_append, List.length_append,
        List.length_singleton, List.length_singleton]
      grind
    rw [hdonen'.record, hdoner'.record, hdonen.cfg, hdonec.cfg, hdoner.cfg, hseq,
      Spec.numbered_succ, hevs]

theorem replace_as_new_small : ∃ b, OrderBook.Reaches smallBook b ∧ b.ReplacesAsNew 1 .bid 6 9 := by
  obtain ⟨b, C, hreach, hrep, hcfg, hspec⟩ := OrderBook.exists_reaches_rep smallBook_opens smallRun
  have hlive : b.order 1 = some (some ⟨1, .bid, 5, 6⟩) := by
    rw [hrep.order_eq, hspec]
    decide +kernel
  have hok : b.priceOk 6 = true := by
    rw [OrderBook.priceOk_eq, hcfg]
    rfl
  exact ⟨b, hreach, replace_as_new smallBook_fits hreach hlive hok (by decide) (by decide)⟩

/-- With room for more than 2^29 orders an order can be live that its cancel does not
take out of the count, and the new order finds the book full. -/
theorem replace_spares_full_book : ∃ b, OrderBook.Reaches crowdedBook b ∧
    b.order 0 = some (some ⟨0, .bid, 1, 0⟩) ∧ b.priceOk 3 = true ∧
    ¬ b.ReplacesAsNew 0 .bid 3 5 := by
  obtain ⟨b0, b1, C1, out1, hnew, hrun1, h1⟩ := OrderBook.exists_packed
  obtain ⟨b2, C2, out2, hrun2, h2⟩ := h1.cancel
  obtain ⟨b, out3, lv, locs, hrun3, hcfg, hbids, hgone, hlive, hmodels, hroom, hfirst⟩ := h2.refill
  have hreach : OrderBook.Reaches crowdedBook b :=
    (OrderBook.Reaches.apply ⟨b0, _, out1, hnew, hrun1⟩ hrun2).apply hrun3
  have hprice : ∀ b' : OrderBook, b'.cfg = crowdedBook → b'.priceOk 3 = true := fun b' hb' => by
    rw [OrderBook.priceOk_eq, hb']
    rfl
  refine ⟨b, hreach, ?_, hprice b hcfg, ?_⟩
  · obtain ⟨ploc, hget, hval, _⟩ := hmodels.get_some hfirst
    have hread : b.store.chunk 0 = some Store.goneChunk := hgone
    have hslot : Store.goneChunk.s[locSlot 0]? = some ⟨0, 0⟩ := by decide
    rw [OrderBook.order, hget, Option.bind_eq_bind, Option.bind_some]
    simp only [hval, hread, hslot, Option.bind_eq_bind, Option.bind_some]
    rfl
  · rintro ⟨br, outr, bc, outc, bn, outn, fills, last, last', osr, osn, _, hcancel, hsubmit, _, _,
      hevs, _, hlast, _⟩
    obtain ⟨lad, map, hcancel', _, hmodels', htags'⟩ :=
      OrderBook.cancel_gone hbids hgone hmodels hroom hfirst
    have hbc := congrArg Prod.fst (Option.some.inj (hcancel'.symm.trans hcancel))
    dsimp only at hbc
    -- the cancel took nothing out of the store: the book is still full
    have hcontains : map.contains 0 = some false := by
      have hcard := OrderBook.card_erase hfirst
      rw [hmodels'.contains_eq (by omega), Finmap.lookup_erase]
      rfl
    have hfull : b.store.live ≥ b.cfg.maxOrders.toNat := by
      rw [hcfg, hlive]
      exact Nat.le_refl (2 ^ 29 + 1)
    have hcheck : bc.checkNew (.newLimit 0 .bid 3 5 .gtc) = some (some .bookFull) := by
      have hp := hprice bc (by rw [← hbc]; exact hcfg)
      have hm : bc.map.contains 0 = some false := by rw [← hbc]; exact hcontains
      have hl : bc.store.live ≥ bc.cfg.maxOrders.toNat := by rw [← hbc]; exact hfull
      simp [OrderBook.checkNew, Command.newLimit, hp, hm, hl]
    have hreject : bc.apply (.newLimit 0 .bid 3 5 .gtc) = some (bc.reject 0 .bookFull) := by
      show bc.newOrder (.newLimit 0 .bid 3 5 .gtc) = _
      rw [OrderBook.newOrder, hcheck]
      rfl
    cases hsubmit.symm.trans hreject
    have hsnd := congrArg (List.map Prod.snd) hevs
    rw [Spec.numbered_snd] at hsnd
    have hmem : last' ∈ [Event.rejected 0 .bookFull] := by
      have hall : fills ++ [last'] = [Event.rejected 0 .bookFull] := hsnd.symm
      rw [← hall]
      exact List.mem_append_right _ (List.mem_singleton_self last')
    rw [List.mem_singleton.mp hmem] at hlast
    rcases hlast with ⟨_, hlast⟩ | ⟨_, _, hlast⟩
    · cases hlast
    · cases hlast

end Matcher
