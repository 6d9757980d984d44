import Matcher.Logic.MarketSim
import Matcher.Spec.Course
import Matcher.Theorems.EventLog
import Matcher.Theorems.ReplaceAsNew
import Matcher.Theorems.TimeInForce

/-!
# Every kind of order comes down to good-till-cancel

A market order is an immediate-or-cancel order at the worst price there is. An
immediate-or-cancel order is a good-till-cancel order that is cancelled at once if it came
to rest. A fill-or-kill or post-only order that is not rejected for what it asks is a
good-till-cancel order.
-/

namespace Matcher

namespace Spec

section Orders

variable {cfg : BookConfig} {available : Side → Price → List Order → Nat} {R : Book}
    {id : OrderId} {s : Side}
  {p : Price} {q : Qty} {os : List Order}

/-- A limit that admits everything is no limit. -/
theorem fill_unlimited {taker : OrderId} (h : ∀ o ∈ os, admits s (some p) o.price = true)
    (qty : Qty) :
    fill s none taker os qty = fill s (some p) taker os qty := by
  induction os generalizing qty with
  | nil => rfl
  | cons o os ih =>
    have hfirst : admits s (some p) o.price = true := h o List.mem_cons_self
    have hnone : admits s none o.price = true := by cases s <;> rfl
    unfold fill
    rw [hfirst, hnone, ih fun o' ho' => h o' (List.mem_cons_of_mem o ho')]

theorem market_step (hvalid : validPrice cfg p = true)
    (h : ∀ o ∈ R.side (opposite s), admits s (some p) o.price = true) :
    step cfg available R (.newMarket id s q) = step cfg available R (.newLimit id s p q .ioc) := by
  have hcheck : checkNew cfg available R (.newMarket id s q) =
      checkNew cfg available R (.newLimit id s p q .ioc) := by
    simp [checkNew, Command.newMarket, Command.newLimit, hvalid]
  have hmarket : step cfg available R (.newMarket id s q) =
      newOrder cfg available R (.newMarket id s q) := rfl
  have hlimit : step cfg available R (.newLimit id s p q .ioc) =
      newOrder cfg available R (.newLimit id s p q .ioc) := rfl
  rw [hmarket, hlimit]
  unfold newOrder
  rw [hcheck]
  cases checkNew cfg available R (.newLimit id s p q .ioc) with
  | some r => rfl
  | none =>
    have hfill : fill s none id _ q = fill s (some p) id _ q := fill_unlimited h q
    simp [Command.newMarket, Command.newLimit, hfill]

theorem insertBack_remove {o : Order} (h : ∀ x ∈ os, x.orderId ≠ o.orderId) :
    (insertBack s o os).filter (fun x => x.orderId ≠ o.orderId) = os := by
  have hos : os.filter (fun x => x.orderId ≠ o.orderId) = os :=
    List.filter_eq_self.mpr fun x hx => decide_eq_true (h x hx)
  induction os with
  | nil => simp [insertBack]
  | cons x xs ih =>
    have hx := h x List.mem_cons_self
    have hxs : ∀ y ∈ xs, y.orderId ≠ o.orderId := fun y hy => h y (List.mem_cons_of_mem x hy)
    unfold insertBack
    split
    · rw [List.filter_cons_of_neg (by simp), hos]
    · rw [List.filter_cons_of_pos (by simpa using hx),
        ih hxs (List.filter_eq_self.mpr fun y hy => decide_eq_true (hxs y hy))]

/-- An order that just came to rest is cancelled, and it is as if it had not rested. -/
theorem cancel_rested {o : Order} (hfree : ∀ s', ∀ x ∈ R.side s', x.orderId ≠ o.orderId) :
    cancel (R.set s (insertBack s o (R.side s))) o.orderId =
      (R, [.closed o.orderId .cancelled]) := by
  unfold cancel
  split
  · next hfind =>
    refine absurd rfl (find_eq_none.mp hfind s o ?_)
    rw [Book.side_set]
    exact mem_insertBack.mpr (Or.inl rfl)
  · next s' x hfind =>
    obtain ⟨hx, hid⟩ := find_eq_some hfind
    rcases side_eq_or s s' with rfl | rfl
    · unfold Book.remove
      rw [Book.side_set, insertBack_remove (hfree s')]
      cases s' <;> rfl
    · rw [Book.side_set_opposite] at hx
      exact absurd hid (hfree _ x hx)

/-- An order that is cancelled at once does what it does good-till-cancel; if that came to
rest, a cancel makes up for it. -/
theorem ioc_step (cfg : BookConfig) (available : Side → Price → List Order → Nat) (R : Book)
    (id : OrderId) (s : Side) (p : Price) (q : Qty) :
    step cfg available R (.newLimit id s p q .ioc) =
      step cfg available R (.newLimit id s p q .gtc) ∨
      ∃ Q evs left, step cfg available R (.newLimit id s p q .ioc) =
        (Q, evs ++ [.closed id .expired]) ∧
        (step cfg available R (.newLimit id s p q .gtc)).2 = evs ++ [.accepted id left] ∧
        step cfg available (step cfg available R (.newLimit id s p q .gtc)).1 (.cancel id) =
          (Q, [.closed id .cancelled]) := by
  have hcheck : checkNew cfg available R (.newLimit id s p q .ioc) =
      checkNew cfg available R (.newLimit id s p q .gtc) := by
    simp [checkNew, Command.newLimit]
  have hioc : step cfg available R (.newLimit id s p q .ioc) =
      newOrder cfg available R (.newLimit id s p q .ioc) := rfl
  have hgtc : step cfg available R (.newLimit id s p q .gtc) =
      newOrder cfg available R (.newLimit id s p q .gtc) := rfl
  have hcancel : ∀ Q : Book, step cfg available Q (.cancel id) = cancel Q id := fun _ => rfl
  rw [hioc, hgtc]
  simp only [hcancel]
  unfold newOrder
  rw [hcheck]
  cases hnone : checkNew cfg available R (.newLimit id s p q .gtc) with
  | some r => exact Or.inl rfl
  | none =>
    have hfree := find_eq_none.mp (checkNew_admits hnone).2.2
    simp only [Command.newLimit] at hfree ⊢
    by_cases hleft : (fill s (some p) id (R.side (opposite s)) q).2.1 = 0
    · exact Or.inl (by simp [hleft])
    · refine Or.inr ⟨R.set (opposite s) (fill s (some p) id (R.side (opposite s)) q).1,
        (fill s (some p) id (R.side (opposite s)) q).2.2,
        (fill s (some p) id (R.side (opposite s)) q).2.1, by simp [hleft], by simp [hleft], ?_⟩
      have hswept := Mirror.fill_free s (some p) id q hfree
      have hrested := cancel_rested (s := s) (o := ⟨id, p,
        (fill s (some p) id (R.side (opposite s)) q).2.1, .gtc⟩) hswept
      simpa [hleft] using hrested

/-- What a fill-or-kill order is checked for beyond what every order is. -/
theorem checkNew_gtc_fok (cfg : BookConfig) (available : Side → Price → List Order → Nat) (R : Book)
    (id : OrderId) (s : Side) (p : Price) (q : Qty) :
    checkNew cfg available R (.newLimit id s p q .fok) =
      match checkNew cfg available R (.newLimit id s p q .gtc) with
      | some r => some r
      | none =>
        if available s p (R.side (opposite s)) < q.toNat then some .fokCannotFill else none := by
  simp only [checkNew, Command.newLimit, true_and, reduceCtorEq, false_and, if_false]
  by_cases hqty : q = 0
  · simp [hqty]
  by_cases hprice : validPrice cfg p = false
  · simp [hqty, hprice]
  by_cases hdup : (R.find id).isSome = true
  · simp [hqty, hprice, hdup]
  by_cases hfull : cfg.maxOrders.toNat ≤ R.live
  · simp [hqty, hprice, hdup, hfull]
  · simp [hqty, hprice, hdup, hfull]

theorem fok_step (hR : Sound R)
    (hle : available s p (R.side (opposite s)) ≤ offered s p (R.side (opposite s))) :
    step cfg available R (.newLimit id s p q .fok) = (R, [.rejected id .fokCannotFill]) ∨
      step cfg available R (.newLimit id s p q .fok) =
        step cfg available R (.newLimit id s p q .gtc) := by
  have hfok : step cfg available R (.newLimit id s p q .fok) =
      newOrder cfg available R (.newLimit id s p q .fok) := rfl
  have hgtc : step cfg available R (.newLimit id s p q .gtc) =
      newOrder cfg available R (.newLimit id s p q .gtc) := rfl
  rw [hfok, hgtc]
  unfold newOrder
  rw [checkNew_gtc_fok]
  cases checkNew cfg available R (.newLimit id s p q .gtc) with
  | some r => exact Or.inr rfl
  | none =>
    by_cases hshort : available s p (R.side (opposite s)) < q.toNat
    · refine Or.inl ?_
      simp [hshort, Command.newLimit]
    · -- what is available covers the order, so nothing of it is left
      have hleft : (fill s (some p) id (R.side (opposite s)) q).2.1 = 0 := by
        rw [fill_left_eq_zero, volume_reach (hR.sorted _)]
        exact (Nat.not_lt.mp hshort).trans hle
      refine Or.inr ?_
      simp [hshort, Command.newLimit, hleft]

theorem postOnly_step (cfg : BookConfig) (available : Side → Price → List Order → Nat) (R : Book)
    (id : OrderId) (s : Side) (p : Price) (q : Qty) :
    step cfg available R (.newLimit id s p q .postOnly) = (R, [.rejected id .postOnlyWouldCross]) ∨
      (step cfg available R (.newLimit id s p q .postOnly)).2 =
        (step cfg available R (.newLimit id s p q .gtc)).2 ∧
        (step cfg available R (.newLimit id s p q .postOnly)).1.untimed =
          (step cfg available R (.newLimit id s p q .gtc)).1.untimed := by
  have hpost : step cfg available R (.newLimit id s p q .postOnly) =
      newOrder cfg available R (.newLimit id s p q .postOnly) := rfl
  have hgtc : step cfg available R (.newLimit id s p q .gtc) =
      newOrder cfg available R (.newLimit id s p q .gtc) := rfl
  have hcheck : checkNew cfg available R (.newLimit id s p q .postOnly) =
      match checkNew cfg available R (.newLimit id s p q .gtc) with
      | some r => some r
      | none => if crosses s p (R.side (opposite s)) then some .postOnlyWouldCross else none :=
    checkNew_postOnly (c := .newLimit id s p q .postOnly) cfg available R rfl rfl
  rw [hpost, hgtc]
  unfold newOrder
  rw [hcheck]
  cases checkNew cfg available R (.newLimit id s p q .gtc) with
  | some r => exact Or.inr ⟨rfl, rfl⟩
  | none =>
    by_cases hcross : crosses s p (R.side (opposite s)) = true
    · refine Or.inl ?_
      simp [hcross, Command.newLimit]
    · refine Or.inr ?_
      have hfill : fill s (some p) id (R.side (opposite s)) q = (R.side (opposite s), q, []) :=
        fill_uncrossed (Bool.not_eq_true _ ▸ hcross)
      simp only [hcross, Command.newLimit, if_true, hfill]
      by_cases hq : q = 0
      · simp [hq]
      · simp only [hq, if_false, true_and, or_true, reduceCtorEq, or_false, if_true, untimed_set]
        rw [insertBack_map untimed_price, insertBack_map untimed_price]
        rfl

end Orders

end Spec

/-- The worst price for an order on the side `s` that the book takes. -/
def BookConfig.worst (cfg : BookConfig) (s : Side) : Price :=
  match cfg.index, s with
  | .ladder, .bid => cfg.priceMax
  | .ladder, .ask => cfg.priceMin
  | .tree, .bid => Int64.maxValue
  | .tree, .ask => 1

section Worst

variable {cfg : BookConfig} {s : Side} {p : Price}

theorem BookConfig.worst_valid (hrange : cfg.index = .ladder → cfg.priceMin ≤ cfg.priceMax)
    (s : Side) :
    Spec.validPrice cfg (cfg.worst s) = true := by
  unfold Spec.validPrice BookConfig.worst
  cases hindex : cfg.index with
  | ladder =>
    have hle := hrange hindex
    cases s <;> simp [hle]
  | tree => cases s <;> rfl

/-- It admits every price the book takes. -/
theorem BookConfig.worst_admits (h : Spec.validPrice cfg p = true) (s : Side) :
    Spec.admits s (some (cfg.worst s)) p = true := by
  unfold Spec.validPrice at h
  unfold Spec.admits BookConfig.worst
  cases hindex : cfg.index with
  | ladder =>
    rw [hindex] at h
    simp only [Bool.and_eq_true, decide_eq_true_eq] at h
    cases s
    · exact decide_eq_true h.2
    · exact decide_eq_true h.1
  | tree =>
    rw [hindex] at h
    have hpos := Int64.lt_iff_toInt_lt.mp (of_decide_eq_true h)
    cases s
    · exact decide_eq_true (Int64.le_iff_toInt_le.mpr (Int64.toInt_le p))
    · refine decide_eq_true (Int64.le_iff_toInt_le.mpr ?_)
      rw [Int64.toInt_zero] at hpos
      exact hpos

end Worst

namespace OrderBook

theorem Denotes.valid {cfg : BookConfig} {b : OrderBook} {a : Spec.Sheet}
    (h : b.Denotes cfg a) (s : Side) :
    ∀ o ∈ a.1.side s, Spec.validPrice cfg o.price = true := by
  obtain ⟨C, hrep, hspec, _, hcfg⟩ := h
  intro o ho
  rw [← hspec] at ho
  rw [validPrice_iff, ← hcfg]
  exact (hrep.valid_spec s o ho).1

/-- Two commands after which the specification stands alike. -/
theorem Denotes.alike {cfg : BookConfig} {b : OrderBook} {a : Spec.Sheet} (hn : cfg.Narrow)
    (h : b.Denotes cfg a) {c c' : Command}
    (hstep : Spec.step cfg (Spec.summed cfg) a.1 c = Spec.step cfg (Spec.summed cfg) a.1 c') :
    ∃ b1 out1 b2 out2, b.apply c = some (b1, out1) ∧ b.apply c' = some (b2, out2) ∧
      out1.map Emission.record = out2.map Emission.record ∧ b1.seq = b2.seq ∧ b1.Agree b2 := by
  obtain ⟨b1, out1, hrun1, hout1, hden1⟩ := h.apply hn c
  obtain ⟨b2, out2, hrun2, hout2, hden2⟩ := h.apply hn c'
  have hserve : Spec.serve cfg (Spec.summed cfg) a c = Spec.serve cfg (Spec.summed cfg) a c' := by
    unfold Spec.serve
    rw [hstep]
  rw [hserve] at hout1 hden1
  exact ⟨b1, out1, b2, out2, hrun1, hrun2, hout1.trans hout2.symm, hden1.seq.trans hden2.seq.symm,
    hden1.agree hn hden2⟩

end OrderBook

/-- On a reachable book whose prices are not an empty range, a market order does what an
immediate-or-cancel order at the worst price does. -/
theorem market_is_ioc {cfg : BookConfig} (hfits : cfg.Fits)
    (hrange : cfg.index = .ladder → cfg.priceMin ≤ cfg.priceMax)
    {b : OrderBook} (hreach : OrderBook.Reaches cfg b) (id : OrderId) (s : Side) (q : Qty) :
    ∃ b1 out1 b2 out2, b.apply (.newMarket id s q) = some (b1, out1) ∧
      b.apply (.newLimit id s (cfg.worst s) q .ioc) = some (b2, out2) ∧
      out1.map Emission.record = out2.map Emission.record ∧ b1.seq = b2.seq ∧ b1.Agree b2 := by
  obtain ⟨a, hden⟩ := hreach.denotes hfits
  refine hden.alike hfits.narrow (Spec.market_step (BookConfig.worst_valid hrange s) fun o ho => ?_)
  exact BookConfig.worst_admits (hden.valid _ o ho) s

theorem market_is_ioc_small : ∃ b, OrderBook.Reaches smallBook b ∧
    ∃ b1 out1 b2 out2, b.apply (.newMarket 3 .ask 9) = some (b1, out1) ∧
      b.apply (.newLimit 3 .ask 1 9 .ioc) = some (b2, out2) ∧
      out1.map Emission.record = out2.map Emission.record ∧ b1.seq = b2.seq ∧ b1.Agree b2 := by
  obtain ⟨b, hreach⟩ := OrderBook.exists_reaches smallBook_opens smallRun
  exact ⟨b, hreach, market_is_ioc smallBook_fits (fun _ => by decide) hreach 3 .ask 9⟩

/-- On a reachable book, an immediate-or-cancel order does what the same order does good
till cancelled, or that one comes to rest, and with its cancel at once it leaves the book
the immediate-or-cancel order leaves; the events differ in the last ones only. -/
theorem ioc_is_gtc_cancelled {cfg : BookConfig} (hfits : cfg.Fits) {b : OrderBook}
    (hreach : OrderBook.Reaches cfg b) (id : OrderId) (s : Side) (p : Price) (q : Qty) :
    ∃ b1 out1 b2 out2, b.apply (.newLimit id s p q .ioc) = some (b1, out1) ∧
      b.apply (.newLimit id s p q .gtc) = some (b2, out2) ∧
      (out1.map Emission.record = out2.map Emission.record ∧ b1.seq = b2.seq ∧ b1.Agree b2 ∨
        ∃ evs left b3 out3, out1.map Emission.ev = evs ++ [.closed id .expired] ∧
          out2.map Emission.ev = evs ++ [.accepted id left] ∧
          b2.apply (.cancel id) = some (b3, out3) ∧
          out3.map Emission.ev = [.closed id .cancelled] ∧ b1.Agree b3) := by
  have hn := hfits.narrow
  obtain ⟨a, hden⟩ := hreach.denotes hfits
  rcases Spec.ioc_step cfg (Spec.summed cfg) a.1 id s p q with hsame | ⟨Q, evs, left, hioc,
    hgtc, hcancel⟩
  · obtain ⟨b1, out1, b2, out2, hrun1, hrun2, hrest⟩ := hden.alike hn hsame
    exact ⟨b1, out1, b2, out2, hrun1, hrun2, Or.inl hrest⟩
  · obtain ⟨b1, out1, hrun1, hout1, hden1⟩ := hden.apply hn (.newLimit id s p q .ioc)
    obtain ⟨b2, out2, hrun2, hout2, hden2⟩ := hden.apply hn (.newLimit id s p q .gtc)
    obtain ⟨b3, out3, hrun3, hout3, hden3⟩ := hden2.apply hn (.cancel id)
    have hevents1 := Emission.events_of_serve hout1
    have hevents2 := Emission.events_of_serve hout2
    have hevents3 := Emission.events_of_serve hout3
    unfold Spec.serve at hden1 hden3 hevents3
    dsimp only at hden1 hden3 hevents3
    rw [hcancel] at hden3 hevents3
    rw [hioc] at hevents1 hden1
    rw [hgtc] at hevents2
    refine ⟨b1, out1, b2, out2, hrun1, hrun2, Or.inr ⟨evs, left, b3, out3, hevents1, hevents2,
      hrun3, hevents3, ?_⟩⟩
    have hshows1 : b1.Shows Q := hden1.shows hn
    exact hshows1.agree (hden3.shows hn)

theorem ioc_is_gtc_cancelled_small : ∃ b, OrderBook.Reaches smallBook b ∧
    ∃ b1 out1 b2 out2, b.apply (.newLimit 3 .ask 5 9 .ioc) = some (b1, out1) ∧
      b.apply (.newLimit 3 .ask 5 9 .gtc) = some (b2, out2) ∧
      (out1.map Emission.record = out2.map Emission.record ∧ b1.seq = b2.seq ∧ b1.Agree b2 ∨
        ∃ evs left b3 out3, out1.map Emission.ev = evs ++ [.closed 3 .expired] ∧
          out2.map Emission.ev = evs ++ [.accepted 3 left] ∧
          b2.apply (.cancel 3) = some (b3, out3) ∧
          out3.map Emission.ev = [.closed 3 .cancelled] ∧ b1.Agree b3) := by
  obtain ⟨b, hreach⟩ := OrderBook.exists_reaches smallBook_opens smallRun
  exact ⟨b, hreach, ioc_is_gtc_cancelled smallBook_fits hreach 3 .ask 5 9⟩

/-- On a reachable book, a fill-or-kill or post-only order is rejected for what it asks, or
emits what the same order emits good till cancelled; and from then on, whatever follows,
the two books answer with the same events and differ in that time in force alone. -/
theorem fok_postOnly_are_gtc {cfg : BookConfig} (hfits : cfg.Fits) {b : OrderBook}
    (hreach : OrderBook.Reaches cfg b) (id : OrderId) (s : Side) (p : Price) (q : Qty) {t : Tif}
    {r : RejectReason}
    (ht : t = .fok ∧ r = .fokCannotFill ∨ t = .postOnly ∧ r = .postOnlyWouldCross) :
    ∃ b1 out1 b2 out2, b.apply (.newLimit id s p q t) = some (b1, out1) ∧
      b.apply (.newLimit id s p q .gtc) = some (b2, out2) ∧
      (out1.map Emission.ev = [.rejected id r] ∧ b1.Agree b ∨
        out1.map Emission.record = out2.map Emission.record ∧
          ∀ cs, ∃ b1' out1' b2' out2' R1 R2, b1.applyAll cs = some (b1', out1') ∧
            b2.applyAll cs = some (b2', out2') ∧
            out1'.map Emission.record = out2'.map Emission.record ∧ b1'.Shows R1 ∧ b2'.Shows R2 ∧
            R1.untimed = R2.untimed) := by
  have hn := hfits.narrow
  obtain ⟨a, hden⟩ := hreach.denotes hfits
  have hstep : Spec.step cfg (Spec.summed cfg) a.1 (.newLimit id s p q t) =
      (a.1, [.rejected id r]) ∨ (Spec.step cfg (Spec.summed cfg) a.1 (.newLimit id s p q t)).2 =
        (Spec.step cfg (Spec.summed cfg) a.1 (.newLimit id s p q .gtc)).2 ∧
        (Spec.step cfg (Spec.summed cfg) a.1 (.newLimit id s p q t)).1.untimed =
          (Spec.step cfg (Spec.summed cfg) a.1 (.newLimit id s p q .gtc)).1.untimed := by
    rcases ht with ⟨rfl, rfl⟩ | ⟨rfl, rfl⟩
    · have hfok : Spec.step cfg (Spec.summed cfg) a.1 (.newLimit id s p q .fok) =
          (a.1, [.rejected id .fokCannotFill]) ∨
          Spec.step cfg (Spec.summed cfg) a.1 (.newLimit id s p q .fok) =
            Spec.step cfg (Spec.summed cfg) a.1 (.newLimit id s p q .gtc) :=
        Spec.fok_step hden.sound Spec.summed_le_offered
      rcases hfok with hrejected | hsame
      · exact Or.inl hrejected
      · rw [hsame]
        exact Or.inr ⟨rfl, rfl⟩
    · -- a post-only order that rests keeps its time in force, so the books agree up to that
      exact Spec.postOnly_step cfg (Spec.summed cfg) a.1 id s p q
  obtain ⟨b1, out1, hrun1, hout1, hden1⟩ := hden.apply hn (.newLimit id s p q t)
  obtain ⟨b2, out2, hrun2, hout2, hden2⟩ := hden.apply hn (.newLimit id s p q .gtc)
  refine ⟨b1, out1, b2, out2, hrun1, hrun2, ?_⟩
  rcases hstep with hrejected | ⟨hevents, hbooks⟩
  · refine Or.inl ⟨?_, ?_⟩
    · rw [Emission.events_of_serve hout1, hrejected]
    · unfold Spec.serve at hden1
      rw [hrejected] at hden1
      have hshows1 := hden1.shows hn
      have hshows := hden.shows hn
      exact hshows1.agree hshows
  · refine Or.inr ⟨?_, fun cs => ?_⟩
    · rw [hout1, hout2]
      unfold Spec.serve
      dsimp only
      rw [hevents]
    · obtain ⟨b1', out1', hrun1', hout1', hden1'⟩ := hden1.applyAll hn cs
      obtain ⟨b2', out2', hrun2', hout2', hden2'⟩ := hden2.applyAll hn cs
      rw [Spec.answer_serve] at hout1' hden1' hout2' hden2'
      unfold Spec.serve at hout1' hden1' hout2' hden2'
      dsimp only at hout1' hden1' hout2' hden2'
      obtain ⟨hlast, hrest⟩ := Spec.run_untimed cfg Spec.summed_untimed hbooks cs
      refine ⟨b1', out1', b2', out2', _, _, hrun1', hrun2', ?_, hden1'.shows hn, hden2'.shows hn,
        hlast⟩
      rw [hout1', hout2', hrest, hevents]

theorem fok_postOnly_are_gtc_small : ∃ b, OrderBook.Reaches smallBook b ∧
    ∃ b1 out1 b2 out2, b.apply (.newLimit 3 .ask 5 4 .fok) = some (b1, out1) ∧
      b.apply (.newLimit 3 .ask 5 4 .gtc) = some (b2, out2) ∧
      (out1.map Emission.ev = [.rejected 3 .fokCannotFill] ∧ b1.Agree b ∨
        out1.map Emission.record = out2.map Emission.record ∧
          ∀ cs, ∃ b1' out1' b2' out2' R1 R2, b1.applyAll cs = some (b1', out1') ∧
            b2.applyAll cs = some (b2', out2') ∧
            out1'.map Emission.record = out2'.map Emission.record ∧ b1'.Shows R1 ∧ b2'.Shows R2 ∧
            R1.untimed = R2.untimed) := by
  obtain ⟨b, hreach⟩ := OrderBook.exists_reaches smallBook_opens smallRun
  exact ⟨b, hreach, fok_postOnly_are_gtc smallBook_fits hreach 3 .ask 5 4 (Or.inl ⟨rfl, rfl⟩)⟩

end Matcher
