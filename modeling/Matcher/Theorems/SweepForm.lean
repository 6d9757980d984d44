import Matcher.Logic.TopTick
import Matcher.Spec.Sweep

/-!
# One sweep of a reachable book

`cross` makes of the opposite side what the closed form says, and of the taker's own
side nothing.
-/

namespace Matcher

open Kit

/-- From a reachable book, `cross` returns; the orders it trades with, its events,
their numbers, the quantity left and the orders left are those of the closed form. -/
theorem cross_closed_form {cfg : BookConfig} (hfits : cfg.Fits) {b : OrderBook}
    (h : OrderBook.Reaches cfg b) (side : Side) (limit : Option Price) (taker : OrderId) {qty : Qty}
    (hqty : qty ≠ 0) :
    ∃ R R' b' left out evs gone last, b.cross side limit taker qty = some (b', left, out) ∧
      b.Shows R ∧ b'.Shows R' ∧ R'.side side = R.side side ∧
      Spec.Sweeps taker (R.side (opposite side)) (Spec.reach side limit (R.side (opposite side)))
        qty (R'.side (opposite side), left, evs) gone last ∧
      out.map Emission.record = Spec.numbered b.seq evs ∧
      b'.seq = b.seq + UInt64.ofNat evs.length := by
  obtain ⟨C, hrep, hcfg⟩ := h.rep hfits
  have hn : b.cfg.Narrow := hcfg ▸ hfits.narrow
  obtain ⟨b', C', left, out, evs, hrun, hrep', hswept, hfill⟩ :=
    OrderBook.cross_spec side limit taker hrep hn hqty
  obtain ⟨gone, last, hsweeps⟩ := Spec.fill_sweeps side limit taker (C.orders (opposite side)) qty
  rw [hfill] at hsweeps
  refine ⟨C.spec, C'.spec, b', left, out, evs, gone, last, hrun, hrep.shows hn,
    hrep'.shows (by rw [hswept.cfg]; exact hn), ?_, ?_, hswept.record, hswept.seq⟩
  · rw [Content.spec_side, Content.spec_side]
    exact hswept.mine
  · rw [Content.spec_side, Content.spec_side]
    exact hsweeps

/-- The sweep exhausts the best bid and the first bid behind it, and stops in the second. -/
theorem cross_closed_form_small : ∃ b, OrderBook.Reaches smallBook b ∧
    (∃ b' out, b.cross .ask none 9 14 = some (b', 0, out) ∧
      out.map Emission.ev = [.trade 3 9 6 3, .closed 3 .filled, .trade 1 9 5 10, .closed 1 .filled,
        .trade 2 9 5 1]) ∧
    ∃ R R' b' left out evs gone last, b.cross .ask none 9 14 = some (b', left, out) ∧
      b.Shows R ∧ b'.Shows R' ∧ R'.side .ask = R.side .ask ∧
      Spec.Sweeps 9 (R.side (opposite .ask)) (Spec.reach .ask none (R.side (opposite .ask))) 14
        (R'.side (opposite .ask), left, evs) gone last ∧
      out.map Emission.record = Spec.numbered b.seq evs ∧
      b'.seq = b.seq + UInt64.ofNat evs.length := by
  obtain ⟨b, C, hreach, hrep, hcfg, hspec⟩ :=
    OrderBook.exists_reaches_rep smallBook_opens smallQueue
  obtain ⟨b', C', left, out, evs, hrun, _, hswept, hfill⟩ := OrderBook.cross_spec .ask none 9 hrep
    (hcfg ▸ smallBook_fits.narrow) (show (14 : Qty) ≠ 0 by decide)
  have hbids : C.orders (opposite .ask) = [⟨3, 6, 3, .gtc⟩, ⟨1, 5, 10, .gtc⟩, ⟨2, 5, 4, .gtc⟩] := by
    show C.spec.bids = _
    rw [hspec]
    decide
  rw [hbids] at hfill
  obtain ⟨_, hrest⟩ := Prod.ext_iff.mp hfill
  obtain ⟨rfl, rfl⟩ := Prod.ext_iff.mp hrest
  exact ⟨b, hreach, ⟨b', out, hrun, hswept.emitted.events⟩,
    cross_closed_form smallBook_fits hreach .ask none 9 (by decide)⟩

/-- With 2^32 ticks, a market order meets a side that holds 5, and trades nothing. -/
theorem sweep_misses_top_tick : ∃ b, ∃ R : Spec.Book, OrderBook.Reaches wideBook b ∧
    (∀ s, b.restingSide s = some (R.restingSide s)) ∧
    Spec.volume (Spec.reach .ask none (R.side (opposite .ask))) = 5 ∧
    b.cross .ask none 2 3 = some (b, 3, []) := by
  obtain ⟨b, C, hreach, hrep, _, hspec, hcursor⟩ := OrderBook.exists_hidden_bid
  refine ⟨b, C.spec, hreach, hrep.restingSide_eq, ?_, (hcursor .bid).cross⟩
  rw [hspec]
  decide

end Matcher
