import Matcher.Logic.Wide

/-!
# The top tick of a ladder with 2^32 ticks

The index of the last of 2^32 prices is 2^32 - 1, which is also `NIL`. The
cursor of a side whose only order rests there says the side is empty, so
`cross` finds nothing to trade with, although the bitmap, the level and the
order are all in place.
-/

namespace Matcher

open Kit

/-- A ladder with 2^32 ticks. -/
def wideBook : BookConfig := { priceMin := 1, priceMax := 2 ^ 32, maxOrders := 4 }

theorem wideBook_short : wideBook.Short := fun _ _ => by decide

namespace LadderIndex

/-- A level that gets its first order becomes the best one where there was none. -/
theorem levelInsert_best {lad lad' : LadderIndex} {p : Price} (hrun : lad.levelInsert p = some lad')
    (hbest : lad.best = NIL) :
    lad'.base = lad.base ∧
      (lad'.best = lad.idx p % 2 ^ 32 ∨ lad'.best = NIL ∧ ∃ l, lad.peek p = some l ∧
        l.empty = false) := by
  obtain ⟨l, hl, hrun⟩ := Option.bind_eq_some_iff.mp hrun
  split at hrun
  · obtain ⟨bits, _, hrun⟩ := Option.bind_eq_some_iff.mp hrun
    obtain ⟨summary, _, hrun⟩ := Option.bind_eq_some_iff.mp hrun
    cases hrun
    exact ⟨rfl, Or.inl (if_pos (Or.inl hbest))⟩
  · next hbusy =>
    cases hrun
    exact ⟨rfl, Or.inr ⟨hbest, l, hl, by simpa using hbusy⟩⟩

end LadderIndex

/-- A ladder from `base` on whose cursor is `c`. -/
structure PriceIndex.Points (ix : PriceIndex) (base : Price) (c : Nat) : Prop where
  kind : ix.kind = .ladder
  base_eq : ix.lad.base = base
  best : ix.lad.best = c

namespace PriceIndex

variable {ix ix' : PriceIndex} {base : Price} {c : Nat}

theorem Points.bestPrice (h : ix.Points base c) :
    ix.bestPrice = if c = NIL then none else some (base + Int64.ofNat c) := by
  rw [PriceIndex.bestPrice, h.kind]
  show LadderIndex.bestPrice _ = _
  rw [LadderIndex.bestPrice, h.best, LadderIndex.priceAt, h.base_eq]

theorem Points.write (h : ix.Points base c) {p : Price} {l : Level}
    (hrun : ix.write p l = some ix') :
    ix'.Points base c := by
  rw [PriceIndex.write, h.kind] at hrun
  obtain ⟨lad, hlad, rfl⟩ := Option.map_eq_some_iff.mp hrun
  obtain ⟨levels, _, hlad⟩ := Option.bind_eq_some_iff.mp hlad
  cases hlad
  exact ⟨rfl, h.base_eq, h.best⟩

theorem Points.levelInsert (h : ix.Points base NIL) {p : Price}
    (hrun : ix.levelInsert p = some ix') :
    ix'.Points base ((p - base).toUInt64.toNat % 2 ^ 32) ∨
      ix'.Points base NIL ∧ ∃ l, ix.lad.peek p = some l ∧ l.empty = false := by
  rw [PriceIndex.levelInsert, h.kind] at hrun
  obtain ⟨lad, hlad, rfl⟩ := Option.map_eq_some_iff.mp hrun
  obtain ⟨hbase, hbest⟩ := LadderIndex.levelInsert_best hlad h.best
  rw [LadderIndex.idx, h.base_eq] at hbest
  rcases hbest with hbest | ⟨hbest, hpeek⟩
  · exact Or.inl ⟨rfl, hbase.trans h.base_eq, hbest⟩
  · exact Or.inr ⟨⟨rfl, hbase.trans h.base_eq, hbest⟩, hpeek⟩

end PriceIndex

namespace OrderBook

/-- The cursor of side `s` is `c`. -/
def Cursor (b : OrderBook) (s : Side) (c : Nat) : Prop := (b.ownIndex s).Points b.cfg.priceMin c

section Cursor

variable {b b' : OrderBook} {s side : Side} {c : Nat} {limit : Option Price}
    {taker : OrderId} {qty : Qty}

/-- Nothing is matched against a side whose cursor says it is empty. -/
theorem Cursor.cross (h : b.Cursor (opposite side) NIL) :
    b.cross side limit taker qty = some (b, qty, []) := by
  have hbest := h.bestPrice
  rw [if_pos rfl] at hbest
  simp only [OrderBook.cross, slotBudget, crossFrom, hbest]
  rfl

theorem new_cursor {cfg : BookConfig} (hk : cfg.index = .ladder) (hrun : new cfg = some b) :
    b.Cursor s NIL := by
  obtain ⟨_, _, map, _, rfl⟩ := new_eq_some.mp hrun
  cases s <;> exact ⟨hk, rfl, rfl⟩

theorem Cursor.emit (h : b.Cursor s c) (e : Event) : (b.emit e).1.Cursor s c := by
  cases s <;> exact h

/-- Where the cursors stand once an order was put on side `side`. -/
theorem pushLevel_cursor {price : Price} {oid : OrderId} {tif : Tif} {loc : Nat}
    (hrun : b.pushLevel side price oid qty tif = some (b', loc)) :
    (b.Cursor (opposite side) c → b'.Cursor (opposite side) c) ∧
      (b.Cursor side NIL →
        b'.Cursor side ((price - b.cfg.priceMin).toUInt64.toNat % 2 ^ 32) ∨ b'.Cursor side NIL ∧
          ∃ l, (b.ownIndex side).lad.peek price = some l ∧ l.empty = false) := by
  obtain ⟨b1, hins, hrun⟩ := Option.bind_eq_some_iff.mp hrun
  obtain ⟨lv, _, hrun⟩ := Option.bind_eq_some_iff.mp hrun
  obtain ⟨⟨store, lv', loc'⟩, _, hrun⟩ := Option.bind_eq_some_iff.mp hrun
  obtain ⟨b2, hwrite, hrun⟩ := Option.bind_eq_some_iff.mp hrun
  cases hrun
  obtain ⟨ix, hix, rfl⟩ := Option.map_eq_some_iff.mp hins
  obtain ⟨ix', hix', rfl⟩ := Option.map_eq_some_iff.mp hwrite
  cases side
  · exact ⟨id, fun h => (h.levelInsert hix).imp (fun h => h.write hix') (fun h =>
      h.imp_left fun h => h.write hix')⟩
  · exact ⟨id, fun h => (h.levelInsert hix).imp (fun h => h.write hix') (fun h =>
      h.imp_left fun h => h.write hix')⟩

end Cursor

/-- An order that meets an opposite side of which the cursor says it is empty comes
to rest whole. -/
theorem Rep.newOrder_unseen {b : OrderBook} {C : Content} (h : Rep none none b C) {side : Side}
    (hopp : b.Cursor (opposite side) NIL) (oid : OrderId) {price : Price} {qty : Qty}
    (hvalid : b.cfg.Valid price) (hroom : b.cfg.HasRoom price) (hid : C.spec.find oid = none)
    (hlive : C.spec.live < b.cfg.maxOrders.toNat) (hqty : qty ≠ 0) :
    ∃ b' C' out, b.apply (.newLimit oid side price qty .gtc) = some (b', out) ∧
      out.map Emission.ev = [.accepted oid qty] ∧ Rep none none b' C' ∧ b'.cfg = b.cfg ∧
      C'.spec = C.spec.set side (Spec.insertBack side ⟨oid, price, qty, .gtc⟩ (C.spec.side side)) ∧
      b'.Cursor (opposite side) NIL ∧
      (b.Cursor side NIL → price ∉ C.prices side →
        b'.Cursor side ((price - b.cfg.priceMin).toUInt64.toNat % 2 ^ 32)) := by
  rw [h.spec_live] at hlive
  have hlookup := h.unfound hid
  obtain ⟨b1, C1, hrest, hrep1, _, hcfg1, hspec1⟩ :=
    h.rest side hvalid hroom hlookup hlive hqty .gtc
  have hcheck : b.checkNew (.newLimit oid side price qty .gtc) = some none := by
    have hcontains : b.map.contains oid = some false := by
      rw [h.ids.models.contains_eq h.ids.room, hlookup]
      rfl
    have hopen : ¬ b.store.live ≥ b.cfg.maxOrders.toNat := Nat.not_le.mpr hlive
    have hprice : b.priceOk price = true := by
      rw [priceOk_eq]
      exact validPrice_iff.mpr hvalid
    simp [OrderBook.checkNew, Command.newLimit, hqty, hprice, hcontains, hopen]
  obtain ⟨⟨b2, loc⟩, hpush, hmap⟩ := Option.bind_eq_some_iff.mp hrest
  obtain ⟨map, _, hmap⟩ := Option.bind_eq_some_iff.mp hmap
  obtain ⟨hkeep, hown⟩ := pushLevel_cursor (c := NIL) hpush
  have hsame : ∀ s k, b2.Cursor s k → b1.Cursor s k := by
    intro s k hk
    cases hmap
    cases s <;> exact hk
  refine ⟨(b1.emit (.accepted oid qty)).1, C1, (b1.emit (.accepted oid qty)).2, ?_, rfl,
    hrep1.set_seq _, hcfg1, hspec1, (hsame _ _ (hkeep hopp)).emit _, fun hb hp =>
      (hsame _ _ ?_).emit _⟩
  · have hcross : b.cross side (some price) oid qty = some (b, qty, []) := hopp.cross
    have happly : b.apply (.newLimit oid side price qty .gtc) =
        b.newOrder (.newLimit oid side price qty .gtc) := rfl
    rw [happly, OrderBook.newOrder, hcheck]
    simp only [Command.newLimit, if_true, hcross, hrest, if_neg hqty, true_or, and_self,
      Option.bind_eq_bind, Option.bind_some]
    rfl
  · rcases hown hb with hc | ⟨_, l, hl, hbusy⟩
    · exact hc
    · have hlist := (h.index side).ladder ((h.index side).kind ▸ hb.kind)
      have hlv := hlist.levels price l hl
      rw [(h.index side).default price hp] at hlv
      rw [hlv] at hbusy
      cases hbusy

/-- A market order that the level at the cursor fills, wherever that cursor stands. -/
theorem Rep.newMarket_at {b : OrderBook} {C : Content} (h : Rep none none b C)
    {side : Side} {bp : Price} (hbest : (b.ownIndex (opposite side)).bestPrice = some bp)
    (hmem : bp ∈ C.prices (opposite side)) {oid : OrderId} {trade : Emission → Prop}
    {P : Content → Prop} (hv : Vouches none side oid bp trade P) (hP : P C)
    (hid : C.spec.find oid = none) (hlive : C.spec.live < b.cfg.maxOrders.toNat) {qty : Qty}
    (hqty : qty ≠ 0) {rest : List Spec.Order} {evs : List Event}
    (hfill : Spec.fill side none oid ((C.queue (opposite side, bp)).map (Cell.order bp)) qty =
      (rest, 0, evs)) :
    ∃ b' out last, b.apply (.newMarket oid side qty) = some (b', out ++ [last]) ∧
      out.map Emission.ev = evs ∧ ∀ e ∈ out, trade e := by
  rw [h.spec_live] at hlive
  have hadmits : Spec.admits side none bp = true := by cases side <;> rfl
  obtain ⟨b1, C1, left, out, evs1, xs, hsweep, _, _, _, hswept, hleft, hall⟩ :=
    sweepLevel_spec hv hadmits h hP hmem hqty
  have hsame := hall []
  rw [List.append_nil, hfill] at hsame
  have hzero : left = 0 := (congrArg (fun r => r.2.1) hsame).symm
  have hevs : evs1 = evs := by
    have := congrArg (fun r => r.2.2) hsame
    simpa [Spec.afterFills, Spec.fill] using this.symm
  have hmut := (h.index (opposite side)).levelMut bp
  rw [if_neg (by
    rw [(h.store.level_empty (opposite side, bp)).1]
    exact (h.listed (opposite side, bp) (by simp)).mp hmem)] at hmut
  have hcross : b.cross side none oid qty = some (b1, 0, out) := by
    rw [OrderBook.cross, slotBudget, crossFrom]
    simp only [hbest, beyond, Bool.false_eq_true, if_false, hmut, hsweep, hzero, if_true,
      Option.bind_eq_bind, Option.bind_some]
    rfl
  have hcheck : b.checkNew (.newMarket oid side qty) = some none := by
    have hcontains : b.map.contains oid = some false := by
      rw [h.ids.models.contains_eq h.ids.room, h.unfound hid]
      rfl
    have hopen : ¬ b.store.live ≥ b.cfg.maxOrders.toNat := Nat.not_le.mpr hlive
    simp [OrderBook.checkNew, Command.newMarket, hqty, hcontains, hopen]
  refine ⟨(b1.emit (.closed oid .filled)).1, out, ⟨b1.seq + 1, .closed oid .filled,
    (b1.emit (.closed oid .filled)).1⟩, ?_, hevs ▸ hswept.emitted.events, hswept.trades⟩
  have happly : b.apply (.newMarket oid side qty) = b.newOrder (.newMarket oid side qty) := rfl
  rw [happly, OrderBook.newOrder, hcheck]
  simp only [Command.newMarket, reduceCtorEq, if_false, hcross, if_true, Option.bind_eq_bind,
    Option.bind_some]
  rfl

/-- A bid at the top tick, that the cursor does not see. -/
theorem exists_hidden_bid : ∃ b C, Reaches wideBook b ∧ Rep none none b C ∧ b.cfg = wideBook ∧
    C.spec = ⟨[⟨1, 2 ^ 32, 5, .gtc⟩], []⟩ ∧ ∀ s, b.Cursor s NIL := by
  obtain ⟨b0, hnew, hrep0, _, hcfg0⟩ := new_rep wideBook (by decide) (by decide)
  have hvalid : b0.cfg.Valid (2 ^ 32) := by
    rw [hcfg0, ← validPrice_iff]
    rfl
  have hroom : b0.cfg.HasRoom (2 ^ 32) := hrep0.room (hcfg0 ▸ wideBook_short) hvalid
  obtain ⟨b, C, out, hrun, _, hrep, hcfg, hspec, hask, hbid⟩ := hrep0.newOrder_unseen
    (new_cursor rfl hnew : b0.Cursor (opposite .bid) NIL) 1 hvalid hroom rfl (by rw [hcfg0]; decide)
    (show (5 : Qty) ≠ 0 by decide)
  refine ⟨b, C, (Reaches.start hnew).apply hrun, hrep, hcfg.trans hcfg0, hspec, ?_⟩
  have htop := hbid (new_cursor rfl hnew) List.not_mem_nil
  rw [hcfg0] at htop
  rintro (_ | _)
  · exact htop
  · exact hask

end OrderBook

end Matcher
