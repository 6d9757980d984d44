import Matcher.Logic.Robbed
import Matcher.Logic.ChunkFrame

/-!
# An order list with a dead order

The order in chunk 2^29 is read at the location of chunk 0. When the order there was
cancelled, `resting_orders` reports an order without quantity, which no restored book
with fewer chunks reports.
-/

namespace Matcher

open Kit

namespace OrderBook

/-! ## The order list -/

section Listing

variable {b : OrderBook} {C : Content}

/-- Levels with one order each are listed in one order each. -/
theorem mapM_singles {s : Side} (ds : List LevelDepth)
    (h : ∀ d ∈ ds, ∃ o, b.restingLevel s d = some [o]) :
    ∃ oss, ds.mapM (b.restingLevel s) = some oss ∧ oss.flatten.length = ds.length := by
  induction ds with
  | nil => exact ⟨[], rfl, rfl⟩
  | cons d ds ih =>
    obtain ⟨o, ho⟩ := h d List.mem_cons_self
    obtain ⟨oss, hoss, hlen⟩ := ih fun d' hd' => h d' (List.mem_cons_of_mem d hd')
    refine ⟨[o] :: oss, ?_, ?_⟩
    · rw [List.mapM_cons, ho, hoss]
      rfl
    · rw [List.flatten_cons, List.length_append, hlen, List.length_singleton, List.length_cons,
        Nat.add_comm]

theorem restingAt_lone {s side : Side} {loc : Nat} {price : Price} {id : OrderId}
    {qty : Qty} {tif : Tif}
    (hch : b.store.chunks[locChunk loc]? = some (Store.loneChunk side price id qty tif))
    (hslot : locSlot loc = 0) :
    b.restingAt s loc = some ⟨id, s, price, qty, tif⟩ := by
  simp only [restingAt, Store.chunk, hch, hslot, Option.bind_eq_bind, Option.bind_some]
  rfl

/-- There are fewer than 2^29 ask prices. -/
theorem Hollow.few_asks (h : Hollow b C) : (C.prices .ask).length < 2 ^ 29 := by
  have hsub : (C.prices .ask).toFinset ⊆ (Finset.Icc 2 (2 ^ 29)).image crowdPrice := by
    intro p hp
    obtain ⟨i, hi, hi', rfl⟩ := (h.listed p).mp (List.mem_toFinset.mp hp)
    exact Finset.mem_image_of_mem _ (Finset.mem_Icc.mpr ⟨hi, hi'⟩)
  have hcard := (Finset.card_le_card hsub).trans Finset.card_image_le
  rw [List.toFinset_card_of_nodup (h.indexed .ask).nodup, Nat.card_Icc] at hcard
  omega

/-- What is listed of the order alone in chunk `i`: in the last chunk, what is left of
the order in chunk 0. -/
theorem Hollow.restingLevel_ask (h : Hollow b C) {i : Nat} (hi : 2 ≤ i)
    (hi' : i ≤ 2 ^ 29) (total : Qty) :
    b.restingLevel .ask ⟨crowdPrice i, total⟩ = some [if i = 2 ^ 29 then ⟨0, .ask, 1, 0, .gtc⟩
      else ⟨UInt64.ofNat i, .ask, crowdPrice i, 1, .gtc⟩] := by
  have hmut := (h.indexed .ask).levelMut (crowdPrice i)
  have hnil : (2 : Nat) ^ 29 < NIL := by decide
  have hbusy : (⟨i, i, 1⟩ : Level).empty = false := by
    rw [Level.empty, beq_eq_false_iff_ne]
    show i ≠ NIL
    omega
  rw [h.levels i hi hi', hbusy, if_neg Bool.false_ne_true] at hmut
  refine restingLevel_single hmut (show (⟨i, i, 1⟩ : Level).head = i from rfl) (by omega)
    (h.chunk i hi hi') rfl rfl rfl
    (show (Store.loneChunk .ask (crowdPrice i) (UInt64.ofNat i) 1 .gtc).s[0]? =
      some ⟨UInt64.ofNat i, 1⟩ from rfl)
    (show (1 : Qty) ≠ 0 by decide) ?_
  by_cases hlast : i = 2 ^ 29
  · rw [if_pos hlast, hlast, show mkLoc (2 ^ 29) 0 = 0 by decide]
    have hgone : b.store.chunk 0 = some Store.goneChunk := h.gone
    rw [restingAt, hgone]
    rfl
  · rw [if_neg hlast]
    refine @restingAt_lone b .ask .ask _ _ _ _ _ ?_ (locSlot_mkLoc (by omega) (by decide))
    rw [locChunk_mkLoc (by omega) (by decide)]
    exact h.chunk i hi hi'

theorem Hollow.restingSide_bid (h : Hollow b C) :
    b.restingSide .bid = some [⟨1, .bid, 2, 1, .gtc⟩] := by
  have hmut := (h.indexed .bid).levelMut 2
  rw [h.level, if_neg (by decide)] at hmut
  have hlevel : b.restingLevel .bid ⟨2, 1⟩ = some [⟨1, .bid, 2, 1, .gtc⟩] :=
    restingLevel_single hmut rfl (by decide) h.lone rfl rfl rfl
      (show (Store.loneChunk .bid 2 1 1 .gtc).s[0]? = some ⟨1, 1⟩ from rfl) (by decide)
      (restingAt_lone (show b.store.chunks[locChunk (mkLoc 1 0)]? = _ from h.lone) rfl)
  have hdepth : b.depth .bid (2 ^ 64 - 1) = some [⟨2, 1⟩] := by
    have hdepth := (h.indexed .bid).depth (2 ^ 64 - 1)
    rw [h.bids, List.take_of_length_le (by decide), List.map_singleton, h.level] at hdepth
    exact hdepth
  simp only [restingSide, hdepth, List.mapM_cons, List.mapM_nil, hlevel, Option.bind_eq_bind,
    Option.bind_some]
  rfl

/-- The order list has no more than 2^29 orders, and one of them has no quantity. -/
theorem Hollow.listing (h : Hollow b C) :
    ∃ os, b.restingOrders = some os ∧ os.length ≤ 2 ^ 29 ∧ ∃ o ∈ os, o.qty = 0 := by
  have hfew := h.few_asks
  have hdepth := (h.indexed .ask).depth (2 ^ 64 - 1)
  rw [List.take_of_length_le (by omega)] at hdepth
  obtain ⟨oss, hoss, hlen⟩ := mapM_singles (b := b) (s := .ask)
    ((C.prices .ask).map fun p => ⟨p, (C.level (.ask, p)).total⟩) fun d hd => by
      obtain ⟨p, hp, rfl⟩ := List.mem_map.mp hd
      obtain ⟨i, hi, hi', rfl⟩ := (h.listed p).mp hp
      exact ⟨_, h.restingLevel_ask hi hi' _⟩
  have hasks : b.restingSide .ask = some oss.flatten := by
    rw [restingSide, show b.depth .ask (2 ^ 64 - 1) = _ from hdepth, Option.bind_eq_bind,
      Option.bind_some, hoss]
    rfl
  rw [List.length_map] at hlen
  refine ⟨_, by rw [restingOrders, h.restingSide_bid, hasks]; rfl, ?_, ?_⟩
  · rw [List.length_append, hlen, List.length_singleton]
    omega
  · have hlast : crowdPrice (2 ^ 29) ∈ C.prices .ask :=
      (h.listed _).mpr ⟨2 ^ 29, by omega, Nat.le_refl _, rfl⟩
    obtain ⟨os, hos, hrun⟩ := mapM_mem hoss (List.mem_map_of_mem hlast)
    rw [h.restingLevel_ask (by omega) (Nat.le_refl _), if_pos rfl] at hrun
    refine ⟨⟨0, .ask, 1, 0, .gtc⟩, List.mem_append_right _ (List.mem_flatten.mpr ⟨os, hos, ?_⟩),
      rfl⟩
    exact Option.some.inj hrun ▸ List.mem_singleton_self _

end Listing

end OrderBook

/-! ## The chunks of a restored book -/

namespace OrderBook

section Restored

variable {b : OrderBook} {os : List RestingOrder}

/-- A book restored from no more than 2^29 orders lists live orders only. -/
theorem restored_qty {cfg : BookConfig} {seq : UInt64} {os' : List RestingOrder}
    (hrun : restore cfg seq os = some b) (hlen : os.length ≤ 2 ^ 29)
    (hlist : b.restingOrders = some os') : ∀ o ∈ os', o.qty ≠ 0 := by
  intro o ho
  have hsize := restore_size hrun
  obtain ⟨s, c, i, ch, x, hch, hx, hqty, hat⟩ := mem_restingOrders hlist ho
  have hc : c < 2 ^ 29 := by
    have := lt_size_of_getElem? hch
    omega
  have hi := slot_lt hx
  simp only [restingAt, Store.chunk, locChunk_mkLoc hc (show i < 8 by omega),
    locSlot_mkLoc hc (show i < 8 by omega), hch, hx, Option.bind_eq_bind, Option.bind_some] at hat
  obtain ⟨t, _, hat⟩ := Option.bind_eq_some_iff.mp hat
  cases hat
  exact hqty

end Restored

end OrderBook

end Matcher
