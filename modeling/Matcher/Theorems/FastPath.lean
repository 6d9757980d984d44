import Matcher.Logic.Shadowed
import Matcher.Logic.ChunkFrame
import Matcher.Theorems.MapChurn

/-!
# The replace that skips the re-probe

A replace that loses its place keeps the value pointer under which it found its order,
and writes the new location through it unless the map has counted a removal since. The
sweep in between takes other keys out, and each can move the entry. `FastPath` says that
the entry is still there, and that the pointer is used only where it still points at it.
-/

namespace Matcher

open Kit

/-- The order that an event closes. -/
def Event.closes : Event → Option OrderId
  | .closed oid _ => some oid
  | _ => none

/-- The orders closed in a stretch of output. -/
def closedIds (out : List Emission) : List OrderId := out.filterMap fun e => e.ev.closes

namespace OrderMap

/-- The table `m` on which `removes` removals were counted when the pointer `ploc` to the
value of `k` was obtained: `v` goes over the value of `k`, whichever way it is written. -/
structure Rewrites (m : OrderMap) (removes ploc : Nat) (k : OrderId) (v : Nat) : Prop where
  entry : ∃ i, m.get k = some (some i) ∧ m.insert k v = m.writeVal i v
  fast : m.removes = removes → m.writeVal ploc v = m.insert k v
  written : ∃ m', m.insert k v = some m' ∧ m'.len = m.len ∧ m'.find k = some (some v) ∧
    ∀ k', k' ≠ k → m'.find k' = m.find k'

end OrderMap

namespace OrderBook

/-- A replace of `oid` past its checks that loses its place: the order, found at `loc`
through `ploc`, leaves its level (`b1`), and what the sweep leaves of it (`b2`) has to
rest. -/
structure Resweeps (b : OrderBook) (oid : OrderId) (price : Price) (qty : Qty)
    (ploc loc : Nat) (side : Side) (b1 b2 : OrderBook) (left : Qty) (out : List Emission) :
    Prop where
  get : b.map.get oid = some (some ploc)
  val : b.map.readVal ploc = some loc
  qty_pos : qty ≠ 0
  price_ok : b.priceOk price = true
  moves : ∃ ch o, b.store.chunk loc = some ch ∧ ch.s[locSlot loc]? = some o ∧ ch.side = side ∧
    ¬ (price = ch.price ∧ qty ≤ o.qty) ∧ b.unlinkOrder side ch.price loc = some b1
  swept : b1.cross side (some price) oid qty = some (b2, left, out)
  rests : left ≠ 0

/-- The fast path of a replace agrees with the re-probe. -/
def FastPath (b : OrderBook) (oid : OrderId) (price : Price) (qty : Qty) : Prop :=
  ∀ ploc loc side b1 b2 left out, b.Resweeps oid price qty ploc loc side b1 b2 left out →
    (b1.map.run ((closedIds out).map .remove) = some b2.map ∧ oid ∉ closedIds out ∧
      b2.map.find oid = some (some loc)) ∧
    ∀ tif b3 nloc, b2.pushLevel side price oid left tif = some (b3, nloc) →
      b3.map.Rewrites b1.map.removes ploc oid nloc

end OrderBook

/-! ## Removals -/

/-- What removals leave of a value. -/
theorem MapOp.latestFrom_removes (cur : Option Nat) (ids : List OrderId) (k : OrderId) :
    latestFrom cur (ids.map remove) k = if k ∈ ids then none else cur := by
  induction ids generalizing cur with
  | nil => rfl
  | cons id ids ih =>
    have hstep : latestFrom cur ((id :: ids).map remove) k =
        latestFrom (if id = k then none else cur) (ids.map remove) k := rfl
    rw [hstep, ih]
    by_cases hk : k ∈ ids
    · rw [if_pos hk, if_pos (List.mem_cons_of_mem id hk)]
    · rw [if_neg hk]
      by_cases hid : id = k
      · rw [if_pos hid, if_pos (hid ▸ List.mem_cons_self)]
      · have hout : k ∉ id :: ids := by
          rw [List.mem_cons, not_or]
          exact ⟨Ne.symm hid, hk⟩
        rw [if_neg hid, if_neg hout]

namespace OrderMap

theorem run_append (m : OrderMap) (xs ys : List MapOp) :
    m.run (xs ++ ys) = (m.run xs).bind fun m' => m'.run ys := by
  induction xs generalizing m with
  | nil => rfl
  | cons x xs ih =>
    rw [List.cons_append, run, run, Option.bind_eq_bind, Option.bind_assoc]
    exact congrArg _ (funext ih)

section Models

variable {m : OrderMap} {M : Finmap fun _ : OrderId => Nat} (h : m.Models M)
    (hroom : M.keys.card < m.tags.size)

include h hroom

/-- Removing the keys `ids` leaves every other value. -/
theorem Models.find_removes {ids : List OrderId} {m' : OrderMap}
    (hrun : m.run (ids.map .remove) = some m') (k : OrderId) :
    m'.find k = some (if k ∈ ids then none else M.lookup k) := by
  have hfew : ∀ pre, pre <+: ids.map MapOp.remove →
      {k | (MapOp.latestFrom (M.lookup k) pre k).isSome}.encard ≤ M.keys.card := by
    intro pre hpre
    rw [← encard_present]
    refine Set.encard_le_encard fun k hk => ?_
    rcases MapOp.mem_of_latestFrom hk with hk | ⟨v, hv⟩
    · exact hk
    · -- a removal is no insert
      obtain ⟨id, _, hid⟩ := List.mem_map.mp (hpre.subset hv)
      cases hid
  obtain ⟨m1, M1, hrun1, hm1, hsize1, hlook1⟩ := h.run hroom (ids.map .remove) hfew
  cases hrun.symm.trans hrun1
  have hroom1 : M1.keys.card < m'.tags.size := by
    have hsub : M1.keys.card ≤ M.keys.card := by
      refine Finset.card_le_card fun k hk => ?_
      rw [Finmap.mem_keys, ← Finmap.lookup_isSome] at hk ⊢
      rw [hlook1, MapOp.latestFrom_removes] at hk
      split at hk
      · cases hk
      · exact hk
    omega
  rw [hm1.find_eq hroom1, hlook1, MapOp.latestFrom_removes]

/-- A new value for a present key. -/
theorem Models.rewrites {removes ploc : Nat} {k : OrderId} {v : Nat}
    (hk : M.lookup k = some v) (w : Nat)
    (hfast : m.removes = removes → m.get k = some (some ploc)) : m.Rewrites removes ploc k w := by
  obtain ⟨i, hprobe, _, hview⟩ := h.probe_hit hk
  have hget : m.get k = some (some i) := by simp [OrderMap.get, hprobe]
  have hinsert : m.insert k w = m.writeVal i w := by simp [OrderMap.insert, hprobe]
  obtain ⟨m', hwrite, hm', htags, _⟩ := h.writeVal hview w
  have hkeys : (M.insert k w).keys = M.keys := by
    rw [OrderBook.keys_insert]
    exact Finset.insert_eq_of_mem (Finmap.mem_keys.mpr (Finmap.mem_of_lookup_eq_some hk))
  have hroom' : (M.insert k w).keys.card < m'.tags.size := by rwa [hkeys, htags]
  refine ⟨⟨i, hget, hinsert⟩, fun hsame => ?_, m', hinsert.trans hwrite, ?_, ?_, fun k' hk' => ?_⟩
  · cases hget.symm.trans (hfast hsame)
    exact hinsert.symm
  · rw [hm'.len, hkeys, h.len]
  · rw [hm'.find_eq hroom', Finmap.lookup_insert]
  · rw [hm'.find_eq hroom', Finmap.lookup_insert_of_ne _ hk', h.find_eq hroom]

end Models

end OrderMap

/-! ## The sweep and the map -/

namespace OrderBook

section Sweep

variable {b b' : OrderBook} {s : Side} {p : Price} {taker : OrderId} {qty left : Qty}
    {out : List Emission}

theorem closedIds_append (out out' : List Emission) :
    closedIds (out ++ out') = closedIds out ++ closedIds out' :=
  List.filterMap_append

/-- Two stretches of removals. -/
theorem run_closed {m m1 m2 : OrderMap} {out1 out2 : List Emission}
    (h1 : m.run ((closedIds out1).map .remove) = some m1)
    (h2 : m1.run ((closedIds out2).map .remove) = some m2) :
    m.run ((closedIds (out1 ++ out2)).map .remove) = some m2 := by
  rw [closedIds_append, List.map_append, OrderMap.run_append, h1]
  exact h2

/-- A round takes the maker out of the map when it closes it, and else leaves the map. -/
theorem fillFront_map (h : b.fillFront s p taker qty = some (b', left, out)) :
    b.map.run ((closedIds out).map .remove) = some b'.map := by
  obtain ⟨lv, _, h⟩ := Option.bind_eq_some_iff.mp h
  obtain ⟨⟨st1, loc⟩, _, h⟩ := Option.bind_eq_some_iff.mp h
  obtain ⟨ch, _, h⟩ := Option.bind_eq_some_iff.mp h
  obtain ⟨m, _, h⟩ := Option.bind_eq_some_iff.mp h
  obtain ⟨b1, hwrite, h⟩ := Option.bind_eq_some_iff.mp h
  obtain ⟨st2, _, h⟩ := Option.bind_eq_some_iff.mp h
  have hmap1 : b1.map = b.map := (writeLevel_frame hwrite).map
  dsimp only at h
  generalize (if qty < m.qty then qty else m.qty) = q at *
  split at h
  · obtain ⟨lv', _, h⟩ := Option.bind_eq_some_iff.mp h
    obtain ⟨⟨st3, lv''⟩, _, h⟩ := Option.bind_eq_some_iff.mp h
    obtain ⟨b2, hwrite', h⟩ := Option.bind_eq_some_iff.mp h
    obtain ⟨map, hremove, h⟩ := Option.bind_eq_some_iff.mp h
    have hmap2 : b2.map = b.map := (writeLevel_frame hwrite').map.trans hmap1
    cases h
    show (b.map.remove m.id).bind some = some map
    rw [← hmap2, hremove]
    rfl
  · cases h
    exact congrArg some hmap1.symm

/-- The sweep takes the orders it closes out of the map, and does nothing else to it. -/
theorem carried_map : Carried fun b out b' => b.map.run ((closedIds out).map .remove) =
    some b'.map where
  frame h := congrArg some h.map.symm
  trans h1 h2 := run_closed h1 h2
  round h := fillFront_map h

end Sweep

/-- In a book in order the sweep leaves the entry, and where no removal was counted it
leaves the table. -/
theorem Rep.fastPath {b : OrderBook} {C : Content} (h : Rep none none b C) (oid : OrderId)
    (price : Price) (qty : Qty) :
    b.FastPath oid price qty := by
  intro ploc loc side b1 b2 left out hrun
  obtain ⟨ch, o, hch, _, hside, _, hunlink⟩ := hrun.moves
  have hloc : C.locs.lookup oid = some loc := by
    cases hk : C.locs.lookup oid with
    | none =>
      have hget := h.ids.models.get_none h.ids.room hk
      rw [hrun.get] at hget
      cases hget
    | some l =>
      obtain ⟨i, hget, hval, _⟩ := h.ids.models.get_some hk
      cases hrun.get.symm.trans hget
      exact hval.symm.trans hrun.val
  obtain ⟨s, p, x, hx, hid, rfl, _⟩ := h.find_some hloc
  obtain ⟨ch', hch', hs, hp, _⟩ := (h.store.reads hx).read
  cases hch.symm.trans hch'
  subst hside hs hp
  obtain ⟨b1', C1, hrun1, hrep1, hmap1, _, _, _, hlive1, _⟩ := h.unlinkOrder hx
  cases hunlink.symm.trans hrun1
  rw [hid] at hrep1
  obtain ⟨C2, evs, hrep2, hswept⟩ := crossFrom_keeps _ _ _ _ _ _ _ hrep1 hrun.qty_pos hrun.swept
  have hremoves := carried_map.crossFrom hrun.swept
  have hmodels1 : b1.map.Models C.locs := hmap1 ▸ h.ids.models
  have hfind := hmodels1.find_removes (hmap1 ▸ h.ids.room) hremoves oid
  -- the sweep holds the entry back, so it is not among those removed
  have hkept : oid ∉ closedIds out := by
    intro hmem
    rw [if_pos hmem, hrep2.ids.models.find_eq hrep2.ids.room] at hfind
    have hheld := (hrep2.ids.held oid rfl).1
    rw [Option.some.inj hfind] at hheld
    cases hheld
  rw [if_neg hkept, hloc] at hfind
  refine ⟨⟨hremoves, hkept, hfind⟩, fun tif b3 nloc hpush => ?_⟩
  rw [pushLevel_map hpush]
  rw [hrep2.ids.models.find_eq hrep2.ids.room] at hfind
  refine hrep2.ids.models.rewrites hrep2.ids.room (Option.some.inj hfind) nloc fun hsame => ?_
  obtain ⟨n, hcount, hcounted, hleave⟩ := hswept.removed
  have hfew := h.live_le
  -- at most 2^29 orders were removed, so the counter did not come round
  have hzero : n = 0 := by
    rw [hsame] at hcounted
    omega
  rw [(hleave hzero).1, hmap1]
  exact hrun.get

end OrderBook

/-- As long as a location names one order: whatever a replace matches, its id stays in
the map, and the pointer it was found through serves where nothing was removed. -/
theorem fast_path_agrees {cfg : BookConfig} (horders : cfg.maxOrders.toNat ≤ 2 ^ 29) {b : OrderBook}
    (h : OrderBook.Reaches cfg b) (oid : OrderId) (price : Price) (qty : Qty) :
    b.FastPath oid price qty := by
  obtain ⟨C, hrep, _⟩ := h.keeps horders
  exact hrep.fastPath oid price qty

/-- A bid that is moved up to an ask: it fills the ask and rests what is left. -/
theorem fast_path_agrees_small : ∃ b b1 b2 out, OrderBook.Reaches smallBook b ∧
    b.Resweeps 1 7 12 12 0 .bid b1 b2 9 out ∧ closedIds out = [2] ∧ b.FastPath 1 7 12 := by
  have hrun : ∃ b0 ∈ OrderBook.new smallBook,
      ∃ r ∈ b0.applyAll [.newLimit 1 .bid 5 10 .gtc, .newLimit 2 .ask 7 3 .gtc],
      (r.1.map.get 1 = some (some 12) ∧ r.1.map.readVal 12 = some 0 ∧ r.1.priceOk 7 = true) ∧
      ∃ ch ∈ r.1.store.chunk 0, (ch.side = .bid ∧ ch.price = 5) ∧ ∃ o ∈ ch.s[locSlot 0]?,
      ∃ b1 ∈ r.1.unlinkOrder .bid ch.price 0, ∃ r' ∈ b1.cross .bid (some 7) 1 12,
        r'.2.1 = 9 ∧ closedIds r'.2.2 = [2] := by
    decide +kernel
  obtain ⟨b0, hnew, ⟨b, out0⟩, hruns, ⟨hget, hval, hok⟩, ch, hch, ⟨hside, hprice⟩, o, ho, b1,
    hunlink, ⟨b2, left, out⟩, hcross, rfl, hclosed⟩ := hrun
  have hreach : OrderBook.Reaches smallBook b := ⟨b0, _, out0, hnew, hruns⟩
  have hmoves : ¬ (7 = ch.price ∧ 12 ≤ o.qty) := by
    intro hsame
    rw [hprice] at hsame
    exact absurd hsame.1 (by decide)
  exact ⟨b, b1, b2, out, hreach,
    ⟨hget, hval, by decide, hok, ⟨ch, o, hch, ho, hside, hmoves, hunlink⟩, hcross, by decide⟩,
    hclosed, fast_path_agrees smallBook_fits.orders hreach 1 7 12⟩

/-- With room for more than 2^29 orders a replace can meet its own order in the sweep:
the id is removed while its remainder has yet to rest. -/
theorem fast_path_loses_entry : ∃ b, OrderBook.Reaches crowdedBook b ∧
    b.order 0 = some (some ⟨0, .bid, 1, 1⟩) ∧ ¬ b.FastPath 0 3 5 := by
  obtain ⟨b0, hnew, h0⟩ := OrderBook.new_packed
  obtain ⟨b1, C1, out1, hrun1, h1⟩ := h0.run (k := 2 ^ 29) (by decide)
  rw [Nat.zero_add] at h1
  obtain ⟨b, C, out, hrun, h⟩ := h1.shadow
  have hreach : OrderBook.Reaches crowdedBook b :=
    OrderBook.Reaches.apply ⟨b0, _, out1, hnew, hrun1⟩ hrun
  obtain ⟨ploc, hget, hval, _⟩ := h.models.get_some h.lookup
  have hchunk : b.store.chunk 0 = some (Store.loneChunk .bid 1 0 1 .gtc) := h.chunk
  have hslot : (Store.loneChunk .bid 1 0 1 .gtc).s[locSlot 0]? = some ⟨0, 1⟩ := by decide
  refine ⟨b, hreach, ?_, fun hfast => ?_⟩
  · rw [OrderBook.order, hget, Option.bind_eq_bind, Option.bind_some]
    simp only [hval, hchunk, hslot, Option.bind_eq_bind, Option.bind_some]
    rfl
  · have hqty : (5 : Qty) ≠ 0 := by decide
    have hprice : b.priceOk 3 = true := by
      rw [OrderBook.priceOk_eq, h.cfg]
      rfl
    have hmoves : ¬ ((3 : Price) = (Store.loneChunk .bid 1 0 1 .gtc).price ∧
        (5 : Qty) ≤ (⟨0, 1⟩ : Slot).qty) := by decide
    obtain ⟨b1, b2, out, hunlink, hcross, hgone⟩ := h.loses hqty
    have hrun : b.Resweeps 0 3 5 ploc 0 .bid b1 b2 5 out :=
      ⟨hget, hval, hqty, hprice, ⟨_, _, hchunk, hslot, rfl, hmoves, hunlink⟩, hcross, hqty⟩
    obtain ⟨_, _, hfind⟩ := (hfast ploc 0 .bid b1 b2 5 out hrun).1
    rw [OrderMap.find, hgone] at hfind
    cases hfind

end Matcher
