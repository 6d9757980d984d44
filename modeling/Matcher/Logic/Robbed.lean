import Matcher.Logic.Crowded

/-!
# The order in chunk 0 is taken away under another name

In the crowd, a cancel of the order in chunk 2^29 takes the order in chunk 0 out of its
level. What the book does after that, the specification's book does not.
-/

namespace Matcher

open Kit

namespace Store

/-- Chunk 0 of the crowd after its order was cancelled. -/
def goneChunk : Chunk := { loneChunk .bid 1 0 0 .gtc with live := 0 }

/-- A kill counted down in chunk 0. -/
theorem retire_gone {st : Store} {k : Nat} (h0 : st.chunks[0]? = some { goneChunk with live := k })
    (l : Level) :
    st.retire l 0 = some (if decr 8 k = 0 then
        ({ st with live := decr 64 st.live, freeChunk := 0 }.withChunk 0
            { goneChunk with next := st.freeChunk },
          { l with head := NIL, tail := NIL })
      else
        ({ st with live := decr 64 st.live }.withChunk 0 { goneChunk with live := decr 8 k },
          l)) := by
  rw [retire_eq h0 rfl]
  generalize hst0 : { st with live := decr 64 st.live } = st0
  have h0' : st0.chunks[0]? = some { goneChunk with live := k } := by
    rw [← hst0]
    exact h0
  have h1 : (st0.withChunk 0 { goneChunk with live := decr 8 k }).chunks[0]? =
      some { goneChunk with live := decr 8 k } :=
    withChunk_self h0'
  dsimp only
  split
  · next hzero =>
    -- its last live slot: the chunk leaves its list, in which it is alone
    have hdrop := updChunk_eq (fun ch => { ch with next := st0.freeChunk }) h1
    rw [withChunk_idem] at hdrop
    dsimp only at hdrop
    rw [hzero] at hdrop
    rw [hzero] at h1 ⊢
    rw [dropChunk, h1]
    have hfree : st0.freeChunk = st.freeChunk := by rw [← hst0]
    show ((st0.withChunk 0 { goneChunk with live := 0 }).updChunk 0 fun ch =>
        { ch with next := st0.freeChunk }).bind _ = _
    rw [hdrop, Option.bind_some, hfree, ← hst0]
    rfl
  · rfl

/-- Cancelling the order alone in chunk 0 releases the chunk. -/
theorem unlink_first {st : Store} (h0 : st.chunks[0]? = some (loneChunk .bid 1 0 1 .gtc))
    (hfree : st.freeChunk = NIL) :
    st.unlink ⟨0, 0, 1⟩ 0 = some ({ st with
      chunks := st.chunks.modify 0 fun _ => goneChunk, freeChunk := 0, live :=
        decr 64 st.live }, {}) := by
  have hset : st.setQty 0 0 = some (st.withChunk 0 { goneChunk with live := 1 }) := by
    show (st.chunks[0]?).bind _ = _
    rw [h0, Option.bind_some]
    exact updChunk_eq _ h0
  show (st.chunks[0]?).bind _ = _
  rw [h0, Option.bind_some]
  show (st.setQty 0 0).bind _ = _
  rw [hset, Option.bind_some, retire_gone (withChunk_self h0), if_pos (show decr 8 1 = 0 from rfl)]
  have hnext : { goneChunk with next := (st.withChunk 0 { goneChunk with live := 1 }).freeChunk } =
      goneChunk := by
    rw [withChunk_free, hfree]
    rfl
  rw [hnext]
  exact congrArg (fun chunks =>
    some (({ st with chunks, freeChunk := 0, live := decr 64 st.live } : Store), ({} : Level)))
    (modify_const_twice st.chunks 0 _ _)

/-- A second order in chunk 1. -/
theorem push_second (st : Store) {side : Side} {price : Price} {id : OrderId}
    (h1 : st.chunks[1]? = some (loneChunk side price id 1 .gtc)) (hlive : st.live + 1 < 2 ^ 64)
    (id' : OrderId) :
    ∃ ch : Chunk, st.push ⟨1, 1, 1⟩ side price id' 1 .gtc = some ({ st with
      chunks := st.chunks.modify 1 fun _ => ch, live := st.live + 1 }, ⟨1, 1, 1 + 1⟩,
        mkLoc 1 1) := by
  have hlt := lt_size_of_getElem? h1
  have htail : st.tailChunk ⟨1, 1, 1⟩ side price = some (st, ⟨1, 1, 1⟩, 1) := by
    have hused : st.usedUp 1 = some false := by
      rw [usedUp, if_neg (by decide), h1]
      rfl
    rw [tailChunk, hused, Option.bind_eq_bind, Option.bind_some, if_neg Bool.false_ne_true]
    rfl
  refine ⟨{ loneChunk side price id 1 .gtc with
    s := (loneChunk side price id 1 .gtc).s.set 1 ⟨id', 1⟩ (by decide)
    tif := (loneChunk side price id 1 .gtc).tif.set 1 .gtc (by decide), tail := incr 8 1, live :=
      incr 8 1 }, ?_⟩
  rw [push, htail, Option.bind_eq_bind, Option.bind_some]
  dsimp only
  rw [h1, Option.bind_eq_bind, Option.bind_some]
  simp only [loneChunk, Chunk.setSlot, Chunk.setTif, updChunk, modify?_of_lt _ hlt,
    Option.bind_eq_bind, Option.bind_some, Option.map_some, incr_of_lt hlive]
  rfl

/-- The released chunk 0 is handed out again. -/
theorem push_recycled (st : Store) (h0 : st.chunks[0]? = some goneChunk) (hfree : st.freeChunk = 0)
    (hlive : st.live + 1 < 2 ^ 64) (side : Side) (price : Price) (id : OrderId) :
    ∃ ch : Chunk, st.push {} side price id 1 .gtc = some ({ st with
        chunks := st.chunks.modify 0 fun _ => ch, freeChunk := NIL, live :=
          st.live + 1 }, ⟨0, 0, 0 + 1⟩, mkLoc 0 0) ∧
      ch.head = 0 ∧ ch.tail = 1 ∧ ch.next = NIL ∧ ch.s[0]? = some ⟨id, 1⟩ := by
  obtain ⟨fresh, hfresh⟩ : ∃ ch : Chunk, ch = { goneChunk with
      price, prev := NIL, next := NIL, head := 0, tail := 0, live := 0, side } := ⟨_, rfl⟩
  obtain ⟨st1, hst1⟩ : ∃ st1 : Store, st1 = { st with freeChunk := NIL } := ⟨_, rfl⟩
  have h1 : st1.chunks[0]? = some goneChunk := by
    rw [hst1]
    exact h0
  have hself : (st1.withChunk 0 fresh).chunks[0]? = some fresh := withChunk_self h1
  have halloc : st.allocChunk side price = some (st1.withChunk 0 fresh, 0) := by
    have htake : st.takeChunk = some (st1, 0) := by
      rw [takeChunk, hfree, if_pos (by decide), h0, hst1]
      rfl
    rw [allocChunk, htake, Option.bind_eq_bind, Option.bind_some]
    dsimp only
    rw [updChunk_eq _ h1, ← hfresh]
    rfl
  have htail : st.tailChunk {} side price = some (st1.withChunk 0 fresh, ⟨0, 0, 0⟩, 0) := by
    have hused : st.usedUp NIL = some true := rfl
    -- an empty level's tail is `NIL`, as the fresh chunk's link
    have hprev : { fresh with prev := NIL } = fresh := by
      rw [hfresh]
    rw [tailChunk, hused, Option.bind_eq_bind, Option.bind_some, if_pos rfl, halloc,
      Option.bind_eq_bind, Option.bind_some]
    dsimp only
    rw [updChunk_eq _ hself, withChunk_idem, hprev]
    rfl
  refine ⟨{ fresh with
    tail := incr 8 fresh.tail, live := incr 8 fresh.live
    s := fresh.s.set 0 ⟨id, 1⟩ (by decide), tif := fresh.tif.set 0 .gtc (by decide) }, ?_,
      ?_, ?_, ?_, ?_⟩
  · rw [push, htail, Option.bind_eq_bind, Option.bind_some]
    dsimp only
    have htail0 : fresh.tail = 0 := by rw [hfresh]
    rw [hself, Option.bind_eq_bind, Option.bind_some]
    simp only [htail0, Chunk.setSlot, Chunk.setTif, updChunk_eq _ hself, withChunk_idem,
      Option.bind_eq_bind, Option.bind_some, withChunk_live]
    rw [show st1.live = st.live by rw [hst1], incr_of_lt hlive, hst1]
    rfl
  · rw [hfresh]
  · rw [hfresh]
    rfl
  · rw [hfresh]
  · rw [Vector.getElem?_set_self]

end Store

/-- `depth` reads neither the cursor nor the count. -/
theorem LadderIndex.depth_cursor (lad : LadderIndex) (count best n : Nat) :
    { lad with count, best }.depth n = lad.depth n := by
  have hup : ∀ k w room, { lad with count, best }.depthUp k w room = lad.depthUp k w room := by
    intro k
    induction k with
    | zero => exact fun _ _ => rfl
    | succ k ih =>
      intro w room
      simp only [LadderIndex.depthUp, ih]
      rfl
  have hdown : ∀ w room, { lad with count, best }.depthDown w room = lad.depthDown w room := by
    intro w
    induction w with
    | zero => exact fun _ => rfl
    | succ w ih =>
      intro room
      simp only [LadderIndex.depthDown, ih]
      rfl
  unfold LadderIndex.depth
  rw [hup, hdown]

/-- Unlinking a level that is not listed counts it out all the same: with one level
listed, the ladder believes it is empty. -/
theorem LadderIndex.Lists.unlink_unlisted {lad : LadderIndex} {cfg : BookConfig}
    {side : Side} {q : Price} {lv : Price → Level} (h : lad.Lists cfg side [q] lv) {p : Price}
    (hroom : lad.HasRoom p) (hne : p ≠ q) (hempty : (lv p).empty = true) :
    ∃ mid : LadderIndex, lad.unlinkLevel p = some { mid with count := 0, best := NIL } ∧
      mid.Lists cfg side [q] lv := by
  obtain ⟨mid, hclear, htiers, hsize, hmid, hbit⟩ := h.holds.toTiers.clearBit hroom.2
  have hout : lad.idx p ∉ [q].map lad.idx :=
    fun hmem => hne (List.mem_singleton.mp (mem_map_idx.mp hmem))
  have hholds : mid.Holds side cfg.priceMax ([q].map lad.idx) := by
    refine { toTiers := htiers, side_eq := ?_, levels_size := ?_, bits_size := ?_
             bits := fun i => ?_
             sorted := h.holds.sorted, valid := fun i hi => ?_, few := h.holds.few, count := ?_
             best := fun hn => ?_ }
    · rw [hmid]
      exact h.holds.side_eq
    · rw [hmid]
      exact h.holds.levels_size
    · rw [hsize, hmid]
      exact h.holds.bits_size
    · rw [hbit, h.holds.bits]
      by_cases hi : i = lad.idx p
      · rw [hi, decide_eq_false hout]
        rfl
      · rw [decide_eq_true hi, Bool.and_true]
    · obtain ⟨r, hspan, hr, rfl⟩ := h.holds.valid i hi
      have hidx : mid.idx r = lad.idx r := by rw [hmid]; rfl
      refine ⟨r, ?_, ?_, hidx.symm⟩
      · show mid.base ≤ r ∧ r ≤ cfg.priceMax
        rw [hmid]
        exact hspan
      · show mid.idx r < mid.levels.size ∧ mid.idx r / 64 < mid.bits.size
        rw [hsize, hidx, hmid]
        exact hr
    · rw [hmid]
      exact h.holds.count
    · rw [hmid] at hn ⊢
      exact h.holds.best hn
  -- one level was counted
  have hcount : decr 32 mid.count = 0 := by
    have hone : mid.count = 1 := hholds.count
    rw [hone, decr_of_pos Nat.one_pos (by decide)]
  refine ⟨mid, ?_, h.relist (by rw [hmid]) (by rw [hmid]) hholds⟩
  rw [LadderIndex.unlinkLevel, h.read_room hroom]
  show (if (!(lv p).empty) = true then some lad else (lad.clearBit (lad.idx p)).bind fun lad' =>
    if decr 32 lad'.count = 0 then some { lad' with count := decr 32 lad'.count, best := NIL }
    else if lad.idx p % 2 ^ 32 = lad'.best then
      (lad'.rescan (lad.idx p)).bind fun r =>
        some { lad' with count := decr 32 lad'.count, best := r }
    else some { lad' with count := decr 32 lad'.count }) = _
  rw [hempty, hclear, Option.bind_some, hcount]
  rfl

namespace OrderBook

/-- The crowd after the order of chunk 2^29 was cancelled: the order of chunk 0 is
gone, and still in the map. -/
structure Robbed (b : OrderBook) (C : Content) : Prop where
  cfg : b.cfg = crowdedBook
  indexed : b.Indexed C.prices C.level
  bids : C.prices .bid = [2]
  level : C.level (.bid, 2) = ⟨1, 1, 1⟩
  asks : ∀ p ∈ C.prices .ask, 3 < p
  few : (C.prices .ask).length ≤ 2 ^ 29 + 1
  gone : b.store.chunks[0]? = some Store.goneChunk
  lone : b.store.chunks[1]? = some (Store.loneChunk .bid 2 1 1 .gtc)
  free : b.store.freeChunk = 0
  live : b.store.live = 2 ^ 29
  models : b.map.Models C.locs
  first : C.locs.lookup 0 = some 0
  fresh : ∀ k : OrderId, 2 ^ 29 ≤ k.toNat → C.locs.lookup k = none
  card : C.locs.keys.card ≤ 2 ^ 29
  tags : 2 ^ 30 ≤ b.map.tags.size

/-- And the asks are as they were: the order of chunk 2^29 is still in its level. -/
structure Hollow (b : OrderBook) (C : Content) : Prop extends Robbed b C where
  listed : ∀ p, p ∈ C.prices .ask ↔ ∃ i, 2 ≤ i ∧ i ≤ 2 ^ 29 ∧ crowdPrice i = p
  levels : ∀ i, 2 ≤ i → i ≤ 2 ^ 29 → C.level (.ask, crowdPrice i) = ⟨i, i, 1⟩
  chunk : ∀ i, 2 ≤ i → i ≤ 2 ^ 29 →
    b.store.chunks[i]? = some (Store.loneChunk .ask (crowdPrice i) (UInt64.ofNat i) 1 .gtc)

section Robbed

variable {b : OrderBook} {C : Content}

theorem Robbed.emit (h : Robbed b C) (e : Event) : Robbed (b.emit e).1 C :=
  { h with indexed := fun s => by cases s <;> exact h.indexed _ }

theorem Hollow.emit (h : Hollow b C) (e : Event) : Hollow (b.emit e).1 C :=
  ⟨h.toRobbed.emit e, h.listed, h.levels, h.chunk⟩

theorem crowdSide_ask {i : Nat} (hi : 2 ≤ i) : crowdSide i = .ask := if_neg (Nat.not_lt.mpr hi)

theorem Packed.mem_bids {n : Nat} (h : Packed n b C) (hn : 2 ≤ n) (p : Price) :
    p ∈ C.prices .bid ↔ p = 1 ∨ p = 2 := by
  rw [h.listed]
  constructor
  · rintro ⟨i, hi, hside, rfl⟩
    have hi2 : i < 2 := by
      by_contra hge
      rw [crowdSide, if_neg hge] at hside
      cases hside
    obtain rfl | rfl : i = 0 ∨ i = 1 := by omega
    · exact Or.inl rfl
    · exact Or.inr rfl
  · rintro (rfl | rfl)
    · exact ⟨0, by omega, rfl, rfl⟩
    · exact ⟨1, by omega, rfl, rfl⟩

theorem Packed.lt_asks {n : Nat} (h : Packed n b C) (hn : n ≤ 2 ^ 29 + 1) :
    ∀ p ∈ C.prices .ask, 3 < p := by
  intro p hp
  obtain ⟨i, hi, hside, rfl⟩ := (h.listed _ _).mp hp
  have hi2 : ¬ i < 2 := by
    intro hlt
    rw [crowdSide, if_pos hlt] at hside
    cases hside
  have hint := crowdPrice_toInt (show i ≤ 2 ^ 29 by omega)
  rw [if_neg hi2] at hint
  have h3 : (3 : Price).toInt = 3 := rfl
  exact Int64.lt_iff_toInt_lt.mpr (by omega)

/-- The order alone in chunk 0 leaves its level. -/
theorem unlink_lone (hix : b.Indexed C.prices C.level) (hmem : (1 : Price) ∈ C.prices .bid)
    (hlevel : C.level (.bid, 1) = ⟨0, 0, 1⟩)
    (hchunk : b.store.chunks[0]? = some (Store.loneChunk .bid 1 0 1 .gtc))
    (hfree : b.store.freeChunk = NIL) :
    ∃ b', b.unlinkOrder .bid 1 0 = some b' ∧ b'.cfg = b.cfg ∧ b'.map = b.map ∧
      b'.store = { b.store with
        chunks := b.store.chunks.modify 0 fun _ => Store.goneChunk, freeChunk := 0, live :=
          decr 64 b.store.live } ∧
      b'.Indexed (Function.update C.prices .bid ((C.prices .bid).erase 1))
        (Function.update C.level (.bid, 1) {}) := by
  have hmut := (hix .bid).levelMut 1
  rw [hlevel] at hmut
  have hunlink := Store.unlink_first hchunk hfree
  obtain ⟨b1, hwrite, hframe1, hix1⟩ := Indexed.write (b := { b with store := { b.store with
    chunks := b.store.chunks.modify 0 fun _ => Store.goneChunk, freeChunk := 0, live :=
      decr 64 b.store.live } })
    hix hmem {}
  have hempty : (Function.update C.level (.bid, 1) {} (.bid, 1)).empty = true := by
    rw [Function.update_self]
    rfl
  obtain ⟨b2, hunlist, hframe2, hix2⟩ := hix1.unlinkLevel hmem fun _ => Function.update_self _ _ _
  rw [if_pos hempty] at hix2
  refine ⟨b2, ?_, hframe2.cfg.trans hframe1.cfg, hframe2.map.trans hframe1.map,
    hframe2.store.trans hframe1.store, hix2⟩
  rw [unlinkOrder, hmut, if_neg (by decide)]
  dsimp only
  rw [hunlink, Option.bind_eq_bind, Option.bind_some]
  dsimp only
  rw [hwrite]
  exact hunlist

/-- A cancel of the order in chunk 2^29 takes the order in chunk 0. -/
theorem Packed.cancel (h : Packed (2 ^ 29 + 1) b C) :
    ∃ b' C' out, b.apply (.cancel (2 ^ 29)) = some (b', out) ∧ Hollow b' C' := by
  -- 2^29 is shifted out of the location
  have hloc : mkLoc (2 ^ 29) 0 = 0 := by decide
  have hlook : C.locs.lookup (2 ^ 29) = some (mkLoc (2 ^ 29) 0) :=
    (by decide : UInt64.ofNat (2 ^ 29) = 2 ^ 29) ▸ h.lookup (2 ^ 29) (by omega)
  rw [hloc] at hlook
  obtain ⟨ploc, hget, hval, _⟩ := h.models.get_some hlook
  have hchunk := h.chunk 0 (by omega)
  have hmem : (1 : Price) ∈ C.prices .bid := (h.mem_bids (by decide) 1).mpr (Or.inl rfl)
  obtain ⟨b2, horder, hcfg, hmap, hstore, hix2⟩ :=
    unlink_lone h.indexed hmem (h.levels 0 (by omega)) hchunk h.free
  obtain ⟨map', hremove, hmodels, htags, _⟩ :=
    h.models.remove_present (h.room (Nat.le_refl _)) hlook
  have hnodup := (h.indexed .bid).nodup
  have hrobbed : Robbed { b2 with map := map' } ⟨Function.update C.prices .bid
      ((C.prices .bid).erase 1), fun _ => [],
      Function.update C.level (.bid, 1) {}, C.locs.erase (2 ^ 29)⟩ := by
    refine ⟨hcfg.trans h.cfg, hix2, ?_, ?_, ?_, ?_, ?_, ?_, ?_, ?_, hmodels, ?_,
      fun k hk => ?_, ?_, ?_⟩
    · show Function.update C.prices .bid ((C.prices .bid).erase 1) .bid = [2]
      rw [Function.update_self]
      refine List.perm_singleton.mp
        ((List.perm_ext_iff_of_nodup (hnodup.erase 1) (List.nodup_singleton 2)).mpr fun p => ?_)
      rw [hnodup.mem_erase_iff, h.mem_bids (by decide), List.mem_singleton]
      constructor
      · rintro ⟨hne, hp⟩
        exact hp.resolve_left hne
      · rintro rfl
        exact ⟨by decide, Or.inr rfl⟩
    · show Function.update C.level (.bid, 1) {} (.bid, 2) = _
      rw [Function.update_of_ne (by decide)]
      exact h.levels 1 (by omega)
    · show ∀ p ∈ Function.update C.prices .bid ((C.prices .bid).erase 1) .ask, 3 < p
      rw [Function.update_of_ne (by decide)]
      exact h.lt_asks (Nat.le_refl _)
    · show (Function.update C.prices .bid ((C.prices .bid).erase 1) .ask).length ≤ _
      rw [Function.update_of_ne (by decide)]
      exact h.few .ask
    · show b2.store.chunks[0]? = _
      rw [hstore, Array.getElem?_modify, if_pos rfl, hchunk]
      rfl
    · show b2.store.chunks[1]? = _
      rw [hstore, Array.getElem?_modify, if_neg (by decide)]
      exact h.chunk 1 (by omega)
    · show b2.store.freeChunk = _
      rw [hstore]
    · show b2.store.live = _
      rw [hstore]
      show decr 64 b.store.live = _
      rw [h.live]
      rfl
    · exact (Finmap.lookup_erase_ne (by decide)).trans (h.lookup 0 (by omega))
    · show (C.locs.erase _).lookup k = none
      by_cases hne : k = 2 ^ 29
      · rw [hne, Finmap.lookup_erase]
      · rw [Finmap.lookup_erase_ne hne]
        refine h.fresh k (Nat.lt_of_le_of_ne hk fun heq => hne ?_)
        exact UInt64.toNat_inj.mp heq.symm
    · have := card_erase hlook
      have := h.card
      show (C.locs.erase _).keys.card ≤ _
      omega
    · show 2 ^ 30 ≤ map'.tags.size
      rw [htags]
      exact h.tags
  -- the asks are as they were
  have hhollow : Hollow { b2 with map := map' } ⟨Function.update C.prices .bid
      ((C.prices .bid).erase 1), fun _ => [],
      Function.update C.level (.bid, 1) {}, C.locs.erase (2 ^ 29)⟩ := by
    refine ⟨hrobbed, fun p => ?_, fun i hi hi' => ?_, fun i hi hi' => ?_⟩
    · show p ∈ Function.update C.prices .bid ((C.prices .bid).erase 1) .ask ↔ _
      rw [Function.update_of_ne (by decide), h.listed]
      constructor
      · rintro ⟨i, hi, hside, hp⟩
        refine ⟨i, Nat.le_of_not_lt fun hlt => ?_, by omega, hp⟩
        rw [crowdSide, if_pos hlt] at hside
        cases hside
      · rintro ⟨i, hi, hi', hp⟩
        exact ⟨i, by omega, crowdSide_ask hi, hp⟩
    · have hask := h.levels i (by omega)
      rw [crowdSide_ask hi] at hask
      have hne : (Side.ask, crowdPrice i) ≠ (Side.bid, 1) :=
        fun heq => by cases congrArg Prod.fst heq
      show Function.update C.level (.bid, 1) {} (.ask, crowdPrice i) = _
      rw [Function.update_of_ne hne]
      exact hask
    · have hask := h.chunk i (by omega)
      rw [crowdSide_ask hi] at hask
      show b2.store.chunks[i]? = _
      rw [hstore, Array.getElem?_modify, if_neg (by omega)]
      exact hask
  refine ⟨_, _, (OrderBook.emit { b2 with map := map' } (.closed (2 ^ 29) .cancelled)).2, ?_,
    hhollow.emit (.closed (2 ^ 29) .cancelled)⟩
  have hread : b.store.chunk 0 = some (Store.loneChunk .bid 1 0 1 .gtc) := hchunk
  exact apply_cancel hget hval hread horder (hmap ▸ hremove)

/-- Cancelling the order that is already gone counts its level out again. -/
theorem cancel_gone {lv : Price → Level} {locs : Finmap fun _ : OrderId => Nat}
    (hbids : PriceIndex.Lists crowdedBook .bid b.bids [2] lv)
    (hgone : b.store.chunks[0]? = some Store.goneChunk) (hmodels : b.map.Models locs)
    (hroom : locs.keys.card < b.map.tags.size) (hfirst : locs.lookup 0 = some 0) :
    ∃ (lad : LadderIndex) (map : OrderMap), b.apply (.cancel 0) = some (OrderBook.emit { b with
        bids := { b.bids with lad := { lad with count := 0, best := NIL } },
          map } (.closed 0 .cancelled)) ∧
      lad.Lists crowdedBook .bid [2] lv ∧ map.Models (locs.erase 0) ∧
        map.tags.size = b.map.tags.size := by
  obtain ⟨ploc, hget, hval, _⟩ := hmodels.get_some hfirst
  obtain ⟨map, hremove, hmodels', htags, _⟩ := hmodels.remove_present hroom hfirst
  have hempty : (lv 1).empty = true := by
    rw [hbids.default 1 (by decide)]
    rfl
  have hlad := hbids.ladder rfl
  have hvalid : crowdedBook.Valid 1 := crowd_valid (i := 0) (by decide)
  have hslot := hlad.hasRoom.mpr (hbids.room crowdedBook_narrow.short hvalid rfl)
  obtain ⟨mid, hunlink, hmid⟩ := hlad.unlink_unlisted hslot (by decide) hempty
  have hmut : (b.ownIndex .bid).levelMut 1 = none := by
    show b.bids.levelMut 1 = none
    rw [hbids.levelMut, if_pos hempty]
  have horder : b.unlinkOrder .bid 1 0 =
      some { b with bids := { b.bids with lad := { mid with count := 0, best := NIL } } } := by
    rw [unlinkOrder, hmut]
    show (b.bids.unlinkLevel 1).map (b.setIndex .bid) = _
    rw [PriceIndex.unlinkLevel_ladder hbids.kind hunlink]
    rfl
  exact ⟨mid, map, apply_cancel hget hval (show b.store.chunk 0 = some Store.goneChunk from hgone)
    horder hremove, hmid, hmodels', htags⟩

theorem Robbed.room (h : Robbed b C) : C.locs.keys.card < b.map.tags.size := by
  have := h.card
  have := h.tags
  omega

/-- The free place is taken again: the book is full, and the order of chunk 0 is still
in the map. -/
theorem Robbed.refill (h : Robbed b C) :
    ∃ b' out lv locs, b.apply (.newLimit (2 ^ 29) .bid 2 1 .gtc) = some (b', out) ∧
      b'.cfg = crowdedBook ∧ PriceIndex.Lists crowdedBook .bid b'.bids [2] lv ∧
      b'.store.chunks[0]? = some Store.goneChunk ∧
      b'.store.live = 2 ^ 29 + 1 ∧ b'.map.Models locs ∧ locs.keys.card < b'.map.tags.size ∧
      locs.lookup 0 = some 0 := by
  have hvalid : b.cfg.Valid 2 := h.cfg ▸ crowd_valid (i := 1) (by decide)
  have hroom : b.cfg.HasRoom 2 := (h.indexed .bid).room (h.cfg ▸ crowdedBook_narrow.short) hvalid
  have hmem : (2 : Price) ∈ C.prices .bid := by rw [h.bids]; exact List.mem_singleton_self 2
  obtain ⟨b1, hins, hframe1, hix1⟩ := h.indexed.levelInsert hvalid hroom
    (show (C.prices .bid).length + 1 < 2 ^ 32 by rw [h.bids]; decide) fun _ => by rw [h.level]; rfl
  rw [PriceIndex.listed, if_pos hmem, Function.update_eq_self] at hix1
  have hread := hix1.read hmem
  rw [h.level] at hread
  -- the chunk of the order at 2 has room, so the free chunk 0 stays on its list
  obtain ⟨ch, hpush⟩ := Store.push_second b1.store (by rw [hframe1.store]; exact h.lone)
    (by rw [hframe1.store, h.live]; decide) (2 ^ 29)
  rw [hframe1.store] at hpush
  obtain ⟨b2, hwrite, hframe2, hix2⟩ := Indexed.write (b := { b1 with store := { b.store with
    chunks := b.store.chunks.modify 1 fun _ => ch, live := b.store.live + 1 } }) hix1 hmem
    ⟨1, 1, 1 + 1⟩
  have hstore := hframe2.store
  have hmap2 : b2.map = b.map := hframe2.map.trans hframe1.map
  have hnew : C.locs.lookup (2 ^ 29) = none := h.fresh _ (by decide)
  obtain ⟨map', hinsert, hmodels, htags, _⟩ := h.models.insert h.room (2 ^ 29) (mkLoc 1 1)
  have hrest : b.rest (2 ^ 29) .bid 2 1 .gtc = some { b2 with map := map' } := by
    have hlevel : b.pushLevel .bid 2 (2 ^ 29) 1 .gtc = some (b2, mkLoc 1 1) := by
      rw [OrderBook.pushLevel, hins, Option.bind_eq_bind, Option.bind_some, hread,
        Option.bind_eq_bind, Option.bind_some, hframe1.store, hpush, Option.bind_eq_bind,
        Option.bind_some]
      dsimp only
      rw [hwrite]
      rfl
    rw [OrderBook.rest, hlevel, Option.bind_eq_bind, Option.bind_some]
    dsimp only
    rw [hmap2, hinsert]
    rfl
  have hcontains : b.map.contains (2 ^ 29) = some false := by
    rw [h.models.contains_eq h.room, hnew]
    rfl
  have hprice : b.priceOk 2 = true := by
    rw [priceOk_eq]
    exact validPrice_iff.mpr hvalid
  have hmax : crowdedBook.maxOrders.toNat = 2 ^ 29 + 1 := rfl
  have hlive : b.store.live < b.cfg.maxOrders.toNat := by
    rw [h.live, h.cfg, hmax]
    omega
  have hone : (1 : Qty) ≠ 0 := by decide
  -- every ask is above the limit
  have hcross : b.cross .bid (some 2) (2 ^ 29) 1 = some (b, 1, []) := by
    refine cross_far (fun bp hbp => ?_) _
    have hlists := h.indexed .ask
    rw [h.cfg] at hlists
    have hbest : (b.ownIndex .ask).bestPrice = some bp := hbp
    rw [hlists.bestPrice crowdedBook_narrow] at hbest
    exact decide_eq_true (Int64.lt_trans (show (2 : Price) < 3 by decide)
      (h.asks bp (List.mem_of_mem_head? hbest)))
  refine ⟨(OrderBook.emit { b2 with map := map' } (.accepted (2 ^ 29) 1)).1,
    (OrderBook.emit { b2 with map := map' } (.accepted (2 ^ 29) 1)).2,
    fun p => Function.update C.level (.bid, 2) ⟨1, 1, 1 + 1⟩ (.bid, p),
    C.locs.insert (2 ^ 29) (mkLoc 1 1),
    apply_rest hone (checkNew_gtc hone hprice hcontains hlive) hcross hrest,
    hframe2.cfg.trans (hframe1.cfg.trans h.cfg), ?_, ?_, ?_, hmodels, ?_, ?_⟩
  · have hlists := hix2 .bid
    rw [h.bids, hframe2.cfg.trans (hframe1.cfg.trans h.cfg)] at hlists
    exact hlists
  · show b2.store.chunks[0]? = _
    rw [hstore, Array.getElem?_modify, if_neg (by decide)]
    exact h.gone
  · show b2.store.live = _
    rw [hstore]
    show b.store.live + 1 = _
    rw [h.live]
  · have hout : (2 ^ 29 : OrderId) ∉ C.locs.keys := by
      rw [Finmap.mem_keys, Finmap.mem_iff, hnew]
      rintro ⟨_, hv⟩
      cases hv
    have := h.card
    have := h.tags
    show (C.locs.insert _ _).keys.card < map'.tags.size
    rw [keys_insert, Finset.card_insert_of_notMem hout, htags]
    omega
  · exact (Finmap.lookup_insert_of_ne _ (by decide)).trans h.first

theorem emit_restingSide (e : Event) (s : Side) : (b.emit e).1.restingSide s = b.restingSide s := by
  cases s <;> rfl

/-- A level whose chunk holds one live order is listed. -/
theorem restingSide_ne_nil {s : Side} {ds : List LevelDepth}
    (hdepth : b.depth s (2 ^ 64 - 1) = some ds) {d : LevelDepth} (hd : d ∈ ds) {l : Level}
    (hlevel : (b.ownIndex s).levelMut d.price = some l) {c : Nat} (hl : l.head = c) (hc : c ≠ NIL)
    (hloc : locChunk (mkLoc c 0) = c ∧ locSlot (mkLoc c 0) = 0) {ch : Chunk}
    (hch : b.store.chunks[c]? = some ch) (hhead : ch.head = 0) (htail : ch.tail = 1)
    (hnext : ch.next = NIL) {x : Slot} (hx : ch.s[0]? = some x) (hqty : x.qty ≠ 0) :
    b.restingSide s ≠ some [] := by
  intro hnil
  obtain ⟨t, ht⟩ : ∃ t, ch.tif[0]? = some t := ⟨ch.tif[0], Vector.getElem?_eq_getElem (by decide)⟩
  have hread : b.restingAt s (mkLoc c 0) = some ⟨x.id, s, ch.price, x.qty, t⟩ := by
    simp only [restingAt, Store.chunk, hloc.1, hloc.2, hch, hx, ht, Option.bind_eq_bind,
      Option.bind_some]
    rfl
  obtain ⟨levels, hlevels, hnil⟩ := Option.bind_eq_some_iff.mp hnil
  cases hdepth.symm.trans hlevels
  obtain ⟨oss, hoss, hnil⟩ := Option.bind_eq_some_iff.mp hnil
  have hflat : oss.flatten = [] := Option.some.inj hnil
  obtain ⟨os, hos, hrun⟩ := mapM_mem hoss hd
  rw [List.flatten_eq_nil_iff.mp hflat os hos, restingLevel_single hlevel hl hc hch hhead htail
    hnext hx hqty hread] at hrun
  cases hrun

/-- The ladder of the bids is told to be empty, and the bid at 2 is in it. -/
structure Blinded (b : OrderBook) (C : Content) : Prop where
  cfg : b.cfg = crowdedBook
  kind : b.bids.kind = .ladder
  bids : ∃ lad : LadderIndex, b.bids.lad = { lad with count := 0, best := NIL } ∧
    lad.Lists crowdedBook .bid [2] fun p => C.level (.bid, p)
  level : C.level (.bid, 2) = ⟨1, 1, 1⟩
  asks : PriceIndex.Lists crowdedBook .ask b.asks (C.prices .ask) fun p => C.level (.ask, p)
  above : ∀ p ∈ C.prices .ask, 3 < p
  few : (C.prices .ask).length ≤ 2 ^ 29 + 1
  gone : b.store.chunks[0]? = some Store.goneChunk
  lone : b.store.chunks[1]? = some (Store.loneChunk .bid 2 1 1 .gtc)
  free : b.store.freeChunk = 0
  live : b.store.live = 2 ^ 29
  models : b.map.Models C.locs
  room : C.locs.keys.card < b.map.tags.size
  fresh : C.locs.lookup (2 ^ 29) = none

/-- Cancelling the order of chunk 0, which is gone, blinds the bids. -/
theorem Robbed.blind (h : Robbed b C) : ∃ b' C' out, b.apply (.cancel 0) = some (b', out) ∧
    Blinded b' C' := by
  have hbids := h.indexed .bid
  have hasks := h.indexed .ask
  rw [h.cfg] at hbids hasks
  rw [h.bids] at hbids
  obtain ⟨lad, map, hcancel, hlad, hmodels, htags⟩ :=
    cancel_gone hbids h.gone h.models h.room h.first
  have hcard := card_erase h.first
  have hroom : (C.locs.erase 0).keys.card < map.tags.size := by
    have := h.room
    omega
  have hnew : (C.locs.erase 0).lookup (2 ^ 29) = none :=
    (Finmap.lookup_erase_ne (by decide)).trans (h.fresh _ (by decide))
  exact ⟨_, { C with locs := C.locs.erase 0 }, _, hcancel, ⟨h.cfg, hbids.kind, ⟨lad, rfl, hlad⟩,
    h.level, hasks, h.asks, h.few, h.gone, h.lone, h.free, h.live, hmodels, hroom, hnew⟩⟩

section Blinded

variable (h : Blinded b C)

include h

theorem Blinded.bestPrice : b.bids.bestPrice = none := by
  obtain ⟨lad, hlad, _⟩ := h.bids
  rw [PriceIndex.bestPrice_ladder h.kind, hlad]
  exact if_pos rfl

theorem Blinded.levelMut : b.bids.levelMut 2 = some ⟨1, 1, 1⟩ := by
  obtain ⟨lad, hlad, hlists⟩ := h.bids
  have hread := hlists.read (List.mem_singleton_self 2)
  rw [h.level] at hread
  rw [PriceIndex.levelMut_ladder h.kind, hlad]
  show (lad.levels[lad.idx 2]?).bind _ = _
  rw [hread]
  rfl

theorem Blinded.depth : b.bids.depth (2 ^ 64 - 1) = some [⟨2, 1⟩] := by
  obtain ⟨lad, hlad, hlists⟩ := h.bids
  have hdepth := hlists.depth (2 ^ 64 - 1)
  rw [List.take_of_length_le (by decide), List.map_singleton, h.level] at hdepth
  rw [PriceIndex.depth_ladder h.kind, hlad]
  exact (lad.depth_cursor 0 NIL _).trans hdepth

theorem Blinded.notMem : (2 : Price) ∉ C.prices .ask :=
  fun hmem => absurd (h.above 2 hmem) (by decide)

/-- An ask at 2 meets nothing and gets chunk 0. -/
theorem Blinded.rest : ∃ b' ch, b.rest (2 ^ 29) .ask 2 1 .gtc = some b' ∧ b'.bids = b.bids ∧
    PriceIndex.Lists crowdedBook .ask b'.asks (PriceIndex.listed .ask 2 (C.prices .ask))
      (Function.update (fun p => C.level (.ask, p)) 2 ⟨0, 0, 0 + 1⟩) ∧
    b'.store.chunks[0]? = some ch ∧ b'.store.chunks[1]? = some (Store.loneChunk .bid 2 1 1 .gtc) ∧
    ch.head = 0 ∧ ch.tail = 1 ∧ ch.next = NIL ∧ ch.s[0]? = some ⟨2 ^ 29, 1⟩ := by
  have hvalid : crowdedBook.Valid 2 := crowd_valid (i := 1) (by decide)
  obtain ⟨ix1, hins, hix1⟩ :=
    h.asks.levelInsert hvalid (h.asks.room crowdedBook_narrow.short hvalid)
    (by have := h.few; omega) fun hmem => absurd hmem h.notMem
  have hmem : (2 : Price) ∈ PriceIndex.listed .ask 2 (C.prices .ask) :=
    PriceIndex.mem_listed.mpr (Or.inl rfl)
  have hread := hix1.read hmem
  rw [h.asks.default 2 h.notMem] at hread
  obtain ⟨ch, hpush, hhead, htail, hnext, hslot⟩ := Store.push_recycled b.store h.gone h.free
    (by rw [h.live]; decide) .ask 2 (2 ^ 29)
  obtain ⟨ix2, hwrite, hix2⟩ := hix1.write hmem ⟨0, 0, 0 + 1⟩
  obtain ⟨map', hinsert, _⟩ := h.models.insert h.room (2 ^ 29) (mkLoc 0 0)
  have hlevel : b.pushLevel .ask 2 (2 ^ 29) 1 .gtc = some ({ b with
      asks := ix2, store := { b.store with
        chunks := b.store.chunks.modify 0 fun _ => ch, freeChunk := NIL, live :=
          b.store.live + 1 } }, mkLoc 0 0) := by
    have hlist : b.levelInsert .ask 2 = some { b with asks := ix1 } := by
      show (b.asks.levelInsert 2).map _ = _
      rw [hins]
      rfl
    have hget : OrderBook.readLevel { b with asks := ix1 } .ask 2 = some {} := hread
    rw [OrderBook.pushLevel, hlist, Option.bind_eq_bind, Option.bind_some, hget,
      Option.bind_eq_bind, Option.bind_some, hpush, Option.bind_eq_bind, Option.bind_some]
    show (Option.map _ (ix1.write 2 ⟨0, 0, 0 + 1⟩)).bind _ = _
    rw [hwrite]
    rfl
  refine ⟨{ b with
    asks := ix2, map := map', store := { b.store with
      chunks := b.store.chunks.modify 0 fun _ => ch, freeChunk := NIL, live := b.store.live + 1 } },
        ch, ?_, rfl, hix2, Store.withChunk_self h.gone, ?_, hhead, htail, hnext, hslot⟩
  · rw [OrderBook.rest, hlevel, Option.bind_eq_bind, Option.bind_some]
    dsimp only
    rw [hinsert]
    rfl
  · have hne : (b.store.withChunk 0 ch).chunks[1]? = b.store.chunks[1]? :=
      Store.withChunk_ne (by decide)
    exact hne.trans h.lone

theorem Blinded.cross : b.cross .ask (some 2) (2 ^ 29) 1 = some (b, 1, []) := by
  refine cross_far (fun bp hbp => ?_) _
  rw [show (b.ownIndex (opposite .ask)).bestPrice = none from h.bestPrice] at hbp
  cases hbp

theorem Blinded.check : b.checkNew (.newLimit (2 ^ 29) .ask 2 1 .gtc) = some none := by
  refine checkNew_gtc (by decide) ?_ ?_ ?_
  · rw [priceOk_eq, h.cfg]
    rfl
  · rw [h.models.contains_eq h.room, h.fresh]
    rfl
  · rw [h.live, h.cfg]
    decide

end Blinded

/-- A cancel of the order that is gone hides the bid at 2, and an ask comes to rest at
its price. -/
theorem Robbed.crossed (h : Robbed b C) :
    ∃ b' out, b.applyAll [.cancel 0, .newLimit (2 ^ 29) .ask 2 1 .gtc] = some (b', out) ∧
      b'.bestBid = none ∧
      b'.restingSide .bid ≠ some [] ∧ b'.restingSide .ask ≠ some [] ∧ b'.levelTotal .bid 2 = 1 ∧
      b'.levelTotal .ask 2 = 1 := by
  obtain ⟨b3, C3, out3, hcancel, h3⟩ := h.blind
  obtain ⟨b4, ch, hrest, hbids, hasks, hchunk0, hchunk1, hhead, htail, hnext, hslot⟩ := h3.rest
  have hsubmit := apply_rest (by decide) h3.check h3.cross hrest
  have hmutb : (b4.ownIndex .bid).levelMut 2 = some ⟨1, 1, 1⟩ :=
    (congrArg (PriceIndex.levelMut · 2) hbids).trans h3.levelMut
  have hmuta : (b4.ownIndex .ask).levelMut 2 = some ⟨0, 0, 0 + 1⟩ := by
    rw [show b4.ownIndex .ask = b4.asks from rfl, hasks.levelMut, Function.update_self]
    rfl
  -- the bid at 2 still rests: only the count and the cursor forgot its level
  have hbidside : b4.restingSide .bid ≠ some [] := by
    have hslot1 : (Store.loneChunk .bid 2 1 1 .gtc).s[0]? = some ⟨1, 1⟩ := by decide
    have hall : b4.depth .bid (2 ^ 64 - 1) = some [⟨2, 1⟩] :=
      (congrArg (PriceIndex.depth · (2 ^ 64 - 1)) hbids).trans h3.depth
    exact restingSide_ne_nil hall List.mem_cons_self hmutb rfl (by decide) (by decide) hchunk1 rfl
      rfl rfl hslot1 (by decide)
  have haskside : b4.restingSide .ask ≠ some [] := by
    have hmem : (2 : Price) ∈ PriceIndex.listed .ask 2 (C3.prices .ask) :=
      PriceIndex.mem_listed.mpr (Or.inl rfl)
    have hdepth := hasks.depth (2 ^ 64 - 1)
    rw [List.take_of_length_le (by
      rw [PriceIndex.listed, if_neg h3.notMem, List.orderedInsert_length]
      have := h3.few
      omega)] at hdepth
    have hall : b4.depth .ask (2 ^ 64 - 1) = _ := hdepth
    exact restingSide_ne_nil hall (List.mem_map_of_mem hmem) hmuta rfl (by decide) (by decide)
      hchunk0 hhead htail hnext hslot (by decide)
  refine ⟨(b4.emit (.accepted (2 ^ 29) 1)).1, out3 ++ ((b4.emit (.accepted (2 ^ 29) 1)).2 ++ []),
    ?_, ?_, ?_, ?_, ?_, ?_⟩
  · rw [applyAll, hcancel, Option.bind_eq_bind, Option.bind_some]
    simp only [applyAll, hsubmit, Option.bind_eq_bind, Option.bind_some]
    rfl
  · exact (congrArg PriceIndex.bestPrice hbids).trans h3.bestPrice
  · rw [emit_restingSide]
    exact hbidside
  · rw [emit_restingSide]
    exact haskside
  · show b4.levelTotal .bid 2 = 1
    rw [levelTotal, hmutb]
  · show b4.levelTotal .ask 2 = 1
    rw [levelTotal, hmuta]
    rfl

end Robbed

end OrderBook

end Matcher
