import Matcher.Logic.Wide

/-!
# More orders than locations

A location is eight times a chunk number in 32 bits, so chunk 2^29 has the
locations of chunk 0. Here one order after the other comes to rest at a price of
its own, each in a chunk of its own, until the order in chunk 2^29 and the order in
chunk 0 share a location.
-/

namespace Matcher

open Kit

/-- A ladder with room for more than 2^29 orders. -/
def crowdedBook : BookConfig := { priceMin := 1, priceMax := 2 ^ 30, maxOrders := 2 ^ 29 + 1 }

theorem crowdedBook_narrow : crowdedBook.Narrow := fun _ _ => by decide

theorem crowdedBook_builds : crowdedBook.Builds := by decide

namespace Store

/-- The chunk of an order that is alone at its price. -/
def loneChunk (side : Side) (price : Price) (id : OrderId) (qty : Qty) (tif : Tif) : Chunk :=
  { price, prev := NIL, next := NIL, head := 0, tail := 1, live := 1, side
    s := (Vector.replicate CHUNK_SLOTS {}).set 0 ⟨id, qty⟩
    tif := (Vector.replicate 8 .gtc).set 0 tif }

theorem modify_push (chunks : Array Chunk) (ch : Chunk) (f : Chunk → Chunk) :
    (chunks.push ch).modify chunks.size f = chunks.push (f ch) := by
  apply Array.ext_getElem?
  intro i
  rw [Array.getElem?_modify, Array.getElem?_push, Array.getElem?_push]
  by_cases hi : i = chunks.size
  · rw [if_pos hi, if_pos hi.symm, if_pos hi]
    rfl
  · rw [if_neg hi, if_neg (Ne.symm hi), if_neg hi]

/-- An order for an empty level, while no chunk was ever freed, gets the next chunk. -/
theorem push_fresh (st : Store) (hused : st.used = st.chunks.size) (hfree : st.freeChunk = NIL)
    (hsize : st.chunks.size + 1 < 2 ^ 32) (hlive : st.live + 1 < 2 ^ 64)
    (side : Side) (price : Price) (id : OrderId) (qty : Qty) (tif : Tif) :
    st.push {} side price id qty tif = some ({ st with
        chunks := st.chunks.push (loneChunk side price id qty tif), used := st.chunks.size + 1,
        live := st.live + 1 },
      { head := st.chunks.size, tail := st.chunks.size, total := 0 + qty },
        mkLoc st.chunks.size 0) := by
  have hmod : ∀ (ch : Chunk) (f : Chunk → Chunk),
      modify? (st.chunks.push ch) st.chunks.size f = some (st.chunks.push (f ch)) := by
    intro ch f
    rw [modify?_of_lt _ (by simp), modify_push]
  have hget : ∀ ch : Chunk, (st.chunks.push ch)[st.chunks.size]? = some ch := fun ch => by simp
  -- the free list is empty, so the memory grows by a default chunk
  have htake : st.takeChunk =
      some ({ st with used := st.chunks.size + 1, chunks := st.chunks.push {} },
        st.chunks.size) := by
    rw [takeChunk, if_neg (not_not.mpr hfree), hused, incr_of_lt hsize]
    simp
  have halloc : st.allocChunk side price = some ({ st with
        chunks := st.chunks.push
          { price, prev := NIL, next := NIL, head := 0, tail := 0, live := 0, side },
        used := st.chunks.size + 1 }, st.chunks.size) := by
    rw [allocChunk, htake, Option.bind_eq_bind, Option.bind_some]
    dsimp only
    rw [updChunk, hmod]
    rfl
  have htail : st.tailChunk {} side price = some ({ st with
        chunks := st.chunks.push
          { price, prev := NIL, next := NIL, head := 0, tail := 0, live := 0, side },
        used := st.chunks.size + 1 },
      { head := st.chunks.size, tail := st.chunks.size }, st.chunks.size) := by
    have hused : st.usedUp NIL = some true := rfl
    rw [tailChunk, hused, Option.bind_eq_bind, Option.bind_some, if_pos rfl, halloc,
      Option.bind_eq_bind, Option.bind_some]
    dsimp only
    rw [updChunk, hmod]
    rfl
  rw [push, htail, Option.bind_eq_bind, Option.bind_some]
  dsimp only
  rw [hget, Option.bind_eq_bind, Option.bind_some]
  simp only [updChunk, hmod, Chunk.setSlot, Chunk.setTif, Option.bind_eq_bind, Option.bind_some,
    Option.map_some, incr_of_lt hlive]
  rfl

end Store

namespace OrderBook

section Submit

variable {b b1 : OrderBook} {oid : OrderId} {side : Side} {price : Price} {qty : Qty}

/-- Nothing is matched when the best opposite price is beyond the limit. -/
theorem crossFrom_far {limit : Option Price}
    (hfar : ∀ bp, (b.ownIndex (opposite side)).bestPrice = some bp → beyond side limit bp = true)
    (taker : OrderId) (fuel : Nat) :
    crossFrom side limit taker (fuel + 1) b qty = some (b, qty, []) := by
  rw [crossFrom]
  cases hbest : (b.ownIndex (opposite side)).bestPrice with
  | none => rfl
  | some bp =>
    dsimp only
    rw [if_pos (hfar bp hbest)]
    rfl

theorem cross_far {limit : Option Price}
    (hfar : ∀ bp, (b.ownIndex (opposite side)).bestPrice = some bp → beyond side limit bp = true)
    (taker : OrderId) :
    b.cross side limit taker qty = some (b, qty, []) := crossFrom_far hfar taker _

theorem checkNew_gtc (hqty : qty ≠ 0) (hprice : b.priceOk price = true)
    (hnew : b.map.contains oid = some false) (hlive : b.store.live < b.cfg.maxOrders.toNat) :
    b.checkNew (.newLimit oid side price qty .gtc) = some none := by
  have hopen : ¬ b.store.live ≥ b.cfg.maxOrders.toNat := Nat.not_le.mpr hlive
  simp [checkNew, Command.newLimit, hqty, hprice, hnew, hopen]

/-- An order that trades with nothing comes to rest whole. -/
theorem apply_rest (hqty : qty ≠ 0)
    (hcheck : b.checkNew (.newLimit oid side price qty .gtc) = some none)
    (hcross : b.cross side (some price) oid qty = some (b, qty, []))
    (hrest : b.rest oid side price qty .gtc = some b1) :
    b.apply (.newLimit oid side price qty .gtc) = some (b1.emit (.accepted oid qty)) := by
  have happly : b.apply (.newLimit oid side price qty .gtc) =
      b.newOrder (.newLimit oid side price qty .gtc) := rfl
  rw [happly, newOrder, hcheck]
  simp only [Command.newLimit, if_true, hcross, hrest, if_neg hqty, true_or, and_self,
    Option.bind_eq_bind, Option.bind_some]
  rfl

/-- A cancel, from what its steps find. -/
theorem apply_cancel {ploc loc : Nat} {ch : Chunk} {map : OrderMap}
    (hget : b.map.get oid = some (some ploc)) (hval : b.map.readVal ploc = some loc)
    (hread : b.store.chunk loc = some ch) (hunlink : b.unlinkOrder ch.side ch.price loc = some b1)
    (hremove : b1.map.remove oid = some map) :
    b.apply (.cancel oid) = some (OrderBook.emit { b1 with map } (.closed oid .cancelled)) := by
  have happly : b.apply (.cancel oid) = b.cancel oid := rfl
  rw [happly, cancel, hget]
  simp only [hval, hread, hunlink, hremove, Option.bind_eq_bind, Option.bind_some]
  rfl

end Submit

/-! ## The crowd -/

/-- The first two orders are bids, the others asks two ticks above them. -/
def crowdSide (i : Nat) : Side := if i < 2 then .bid else .ask

def crowdPrice (i : Nat) : Price := Int64.ofNat (if i < 2 then i + 1 else i + 2)

def crowdOrder (i : Nat) : Command := .newLimit (UInt64.ofNat i) (crowdSide i) (crowdPrice i) 1 .gtc

theorem crowdPrice_toInt {i : Nat} (hi : i ≤ 2 ^ 29) :
    (crowdPrice i).toInt = if i < 2 then (i : Int) + 1 else (i : Int) + 2 := by
  rw [crowdPrice]
  split
  · rw [Int64.toInt_ofNat_of_lt (by omega)]
    omega
  · rw [Int64.toInt_ofNat_of_lt (by omega)]
    omega

theorem crowdId_toNat {i : Nat} (hi : i ≤ 2 ^ 29) : (UInt64.ofNat i).toNat = i :=
  UInt64.toNat_ofNat_of_lt' (hi.trans_lt (by decide))

theorem crowdPrice_inj {i j : Nat} (hi : i ≤ 2 ^ 29) (hj : j ≤ 2 ^ 29)
    (h : crowdPrice i = crowdPrice j) : i = j := by
  have hint := congrArg Int64.toInt h
  rw [crowdPrice_toInt hi, crowdPrice_toInt hj] at hint
  split at hint <;> split at hint <;> omega

theorem crowd_valid {i : Nat} (hi : i ≤ 2 ^ 29) : crowdedBook.Valid (crowdPrice i) := by
  have hint := crowdPrice_toInt hi
  have hmin : crowdedBook.priceMin.toInt = 1 := rfl
  have hmax : crowdedBook.priceMax.toInt = 2 ^ 30 := rfl
  refine (PriceIndex.valid_ladder rfl _).mpr ⟨Int64.le_iff_toInt_le.mpr ?_,
    Int64.le_iff_toInt_le.mpr ?_⟩
  · rw [hint, hmin]
    split <;> omega
  · rw [hint, hmax]
    split <;> omega

/-- The first `n` orders of the crowd rest, order `i` alone in chunk `i`. -/
structure Packed (n : Nat) (b : OrderBook) (C : Content) : Prop where
  cfg : b.cfg = crowdedBook
  indexed : b.Indexed C.prices C.level
  listed : ∀ s p, p ∈ C.prices s ↔ ∃ i < n, crowdSide i = s ∧ crowdPrice i = p
  few : ∀ s, (C.prices s).length ≤ n
  levels : ∀ i < n, C.level (crowdSide i, crowdPrice i) = ⟨i, i, 1⟩
  size : b.store.chunks.size = n
  used : b.store.used = n
  free : b.store.freeChunk = NIL
  live : b.store.live = n
  chunk : ∀ i < n, b.store.chunks[i]? =
    some (Store.loneChunk (crowdSide i) (crowdPrice i) (UInt64.ofNat i) 1 .gtc)
  models : b.map.Models C.locs
  lookup : ∀ i < n, C.locs.lookup (UInt64.ofNat i) = some (mkLoc i 0)
  fresh : ∀ k : OrderId, n ≤ k.toNat → C.locs.lookup k = none
  card : C.locs.keys.card = n
  tags : 2 ^ 30 ≤ b.map.tags.size

theorem new_packed : ∃ b, new crowdedBook = some b ∧ Packed 0 b blank := by
  obtain ⟨map, hmap, hmodels, htags, _⟩ :=
    OrderMap.new_models (show crowdedBook.maxOrders.toNat ≤ 2 ^ 61 by decide)
  have hmax : crowdedBook.maxOrders.toNat = 2 ^ 29 + 1 := rfl
  have hchunks : crowdedBook.maxOrders.toNat ≤ Store.maxChunks := by decide
  refine ⟨_, new_eq_some.mpr ⟨crowdedBook_builds, hchunks, map, hmap, rfl⟩, ⟨rfl, fun s => ?_,
    fun s p => ?_, fun _ => Nat.le_refl 0, fun i hi => ?_, rfl, rfl, rfl,
    rfl, fun i hi => ?_, hmodels, fun i hi => ?_, fun _ _ => rfl, rfl, ?_⟩⟩
  · cases s <;> exact PriceIndex.blank_lists crowdedBook _
  · constructor
    · intro hmem
      exact absurd hmem List.not_mem_nil
    · intro hex
      obtain ⟨i, hi, _⟩ := hex
      exact absurd hi (Nat.not_lt_zero i)
  · exact absurd hi (Nat.not_lt_zero i)
  · exact absurd hi (Nat.not_lt_zero i)
  · exact absurd hi (Nat.not_lt_zero i)
  · show 2 ^ 30 ≤ map.tags.size
    omega

section Packed

variable {n : Nat} {b : OrderBook} {C : Content}

theorem Packed.bestPrice (h : Packed n b C) (s : Side) :
    (b.ownIndex s).bestPrice = (C.prices s).head? := by
  have hlists := h.indexed s
  rw [h.cfg] at hlists
  exact hlists.bestPrice crowdedBook_narrow

/-- No bid of the crowd reaches an ask of the crowd. -/
theorem Packed.cross (h : Packed n b C) (hn : n ≤ 2 ^ 29) (taker : OrderId) (qty : Qty) :
    b.cross (crowdSide n) (some (crowdPrice n)) taker qty = some (b, qty, []) := by
  refine cross_far (fun bp hbp => ?_) taker
  rw [h.bestPrice] at hbp
  obtain ⟨i, hi, hside, rfl⟩ := (h.listed _ bp).mp (List.mem_of_mem_head? hbp)
  have hpi := crowdPrice_toInt (show i ≤ 2 ^ 29 by omega)
  have hpn := crowdPrice_toInt hn
  unfold crowdSide at hside ⊢
  by_cases hlow : n < 2
  · rw [if_pos (show i < 2 by omega), if_pos hlow] at hside
    cases hside
  · rw [if_neg hlow] at hside ⊢
    by_cases hi2 : i < 2
    · rw [if_pos hi2] at hpi
      rw [if_neg hlow] at hpn
      exact decide_eq_true (Int64.lt_iff_toInt_lt.mpr (by omega))
    · rw [if_neg hi2] at hside
      cases hside

/-- While no chunk was ever freed, an order at a price of its own gets the next chunk. -/
theorem rest_alone {b : OrderBook} {C : Content} (hix : b.Indexed C.prices C.level)
    {side : Side} {price : Price} (hvalid : b.cfg.Valid price) (hroom : b.cfg.HasRoom price)
    (hnew : price ∉ C.prices side) (hfew : (C.prices side).length ≤ b.store.chunks.size)
    (hused : b.store.used = b.store.chunks.size) (hfree : b.store.freeChunk = NIL)
    (hsize : b.store.chunks.size + 1 < 2 ^ 32) (hlive : b.store.live + 1 < 2 ^ 64)
    (hmodels : b.map.Models C.locs) (hcard : C.locs.keys.card < b.map.tags.size) (id : OrderId) :
    ∃ b', b.rest id side price 1 .gtc = some b' ∧ b'.cfg = b.cfg ∧
      b'.Indexed (Function.update C.prices side (PriceIndex.listed side price (C.prices side)))
        (Function.update C.level (side, price) ⟨b.store.chunks.size, b.store.chunks.size, 0 + 1⟩) ∧
      b'.store = { b.store with
        chunks := b.store.chunks.push (Store.loneChunk side price id 1 .gtc)
        used := b.store.chunks.size + 1, live := b.store.live + 1 } ∧
      b'.map.Models (C.locs.insert id (mkLoc b.store.chunks.size 0)) ∧
        b'.map.tags.size = b.map.tags.size := by
  obtain ⟨b1, hins, hframe1, hix1⟩ := hix.levelInsert hvalid hroom
    (show (C.prices side).length + 1 < 2 ^ 32 by omega) fun hmem => absurd hmem hnew
  have hmem1 : price ∈ Function.update C.prices side (PriceIndex.listed side price (C.prices side))
      side := by
    rw [Function.update_self]
    exact PriceIndex.mem_listed.mpr (Or.inl rfl)
  -- a level just listed is empty
  have hread := hix1.read hmem1
  rw [(hix side).default _ hnew] at hread
  have hpush := Store.push_fresh b.store hused hfree hsize hlive side price id 1 .gtc
  obtain ⟨b2, hwrite, hframe2, hix2⟩ := Indexed.write
    (b := { b1 with store := { b.store with
        chunks := b.store.chunks.push (Store.loneChunk side price id 1 .gtc)
        used := b.store.chunks.size + 1, live := b.store.live + 1 } }) hix1 hmem1
    ⟨b.store.chunks.size, b.store.chunks.size, 0 + 1⟩
  obtain ⟨map', hinsert, hmodels', htags, _⟩ :=
    hmodels.insert hcard id (mkLoc b.store.chunks.size 0)
  have hmap2 : b2.map = b.map := hframe2.map.trans hframe1.map
  have hlevel : b.pushLevel side price id 1 .gtc = some (b2, mkLoc b.store.chunks.size 0) := by
    rw [OrderBook.pushLevel, hins, Option.bind_eq_bind, Option.bind_some, hread,
      Option.bind_eq_bind, Option.bind_some, hframe1.store, hpush, Option.bind_eq_bind,
      Option.bind_some]
    dsimp only
    rw [hwrite]
    rfl
  refine ⟨{ b2 with map := map' }, ?_, hframe2.cfg.trans hframe1.cfg, hix2, hframe2.store, hmodels',
    htags⟩
  rw [OrderBook.rest, hlevel, Option.bind_eq_bind, Option.bind_some]
  dsimp only
  rw [hmap2, hinsert]
  rfl

theorem Packed.room (h : Packed n b C) (hn : n ≤ 2 ^ 29 + 1) :
    C.locs.keys.card < b.map.tags.size := by
  have := h.tags
  rw [h.card]
  omega

/-- The next order of the crowd gets the next chunk. -/
theorem Packed.rest (h : Packed n b C) (hn : n ≤ 2 ^ 29) :
    ∃ b' C', b.rest (UInt64.ofNat n) (crowdSide n) (crowdPrice n) 1 .gtc = some b' ∧
      Packed (n + 1) b' C' := by
  have hnew : crowdPrice n ∉ C.prices (crowdSide n) := by
    intro hmem
    obtain ⟨i, hi, _, heq⟩ := (h.listed _ _).mp hmem
    have := crowdPrice_inj (by omega) hn heq
    omega
  have hvalid : b.cfg.Valid (crowdPrice n) := h.cfg ▸ crowd_valid hn
  have hroom : b.cfg.HasRoom (crowdPrice n) :=
    (h.indexed (crowdSide n)).room (h.cfg ▸ crowdedBook_narrow.short) hvalid
  obtain ⟨b', hrest, hcfg, hix, hstore, hmodels, htags⟩ := rest_alone h.indexed hvalid hroom hnew
    (by rw [h.size]; exact h.few _) (by rw [h.used, h.size]) h.free (by rw [h.size]; omega) (by
      rw [h.live]; omega)
    h.models (h.room (by omega)) (UInt64.ofNat n)
  rw [h.size] at hix hstore hmodels
  rw [h.live] at hstore
  generalize hps : Function.update C.prices (crowdSide n)
    (PriceIndex.listed (crowdSide n) (crowdPrice n) (C.prices (crowdSide n))) = ps at hix
  have hid : ∀ i < n, UInt64.ofNat i ≠ UInt64.ofNat n := by
    intro i hi heq
    have := congrArg UInt64.toNat heq
    rw [crowdId_toNat (by omega), crowdId_toNat hn] at this
    omega
  have hkey := crowdId_toNat hn
  refine ⟨b', ⟨ps, fun _ => [], Function.update C.level (crowdSide n, crowdPrice n) ⟨n, n, 0 + 1⟩,
    C.locs.insert (UInt64.ofNat n) (mkLoc n 0)⟩, hrest,
    ⟨hcfg.trans h.cfg, hix, fun s p => ?_, fun s => ?_, fun i hi => ?_, ?_, ?_, ?_, ?_, fun i hi =>
      ?_, hmodels,
      fun i hi => ?_, fun k hk => ?_, ?_, ?_⟩⟩
  -- the listed prices
  · show p ∈ ps s ↔ _
    rw [← hps]
    by_cases hs : s = crowdSide n
    · subst hs
      rw [Function.update_self, PriceIndex.mem_listed, h.listed]
      constructor
      · rintro (rfl | ⟨i, hi, hside, hprice⟩)
        · exact ⟨n, Nat.lt_succ_self n, rfl, rfl⟩
        · exact ⟨i, Nat.lt_succ_of_lt hi, hside, hprice⟩
      · rintro ⟨i, hi, hside, hprice⟩
        rcases Nat.lt_succ_iff_lt_or_eq.mp hi with hi | rfl
        · exact Or.inr ⟨i, hi, hside, hprice⟩
        · exact Or.inl hprice.symm
    · rw [Function.update_of_ne hs, h.listed]
      constructor
      · rintro ⟨i, hi, hside, hprice⟩
        exact ⟨i, Nat.lt_succ_of_lt hi, hside, hprice⟩
      · rintro ⟨i, hi, hside, hprice⟩
        rcases Nat.lt_succ_iff_lt_or_eq.mp hi with hi | rfl
        · exact ⟨i, hi, hside, hprice⟩
        · exact absurd hside.symm hs
  · show (ps s).length ≤ _
    rw [← hps]
    have hfew := h.few
    by_cases hs : s = crowdSide n
    · subst hs
      rw [Function.update_self, PriceIndex.listed, if_neg hnew, List.orderedInsert_length]
      exact Nat.succ_le_succ (hfew _)
    · rw [Function.update_of_ne hs]
      exact (hfew s).trans (Nat.le_succ n)
  -- the levels
  · show Function.update C.level _ _ _ = _
    rcases Nat.lt_succ_iff_lt_or_eq.mp hi with hlt | rfl
    · have hne : (crowdSide i, crowdPrice i) ≠ (crowdSide n, crowdPrice n) := fun heq => by
        have := crowdPrice_inj (by omega) hn (Prod.mk.inj heq).2
        omega
      rw [Function.update_of_ne hne]
      exact h.levels i hlt
    · rw [Function.update_self]
      rfl
  · rw [hstore]
    exact (Array.size_push _).trans (by rw [h.size])
  · rw [hstore]
  · rw [hstore]
    exact h.free
  · rw [hstore]
  · rw [hstore]
    show (b.store.chunks.push _)[i]? = _
    rw [Array.getElem?_push, h.size]
    rcases Nat.lt_succ_iff_lt_or_eq.mp hi with hlt | rfl
    · rw [if_neg (by omega)]
      exact h.chunk i hlt
    · rw [if_pos rfl]
  -- the ids in the map
  · rcases Nat.lt_succ_iff_lt_or_eq.mp hi with hlt | rfl
    · exact (Finmap.lookup_insert_of_ne _ (hid i hlt)).trans (h.lookup i hlt)
    · exact Finmap.lookup_insert _
  · have hne : k ≠ UInt64.ofNat n := by
      rintro rfl
      omega
    exact (Finmap.lookup_insert_of_ne _ hne).trans (h.fresh k (by omega))
  · show (C.locs.insert _ _).keys.card = _
    have hout : UInt64.ofNat n ∉ C.locs.keys := by
      rw [Finmap.mem_keys, Finmap.mem_iff, h.fresh _ (by omega)]
      rintro ⟨_, hv⟩
      cases hv
    rw [keys_insert, Finset.card_insert_of_notMem hout, h.card]
  · rw [htags]
    exact h.tags

theorem Packed.emit (h : Packed n b C) (e : Event) : Packed n (b.emit e).1 C :=
  { h with indexed := fun s => by cases s <;> exact h.indexed _ }

/-- One more order of the crowd. -/
theorem Packed.next (h : Packed n b C) (hn : n ≤ 2 ^ 29) :
    ∃ b' C' out, b.apply (crowdOrder n) = some (b', out) ∧
      out.map Emission.ev = [.accepted (UInt64.ofNat n) 1] ∧
      Packed (n + 1) b' C' := by
  obtain ⟨b1, C1, hrest, h1⟩ := h.rest hn
  have hcontains : b.map.contains (UInt64.ofNat n) = some false := by
    rw [h.models.contains_eq (h.room (by omega)), h.fresh _ (by rw [crowdId_toNat hn])]
    rfl
  have hprice : b.priceOk (crowdPrice n) = true := by
    rw [priceOk_eq, h.cfg]
    exact validPrice_iff.mpr (crowd_valid hn)
  have hlive : b.store.live < b.cfg.maxOrders.toNat := by
    have hmax : crowdedBook.maxOrders.toNat = 2 ^ 29 + 1 := rfl
    rw [h.live, h.cfg, hmax]
    omega
  have hone : (1 : Qty) ≠ 0 := by decide
  exact ⟨_, C1, _, apply_rest hone (checkNew_gtc hone hprice hcontains hlive)
    (h.cross hn _ _) hrest, rfl, h1.emit (.accepted (UInt64.ofNat n) 1)⟩

/-- Orders `n` to `n + k` of the crowd. -/
def crowd (n k : Nat) : List Command := (List.range' n k).map crowdOrder

theorem Packed.run (h : Packed n b C) {k : Nat} (hk : n + k ≤ 2 ^ 29 + 1) :
    ∃ b' C' out, b.applyAll (crowd n k) = some (b', out) ∧ Packed (n + k) b' C' := by
  induction k generalizing n b C with
  | zero => exact ⟨b, C, [], rfl, h⟩
  | succ k ih =>
    obtain ⟨b1, C1, out1, hrun1, _, h1⟩ := h.next (by omega)
    obtain ⟨b2, C2, out2, hrun2, h2⟩ := ih h1 (by omega)
    refine ⟨b2, C2, out1 ++ out2, ?_, by rwa [Nat.add_right_comm] at h2⟩
    rw [crowd, List.range'_succ, List.map_cons, applyAll, hrun1, Option.bind_eq_bind,
      Option.bind_some]
    dsimp only
    rw [show b1.applyAll ((List.range' (n + 1) k).map crowdOrder) = _ from hrun2]
    rfl

/-- The whole crowd rests. -/
theorem exists_packed : ∃ b0 b C out, new crowdedBook = some b0 ∧
    b0.applyAll (crowd 0 (2 ^ 29 + 1)) = some (b, out) ∧
    Packed (2 ^ 29 + 1) b C := by
  obtain ⟨b0, hnew, h0⟩ := new_packed
  obtain ⟨b, C, out, hrun, h⟩ := h0.run (k := 2 ^ 29 + 1) (by omega)
  rw [Nat.zero_add] at h
  exact ⟨b0, b, C, out, hnew, hrun, h⟩

end Packed

/-! ## What the queries see -/

/-- A visit finds live slots only. -/
theorem mem_visit {ch : Chunk} {k i j : Nat} {is : List Nat} (hrun : ch.visit i k = some is)
    (hj : j ∈ is) :
    ∃ x, ch.s[j]? = some x ∧ x.qty ≠ 0 := by
  induction k generalizing i is with
  | zero =>
    cases hrun
    cases hj
  | succ k ih =>
    obtain ⟨x, hx, hrun⟩ := Option.bind_eq_some_iff.mp hrun
    obtain ⟨rest, hrest, hrun⟩ := Option.bind_eq_some_iff.mp hrun
    cases hrun
    split at hj
    · next hqty =>
      rcases List.mem_cons.mp hj with rfl | hj
      · exact ⟨x, hx, hqty⟩
      · exact ih hrest hj
    · exact ih hrest hj

/-- `for_each` finds live slots only. -/
theorem mem_forEachFrom {st : Store} {fuel c : Nat} {locs : List Nat}
    (hrun : st.forEachFrom fuel c = some locs) {loc : Nat} (hloc : loc ∈ locs) :
    ∃ c i ch x, loc = mkLoc c i ∧ st.chunks[c]? = some ch ∧ ch.s[i]? = some x ∧ x.qty ≠ 0 := by
  induction fuel generalizing c locs with
  | zero => cases hrun
  | succ fuel ih =>
    rw [Store.forEachFrom] at hrun
    split at hrun
    · cases hrun
      cases hloc
    · obtain ⟨ch, hch, hrun⟩ := Option.bind_eq_some_iff.mp hrun
      obtain ⟨here, hhere, hrun⟩ := Option.bind_eq_some_iff.mp hrun
      obtain ⟨rest, hrest, hrun⟩ := Option.bind_eq_some_iff.mp hrun
      cases hrun
      rcases List.mem_append.mp hloc with hloc | hloc
      · obtain ⟨j, hj, rfl⟩ := List.mem_map.mp hloc
        obtain ⟨x, hx, hqty⟩ := mem_visit hhere hj
        exact ⟨c, j, ch, x, rfl, hch, hx, hqty⟩
      · exact ih hrest hloc

theorem slot_lt {ch : Chunk} {i : Nat} {x : Slot} (h : ch.s[i]? = some x) : i < 6 := by
  by_contra hout
  rw [Vector.getElem?_eq_none (by simpa [CHUNK_SLOTS] using hout)] at h
  cases h

/-- Locations are below 2^32. -/
theorem mkLoc_lt (c : Nat) {i : Nat} (hi : i < 6) : mkLoc c i < 2 ^ 32 := by
  rw [mkLoc]
  exact Nat.or_lt_two_pow (Nat.mod_lt _ (by decide)) (hi.trans (by decide))

/-- Every listed order was read at the location of a live slot. -/
theorem mem_restingOrders {b : OrderBook} {os : List RestingOrder}
    (hrun : b.restingOrders = some os) {o : RestingOrder} (ho : o ∈ os) :
    ∃ s c i ch x, b.store.chunks[c]? = some ch ∧ ch.s[i]? = some x ∧ x.qty ≠ 0 ∧
      b.restingAt s (mkLoc c i) = some o := by
  have hside : ∀ s os', b.restingSide s = some os' → o ∈ os' →
      ∃ s c i ch x, b.store.chunks[c]? = some ch ∧ ch.s[i]? = some x ∧ x.qty ≠ 0 ∧
        b.restingAt s (mkLoc c i) = some o := by
    intro s os' h ho'
    obtain ⟨levels, _, h⟩ := Option.bind_eq_some_iff.mp h
    obtain ⟨oss, hoss, h⟩ := Option.bind_eq_some_iff.mp h
    cases h
    obtain ⟨os1, hos1, ho1⟩ := List.mem_flatten.mp ho'
    obtain ⟨d, _, hlevel⟩ := mem_mapM hoss hos1
    obtain ⟨lv, _, hlevel⟩ := Option.bind_eq_some_iff.mp hlevel
    obtain ⟨locs, hlocs, hlevel⟩ := Option.bind_eq_some_iff.mp hlevel
    obtain ⟨loc, hloc, hat⟩ := mem_mapM hlevel ho1
    obtain ⟨c, i, ch, x, rfl, hch, hx, hqty⟩ := mem_forEachFrom hlocs hloc
    exact ⟨s, c, i, ch, x, hch, hx, hqty, hat⟩
  obtain ⟨bids, hbids, hrun⟩ := Option.bind_eq_some_iff.mp hrun
  obtain ⟨asks, hasks, hrun⟩ := Option.bind_eq_some_iff.mp hrun
  cases hrun
  rcases List.mem_append.mp ho with ho | ho
  · exact hside _ _ hbids ho
  · exact hside _ _ hasks ho

/-- The order list of a level whose chunk holds one live order. -/
theorem restingLevel_single {b : OrderBook} {s : Side} {d : LevelDepth} {l : Level}
    {o : RestingOrder} (hlevel : (b.ownIndex s).levelMut d.price = some l) {c : Nat}
    (hl : l.head = c) (hc : c ≠ NIL) {ch : Chunk} (hch : b.store.chunks[c]? = some ch)
    (hhead : ch.head = 0) (htail : ch.tail = 1) (hnext : ch.next = NIL) {x : Slot}
    (hx : ch.s[0]? = some x) (hqty : x.qty ≠ 0) (hread : b.restingAt s (mkLoc c 0) = some o) :
    b.restingLevel s d = some [o] := by
  obtain ⟨n, hn⟩ : ∃ n, b.store.chunks.size = n + 1 := ⟨_, (Nat.succ_pred_eq_of_pos
    (Nat.zero_lt_of_lt (lt_size_of_getElem? hch))).symm⟩
  have hvisit : ch.visit 0 (1 - 0) = some [0] := by
    simp [Chunk.visit, hx, hqty]
  have hlocs : b.store.forEach l = some [mkLoc c 0] := by
    have hlast : b.store.forEachFrom (n + 1) NIL = some [] := by rw [Store.forEachFrom, if_pos rfl]
    rw [Store.forEach, hn, hl, Store.forEachFrom, if_neg hc, hch]
    simp only [hhead, htail, hnext, hvisit, hlast, Option.bind_eq_bind, Option.bind_some]
    rfl
  simp only [restingLevel, hlevel, hlocs, Option.bind_eq_bind, Option.bind_some, List.mapM_cons,
    hread, List.mapM_nil]
  rfl

/-- No query lists the order in chunk 2^29. -/
theorem Packed.unlisted {b : OrderBook} {C : Content} (h : Packed (2 ^ 29 + 1) b C)
    {os : List RestingOrder} (hrun : b.restingOrders = some os) : ∀ o ∈ os, o.orderId ≠ 2 ^ 29 := by
  intro o ho
  obtain ⟨s, c, i, _, _, _, hslot, _, hat⟩ := mem_restingOrders hrun ho
  have hloc := mkLoc_lt c (slot_lt hslot)
  generalize mkLoc c i = loc at hat hloc
  obtain ⟨ch, hch, hat⟩ := Option.bind_eq_some_iff.mp hat
  obtain ⟨x, hx, hat⟩ := Option.bind_eq_some_iff.mp hat
  obtain ⟨t, _, hat⟩ := Option.bind_eq_some_iff.mp hat
  cases hat
  -- a 32-bit location has no chunk number above 2^29 - 1
  have hsmall : locChunk loc < 2 ^ 29 := by
    rw [locChunk, Nat.shiftRight_eq_div_pow]
    omega
  have hch' := h.chunk (locChunk loc) (by omega)
  rw [Store.chunk, hch'] at hch
  cases hch
  intro hid
  have hnat := congrArg UInt64.toNat hid
  -- the one live slot of that chunk holds the order of its number; the others read 0
  have hx' : x.id = UInt64.ofNat (locChunk loc) ∨ x.id = 0 := by
    rw [Store.loneChunk, Vector.getElem?_set] at hx
    split at hx
    · cases hx
      exact Or.inl rfl
    · rw [Vector.getElem?_replicate] at hx
      split at hx
      · cases hx
        exact Or.inr rfl
      · cases hx
  rcases hx' with hx' | hx'
  · rw [hx', crowdId_toNat (by omega)] at hnat
    have : (2 ^ 29 : UInt64).toNat = 2 ^ 29 := rfl
    omega
  · rw [hx'] at hnat
    cases hnat

end OrderBook

end Matcher
