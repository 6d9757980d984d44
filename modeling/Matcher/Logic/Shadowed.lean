import Matcher.Logic.Robbed

/-!
# A replace that meets its own order

The order in chunk 2^29 is the best ask, and its location is that of the order in
chunk 0, a bid. A replace of the bid takes it out of chunk 0 and matches the ask: what it
reads there is its own dead slot. Every round counts the empty chunk 0 down, from 0 to 255
and on, until the counter is 0 again and the ask's level is dropped, and every round
removes the id that is being replaced.
-/

namespace Matcher

open Kit

namespace Store

/-- The front of the level in chunk 2^29 is read in chunk 0. -/
theorem front_last {st : Store} {side : Side} {price : Price} {id : OrderId} {t : Nat} {total : Qty}
    (h : st.chunks[2 ^ 29]? = some (loneChunk side price id 1 .gtc)) :
    st.front ⟨2 ^ 29, t, total⟩ = some (st.withChunk (2 ^ 29) (loneChunk side price id 1 .gtc),
      0) := by
  have hskip : (loneChunk side price id 1 .gtc).skipDead (CHUNK_SLOTS + 1) 0 = some 0 := by
    have hslot : (loneChunk side price id 1 .gtc).s[0]? = some ⟨id, 1⟩ :=
      Vector.getElem?_set_self (by decide)
    rw [Chunk.skipDead, hslot]
    rfl
  have hupd := updChunk_eq (fun ch => { ch with head := 0 }) h
  have hloc : mkLoc (2 ^ 29) 0 = 0 := by decide
  rw [front, h, Option.bind_eq_bind, Option.bind_some]
  show ((loneChunk side price id 1 .gtc).skipDead (CHUNK_SLOTS + 1) 0).bind _ = _
  rw [hskip, Option.bind_some]
  show (st.updChunk (2 ^ 29) fun ch => { ch with head := 0 }).bind _ = _
  rw [hupd, Option.bind_some, hloc]
  rfl

/-- Writing a dead slot dead. -/
theorem setQty_gone {st : Store} {k : Nat} (h : st.chunks[0]? = some { goneChunk with live := k }) :
    st.setQty 0 0 = some (st.withChunk 0 { goneChunk with live := k }) := by
  show (st.chunks[0]?).bind _ = _
  rw [h, Option.bind_some]
  exact updChunk_eq _ h

end Store

/-- Whether a key is present or not, a removal leaves the table without it. -/
theorem OrderMap.Models.remove_any {m : OrderMap} {M : Finmap fun _ : OrderId => Nat}
    (h : m.Models M) (hroom : M.keys.card < m.tags.size) (k : OrderId) :
    ∃ m' M', m.remove k = some m' ∧ m'.Models M' ∧ M'.keys.card < m'.tags.size ∧
      M'.lookup k = none := by
  cases hk : M.lookup k with
  | none => exact ⟨m, M, h.remove_absent hroom hk, h, hroom, hk⟩
  | some v =>
    obtain ⟨m', hrun, hm', htags, _⟩ := h.remove_present hroom hk
    have hcard := OrderBook.card_erase hk
    exact ⟨m', M.erase k, hrun, hm', by omega, Finmap.lookup_erase k M⟩

namespace OrderBook

/-- Chunk 0 is dead and counts `k` live slots; the level at 3 in chunk 2^29 reads it. -/
structure Echo (k : Nat) (b : OrderBook) (C : Content) : Prop where
  cfg : b.cfg = crowdedBook
  indexed : b.Indexed C.prices C.level
  listed : (3 : Price) ∈ C.prices .ask
  level : C.level (.ask, 3) = ⟨2 ^ 29, 2 ^ 29, 1⟩
  gone : b.store.chunks[0]? = some { Store.goneChunk with live := k }
  last : b.store.chunks[2 ^ 29]? = some (Store.loneChunk .ask 3 (2 ^ 29) 1 .gtc)
  models : b.map.Models C.locs
  room : C.locs.keys.card < b.map.tags.size

/-- The level at 3 was dropped, and is still listed. -/
structure Spent (b : OrderBook) (C : Content) : Prop where
  cfg : b.cfg = crowdedBook
  indexed : b.Indexed C.prices C.level
  listed : (3 : Price) ∈ C.prices .ask
  level : C.level (.ask, 3) = ⟨NIL, NIL, 1⟩

section Echo

variable {b : OrderBook} {C : Content} {k : Nat} {qty : Qty}

/-- A round trades nothing, removes the id of the dead slot and counts chunk 0 down. -/
theorem Echo.round (h : Echo k b C) (qty : Qty) :
    ∃ b' C' out, b.fillFront .ask 3 0 qty = some (b', qty, out) ∧ C'.prices = C.prices ∧
      b'.map.get 0 = some none ∧ (if decr 8 k = 0 then Spent b' C' else Echo (decr 8 k) b' C') := by
  have hread := h.indexed.read h.listed
  rw [h.level] at hread
  have hfront : b.store.front ⟨2 ^ 29, 2 ^ 29, 1⟩ = _ := Store.front_last h.last
  obtain ⟨st1, hst1⟩ :
    ∃ st1, st1 = b.store.withChunk (2 ^ 29) (Store.loneChunk .ask 3 (2 ^ 29) 1 .gtc) := ⟨_, rfl⟩
  rw [← hst1] at hfront
  have hgone1 : st1.chunks[0]? = some { Store.goneChunk with live := k } := by
    rw [hst1, Store.withChunk_ne (by decide)]
    exact h.gone
  have hlast1 : st1.chunks[2 ^ 29]? = some (Store.loneChunk .ask 3 (2 ^ 29) 1 .gtc) := by
    rw [hst1]
    exact Store.withChunk_self h.last
  have hslot : ({ Store.goneChunk with live := k } : Chunk).s[locSlot 0]? = some ⟨0, 0⟩ :=
    (by decide : Store.goneChunk.s[locSlot 0]? = some ⟨0, 0⟩)
  obtain ⟨b1, hb1⟩ : ∃ b1 : OrderBook, b1 = { b with store := st1, seq := b.seq + 1 } := ⟨_, rfl⟩
  have hix : b1.Indexed C.prices C.level := by
    rw [hb1]
    exact h.indexed
  -- the level is written as it was
  obtain ⟨b2, hwrite, hframe, hix2⟩ := hix.write h.listed ⟨2 ^ 29, 2 ^ 29, 1⟩
  rw [← h.level, Function.update_eq_self] at hix2
  have hset := Store.setQty_gone hgone1
  obtain ⟨st2, hst2⟩ : ∃ st2, st2 = st1.withChunk 0 { Store.goneChunk with live := k } := ⟨_, rfl⟩
  have hgone2 : st2.chunks[0]? = some { Store.goneChunk with live := k } := by
    rw [hst2]
    exact Store.withChunk_self hgone1
  obtain ⟨⟨st3, l3⟩, hr⟩ : ∃ r : Store × Level, r = if decr 8 k = 0 then
      ({ st2 with live := decr 64 st2.live, freeChunk := 0 }.withChunk 0
          { Store.goneChunk with next := st2.freeChunk },
        ⟨NIL, NIL, 1⟩)
    else
      ({ st2 with live := decr 64 st2.live }.withChunk 0 { Store.goneChunk with live := decr 8 k },
        ⟨2 ^ 29, 2 ^ 29, 1⟩) := ⟨_, rfl⟩
  have hretire : st2.retire ⟨2 ^ 29, 2 ^ 29, 1⟩ 0 = some (st3, l3) := by
    rw [hr]
    exact Store.retire_gone hgone2 _
  obtain ⟨b4, hwrite4, hframe4, hix4⟩ :=
    Indexed.write (b := { b2 with store := st3 }) hix2 h.listed l3
  obtain ⟨map', M', hremove, hmodels, hroom, hnone⟩ := h.models.remove_any h.room 0
  have hmap4 : b4.map = b.map := by
    rw [hframe4.map]
    show b2.map = _
    rw [hframe.map, hb1]
  have hcfg4 : b4.cfg = crowdedBook := by
    rw [hframe4.cfg]
    show b2.cfg = _
    rw [hframe.cfg, hb1]
    exact h.cfg
  have hst4 : b4.store = st3 := hframe4.store
  have hrun : b.fillFront .ask 3 0 qty = some ({ b4 with map := map', seq := b4.seq + 1 }, qty,
      [⟨b.seq + 1, .trade 0 0 3 0, b1⟩,
        ⟨b4.seq + 1, .closed 0 .filled, { b4 with map := map', seq := b4.seq + 1 }⟩]) := by
    have hch : st1.chunk 0 = some { Store.goneChunk with live := k } := hgone1
    have hnlt : ¬ qty < 0 := UInt64.not_lt_zero
    have hsub : qty - 0 = qty := UInt64.sub_zero qty
    have hzero : (0 : Qty) - 0 = 0 := rfl
    have hone : (1 : Qty) - 0 = 1 := rfl
    have hstb : b2.store = st1 := by rw [hframe.store, hb1]
    have hread2 := (show ({ b2 with store := st2 } : OrderBook).Indexed C.prices C.level
      from hix2).read h.listed
    rw [h.level] at hread2
    rw [← hst2] at hset
    simp only [fillFront, hread, hfront, hch, hslot, if_neg hnlt, ← hb1, hone, hwrite, hstb, hzero,
      hset, hread2, hretire, hwrite4, hmap4, hremove, hsub, Option.bind_eq_bind, Option.bind_some,
      if_true]
    rfl
  refine ⟨_, ⟨C.prices, C.queue, Function.update C.level (.ask, 3) l3, M'⟩, _, hrun, rfl, ?_, ?_⟩
  · exact hmodels.get_none hroom hnone
  have hself : Function.update C.level (.ask, 3) l3 (.ask, 3) = l3 := Function.update_self _ _ _
  by_cases hlive : decr 8 k = 0
  · rw [if_pos hlive] at hr ⊢
    cases hr
    exact ⟨hcfg4, hix4, h.listed, hself⟩
  · rw [if_neg hlive] at hr ⊢
    cases hr
    refine ⟨hcfg4, hix4, h.listed, hself, ?_, ?_, hmodels, hroom⟩
    · show b4.store.chunks[0]? = _
      rw [hst4]
      exact Store.withChunk_self hgone2
    · show b4.store.chunks[2 ^ 29]? = _
      rw [hst4, Store.withChunk_ne (by decide)]
      show st2.chunks[2 ^ 29]? = _
      rw [hst2, Store.withChunk_ne (by decide)]
      exact hlast1

/-- A level that is read as live slots counted in chunk 0 is swept by as many rounds. -/
theorem Echo.count (h : Echo (k + 1) b C) (hk : k < 255) (hqty : qty ≠ 0) {fuel : Nat}
    (hfuel : k + 2 ≤ fuel) :
    ∃ b' C' out, fillLevel .ask 3 0 fuel b qty = some (b', qty, out) ∧ Spent b' C' ∧
      C'.prices = C.prices ∧ b'.map.get 0 = some none := by
  induction k generalizing b C fuel with
  | zero =>
    obtain ⟨fuel, rfl⟩ : ∃ n, fuel = n + 2 := ⟨fuel - 2, by omega⟩
    obtain ⟨b1, C1, out1, hrun1, hprices1, hgone1, h1⟩ := h.round qty
    have hread := h.indexed.read h.listed
    rw [h.level] at hread
    rw [if_pos (show decr 8 (0 + 1) = 0 from rfl)] at h1
    have hread1 := h1.indexed.read h1.listed
    rw [h1.level] at hread1
    refine ⟨b1, C1, out1 ++ [], ?_, h1, hprices1, hgone1⟩
    rw [fillLevel_succ hread (by decide) hrun1, if_neg hqty, fillLevel, hread1]
    rfl
  | succ k ih =>
    obtain ⟨fuel, rfl⟩ : ∃ n, fuel = n + 1 := ⟨fuel - 1, by omega⟩
    obtain ⟨b1, C1, out1, hrun1, hprices1, _, h1⟩ := h.round qty
    have hread := h.indexed.read h.listed
    rw [h.level] at hread
    have hdecr : decr 8 (k + 1 + 1) = k + 1 := by
      rw [decr_of_pos (by omega) (by omega)]
      rfl
    rw [hdecr, if_neg (Nat.succ_ne_zero k)] at h1
    obtain ⟨b2, C2, out2, hrun2, h2, hprices2, hgone2⟩ :=
      ih h1 (by omega) (show k + 2 ≤ fuel by omega)
    refine ⟨b2, C2, out1 ++ out2, ?_, h2, hprices2.trans hprices1, hgone2⟩
    rw [fillLevel_succ hread (by decide) hrun1, if_neg hqty, hrun2]
    rfl

/-- From 0 the counter comes round: 256 rounds sweep the level. -/
theorem Echo.fillLevel (h : Echo 0 b C) (hqty : qty ≠ 0) {fuel : Nat} (hfuel : 257 ≤ fuel) :
    ∃ b' C' out, OrderBook.fillLevel .ask 3 0 fuel b qty = some (b', qty, out) ∧ Spent b' C' ∧
      C'.prices = C.prices ∧ b'.map.get 0 = some none := by
  obtain ⟨fuel, rfl⟩ : ∃ n, fuel = n + 1 := ⟨fuel - 1, by omega⟩
  obtain ⟨b1, C1, out1, hrun1, hprices1, _, h1⟩ := h.round qty
  have hread := h.indexed.read h.listed
  rw [h.level] at hread
  rw [if_neg (show ¬ decr 8 0 = 0 by decide)] at h1
  obtain ⟨b2, C2, out2, hrun2, h2, hprices2, hgone2⟩ := Echo.count (k := 254) h1 (by decide) hqty
    (show 254 + 2 ≤ fuel by omega)
  refine ⟨b2, C2, out1 ++ out2, ?_, h2, hprices2.trans hprices1, hgone2⟩
  rw [fillLevel_succ hread (by decide) hrun1, if_neg hqty, hrun2]
  rfl

/-- The level is given up, and the next ask is the best. -/
theorem Spent.unlinkLevel (h : Spent b C) :
    ∃ b', b.unlinkLevel .ask 3 = some b' ∧ b'.map = b.map ∧
      (b'.ownIndex .ask).bestPrice = ((C.prices .ask).erase 3).head? := by
  have hix := h.indexed .ask
  rw [h.cfg] at hix
  have hlad := hix.ladder rfl
  obtain ⟨lad, hrun, hlists⟩ := hlad.unlinkLevel h.listed
  rw [h.level, if_pos (show Level.empty ⟨NIL, NIL, 1⟩ = true from rfl)] at hlists
  refine ⟨{ b with asks := { b.asks with lad } }, ?_, rfl, ?_⟩
  · rw [OrderBook.unlinkLevel, PriceIndex.unlinkLevel_ladder hix.kind hrun]
    rfl
  · have hkind : ({ b.asks with lad } : PriceIndex).kind = .ladder := hix.kind
    exact (PriceIndex.bestPrice_ladder hkind).trans <|
      hlists.bestPrice (hlists.narrow rfl crowdedBook_narrow)

/-- The replaced order comes out of the sweep as large as it went in, and out of the map. -/
theorem Echo.cross (h : Echo 0 b C) (hqty : qty ≠ 0) (hasks : ∀ p ∈ C.prices .ask, p = 3 ∨ 3 < p)
    (hbest : (C.prices .ask).head? = some 3) (hnodup : (C.prices .ask).Nodup) :
    ∃ b' out, b.cross .bid (some 3) 0 qty = some (b', qty, out) ∧ b'.map.get 0 = some none := by
  have hsize : 2 ^ 29 < b.store.chunks.size := lt_size_of_getElem? h.last
  obtain ⟨n, hn⟩ : ∃ n, slotBudget b.store = n + 2 :=
    ⟨slotBudget b.store - 2, by rw [slotBudget, CHUNK_SLOTS]; omega⟩
  obtain ⟨b1, C1, out1, hrun1, h1, hprices1, hgone1⟩ := h.fillLevel hqty
    (show 257 ≤ slotBudget b.store by rw [slotBudget, CHUNK_SLOTS]; omega)
  obtain ⟨b2, hrun2, hmap2, hbest2⟩ := h1.unlinkLevel
  have hread1 := h1.indexed.read h1.listed
  rw [h1.level] at hread1
  -- the level ends up empty and leaves the list, but no quantity was taken
  have hsweep : sweepLevel .ask 3 0 b qty = some (b2, qty, out1) := by
    rw [sweepLevel, hrun1, Option.bind_eq_bind, Option.bind_some]
    dsimp only
    rw [hread1, Option.bind_eq_bind, Option.bind_some, if_pos (show Level.empty ⟨NIL, NIL, 1⟩ =
      true from rfl), hrun2]
    rfl
  -- the other asks are beyond the limit, so this was the last round
  have hfar : ∀ bp, (b2.ownIndex (opposite .bid)).bestPrice = some bp → beyond .bid (some 3) bp =
      true := by
    intro bp hbp
    rw [show opposite .bid = .ask from rfl, hbest2, hprices1] at hbp
    obtain ⟨hne, hmem⟩ := hnodup.mem_erase_iff.mp (List.mem_of_mem_head? hbp)
    rcases hasks bp hmem with heq | hlt
    · exact absurd heq hne
    · exact decide_eq_true hlt
  have hrest : crossFrom .bid (some 3) 0 (n + 1) b2 qty = some (b2, qty, []) :=
    crossFrom_far hfar 0 n
  have hmut := (h.indexed .ask).levelMut 3
  rw [h.level, if_neg (by decide)] at hmut
  have hfirst : (b.ownIndex (opposite .bid)).bestPrice = some 3 := by
    have hix := h.indexed .ask
    rw [h.cfg] at hix
    exact (hix.bestPrice crowdedBook_narrow).trans hbest
  have hin : beyond .bid (some 3) 3 = false := rfl
  refine ⟨b2, out1 ++ [], ?_, hmap2 ▸ hgone1⟩
  rw [OrderBook.cross, hn, crossFrom]
  dsimp only
  rw [hfirst]
  dsimp only
  rw [hin, if_neg Bool.false_ne_true, show opposite .bid = .ask from rfl, hmut]
  dsimp only
  rw [hsweep, Option.bind_eq_bind, Option.bind_some]
  dsimp only
  rw [if_neg hqty, hrest]
  rfl

end Echo

/-! ## The book -/

/-- The first 2^29 orders of the crowd, and an ask at 3 in chunk 2^29. -/
structure Shadowed (b : OrderBook) (C : Content) : Prop where
  cfg : b.cfg = crowdedBook
  indexed : b.Indexed C.prices C.level
  bid : (1 : Price) ∈ C.prices .bid
  first : C.level (.bid, 1) = ⟨0, 0, 1⟩
  ask : (3 : Price) ∈ C.prices .ask
  asks : ∀ p ∈ C.prices .ask, p = 3 ∨ 3 < p
  level : C.level (.ask, 3) = ⟨2 ^ 29, 2 ^ 29, 1⟩
  chunk : b.store.chunks[0]? = some (Store.loneChunk .bid 1 0 1 .gtc)
  last : b.store.chunks[2 ^ 29]? = some (Store.loneChunk .ask 3 (2 ^ 29) 1 .gtc)
  free : b.store.freeChunk = NIL
  models : b.map.Models C.locs
  lookup : C.locs.lookup 0 = some 0
  room : C.locs.keys.card < b.map.tags.size

section Shadowed

variable {b : OrderBook} {C : Content}

theorem Shadowed.emit (h : Shadowed b C) (e : Event) : Shadowed (b.emit e).1 C :=
  { h with indexed := fun s => by cases s <;> exact h.indexed _ }

/-- The ask rests in chunk 2^29. -/
theorem Packed.shadow (h : Packed (2 ^ 29) b C) :
    ∃ b' C' out, b.apply (.newLimit (2 ^ 29) .ask 3 1 .gtc) = some (b', out) ∧ Shadowed b' C' := by
  have hlt := h.lt_asks (by decide)
  have hnew : (3 : Price) ∉ C.prices .ask := fun hmem => Int64.lt_irrefl (hlt 3 hmem)
  have hvalid : b.cfg.Valid 3 := by
    rw [h.cfg]
    exact (PriceIndex.valid_ladder rfl _).mpr ⟨by decide, by decide⟩
  have hroom : b.cfg.HasRoom 3 := (h.indexed .ask).room (h.cfg ▸ crowdedBook_narrow.short) hvalid
  have hcard := h.room (by decide)
  obtain ⟨b', hrest, hcfg, hix, hstore, hmodels, htags⟩ := rest_alone h.indexed hvalid hroom hnew
    (by rw [h.size]; exact h.few _) (by rw [h.used, h.size]) h.free (by rw [h.size]; decide) (by
      rw [h.live]; decide)
    h.models hcard (2 ^ 29)
  rw [h.size] at hix hstore hmodels
  have hfresh : C.locs.lookup (2 ^ 29) = none := h.fresh _ (by decide)
  have hcontains : b.map.contains (2 ^ 29) = some false := by
    rw [h.models.contains_eq hcard, hfresh]
    rfl
  have hprice : b.priceOk 3 = true := by
    rw [priceOk_eq]
    exact validPrice_iff.mpr hvalid
  have hlive : b.store.live < b.cfg.maxOrders.toNat := by
    have hmax : crowdedBook.maxOrders.toNat = 2 ^ 29 + 1 := rfl
    rw [h.live, h.cfg, hmax]
    exact Nat.lt_succ_self _
  -- the bids are at 1 and 2, below the limit
  have hcross : b.cross .ask (some 3) (2 ^ 29) 1 = some (b, 1, []) := by
    refine cross_far (fun bp hbp => ?_) _
    rw [show opposite .ask = .bid from rfl, h.bestPrice] at hbp
    rcases (h.mem_bids (by decide) bp).mp (List.mem_of_mem_head? hbp) with rfl | rfl
    · rfl
    · rfl
  have hone : (1 : Qty) ≠ 0 := by decide
  have hadd : (C.locs.insert (2 ^ 29) (mkLoc (2 ^ 29) 0)).keys = insert (2 ^ 29) C.locs.keys :=
    keys_insert _ _
  have hshadowed : Shadowed b' ⟨Function.update C.prices .ask
      (PriceIndex.listed .ask 3 (C.prices .ask)), fun _ => [],
      Function.update C.level (.ask, 3) ⟨2 ^ 29, 2 ^ 29, 0 + 1⟩,
      C.locs.insert (2 ^ 29) (mkLoc (2 ^ 29) 0)⟩ := by
    refine ⟨hcfg.trans h.cfg, hix, ?_, ?_, ?_, fun p hp => ?_, ?_, ?_, ?_, ?_, hmodels, ?_, ?_⟩
    · show (1 : Price) ∈ Function.update C.prices .ask (PriceIndex.listed .ask 3 (C.prices .ask))
          .bid
      rw [Function.update_of_ne (by decide)]
      exact (h.mem_bids (by decide) 1).mpr (Or.inl rfl)
    · show Function.update C.level (.ask, 3) ⟨2 ^ 29, 2 ^ 29, 0 + 1⟩ (.bid, 1) = _
      rw [Function.update_of_ne (by decide)]
      exact h.levels 0 (by decide)
    · show (3 : Price) ∈ Function.update C.prices .ask (PriceIndex.listed .ask 3 (C.prices .ask))
          .ask
      rw [Function.update_self]
      exact PriceIndex.mem_listed.mpr (Or.inl rfl)
    · have hp' : p ∈ Function.update C.prices .ask (PriceIndex.listed .ask 3 (C.prices .ask))
          .ask := hp
      rw [Function.update_self, PriceIndex.mem_listed] at hp'
      exact hp'.imp_right (hlt p)
    · show Function.update C.level (.ask, 3) ⟨2 ^ 29, 2 ^ 29, 0 + 1⟩ (.ask, 3) = _
      rw [Function.update_self]
      rfl
    · rw [hstore]
      show (b.store.chunks.push _)[0]? = _
      rw [Array.getElem?_push, h.size, if_neg (by decide)]
      exact h.chunk 0 (by decide)
    · rw [hstore]
      show (b.store.chunks.push _)[2 ^ 29]? = _
      rw [Array.getElem?_push, h.size, if_pos rfl]
    · rw [hstore]
      exact h.free
    · have hne : (0 : OrderId) ≠ 2 ^ 29 := by decide
      exact (Finmap.lookup_insert_of_ne _ hne).trans (h.lookup 0 (by decide))
    · show (C.locs.insert (2 ^ 29) (mkLoc (2 ^ 29) 0)).keys.card < _
      have hle := Finset.card_insert_le (2 ^ 29) C.locs.keys
      have htags30 := h.tags
      rw [hadd, htags]
      rw [h.card] at hle
      omega
  exact ⟨_, _, _, apply_rest hone (checkNew_gtc hone hprice hcontains hlive) hcross hrest,
    hshadowed.emit (.accepted (2 ^ 29) 1)⟩

/-- The replace of the order in chunk 0, up to where its remainder comes to rest. -/
theorem Shadowed.loses (h : Shadowed b C) {qty : Qty} (hqty : qty ≠ 0) :
    ∃ b1 b2 out, b.unlinkOrder .bid 1 0 = some b1 ∧
      b1.cross .bid (some 3) 0 qty = some (b2, qty, out) ∧ b2.map.get 0 = some none := by
  obtain ⟨b1, hunlink, hcfg, hmap, hstore, hix⟩ :=
    unlink_lone h.indexed h.bid h.first h.chunk h.free
  have hasks : Function.update C.prices .bid ((C.prices .bid).erase 1) .ask = C.prices .ask :=
    Function.update_of_ne (by decide) _ _
  -- with chunk 0 released, the ask's location reads a dead chunk
  have hecho : Echo 0 b1 ⟨Function.update C.prices .bid ((C.prices .bid).erase 1), fun _ => [],
      Function.update C.level (.bid, 1) {}, C.locs⟩ := by
    refine ⟨hcfg.trans h.cfg, hix, ?_, ?_, ?_, ?_, hmap ▸ h.models, hmap ▸ h.room⟩
    · show (3 : Price) ∈ Function.update C.prices .bid ((C.prices .bid).erase 1) .ask
      rw [hasks]
      exact h.ask
    · show Function.update C.level (.bid, 1) {} (.ask, 3) = _
      rw [Function.update_of_ne (by decide)]
      exact h.level
    · rw [hstore]
      exact Store.withChunk_self h.chunk
    · rw [hstore]
      have hne : (b.store.withChunk 0 Store.goneChunk).chunks[2 ^ 29]? = b.store.chunks[2 ^ 29]? :=
        Store.withChunk_ne (by decide)
      exact hne.trans h.last
  have hsorted := (h.indexed .ask).sorted
  have hbest : (C.prices .ask).head? = some 3 := by
    cases hps : C.prices .ask with
    | nil => exact absurd h.ask (hps ▸ List.not_mem_nil)
    | cons p ps =>
      rcases h.asks p (hps ▸ List.mem_cons_self) with rfl | hlt
      · rfl
      · -- 3 would come before p
        have hmem := h.ask
        rw [hps] at hmem hsorted
        rcases List.mem_cons.mp hmem with rfl | hmem
        · rfl
        · have hbetter : p < 3 := (List.pairwise_cons.mp hsorted).1 3 hmem
          exact absurd (Int64.lt_trans hbetter hlt) Int64.lt_irrefl
  obtain ⟨b2, out, hcross, hgone⟩ := hecho.cross hqty (hasks.symm ▸ h.asks) (hasks.symm ▸ hbest)
    (hasks.symm ▸ (h.indexed .ask).nodup)
  exact ⟨b1, b2, out, hunlink, hcross, hgone⟩

end Shadowed

end OrderBook

end Matcher
