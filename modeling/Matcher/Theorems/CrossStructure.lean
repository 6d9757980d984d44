import Matcher.Logic.Runs

/-!
# The cross-structure invariant

`Coherent` reads the raw memory of a book: the chunks linked from its levels, the
slots of these chunks, the slots of the map, the bits or keys of the index. It says
that these structures agree with one another. `Lists` says that the queries agree
with the list of resting orders. Both hold of every reachable book, since such a
book represents a content.
-/

namespace Matcher

open Kit

/-! ## Reading the memory -/

namespace Store

/-- Chunk `c` is linked in the level `l`. -/
inductive Linked (st : Store) (l : Level) : Nat → Prop
  | head : l.empty = false → Linked st l l.head
  | next {c : Nat} {ch : Chunk} : Linked st l c → st.chunks[c]? = some ch → ch.next ≠ NIL →
      Linked st l ch.next

/-- The location `loc` names the live slot `x` of the level `l`. -/
structure SlotAt (st : Store) (l : Level) (loc : Nat) (x : Slot) : Prop where
  linked : st.Linked l (locChunk loc)
  slot : ∃ ch, st.chunk loc = some ch ∧ ch.head ≤ locSlot loc ∧ locSlot loc < ch.tail ∧
    ch.s[locSlot loc]? = some x
  live : x.qty ≠ 0

end Store

/-- Some slot of the table is occupied by this key and value. -/
def OrderMap.MapsTo (m : OrderMap) (id : OrderId) (loc : Nat) : Prop :=
  ∃ i, m.view i = some (id, loc)

/-- The ladder's bit for `p` is set; `p` is a key of the tree. -/
def PriceIndex.Marks (ix : PriceIndex) (p : Price) : Prop :=
  match ix.kind with
  | .ladder => ix.lad.bit (ix.lad.idx p) = true
  | .tree => p ∈ ix.tree.map

namespace OrderBook

/-- The level at `p` exists and has a chunk. -/
def Occupied (b : OrderBook) (s : Side) (p : Price) : Prop :=
  ∃ l, b.readLevel s p = some l ∧ l.empty = false

/-- The location `loc` names the live slot `x` of the level at `p` on side `s`. -/
def LiveAt (b : OrderBook) (s : Side) (p : Price) (loc : Nat) (x : Slot) : Prop :=
  ∃ l, b.readLevel s p = some l ∧ b.store.SlotAt l loc x

/-- The map, the chunks, the levels, the index and the counters agree. -/
structure Coherent (b : OrderBook) : Prop where
  mapped : ∀ id loc, b.map.MapsTo id loc ↔ ∃ s p x, b.LiveAt s p loc x ∧ x.id = id
  found : ∀ id loc, b.map.MapsTo id loc ↔ ∃ i, b.map.get id = some (some i) ∧
    b.map.readVal i = some loc
  unique : ∀ {s s' p p' loc loc' x x'}, b.LiveAt s p loc x → b.LiveAt s' p' loc' x' → x.id = x'.id →
    s = s' ∧ p = p' ∧ loc = loc'
  labelled : ∀ s p l c, b.readLevel s p = some l → b.store.Linked l c →
    ∃ ch, b.store.chunks[c]? = some ch ∧ ch.side = s ∧ ch.price = p
  marked : ∀ s p, (b.ownIndex s).Marks p ↔ b.Occupied s p
  occupied : ∀ s p, b.Occupied s p ↔ ∃ loc x, b.LiveAt s p loc x
  best : ∀ s p, (b.ownIndex s).bestPrice = some p ↔
    b.Occupied s p ∧ ∀ q, b.Occupied s q → ¬ Better s q p
  noBest : ∀ s, (b.ownIndex s).bestPrice = none ↔ ∀ p, ¬ b.Occupied s p
  live : {loc | ∃ s p x, b.LiveAt s p loc x}.encard = b.store.live
  len : b.map.len = b.store.live
  bounded : b.store.live ≤ b.cfg.maxOrders.toNat

end OrderBook

/-- The levels of side `s` of a list of resting orders. -/
def levelsOf (s : Side) (os : List RestingOrder) : List LevelDepth :=
  let mine := os.filter fun o => o.side = s
  ((mine.map RestingOrder.price).dedup).map fun p =>
    ⟨p, ((mine.filter fun o => o.price = p).map RestingOrder.qty).sum⟩

/-- The queries of `b` answer what the list `os` of its resting orders says. -/
structure OrderBook.Lists (b : OrderBook) (os : List RestingOrder) : Prop where
  order : ∀ o ∈ os, b.order o.orderId = some (some ⟨o.orderId, o.side, o.price, o.qty⟩)
  unknown : ∀ id, (∀ o ∈ os, o.orderId ≠ id) → b.order id = some none
  count : b.orderCount = os.length
  depth : ∀ s n, b.depth s n = some ((levelsOf s os).take n)
  priority : ∀ s, (levelsOf s os).Pairwise fun d d' => Better s d.price d'.price
  levels : ∀ s, b.levelCount s = (levelsOf s os).length
  total : ∀ s p, b.levelTotal s p =
    ((os.filter fun o => o.side = s ∧ o.price = p).map RestingOrder.qty).sum
  best : ∀ s, (b.ownIndex s).bestPrice = (levelsOf s os).head?.map LevelDepth.price

/-! ## The store -/

namespace Store

section Queues

variable {κ : Type*} {label : κ → Side × Price} {st : Store} {lv : κ → Level} {L : Layout κ}

/-- The linked chunks are those of the level's chain. -/
theorem Lay.linked_iff (h : Lay label st lv L) (k : κ) {c : Nat} : st.Linked (lv k) c ↔
    c ∈ L.chain k := by
  constructor
  · intro hlinked
    induction hlinked with
    | head hne =>
      rw [h.head k]
      cases hchain : L.chain k with
      | nil => rw [(h.empty_iff k).mpr hchain] at hne; cases hne
      | cons c cs => exact List.mem_cons_self
    | next _ hch hnext ih =>
      obtain ⟨l, r, hsplit⟩ := List.append_of_mem ih
      have hnode := (hsplit ▸ h.linked k).at
      rw [node_of hch, Option.some.injEq, Prod.mk.injEq] at hnode
      rw [hnode.2] at hnext ⊢
      cases r with
      | nil => exact absurd rfl hnext
      | cons d r => rw [hsplit]; simp
  · -- from the head on, every chunk leads to the next
    have hwalk : ∀ (r l : List Nat), L.chain k = l ++ r →
        (r ≠ [] → st.Linked (lv k) (r.headD NIL)) →
        ∀ c ∈ r, st.Linked (lv k) c := by
      intro r
      induction r with
      | nil => exact fun _ _ _ c hc => absurd hc List.not_mem_nil
      | cons d r ih =>
        intro l hsplit hhead c hc
        have hd : st.Linked (lv k) d := hhead (List.cons_ne_nil _ _)
        rcases List.mem_cons.mp hc with rfl | hc
        · exact hd
        refine ih (l ++ [d]) (by simp [hsplit]) (fun hne => ?_) c hc
        obtain ⟨ch, hch, _⟩ := h.chunk_ok k d (by simp [hsplit])
        have hnode := (hsplit ▸ h.linked k).at
        rw [node_of hch, Option.some.injEq, Prod.mk.injEq] at hnode
        have hmem : r.headD NIL ∈ L.chain k := by
          cases r with
          | nil => exact absurd rfl hne
          | cons e r => rw [hsplit]; simp
        rw [← hnode.2] at hmem ⊢
        exact .next hd hch (h.ne_nil hmem)
    refine hwalk (L.chain k) [] rfl (fun hne => ?_) c
    rw [← h.head k]
    exact .head (by rw [← Bool.not_eq_true, h.empty_iff]; exact hne)

variable {Q : κ → List Cell}

/-- Every linked chunk carries its level's name. -/
theorem Queues.linked (h : Queues label st lv Q) {k : κ} {c : Nat} (hc : st.Linked (lv k) c) :
    ∃ ch, st.chunks[c]? = some ch ∧ ch.side = (label k).1 ∧ ch.price = (label k).2 := by
  obtain ⟨L, hlay, _⟩ := h
  obtain ⟨ch, hch, hok⟩ := hlay.chunk_ok k c ((hlay.linked_iff k).mp hc)
  exact ⟨ch, hch, hok.side, hok.price⟩

/-- The live slots of a level are the cells of its queue. -/
theorem Queues.slotAt_iff (h : Queues label st lv Q) {k : κ} {loc : Nat} {x : Slot} :
    st.SlotAt (lv k) loc x ↔ ∃ y ∈ Q k, y.loc = loc ∧ (⟨y.id, y.qty⟩ : Slot) = x := by
  obtain ⟨L, hlay, _, hQ, _⟩ := h
  rw [hQ k]
  constructor
  · rintro ⟨hlinked, ⟨ch, hch, _, htail, hs⟩, hq⟩
    have hc := (hlay.linked_iff k).mp hlinked
    obtain ⟨ch', hch', hok⟩ := hlay.chunk_ok k _ hc
    cases hch.symm.trans hch'
    have hi : locSlot loc < CHUNK_SLOTS := lt_of_lt_of_le htail hok.tail_le
    obtain ⟨s, t, hs', ht, hcell⟩ := Chunk.cell_of_lt (locChunk loc) ch hi
    cases hs.symm.trans hs'
    rw [if_neg hq] at hcell
    refine ⟨⟨mkLoc (locChunk loc) (locSlot loc), x.id, x.qty, t⟩, mem_queue.mpr ⟨_, hc, ?_⟩, ?_,
      rfl⟩
    · rw [cellsAt_of hch]
      exact Chunk.mem_cells.mpr ⟨_, htail, hcell⟩
    · show mkLoc (locChunk loc) (locSlot loc) = loc
      have hslots : CHUNK_SLOTS = 6 := rfl
      rw [mkLoc_eq (hlay.lt_bound hc) (by omega), locChunk, locSlot, Nat.shiftRight_eq_div_pow,
        show (7 : Nat) = 2 ^ 3 - 1 from rfl, Nat.and_two_pow_sub_one_eq_mod]
      exact Nat.div_add_mod' loc (2 ^ 3)
  · rintro ⟨y, hy, rfl, rfl⟩
    obtain ⟨c, i, ch, hc, hspot⟩ := hlay.locate hy
    obtain ⟨_, _, hq, hs, _⟩ := Chunk.cell_eq_some.mp hspot.cell
    refine ⟨?_, ⟨ch, ?_, ?_, ?_, ?_⟩, hq⟩
    · rw [hspot.locChunk]
      exact (hlay.linked_iff k).mpr hc
    · rw [Store.chunk, hspot.locChunk, hspot.read]
    · rw [hspot.locSlot]
      exact hspot.head_le
    · rw [hspot.locSlot]
      exact hspot.lt_tail
    · rw [hspot.locSlot, hs]

end Queues

end Store

/-! ## The index -/

namespace PriceIndex

section Lists

variable {cfg : BookConfig} {side : Side} {ix : PriceIndex} {ps : List Price} {lv : Price → Level}

/-- What is read is the listed level. -/
theorem Lists.read_eq (h : Lists cfg side ix ps lv) {p : Price} {l : Level}
    (hl : ix.read p = some l) :
    l = lv p := by
  cases hk : cfg.index with
  | ladder =>
    rw [PriceIndex.read, h.kind, hk] at hl
    exact (h.ladder hk).levels p l hl
  | tree =>
    rw [PriceIndex.read, h.kind, hk] at hl
    have hmap : ix.tree.map[p]? = some l := hl
    rw [(h.tree hk).2 p] at hmap
    split at hmap
    · exact (Option.some.inj hmap).symm
    · cases hmap

/-- The marked prices are the listed ones. -/
theorem Lists.marks_iff (h : Lists cfg side ix ps lv) {p : Price} : ix.Marks p ↔ p ∈ ps := by
  cases hk : cfg.index with
  | ladder =>
    rw [Marks, h.kind, hk]
    show ix.lad.bit (ix.lad.idx p) = true ↔ _
    rw [(h.ladder hk).holds.bits, decide_eq_true_iff, LadderIndex.mem_map_idx]
  | tree =>
    rw [Marks, h.kind, hk]
    show p ∈ ix.tree.map ↔ _
    rw [Std.TreeMap.mem_iff_isSome_getElem?, (h.tree hk).2 p]
    split <;> simp_all

end Lists

end PriceIndex

/-! ## The book -/

namespace OrderBook

section Coherent

variable {b : OrderBook} {C : Content}

theorem Rep.occupied_iff (h : Rep none none b C) {s : Side} {p : Price} :
    b.Occupied s p ↔ p ∈ C.prices s := by
  have hlisted := h.listed (s, p) (by simp)
  have hempty := (h.store.level_empty (s, p)).1
  constructor
  · rintro ⟨l, hread, hl⟩
    rw [(h.index s).read_eq hread] at hl
    refine hlisted.mpr fun hnil => ?_
    rw [hempty.mpr hnil] at hl
    cases hl
  · intro hp
    refine ⟨_, (h.index s).read hp, ?_⟩
    rw [← Bool.not_eq_true, hempty]
    exact hlisted.mp hp

theorem Rep.liveAt_iff (h : Rep none none b C) {s : Side} {p : Price} {loc : Nat} {x : Slot} :
    b.LiveAt s p loc x ↔ ∃ y ∈ C.queue (s, p), y.loc = loc ∧ (⟨y.id, y.qty⟩ : Slot) = x := by
  rw [← h.store.slotAt_iff]
  constructor
  · rintro ⟨l, hread, hslot⟩
    rwa [(h.index s).read_eq hread] at hslot
  · intro hslot
    obtain ⟨y, hy, _⟩ := h.store.slotAt_iff.mp hslot
    exact ⟨_, (h.index s).read ((h.listed (s, p) (by simp)).mpr (List.ne_nil_of_mem hy)), hslot⟩

theorem Rep.mapsTo_iff (h : Rep none none b C) {id : OrderId} {loc : Nat} :
    b.map.MapsTo id loc ↔ C.locs.lookup id = some loc := by
  rw [← h.ids.models.holds]
  constructor
  · rintro ⟨i, hi⟩
    refine ⟨i, ?_, hi⟩
    by_contra hge
    rw [OrderMap.view, Array.getElem?_eq_none (Nat.le_of_not_lt hge)] at hi
    cases hi
  · rintro ⟨i, _, hi⟩
    exact ⟨i, hi⟩

/-- As many locations are live as the map has keys. -/
theorem Rep.encard_live (h : Rep none none b C) :
    {loc | ∃ id, C.locs.lookup id = some loc}.encard = b.store.live := by
  have himage : {loc | ∃ id, C.locs.lookup id = some loc} =
      (fun id => (C.locs.lookup id).getD 0) '' (C.locs.keys : Set OrderId) := by
    ext loc
    constructor
    · rintro ⟨id, hid⟩
      refine ⟨id, ?_, by simp [hid]⟩
      rw [Finset.mem_coe, Finmap.mem_keys, ← Finmap.lookup_isSome, hid]
      rfl
    · rintro ⟨id, hid, rfl⟩
      rw [Finset.mem_coe, Finmap.mem_keys, ← Finmap.lookup_isSome] at hid
      obtain ⟨loc, hloc⟩ := Option.isSome_iff_exists.mp hid
      exact ⟨id, by simp [hloc]⟩
  have hinj : Set.InjOn (fun id => (C.locs.lookup id).getD 0) (C.locs.keys : Set OrderId) := by
    intro i hi j hj heq
    rw [Finset.mem_coe, Finmap.mem_keys, ← Finmap.lookup_isSome] at hi hj
    obtain ⟨li, hli⟩ := Option.isSome_iff_exists.mp hi
    obtain ⟨lj, hlj⟩ := Option.isSome_iff_exists.mp hj
    have hloc : li = lj := by simpa [hli, hlj] using heq
    obtain ⟨k, x, hx, hxi, hxl⟩ := (h.ids.found i li (by simp)).mp hli
    obtain ⟨k', y, hy, hyj, hyl⟩ := (h.ids.found j lj (by simp)).mp hlj
    have hsame := (h.loc_inj _ _ _ _ hx hy (hxl.trans (hloc.trans hyl.symm))).2
    rw [← hxi, ← hyj, hsame]
  rw [himage, hinj.encard_image, Set.encard_coe_eq_coe_finsetCard, h.ids.card]
  simp

/-- The best of the listed prices. -/
theorem head?_eq_some_iff {s : Side} {ps : List Price} (hsorted : ps.Pairwise (Better s))
    {p : Price} :
    ps.head? = some p ↔ p ∈ ps ∧ ∀ q ∈ ps, ¬ Better s q p := by
  cases ps with
  | nil => simp
  | cons x xs =>
    obtain ⟨hx, _⟩ := List.pairwise_cons.mp hsorted
    rw [List.head?_cons, Option.some.injEq]
    constructor
    · rintro rfl
      refine ⟨List.mem_cons_self, fun q hq hbetter => ?_⟩
      rcases List.mem_cons.mp hq with rfl | hq
      · exact irrefl_of (Better s) _ hbetter
      · exact irrefl_of (Better s) _ (trans_of (Better s) (hx q hq) hbetter)
    · rintro ⟨hp, hbest⟩
      rcases List.mem_cons.mp hp with rfl | hp
      · rfl
      · exact absurd (hx p hp) (hbest x List.mem_cons_self)

theorem Rep.coherent (h : Rep none none b C) (hn : b.cfg.Narrow) : b.Coherent where
  mapped id loc := by
    rw [h.mapsTo_iff, h.ids.found id loc (by simp)]
    constructor
    · rintro ⟨⟨s, p⟩, x, hx, hid, hloc⟩
      exact ⟨s, p, _, h.liveAt_iff.mpr ⟨x, hx, hloc, rfl⟩, hid⟩
    · rintro ⟨s, p, x, hlive, hid⟩
      obtain ⟨y, hy, hloc, rfl⟩ := h.liveAt_iff.mp hlive
      exact ⟨(s, p), y, hy, hid, hloc⟩
  found id loc := by
    rw [h.mapsTo_iff]
    constructor
    · intro hlookup
      obtain ⟨i, hget, hval, _⟩ := h.ids.models.get_some hlookup
      exact ⟨i, hget, hval⟩
    · rintro ⟨i, hget, hval⟩
      cases hlookup : C.locs.lookup id with
      | none =>
        rw [h.ids.models.get_none h.ids.room hlookup] at hget
        cases hget
      | some loc' =>
        obtain ⟨j, hget', hval', _⟩ := h.ids.models.get_some hlookup
        cases hget.symm.trans hget'
        rw [← hval, ← hval']
  unique hlive hlive' hid := by
    obtain ⟨y, hy, rfl, rfl⟩ := h.liveAt_iff.mp hlive
    obtain ⟨y', hy', rfl, rfl⟩ := h.liveAt_iff.mp hlive'
    obtain ⟨hk, rfl⟩ := h.id_inj hy hy' hid
    exact ⟨congrArg Prod.fst hk, congrArg Prod.snd hk, rfl⟩
  labelled s p l c hread hlinked := by
    rw [(h.index s).read_eq hread] at hlinked
    exact h.store.linked (k := (s, p)) hlinked
  marked s p := (h.index s).marks_iff.trans h.occupied_iff.symm
  occupied s p := by
    rw [h.occupied_iff, h.listed (s, p) (by simp)]
    constructor
    · intro hne
      obtain ⟨y, hy⟩ := List.exists_mem_of_ne_nil _ hne
      exact ⟨_, _, h.liveAt_iff.mpr ⟨y, hy, rfl, rfl⟩⟩
    · rintro ⟨loc, x, hlive⟩
      obtain ⟨y, hy, _⟩ := h.liveAt_iff.mp hlive
      exact List.ne_nil_of_mem hy
  best s p := by
    simp only [(h.index s).bestPrice hn, h.occupied_iff]
    exact head?_eq_some_iff (h.sorted s)
  noBest s := by
    simp only [(h.index s).bestPrice hn, h.occupied_iff, List.head?_eq_none_iff]
    exact List.eq_nil_iff_forall_not_mem
  live := by
    rw [← h.encard_live]
    congr 1
    ext loc
    constructor
    · rintro ⟨s, p, x, hlive⟩
      obtain ⟨y, hy, hloc, rfl⟩ := h.liveAt_iff.mp hlive
      exact ⟨y.id, (h.ids.found _ _ (by simp)).mpr ⟨(s, p), y, hy, rfl, hloc⟩⟩
    · rintro ⟨id, hid⟩
      obtain ⟨⟨s, p⟩, y, hy, _, hloc⟩ := (h.ids.found _ _ (by simp)).mp hid
      exact ⟨s, p, _, h.liveAt_iff.mpr ⟨y, hy, hloc, rfl⟩⟩
  len := by
    rw [h.ids.models.len, h.ids.card]
    simp
  bounded := by
    have := h.ids.full
    rw [h.ids.card] at this
    simpa using this

end Coherent

end OrderBook

/-! ## The queries -/

namespace Spec

section Resting

variable {R : Book} {s : Side}

/-- One side's part of the resting orders. -/
theorem Book.resting_filter (R : Book) (s : Side) :
    R.resting.filter (fun o => o.side = s) = R.restingSide s := by
  have hkeep : (R.restingSide s).filter (fun o => o.side = s) = R.restingSide s := by
    refine List.filter_eq_self.mpr fun o ho => ?_
    obtain ⟨x, _, rfl⟩ := List.mem_map.mp ho
    exact decide_eq_true rfl
  have hdrop : ∀ s', s' ≠ s → (R.restingSide s').filter (fun o => o.side = s) = [] := by
    refine fun s' hs => List.filter_eq_nil_iff.mpr fun o ho => ?_
    obtain ⟨x, _, rfl⟩ := List.mem_map.mp ho
    exact fun heq => hs (of_decide_eq_true heq)
  rw [Book.resting, List.filter_append]
  cases s
  · rw [hkeep, hdrop .ask (by decide), List.append_nil]
  · rw [hkeep, hdrop .bid (by decide), List.nil_append]

theorem Book.resting_total (R : Book) (s : Side) (p : Price) :
    (((R.restingSide s).filter fun o => o.price = p).map RestingOrder.qty).sum = R.total s p := by
  rw [Book.restingSide, List.filter_map, List.map_map]
  rfl

theorem Book.levelsOf_resting (R : Book) (s : Side) :
    levelsOf s R.resting = (R.prices s).map fun p => ⟨p, R.total s p⟩ := by
  have hprices : ((R.restingSide s).map RestingOrder.price).dedup = R.prices s := by
    rw [Book.restingSide, List.map_map]
    rfl
  simp only [levelsOf, Book.resting_filter, hprices, Book.resting_total]

/-- The prices of a side stand in priority order. -/
theorem Sound.prices_sorted (hR : Sound R) (s : Side) : (R.prices s).Pairwise (Better s) := by
  have hprices : ((R.side s).map Order.price).dedup.Pairwise fun p q => ¬ Better s q p :=
    ((List.pairwise_map).mpr (hR.sorted s)).sublist (List.dedup_sublist _)
  refine hprices.imp₂ (fun p q hworse hne => ?_) (List.nodup_dedup _)
  rcases trichotomous_of (Better s) p q with hbetter | heq | hbetter
  · exact hbetter
  · exact absurd heq hne
  · exact absurd hbetter hworse

/-- The best price is that of the first order. -/
theorem Sound.prices_head (hR : Sound R) (s : Side) : (R.prices s).head? = R.best s := by
  have hsorted := hR.sorted s
  have hmem : ∀ p, p ∈ R.prices s ↔ ∃ o ∈ R.side s, o.price = p := fun p => by
    rw [Book.prices, List.mem_dedup, List.mem_map]
  cases hside : R.side s with
  | nil => rw [Book.prices, Book.best, hside]; rfl
  | cons o os =>
    rw [hside] at hsorted hmem
    rw [Book.best, hside]
    refine (OrderBook.head?_eq_some_iff (hR.prices_sorted s)).mpr ⟨(hmem _).mpr ⟨o,
      List.mem_cons_self, rfl⟩, ?_⟩
    intro q hq
    obtain ⟨o', ho', rfl⟩ := (hmem q).mp hq
    rcases List.mem_cons.mp ho' with rfl | ho'
    · exact irrefl_of (Better s) _
    · exact (List.pairwise_cons.mp hsorted).1 o' ho'

/-- The order found under an id. -/
theorem Sound.find_of_mem (hR : Sound R) {o : Order} (ho : o ∈ R.side s) :
    R.find o.orderId = some (s, o) := by
  cases hfind : R.find o.orderId with
  | none => exact absurd rfl (find_eq_none.mp hfind s o ho)
  | some so =>
    obtain ⟨ho', hid⟩ := find_eq_some hfind
    rcases side_eq_or s so.1 with hs | hs
    · rw [hs] at ho'
      have heq := List.inj_on_of_nodup_map (hR.nodup s) ho' ho hid
      rw [← hs, ← heq]
    · rw [hs] at ho'
      exact absurd hid.symm (hR.apart_side s o ho so.2 ho')

end Resting

end Spec

namespace OrderBook

theorem nodup_resting {R : Spec.Book} (hR : Spec.Sound R) :
    (R.resting.map RestingOrder.orderId).Nodup := by
  have hside : ∀ s, (R.restingSide s).map RestingOrder.orderId =
      (R.side s).map Spec.Order.orderId := by
    intro s
    rw [Spec.Book.restingSide, List.map_map]
    rfl
  rw [Spec.Book.resting, List.map_append, hside, hside]
  refine List.nodup_append.mpr ⟨hR.nodup .bid, hR.nodup .ask, ?_⟩
  intro i hi j hj
  obtain ⟨o, ho, rfl⟩ := List.mem_map.mp hi
  obtain ⟨o', ho', rfl⟩ := List.mem_map.mp hj
  exact hR.apart o ho o' ho'

theorem Shows.lists {b : OrderBook} {R : Spec.Book} (h : b.Shows R) (hR : Spec.Sound R) :
    b.Lists R.resting where
  order o ho := by
    obtain ⟨s, x, hx, rfl⟩ := Spec.Book.mem_resting.mp ho
    show b.order x.orderId = _
    rw [h.order, Spec.Book.info, hR.find_of_mem hx]
    rfl
  unknown id hid := by
    have hnone : R.find id = none :=
      Spec.find_eq_none.mpr fun s x hx => hid _ (Spec.Book.mem_resting.mpr ⟨s, x, hx, rfl⟩)
    rw [h.order, Spec.Book.info, hnone]
    rfl
  count := h.orderCount.trans R.length_resting.symm
  depth s n := by
    rw [h.depth, Spec.Book.depth, Spec.Book.levelsOf_resting, List.map_take]
  priority s := by
    rw [Spec.Book.levelsOf_resting, List.pairwise_map]
    exact hR.prices_sorted s
  levels s := by
    rw [h.levelCount, Spec.Book.levelsOf_resting, List.length_map]
  total s p := by
    rw [h.levelTotal, ← Spec.Book.resting_total, ← Spec.Book.resting_filter, List.filter_filter]
    refine congrArg List.sum (congrArg _ (List.filter_congr fun o _ => ?_))
    simp [Bool.and_comm]
  best s := by
    have hbest : (b.ownIndex s).bestPrice = R.best s := by
      cases s
      · exact h.bestBid
      · exact h.bestAsk
    rw [hbest, Spec.Book.levelsOf_resting, List.head?_map, Option.map_map, hR.prices_head]
    exact Option.map_id'.symm

end OrderBook

/-- Every reachable book is coherent, and its queries answer from its resting
orders. -/
theorem structures_agree {cfg : BookConfig} (hfits : cfg.Fits) {b : OrderBook}
    (h : OrderBook.Reaches cfg b) :
    b.Coherent ∧ ∃ os, b.restingOrders = some os ∧ b.Lists os := by
  obtain ⟨C, hrep, hcfg⟩ := h.rep hfits
  have hn : b.cfg.Narrow := hcfg ▸ hfits.narrow
  have hshows := hrep.shows hn
  exact ⟨hrep.coherent hn, _, hshows.restingOrders, hshows.lists hrep.sound⟩

theorem structures_agree_small : ∃ b, OrderBook.Reaches smallBook b ∧
    b.Coherent ∧ ∃ os, b.restingOrders = some os ∧ b.Lists os := by
  obtain ⟨b, h⟩ := OrderBook.exists_reaches smallBook_opens smallRun
  exact ⟨b, h, structures_agree smallBook_fits h⟩

end Matcher
