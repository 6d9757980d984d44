import Matcher.Logic.StoreRep

/-!
# What the store operations do to the queues

`Queues label st lv Q` says that the levels `lv` of the store hold the queues `Q`,
with the layout hidden. The rest of the development knows the store only through
the lemmas about `Queues`: appending (`push`), changing and removing a cell
(`setQty`, `kill`), and the three ways to read (`read`, `front`, `forEach`).
-/

namespace Matcher

open Kit

/-! ## Requantifying a cell in a queue -/

theorem length_reQty {loc : Nat} {q : Qty} (hq : q ≠ 0) (xs : List Cell) :
    (xs.filterMap (Cell.reQty loc q)).length = xs.length := by
  induction xs with
  | nil => rfl
  | cons y ys ih =>
    by_cases hy : y.loc = loc <;> simp [Cell.reQty, hy, hq, ih]

theorem reQty_of_not_mem {loc : Nat} {q : Qty} {xs : List Cell} (h : loc ∉ xs.map Cell.loc) :
    xs.filterMap (Cell.reQty loc q) = xs := by
  refine (List.filterMap_congr fun y hy => ?_).trans List.filterMap_some
  have hne : y.loc ≠ loc := fun heq => h (heq ▸ List.mem_map_of_mem hy)
  simp [Cell.reQty, hne]

/-- Locations are unique, so exactly one cell is affected. -/
theorem reQty_split {l r : List Cell} {x : Cell} (q : Qty)
    (hnd : ((l ++ x :: r).map Cell.loc).Nodup) :
    (l ++ x :: r).filterMap (Cell.reQty x.loc q) =
      if q = 0 then l ++ r else l ++ { x with qty := q } :: r := by
  rw [List.map_append, List.map_cons] at hnd
  have hnot := (List.nodup_cons.mp (List.nodup_middle.mp hnd)).1
  rw [List.mem_append, not_or] at hnot
  rw [List.filterMap_append, List.filterMap_cons, reQty_of_not_mem hnot.1, reQty_of_not_mem hnot.2]
  by_cases hq : q = 0 <;> simp [Cell.reQty, hq]

/-- A cell that is killed leaves its list. -/
theorem length_reQty_zero {xs : List Cell} {x : Cell} (hnd : (xs.map Cell.loc).Nodup)
    (hx : x ∈ xs) :
    (xs.filterMap (Cell.reQty x.loc 0)).length + 1 = xs.length := by
  obtain ⟨l, r, rfl⟩ := List.append_of_mem hx
  rw [reQty_split 0 hnd, if_pos rfl]
  simp only [List.length_append, List.length_cons]
  omega

/-! ## Reading a chunk -/

namespace Chunk

/-- The first hit of a search over an index range. -/
theorem filterMap_range_of_first {α : Type*} {f : Nat → Option α} {n i : Nat} {x : α} (hi : i < n)
    (hx : f i = some x) (hbefore : ∀ j, j < i → f j = none) :
    ∃ rest, (List.range n).filterMap f = x :: rest := by
  obtain ⟨m, rfl⟩ := Nat.exists_eq_add_of_lt hi
  have hnil : (List.range i).filterMap f = [] := by
    rw [List.filterMap_eq_nil_iff]
    exact fun j hj => hbefore j (List.mem_range.mp hj)
  have hfirst : f (i + 0) = some x := hx
  rw [Nat.add_assoc, List.range_add, List.filterMap_append, hnil, List.nil_append,
    List.range_succ_eq_map, List.map_cons, List.filterMap_cons_some hfirst]
  exact ⟨_, rfl⟩

/-- The cursor stops at the first live slot. -/
theorem skipDead_spec {ch : Chunk} {c i : Nat} {x : Cell} (hx : ch.cell c i = some x) :
    ∀ fuel head, head ≤ i → i < head + fuel →
      (∀ j s, j < head → ch.s[j]? = some s → s.qty = 0) →
      ∃ k y, ch.skipDead fuel head = some k ∧ head ≤ k ∧ k ≤ i ∧ ch.cell c k = some y ∧
        ∀ j s, j < k → ch.s[j]? = some s → s.qty = 0 := by
  obtain ⟨hi, _⟩ := cell_eq_some.mp hx
  intro fuel
  induction fuel with
  | zero =>
    intro head hle hlt
    omega
  | succ fuel ih =>
    intro head hle hlt hdead
    obtain ⟨s, t, hs, _, hcell⟩ := cell_of_lt c ch (lt_of_le_of_lt hle hi)
    by_cases hq : s.qty = 0
    · have hne : head ≠ i := by
        rintro rfl
        rw [hcell, if_pos hq] at hx
        cases hx
      have hslots : CHUNK_SLOTS = 6 := rfl
      have hincr : incr 8 head = head + 1 := incr_of_lt (by omega)
      obtain ⟨k, y, hrun, hk, hrest⟩ := ih (head + 1) (by omega) (by omega) fun j s' hj hs' => by
        rcases Nat.lt_succ_iff_lt_or_eq.mp hj with hj | rfl
        · exact hdead j s' hj hs'
        · rw [hs] at hs'
          cases hs'
          exact hq
      refine ⟨k, y, ?_, Nat.le_of_succ_le hk, hrest⟩
      simp [skipDead, hs, hq, hincr, hrun]
    · refine ⟨head, _, ?_, le_rfl, hle, by rw [hcell, if_neg hq], hdead⟩
      simp [skipDead, hs, hq]

/-- The slots `visit` returns are the live ones of its range. -/
theorem visit_spec (ch : Chunk) (c : Nat) :
    ∀ n i, i + n ≤ CHUNK_SLOTS → ∃ is, ch.visit i n = some is ∧
      is.map (mkLoc c) = ((List.range' i n).filterMap (ch.cell c)).map Cell.loc := by
  intro n
  induction n with
  | zero => exact fun i _ => ⟨[], rfl, rfl⟩
  | succ n ih =>
    intro i hi
    obtain ⟨is, hrun, his⟩ := ih (i + 1) (by omega)
    obtain ⟨s, t, hs, _, hcell⟩ := cell_of_lt c ch (show i < CHUNK_SLOTS by omega)
    rw [List.range'_succ]
    by_cases hq : s.qty = 0
    · refine ⟨is, by simp [visit, hs, hrun, hq], ?_⟩
      rw [List.filterMap_cons_none (by rw [hcell, if_pos hq]), his]
    · refine ⟨i :: is, by simp [visit, hs, hrun, hq], ?_⟩
      rw [List.filterMap_cons_some (by rw [hcell, if_neg hq]), List.map_cons, List.map_cons, his]

/-- `for_each` within one chunk. -/
theorem visit_cells {ch : Chunk} {label : Side × Price} (hok : Store.ChunkOk ch label) (c : Nat) :
    ∃ is, ch.visit ch.head (ch.tail - ch.head) = some is ∧
      is.map (mkLoc c) = (ch.cells c).map Cell.loc := by
  have hle := hok.head_le
  obtain ⟨is, hrun, his⟩ := visit_spec ch c (ch.tail - ch.head) ch.head
    (by rw [Nat.add_sub_cancel' hle]; exact hok.tail_le)
  refine ⟨is, hrun, his.trans ?_⟩
  have hskip : (List.range' 0 ch.head).filterMap (ch.cell c) = [] := by
    rw [List.filterMap_eq_nil_iff]
    intro j hj
    have hj' : j < ch.head := by simpa using hj
    obtain ⟨s, t, hs, _, hcell⟩ := cell_of_lt c ch
      (lt_of_lt_of_le (lt_of_lt_of_le hj' hle) hok.tail_le)
    rw [hcell, if_pos (hok.dead j s hj' hs)]
  rw [cells, List.range_eq_range', show ch.tail = ch.head + (ch.tail - ch.head) by omega,
    ← List.range'_append_1, List.filterMap_append, hskip, List.nil_append]
  simp

end Chunk

namespace Store

section Lay

variable {κ : Type*} {label : κ → Side × Price} {st : Store} {lv : κ → Level} {L : Layout κ}

/-! ## Where a cell lives -/

/-- A queued cell, found in memory. -/
structure Spot (label : Side × Price) (st : Store) (x : Cell) (c i : Nat) (ch : Chunk) : Prop where
  read : st.chunks[c]? = some ch
  ok : ChunkOk ch label
  head_le : ch.head ≤ i
  lt_tail : i < ch.tail
  cell : ch.cell c i = some x
  lt_bound : c < 2 ^ 29

theorem Spot.lt_slots {l : Side × Price} {x : Cell} {c i : Nat} {ch : Chunk}
    (h : Spot l st x c i ch) : i < CHUNK_SLOTS := lt_of_lt_of_le h.lt_tail h.ok.tail_le

theorem Spot.lt_eight {l : Side × Price} {x : Cell} {c i : Nat} {ch : Chunk}
    (h : Spot l st x c i ch) : i < 8 := Nat.lt_trans h.lt_slots (by decide)

theorem Spot.loc {l : Side × Price} {x : Cell} {c i : Nat} {ch : Chunk} (h : Spot l st x c i ch) :
    x.loc = mkLoc c i := (Chunk.cell_eq_some.mp h.cell).2.1

theorem Spot.locChunk {l : Side × Price} {x : Cell} {c i : Nat} {ch : Chunk}
    (h : Spot l st x c i ch) : locChunk x.loc = c := by
  rw [h.loc, locChunk_mkLoc h.lt_bound h.lt_eight]

theorem Spot.locSlot {l : Side × Price} {x : Cell} {c i : Nat} {ch : Chunk}
    (h : Spot l st x c i ch) : locSlot x.loc = i := by
  rw [h.loc, locSlot_mkLoc h.lt_bound h.lt_eight]

/-- The cells of a linked chunk. -/
theorem Lay.spot (h : Lay label st lv L) {k : κ} {c : Nat} (hc : c ∈ L.chain k) {x : Cell}
    (hx : x ∈ st.cellsAt c) : ∃ i ch, Spot (label k) st x c i ch := by
  obtain ⟨ch, hch, hok⟩ := h.chunk_ok k c hc
  rw [cellsAt_of hch] at hx
  obtain ⟨i, hi, hcell⟩ := Chunk.mem_cells.mp hx
  refine ⟨i, ch, hch, hok, ?_, hi, hcell, h.lt_bound hc⟩
  by_contra hlt
  obtain ⟨_, _, hq, hs, _⟩ := Chunk.cell_eq_some.mp hcell
  exact hq (hok.dead i _ (Nat.lt_of_not_le hlt) hs)

theorem queue_cons {c : Nat} {cs : List Nat} :
    st.queue (c :: cs) = st.cellsAt c ++ st.queue cs := List.flatMap_cons

theorem mem_queue {cs : List Nat} {x : Cell} : x ∈ st.queue cs ↔ ∃ c ∈ cs, x ∈ st.cellsAt c :=
  List.mem_flatMap

theorem Lay.locate (h : Lay label st lv L) {k : κ} {x : Cell} (hx : x ∈ st.queue (L.chain k)) :
    ∃ c i ch, c ∈ L.chain k ∧ Spot (label k) st x c i ch := by
  obtain ⟨c, hc, hxc⟩ := mem_queue.mp hx
  obtain ⟨i, ch, hspot⟩ := h.spot hc hxc
  exact ⟨c, i, ch, hc, hspot⟩

/-- Cells of one chunk have distinct locations. -/
theorem nodup_cells {c : Nat} (hc : c < 2 ^ 29) (ch : Chunk) :
    ((ch.cells c).map Cell.loc).Nodup := by
  rw [Chunk.cells, List.map_filterMap]
  refine List.Nodup.filterMap ?_ List.nodup_range
  intro i j loc hi hj
  simp only [Option.mem_def, Option.map_eq_some_iff] at hi hj
  obtain ⟨x, hx, rfl⟩ := hi
  obtain ⟨y, hy, hxy⟩ := hj
  obtain ⟨hi6, hxl, _⟩ := Chunk.cell_eq_some.mp hx
  obtain ⟨hj6, hyl, _⟩ := Chunk.cell_eq_some.mp hy
  have hslots : CHUNK_SLOTS = 6 := rfl
  rw [hxl, hyl, mkLoc_eq hc (by omega), mkLoc_eq hc (by omega)] at hxy
  omega

/-- Locations are unique within a queue. -/
theorem Lay.nodup_queue (h : Lay label st lv L) (k : κ) :
    ((st.queue (L.chain k)).map Cell.loc).Nodup := by
  rw [queue, List.map_flatMap, List.nodup_flatMap]
  constructor
  · intro c hc
    obtain ⟨ch, hch, hok⟩ := h.chunk_ok k c hc
    rw [cellsAt_of hch]
    exact nodup_cells (h.lt_bound hc) ch
  · refine (h.nodup k).imp_of_mem ?_
    intro c c' hc hc' hne loc hl hl'
    obtain ⟨x, hx, rfl⟩ := List.mem_map.mp hl
    obtain ⟨y, hy, hxy⟩ := List.mem_map.mp hl'
    obtain ⟨i, ch, hspot⟩ := h.spot hc hx
    obtain ⟨j, ch', hspot'⟩ := h.spot hc' hy
    rw [← hspot.locChunk, ← hspot'.locChunk, hxy] at hne
    exact hne rfl

/-- Locations are unique across queues. -/
theorem Lay.loc_level (h : Lay label st lv L) {k k' : κ} {x y : Cell}
    (hx : x ∈ st.queue (L.chain k)) (hy : y ∈ st.queue (L.chain k')) (hloc : x.loc = y.loc) :
    k = k' := by
  obtain ⟨c, i, ch, hc, hspot⟩ := h.locate hx
  obtain ⟨c', j, ch', hc', hspot'⟩ := h.locate hy
  have : c = c' := by rw [← hspot.locChunk, ← hspot'.locChunk, hloc]
  exact h.disjoint k k' c hc (this ▸ hc')

/-! ## Changing a cell -/

/-- Overwriting the quantity at `x.loc` acts on every queue as `Cell.reQty`. -/
theorem Lay.setQty (h : Lay label st lv L) {k : κ} {x : Cell} {c i : Nat} {ch : Chunk}
    (hspot : Spot (label k) st x c i ch) (q : Qty) :
    ∃ s, st.setQty x.loc q = some (st.withChunk c { ch with s }) ∧
      (∀ j t, j < ch.head ∨ ch.tail ≤ j → s[j]? = some t → t.qty = 0) ∧
      (∀ c, c < 2 ^ 29 → Chunk.cells c { ch with s } =
        (ch.cells c).filterMap (Cell.reQty (mkLoc c i) q)) ∧
      ∀ k', (st.withChunk c { ch with s }).queue (L.chain k') =
        (st.queue (L.chain k')).filterMap (Cell.reQty x.loc q) := by
  obtain ⟨_, hloc, hq, hs, _⟩ := Chunk.cell_eq_some.mp hspot.cell
  have hi := hspot.lt_slots
  have hset : ch.setSlot i ⟨x.id, q⟩ = some { ch with s := ch.s.set i ⟨x.id, q⟩ hi } := dif_pos hi
  have hcells : ∀ c, c < 2 ^ 29 → Chunk.cells c { ch with s := ch.s.set i ⟨x.id, q⟩ hi } =
      (ch.cells c).filterMap (Cell.reQty (mkLoc c i) q) := fun c hc =>
    Chunk.cells_setQty q hc hspot.ok.tail_le hs hq hset
  refine ⟨ch.s.set i ⟨x.id, q⟩ hi, ?_, ?_, hcells, ?_⟩
  · simp only [Store.setQty, Store.chunk, hspot.locChunk, hspot.locSlot, hspot.read,
      Option.bind_eq_bind, Option.bind_some, hs, hset, updChunk_eq _ hspot.read]
  · intro j t hj ht
    -- slot `i` lies between the cursors, `j` does not
    have hij : i ≠ j := by
      have := hspot.head_le
      have := hspot.lt_tail
      omega
    rw [Vector.getElem?_set_ne hi hij] at ht
    exact hj.elim (fun hj => hspot.ok.dead j t hj ht) fun hj => hspot.ok.spare j t hj ht
  · intro k'
    rw [queue, queue, List.filterMap_flatMap]
    refine List.flatMap_congr fun c' hc' => ?_
    by_cases hcc : c' = c
    · rw [hcc, cellsAt_of (withChunk_self hspot.read), cellsAt_of hspot.read,
        hcells c hspot.lt_bound, ← hspot.loc]
    · have hread : (st.withChunk c { ch with s := ch.s.set i ⟨x.id, q⟩ hi }).cellsAt c' =
          st.cellsAt c' := by
        rw [cellsAt, cellsAt, withChunk_ne hcc]
      rw [hread]
      refine ((List.filterMap_congr fun y hy => ?_).trans List.filterMap_some).symm
      obtain ⟨j, ch', hspot'⟩ := h.spot hc' hy
      have hne : y.loc ≠ x.loc := fun heq => hcc (by rw [← hspot'.locChunk, ← hspot.locChunk, heq])
      simp [Cell.reQty, hne]

/-- Setting a quantity to anything but 0 keeps the layout. -/
theorem Lay.shrink (h : Lay label st lv L) (hbusy : Busy st L) {k : κ} {x : Cell}
    (hx : x ∈ st.queue (L.chain k)) {q : Qty} (hq : q ≠ 0) :
    ∃ st', st.setQty x.loc q = some st' ∧ Lay label st' lv L ∧ Busy st' L ∧ st'.live = st.live ∧
      ∀ k', st'.queue (L.chain k') = (st.queue (L.chain k')).filterMap (Cell.reQty x.loc q) := by
  obtain ⟨c, i, ch, hc, hspot⟩ := h.locate hx
  obtain ⟨s, hrun, hdead, hcells, hqueue⟩ := h.setQty hspot q
  have hlen : (Chunk.cells c { ch with s }).length = (ch.cells c).length := by
    rw [hcells c hspot.lt_bound, length_reQty hq]
  have hok : ChunkOk { ch with s } (label k) :=
    { hspot.ok with
      dead := fun j t hj => hdead j t (Or.inl hj)
      spare := fun j t hj => hdead j t (Or.inr hj)
      live := by
        rw [Chunk.length_cells 0 c, hlen, Chunk.length_cells c 0]
        exact hspot.ok.live }
  refine ⟨_, hrun, ?_, ?_, rfl, hqueue⟩
  · exact h.touch { ch with s } st.live hc hspot.read rfl rfl hok rfl
  · intro k' c' hc'
    by_cases hcc : c' = c
    · rw [hcc, liveAt_of (withChunk_self hspot.read)]
      have := hbusy k c hc
      rwa [liveAt_of hspot.read] at this
    · rw [liveAt, withChunk_ne hcc]
      exact hbusy k' c' hc'

theorem Lay.live_pos (h : Lay label st lv L) (hbusy : Busy st L) {k : κ} {c : Nat}
    (hc : c ∈ L.chain k) :
    0 < st.live := by
  rw [h.live_sum]
  refine lt_of_lt_of_le (hbusy k c hc) ?_
  exact Finset.single_le_sum (f := st.liveAt) (fun _ _ =>
    Nat.zero_le _) (Finset.mem_range.mpr (h.lt_used hc))

/-- Killing a cell: its slot dies, and its chunk goes with its last cell. -/
theorem Lay.kill [DecidableEq κ] (h : Lay label st lv L) (hbusy : Busy st L) {k : κ} {x : Cell}
    (hx : x ∈ st.queue (L.chain k)) {l : Level} (hhead : l.head = (lv k).head)
    (htail : l.tail = (lv k).tail) (hlive : st.live < 2 ^ 64) :
    ∃ st1 st' l' L', st.setQty x.loc 0 = some st1 ∧ st1.retire l x.loc = some (st', l') ∧
      l'.total = l.total ∧ Lay label st' (Function.update lv k l') L' ∧ Busy st' L' ∧
      st'.live + 1 = st.live ∧
      ∀ k', st'.queue (L'.chain k') = (st.queue (L.chain k')).filterMap (Cell.reQty x.loc 0) := by
  obtain ⟨c, i, ch, hc, hspot⟩ := h.locate hx
  obtain ⟨s, hrun, hdead, hcells, hqueue⟩ := h.setQty hspot 0
  have hmem : x ∈ ch.cells c := Chunk.mem_cells.mpr ⟨i, hspot.lt_tail, hspot.cell⟩
  have hlen : (Chunk.cells c { ch with s }).length + 1 = (ch.cells c).length := by
    rw [hcells c hspot.lt_bound, ← hspot.loc]
    exact length_reQty_zero (nodup_cells hspot.lt_bound ch) hmem
  have hlen0 : (Chunk.cells 0 { ch with s }).length + 1 = ch.live := by
    rw [Chunk.length_cells 0 c, hlen, Chunk.length_cells c 0]
    exact hspot.ok.live.symm
  have hpos := h.live_pos hbusy hc
  have hle8 : ch.live < 2 ^ 8 := by
    have hslots : CHUNK_SLOTS = 6 := rfl
    have := hspot.ok.live_le
    have := hspot.ok.tail_le
    omega
  -- neither counter is at 0, so neither wraps
  have hdecr : decr 8 ch.live = ch.live - 1 := decr_of_pos (by omega) hle8
  have hdecr64 : decr 64 st.live = st.live - 1 := decr_of_pos hpos hlive
  obtain ⟨new, hnew⟩ : ∃ new : Chunk, new = { ch with s, live := ch.live - 1 } := ⟨_, rfl⟩
  have hok : ChunkOk new (label k) := by
    rw [hnew]
    exact { hspot.ok with
      dead := fun j t hj => hdead j t (Or.inl hj)
      spare := fun j t hj => hdead j t (Or.inr hj)
      live := by
        show ch.live - 1 = (Chunk.cells 0 { ch with s }).length
        omega }
  have hlay := h.touch new (st.live - 1) hc hspot.read (by rw [hnew]) (by rw [hnew]) hok
    (by
      have : new.live = ch.live - 1 := by rw [hnew]
      omega)
  obtain ⟨st2, hst2⟩ : ∃ st2, st2 = { st.withChunk c new with live := st.live - 1 } := ⟨_, rfl⟩
  rw [← hst2] at hlay
  have hself : st2.chunks[c]? = some new := by
    rw [hst2]
    exact withChunk_self hspot.read
  have hqueue2 : ∀ k', st2.queue (L.chain k') =
      (st.queue (L.chain k')).filterMap (Cell.reQty x.loc 0) := by
    intro k'
    rw [← hqueue k']
    refine List.flatMap_congr fun c' _ => ?_
    by_cases hcc : c' = c
    · rw [hcc, cellsAt_of hself, cellsAt_of (withChunk_self hspot.read), hnew]
      exact Chunk.cells_congr rfl rfl rfl
    · rw [hst2, cellsAt, cellsAt]
      show Option.getD (Option.map _ (st.withChunk c new).chunks[c']?) [] = _
      rw [withChunk_ne hcc, withChunk_ne hcc]
  have hbusy2 : ∀ k', ∀ c' ∈ L.chain k', c' ≠ c → 0 < st2.liveAt c' := by
    intro k' c' hc' hcc
    rw [hst2, liveAt]
    show 0 < Option.getD (Option.map _ (st.withChunk c new).chunks[c']?) 0
    rw [withChunk_ne hcc]
    exact hbusy k' c' hc'
  -- `retire` counts the slot out, and drops the chunk when that was its last
  have hretire : (st.withChunk c { ch with s }).retire l x.loc =
      if new.live = 0 then st2.dropChunk l c else some (st2, l) := by
    have hst : ({ st.withChunk c { ch with s } with live := st.live - 1 } : Store).withChunk c
        { ch with s, live := ch.live - 1 } = st2 := by
      rw [hst2, hnew]
      simp only [withChunk, modify_const_twice]
    rw [retire_eq (withChunk_self hspot.read) hspot.locChunk, withChunk_live, hdecr64, hdecr, hst,
      hnew]
  by_cases hlast : new.live = 0
  -- the last cell of the chunk: its level loses the chunk, whose cells are gone anyway
  · obtain ⟨st', l', cs, hdrop, htot, hlay', hcs, hqueue', hcells', hlives', hframe⟩ :=
      hlay.dropChunk (l := l) hc (by rw [liveAt_of hself, hlast]) hhead htail
    refine ⟨_, st', l', _, hrun, by rw [hretire, if_pos hlast, hdrop], htot, hlay', ?_, ?_, ?_⟩
    · intro k' c' hc'
      rw [hlives']
      by_cases hk : k' = k
      · subst hk
        simp only [Function.update_self] at hc'
        exact hbusy2 k' c' ((hcs c').mp hc').1 ((hcs c').mp hc').2
      · simp only [Function.update_of_ne hk] at hc'
        exact hbusy2 k' c' hc' (by rintro rfl; exact hk (h.disjoint k' k c' hc' hc))
    · rw [hframe.live, hst2]
      show st.live - 1 + 1 = _
      omega
    · intro k'
      have hsame : ∀ cs, st'.queue cs = st2.queue cs := fun cs =>
        List.flatMap_congr fun c' _ => hcells' c'
      by_cases hk : k' = k
      · subst hk
        simp only [Function.update_self]
        rw [hsame, hqueue', hqueue2]
      · simp only [Function.update_of_ne hk]
        rw [hsame, hqueue2]
  · refine ⟨_, st2, l, L, hrun, by rw [hretire, if_neg hlast], rfl, ?_, ?_, ?_, hqueue2⟩
    · refine hlay.congr_level ?_ ?_ <;> intro k' <;> by_cases hk : k' = k
      · rw [hk, Function.update_self, hhead]
      · rw [Function.update_of_ne hk]
      · rw [hk, Function.update_self, htail]
      · rw [Function.update_of_ne hk]
    · intro k' c' hc'
      by_cases hcc : c' = c
      · rw [hcc, liveAt_of hself]
        omega
      · exact hbusy2 k' c' hc' hcc
    · rw [hst2]
      show st.live - 1 + 1 = _
      omega

/-! ## Reading a level -/

/-- `front` finds the queue's head; only the head chunk's cursor moves. -/
theorem Lay.front (h : Lay label st lv L) (hbusy : Busy st L) {k : κ} {x : Cell} {rest : List Cell}
    (hq : st.queue (L.chain k) = x :: rest) :
    ∃ st', st.front (lv k) = some (st', x.loc) ∧ Lay label st' lv L ∧ Busy st' L ∧
      st'.live = st.live ∧ ∀ k', st'.queue (L.chain k') = st.queue (L.chain k') := by
  rcases hchain : L.chain k with _ | ⟨c, cs⟩
  · rw [hchain] at hq
    cases hq
  have hc : c ∈ L.chain k := by simp [hchain]
  obtain ⟨ch, hch, hok⟩ := h.chunk_ok k c hc
  have hhead : (lv k).head = c := by simp [h.head k, hchain]
  -- a chunk in a chain is never empty, so the head chunk holds the front
  have hsome : ch.cells c ≠ [] := by
    have := hbusy k c hc
    rw [liveAt_of hch, hok.live, Chunk.length_cells 0 c] at this
    exact List.ne_nil_of_length_pos this
  obtain ⟨y, hy⟩ := List.exists_mem_of_ne_nil _ hsome
  obtain ⟨i, hi, hcell⟩ := Chunk.mem_cells.mp hy
  have hle : ch.head ≤ i := by
    by_contra hlt
    obtain ⟨_, _, hq, hs, _⟩ := Chunk.cell_eq_some.mp hcell
    exact hq (hok.dead i _ (Nat.lt_of_not_le hlt) hs)
  have hslots : CHUNK_SLOTS = 6 := rfl
  have htail := hok.tail_le
  -- the cursor stops at the first live slot
  obtain ⟨j, z, hskip, hj, hji, hz, hdead⟩ :=
    Chunk.skipDead_spec hcell (CHUNK_SLOTS + 1) ch.head hle (by omega) hok.dead
  obtain ⟨zs, hzs⟩ : ∃ zs, ch.cells c = z :: zs := by
    refine Chunk.filterMap_range_of_first (lt_of_le_of_lt hji hi) hz fun m hm => ?_
    obtain ⟨s, t, hs, _, hcellm⟩ := Chunk.cell_of_lt c ch (show m < CHUNK_SLOTS by omega)
    rw [hcellm, if_pos (hdead m s hm hs)]
  have hzx : z = x := by
    rw [hchain, queue, List.flatMap_cons, cellsAt_of hch, hzs, List.cons_append] at hq
    exact (List.cons.inj hq).1
  have hloc : mkLoc c j = x.loc := by rw [← hzx, (Chunk.cell_eq_some.mp hz).2.1]
  -- what it passed over is dead
  have hok' : ChunkOk { ch with head := j } (label k) :=
    { hok with
      head_le := le_of_lt (lt_of_le_of_lt hji hi)
      dead := hdead }
  refine ⟨st.withChunk c { ch with head := j }, ?_, ?_, ?_, rfl, ?_⟩
  · simp only [Store.front, hhead, hch, Option.bind_eq_bind, Option.bind_some, hskip,
      updChunk_eq _ hch, hloc]
    rfl
  · exact h.touch { ch with head := j } st.live hc hch rfl rfl hok' rfl
  · intro k' c' hc'
    by_cases hcc : c' = c
    · rw [hcc, liveAt_of (withChunk_self hch)]
      have := hbusy k c hc
      rwa [liveAt_of hch] at this
    · rw [liveAt, withChunk_ne hcc]
      exact hbusy k' c' hc'
  · intro k'
    refine List.flatMap_congr fun c' _ => ?_
    by_cases hcc : c' = c
    · rw [hcc, cellsAt_of (withChunk_self hch), cellsAt_of hch]
      exact Chunk.cells_congr rfl rfl rfl
    · rw [cellsAt, cellsAt, withChunk_ne hcc]

/-- `for_each` visits the queue's locations in order. -/
theorem Lay.forEach (h : Lay label st lv L) (k : κ) :
    st.forEach (lv k) = some ((st.queue (L.chain k)).map Cell.loc) := by
  have hwalk : ∀ (cs : List Nat) (p fuel : Nat), (∀ c ∈ cs, c ∈ L.chain k) → Seg st.node p cs NIL →
      cs.length < fuel →
      st.forEachFrom fuel (cs.headD NIL) = some ((st.queue cs).map Cell.loc) := by
    intro cs
    induction cs with
    | nil =>
      intro p fuel _ _ hfuel
      obtain ⟨f, rfl⟩ := Nat.exists_eq_succ_of_ne_zero (Nat.ne_of_gt hfuel)
      simp [forEachFrom, queue]
    | cons c cs ih =>
      intro p fuel hsub hseg hfuel
      obtain ⟨f, rfl⟩ := Nat.exists_eq_succ_of_ne_zero (Nat.ne_of_gt (Nat.zero_lt_of_lt hfuel))
      have hc := hsub c List.mem_cons_self
      obtain ⟨ch, hch, hok⟩ := h.chunk_ok k c hc
      have hnext : ch.next = cs.headD NIL := by
        have := hseg.1
        rw [node_of hch, Option.some.injEq, Prod.mk.injEq] at this
        exact this.2
      obtain ⟨is, hvisit, his⟩ := Chunk.visit_cells hok c
      have hrest := ih c f (fun x hx => hsub x (List.mem_cons_of_mem _ hx)) hseg.2
        (Nat.lt_of_succ_lt_succ hfuel)
      simp only [List.headD_cons, forEachFrom, if_neg (h.ne_nil hc), hch, Option.bind_eq_bind,
        Option.bind_some, hvisit, hnext, hrest, his]
      rw [queue_cons, List.map_append, cellsAt_of hch]
      rfl
  -- a chain visits no chunk twice, so it is no longer than the memory
  have hsize : (L.chain k).length ≤ st.chunks.size := by
    have hsub : L.chain k ⊆ List.range st.chunks.size := fun c hc =>
      List.mem_range.mpr (lt_of_lt_of_le (h.lt_used hc) h.used_le)
    simpa using ((h.nodup k).subperm hsub).length_le
  rw [Store.forEach, h.head k]
  exact hwalk _ NIL _ (fun _ hc => hc) (h.linked k) (Nat.lt_succ_of_le hsize)

/-! ## Counting -/

/-- `live` counts the cells of all levels. -/
theorem Lay.live_eq (h : Lay label st lv L) (ks : List κ) (hks : ks.Nodup)
    (hall : ∀ k, L.chain k ≠ [] → k ∈ ks) :
    st.live = (ks.map fun k => (st.queue (L.chain k)).length).sum := by
  have hcellslen : ∀ k, ∀ c ∈ L.chain k, (st.cellsAt c).length = st.liveAt c := by
    intro k c hc
    obtain ⟨ch, hch, hok⟩ := h.chunk_ok k c hc
    rw [cellsAt_of hch, liveAt_of hch, hok.live, Chunk.length_cells 0 c]
  -- every used chunk is free or in exactly one chain
  have hperm : (L.free ++ ks.flatMap L.chain).Perm (List.range st.used) := by
    rw [List.perm_ext_iff_of_nodup _ List.nodup_range]
    · intro c
      rw [List.mem_range, h.cover c, List.mem_append, List.mem_flatMap]
      refine or_congr_right ⟨?_, ?_⟩
      · intro hmem
        obtain ⟨k, _, hc⟩ := hmem
        exact ⟨k, hc⟩
      · intro hmem
        obtain ⟨k, hc⟩ := hmem
        exact ⟨k, hall k (List.ne_nil_of_mem hc), hc⟩
    · refine List.nodup_append.mpr ⟨h.free_nodup, ?_, ?_⟩
      · rw [List.nodup_flatMap]
        refine ⟨fun k _ => h.nodup k, hks.imp ?_⟩
        intro k k' hne c hc hc'
        exact hne (h.disjoint k k' c hc hc')
      · intro c hc c' hc' heq
        obtain ⟨k, _, hck⟩ := List.mem_flatMap.mp hc'
        exact h.free_disjoint k c (heq ▸ hck) hc
  have hsum : ((L.free ++ ks.flatMap L.chain).map st.liveAt).sum = st.live := by
    rw [(hperm.map st.liveAt).sum_eq, h.live_sum]
    rfl
  rw [← hsum, List.map_append, List.sum_append]
  have hfree : (L.free.map st.liveAt).sum = 0 :=
    List.sum_eq_zero fun n hn => by
      obtain ⟨c, hc, rfl⟩ := List.mem_map.mp hn
      exact h.free_live c hc
  rw [hfree, Nat.zero_add, List.map_flatMap, List.flatMap_def, List.sum_flatten, List.map_map]
  refine congrArg List.sum (List.map_congr_left fun k _ => ?_)
  rw [queue, List.length_flatMap]
  exact congrArg List.sum (List.map_congr_left fun c hc => (hcellslen k c hc).symm)

/-- No more live orders than slots. -/
theorem Lay.live_le (h : Lay label st lv L) : st.live ≤ CHUNK_SLOTS * st.chunks.size := by
  rw [Nat.mul_comm]
  exact h.live_le_used.trans (Nat.mul_le_mul_right _ h.used_le)

end Lay

/-! ## The queues of a store -/

section Queues

variable {κ : Type*} {label : κ → Side × Price} {st : Store} {lv : κ → Level} {Q : κ → List Cell}

/-- The levels `lv`, sharing the store `st`, hold the queues `Q`. -/
def Queues (label : κ → Side × Price) (st : Store) (lv : κ → Level) (Q : κ → List Cell) : Prop :=
  ∃ L : Layout κ, Lay label st lv L ∧ Busy st L ∧ (∀ k, Q k = st.queue (L.chain k)) ∧
    ∀ k, (lv k).total = ((Q k).map Cell.qty).sum

/-- A level with no chunks is the default level. -/
theorem Queues.level_empty (h : Queues label st lv Q) (k : κ) :
    ((lv k).empty = true ↔ Q k = []) ∧ (Q k = [] → lv k = {}) := by
  obtain ⟨L, hlay, hbusy, hQ, htot⟩ := h
  have hiff : L.chain k = [] ↔ Q k = [] := by
    rw [hQ k]
    constructor
    · intro hnil
      rw [hnil]
      rfl
    · intro hnil
      rcases hchain : L.chain k with _ | ⟨c, cs⟩
      · rfl
      · have hc : c ∈ L.chain k := by simp [hchain]
        obtain ⟨ch, hch, hok⟩ := hlay.chunk_ok k c hc
        have hpos := hbusy k c hc
        rw [hchain, queue_cons, List.append_eq_nil_iff, cellsAt_of hch] at hnil
        rw [liveAt_of hch, hok.live, Chunk.length_cells 0 c, hnil.1] at hpos
        exact absurd hpos (Nat.lt_irrefl 0)
  refine ⟨(hlay.empty_iff k).trans hiff, fun hnil => ?_⟩
  have hhead : (lv k).head = NIL := by rw [hlay.head k, hiff.mpr hnil]; rfl
  have htail : (lv k).tail = NIL := by rw [hlay.tail k, hiff.mpr hnil]; rfl
  have htotal : (lv k).total = 0 := by rw [htot k, hnil]; rfl
  exact Level.mk.injEq .. ▸ ⟨hhead, htail, htotal⟩

theorem Queues.total (h : Queues label st lv Q) (k : κ) : (lv k).total = ((Q k).map Cell.qty).sum :=
  h.choose_spec.2.2.2 k

/-- The cell at a location. -/
structure Reads (st : Store) (label : Side × Price) (x : Cell) : Prop where
  read : ∃ ch, st.chunk x.loc = some ch ∧ ch.side = label.1 ∧ ch.price = label.2 ∧
    ch.s[locSlot x.loc]? = some ⟨x.id, x.qty⟩ ∧ ch.tif[locSlot x.loc]? = some x.tif

/-- Memory at a queued cell's location. -/
theorem Queues.reads (h : Queues label st lv Q) {k : κ} {x : Cell} (hx : x ∈ Q k) :
    Reads st (label k) x := by
  obtain ⟨L, hlay, _, hQ, _⟩ := h
  rw [hQ k] at hx
  obtain ⟨c, i, ch, _, hspot⟩ := hlay.locate hx
  obtain ⟨_, _, _, hs, ht⟩ := Chunk.cell_eq_some.mp hspot.cell
  refine ⟨ch, ?_, hspot.ok.side, hspot.ok.price, ?_, ?_⟩
  · rw [Store.chunk, hspot.locChunk, hspot.read]
  · rw [hspot.locSlot, hs]
  · rw [hspot.locSlot, ht]

theorem Queues.qty_ne_zero (h : Queues label st lv Q) {k : κ} {x : Cell} (hx : x ∈ Q k) : x.qty ≠
    0 := by
  obtain ⟨L, hlay, _, hQ, _⟩ := h
  rw [hQ k] at hx
  obtain ⟨c, i, ch, _, hspot⟩ := hlay.locate hx
  exact (Chunk.cell_eq_some.mp hspot.cell).2.2.1

theorem Queues.nodup (h : Queues label st lv Q) (k : κ) : ((Q k).map Cell.loc).Nodup := by
  obtain ⟨L, hlay, _, hQ, _⟩ := h
  rw [hQ k]
  exact hlay.nodup_queue k

theorem Queues.loc_level (h : Queues label st lv Q) {k k' : κ} {x y : Cell} (hx : x ∈ Q k)
    (hy : y ∈ Q k') (hloc : x.loc = y.loc) : k = k' := by
  obtain ⟨L, hlay, _, hQ, _⟩ := h
  rw [hQ] at hx hy
  exact hlay.loc_level hx hy hloc

/-- A location names at most one cell. -/
theorem Queues.loc_inj (h : Queues label st lv Q) {k k' : κ} {x y : Cell} (hx : x ∈ Q k)
    (hy : y ∈ Q k') (hloc : x.loc = y.loc) : x = y := by
  obtain rfl := h.loc_level hx hy hloc
  exact List.inj_on_of_nodup_map (h.nodup k) hx hy hloc

theorem Queues.live_eq (h : Queues label st lv Q) (ks : List κ) (hks : ks.Nodup)
    (hall : ∀ k, Q k ≠ [] → k ∈ ks) : st.live = (ks.map fun k => (Q k).length).sum := by
  have hempty := h.level_empty
  obtain ⟨L, hlay, _, hQ, _⟩ := h
  rw [hlay.live_eq ks hks fun k hk => hall k fun hnil => ?_]
  · simp only [hQ]
  · exact hk ((hlay.empty_iff k).mp ((hempty k).1.mpr hnil))

theorem Queues.live_le (h : Queues label st lv Q) : st.live ≤ CHUNK_SLOTS * st.chunks.size := by
  obtain ⟨L, hlay, _⟩ := h
  exact hlay.live_le

theorem Queues.forEach (h : Queues label st lv Q) (k : κ) :
    st.forEach (lv k) = some ((Q k).map Cell.loc) := by
  obtain ⟨L, hlay, _, hQ, _⟩ := h
  rw [hlay.forEach k, hQ k]

/-- `front` yields the head of the queue and changes no queue. -/
theorem Queues.front (h : Queues label st lv Q) {k : κ} {x : Cell} {rest : List Cell}
    (hq : Q k = x :: rest) :
    ∃ st', st.front (lv k) = some (st', x.loc) ∧ Queues label st' lv Q ∧ st'.live = st.live := by
  obtain ⟨L, hlay, hbusy, hQ, htot⟩ := h
  obtain ⟨st', hrun, hlay', hbusy', hlive, hqueue⟩ := hlay.front hbusy ((hQ k).symm.trans hq)
  exact ⟨st', hrun, ⟨L, hlay', hbusy', fun k' => (hQ k').trans (hqueue k').symm, htot⟩, hlive⟩

variable [DecidableEq κ]

/-- Only the queue that holds the cell changes. -/
theorem Queues.reQty_eq (h : Queues label st lv Q) {k : κ} {l r : List Cell} {x : Cell}
    (hsplit : Q k = l ++ x :: r) (q : Qty) (k' : κ) :
    (Q k').filterMap (Cell.reQty x.loc q) =
      Function.update Q k (if q = 0 then l ++ r else l ++ { x with qty := q } :: r) k' := by
  by_cases hk : k' = k
  · subst hk
    have hnd := h.nodup k'
    rw [hsplit] at hnd
    rw [Function.update_self, hsplit, reQty_split q hnd]
  · rw [Function.update_of_ne hk, reQty_of_not_mem]
    intro hmem
    obtain ⟨y, hy, hloc⟩ := List.mem_map.mp hmem
    exact hk (h.loc_level hy (show x ∈ Q k by simp [hsplit]) hloc)

omit [DecidableEq κ] in
/-- A store with fewer than 2^29 live orders has room. -/
theorem Queues.room (h : Queues label st lv Q) (hlive : st.live < 2 ^ 29)
    (l : Level) : st.Room l := by
  obtain ⟨L, hlay, hbusy, _⟩ := h
  exact hlay.room hbusy hlive l

/-- `push` appends a cell with a new location. -/
theorem Queues.push (h : Queues label st lv Q) {k : κ} (hroom : st.Room (lv k)) {side : Side}
    {price : Price} (hk : label k = (side, price)) {qty : Qty} (hq : qty ≠ 0)
    (id : OrderId) (tif : Tif) :
    ∃ st' l' x, st.push (lv k) side price id qty tif = some (st', l', x.loc) ∧
      x.id = id ∧ x.qty = qty ∧ x.tif = tif ∧
      Queues label st' (Function.update lv k l') (Function.update Q k (Q k ++ [x])) ∧
      st'.live = st.live + 1 := by
  obtain ⟨L, hlay, hbusy, hQ, htot⟩ := h
  obtain ⟨st', l', x, L', hrun, hid, hqty, htif, htotal, hlay', hbusy', hqueue, hlive'⟩ :=
    hlay.push hbusy hroom hk hq id tif
  refine ⟨st', l', x, hrun, hid, hqty, htif, ⟨L', hlay', hbusy', ?_, ?_⟩, hlive'⟩
  · intro k'
    rw [hqueue k', ← hQ k, ← funext hQ]
  · intro k'
    by_cases hk' : k' = k
    · subst hk'
      rw [Function.update_self, Function.update_self, htotal, htot k', List.map_append,
        List.sum_append, ← hqty]
      simp
    · rw [Function.update_of_ne hk', Function.update_of_ne hk']
      exact htot k'

/-- Changing a queued quantity, not to 0. The caller accounts for the total. -/
theorem Queues.setQty (h : Queues label st lv Q) {k : κ} {l r : List Cell} {x : Cell}
    (hsplit : Q k = l ++ x :: r) {q t : Qty} (hq : q ≠ 0) (ht : t + x.qty = (lv k).total + q) :
    ∃ st', st.setQty x.loc q = some st' ∧ st'.live = st.live ∧
      Queues label st' (Function.update lv k { lv k with total := t })
        (Function.update Q k (l ++ { x with qty := q } :: r)) := by
  have hreq := h.reQty_eq hsplit q
  obtain ⟨L, hlay, hbusy, hQ, htot⟩ := h
  have hx : x ∈ st.queue (L.chain k) := by
    rw [← hQ k, hsplit]
    simp
  obtain ⟨st', hrun, hlay', hbusy', hlive, hqueue⟩ := hlay.shrink hbusy hx hq
  refine ⟨st', hrun, hlive, ⟨L, ?_, hbusy', ?_, ?_⟩⟩
  · refine hlay'.congr_level ?_ ?_ <;> intro k' <;> by_cases hk : k' = k
    · rw [hk, Function.update_self]
    · rw [Function.update_of_ne hk]
    · rw [hk, Function.update_self]
    · rw [Function.update_of_ne hk]
  · intro k'
    rw [hqueue k', ← hQ k', hreq k', if_neg hq]
  · intro k'
    by_cases hk : k' = k
    · subst hk
      have hsum := htot k'
      rw [hsplit] at hsum
      simp only [List.map_append, List.map_cons, List.sum_append, List.sum_cons] at hsum
      rw [Function.update_self, Function.update_self]
      simp only [List.map_append, List.map_cons, List.sum_append, List.sum_cons]
      -- totals are sums modulo 2^64: the old quantity cancels
      have hcancel : t + x.qty =
          ((l.map Cell.qty).sum + (q + (r.map Cell.qty).sum)) + x.qty := by
        rw [ht, hsum]
        grind
      exact add_right_cancel hcancel
    · rw [Function.update_of_ne hk, Function.update_of_ne hk]
      exact htot k'

/-- Removing a queued cell. The caller accounts for the total. -/
theorem Queues.kill (h : Queues label st lv Q) {k : κ} {l r : List Cell} {x : Cell}
    (hsplit : Q k = l ++ x :: r) {t : Qty} (ht : t + x.qty = (lv k).total)
    (hlive : st.live < 2 ^ 64) :
    ∃ st1 st' l', st.setQty x.loc 0 = some st1 ∧
      st1.retire { lv k with total := t } x.loc = some (st', l') ∧ st'.live + 1 = st.live ∧
      Queues label st' (Function.update lv k l') (Function.update Q k (l ++ r)) := by
  have hreq := h.reQty_eq hsplit 0
  obtain ⟨L, hlay, hbusy, hQ, htot⟩ := h
  have hx : x ∈ st.queue (L.chain k) := by
    rw [← hQ k, hsplit]
    simp
  obtain ⟨st1, st', l', L', hset, hretire, htotal, hlay', hbusy', hlive', hqueue⟩ :=
    hlay.kill hbusy hx (l := { lv k with total := t }) rfl rfl hlive
  refine ⟨st1, st', l', hset, hretire, hlive', ⟨L', hlay', hbusy', ?_, ?_⟩⟩
  · intro k'
    rw [hqueue k', ← hQ k', hreq k', if_pos rfl]
  · intro k'
    by_cases hk : k' = k
    · subst hk
      have hsum := htot k'
      rw [hsplit] at hsum
      simp only [List.map_append, List.map_cons, List.sum_append, List.sum_cons] at hsum
      rw [Function.update_self, Function.update_self, htotal]
      simp only [List.map_append, List.sum_append]
      have hcancel : t + x.qty = ((l.map Cell.qty).sum + (r.map Cell.qty).sum) + x.qty := by
        rw [ht, hsum]
        grind
      exact add_right_cancel hcancel
    · rw [Function.update_of_ne hk, Function.update_of_ne hk]
      exact htot k'

/-- `unlink` removes a queued cell and takes its quantity off the level. -/
theorem Queues.unlink (h : Queues label st lv Q) {k : κ} {l r : List Cell} {x : Cell}
    (hsplit : Q k = l ++ x :: r) (hlive : st.live < 2 ^ 64) :
    ∃ st' l', st.unlink (lv k) x.loc = some (st', l') ∧ st'.live + 1 = st.live ∧
      Queues label st' (Function.update lv k l') (Function.update Q k (l ++ r)) := by
  obtain ⟨ch, hch, _, _, hs, _⟩ := (h.reads (show x ∈ Q k by simp [hsplit])).read
  obtain ⟨st1, st', l', hset, hretire, hrest⟩ :=
    h.kill hsplit (t := (lv k).total - x.qty) (sub_add_cancel _ _) hlive
  refine ⟨st', l', ?_, hrest⟩
  simp only [Store.unlink, hch, Option.bind_eq_bind, Option.bind_some, hs, hset, hretire]

/-- The constructor returns if and only if the chunks fit a vector. -/
theorem new_eq_some {maxOrders : Nat} {st : Store} :
    Store.new maxOrders = some st ↔ maxOrders ≤ maxChunks ∧ blank maxOrders = st := by
  unfold Store.new
  split
  · next hgt => exact iff_of_false (fun h => by cases h) fun h => absurd h.1 (Nat.not_le.mpr hgt)
  · next hle => exact Option.some_inj.trans (and_iff_right (Nat.not_lt.mp hle)).symm

omit [DecidableEq κ] in
/-- The empty store holds empty queues. -/
theorem Queues.blank (label : κ → Side × Price) (maxOrders : Nat) :
    Queues label (Store.blank maxOrders) (fun _ => {}) fun _ => [] := by
  refine ⟨⟨fun _ => [], []⟩, ?_, ?_, fun _ => rfl, fun _ => rfl⟩
  · exact
      { head := fun _ => rfl
        tail := fun _ => rfl
        linked := fun _ => trivial
        chunk_ok := fun _ _ h => absurd h List.not_mem_nil
        nodup := fun _ => List.nodup_nil
        disjoint := fun _ _ _ h => absurd h List.not_mem_nil
        free_head := rfl
        free_path := trivial
        free_live := fun _ h => absurd h List.not_mem_nil
        free_nodup := List.nodup_nil
        free_disjoint := fun _ _ h => absurd h List.not_mem_nil
        blank := by simp [Store.blank]
        cover := by simp [Store.blank]
        used_le := Nat.zero_le _
        used_bound := Nat.zero_le _
        live_sum := rfl }
  · exact fun _ _ h => absurd h List.not_mem_nil

omit [DecidableEq κ] in
/-- `prefault` constructs chunks that no level uses. -/
theorem Queues.prefault (h : Queues label st lv Q) : Queues label st.prefault lv Q := by
  obtain ⟨L, hlay, hbusy, hQ, htot⟩ := h
  have hread : ∀ c, c < st.used → st.prefault.chunks[c]? = st.chunks[c]? := fun c hc =>
    Array.getElem?_append_left (lt_of_lt_of_le hc hlay.used_le)
  have hlive : ∀ c, c < st.used → st.prefault.liveAt c = st.liveAt c := fun c hc => by
    rw [liveAt, hread c hc, liveAt]
  have hfree : ∀ c ∈ L.free, c < st.used := fun c hc => (hlay.cover c).mpr (Or.inl hc)
  have hqueue : ∀ k, st.prefault.queue (L.chain k) = st.queue (L.chain k) := fun k =>
    List.flatMap_congr fun c hc => by rw [cellsAt, hread c (hlay.lt_used hc), cellsAt]
  refine ⟨L, ?_, fun k c hc => ?_, fun k => (hQ k).trans (hqueue k).symm, htot⟩
  · exact
      { hlay with
        linked := fun k => (hlay.linked k).congr fun c hc => by
          rw [node, hread c (hlay.lt_used hc), node]
        chunk_ok := by
          intro k c hc
          rw [hread c (hlay.lt_used hc)]
          exact hlay.chunk_ok k c hc
        free_path := hlay.free_path.congr fun c hc => by rw [nextOf, hread c (hfree c hc), nextOf]
        free_live := fun c hc => (hlive c (hfree c hc)).trans (hlay.free_live c hc)
        blank := by
          intro c ch hc hch
          by_cases hlt : c < st.chunks.size
          · exact hlay.blank c ch hc ((Array.getElem?_append_left hlt).symm.trans hch)
          -- a chunk that `resize` constructed
          · rw [Store.prefault, Array.getElem?_append_right (Nat.le_of_not_lt hlt)] at hch
            obtain ⟨_, hch⟩ := Array.getElem?_eq_some_iff.mp hch
            rw [Array.getElem_replicate] at hch
            exact hch ▸ Chunk.blank_default
        used_le := by
          refine hlay.used_le.trans ?_
          show _ ≤ (st.chunks ++ _).size
          rw [Array.size_append]
          exact Nat.le_add_right _ _
        live_sum := by
          refine hlay.live_sum.trans ?_
          exact Finset.sum_congr rfl fun c hc => (hlive c (Finset.mem_range.mp hc)).symm }
  · rw [hlive c (hlay.lt_used hc)]
    exact hbusy k c hc

end Queues

end Store

end Matcher
