import Matcher.Detail.Store
import Matcher.Kit.Segment

/-!
# The chunked store is a family of FIFO queues

`Store.Lay` is the store's layout invariant for a family of levels `lv : κ →
Level` sharing it: which chunks make up each level's list and the free list
(the ghost `Layout`), how they are linked, and what each chunk's header says
about its slots. `Store.Queues st lv Q` hides the layout: the levels hold the
queues `Q : κ → List Cell`, a `Cell` being a live slot with its location. Each
store operation has one specification lemma about `Queues`.

`κ` is any type of level names, `label` the side and price a level's chunks
carry.
-/

namespace Matcher

open Kit

/-- A live slot: its location, and what it records. -/
structure Cell where
  loc : Nat
  id : OrderId
  qty : Qty
  tif : Tif
deriving DecidableEq, Repr

/-- What is left of a cell when the quantity at `loc` becomes `q`. -/
def Cell.reQty (loc : Nat) (q : Qty) (x : Cell) : Option Cell :=
  if x.loc = loc then if q = 0 then none else some { x with qty := q } else some x

/-! ## Locations -/

theorem mkLoc_eq {c slot : Nat} (hc : c < 2 ^ 29) (hs : slot < 8) :
    mkLoc c slot = c * 8 + slot := by
  have hshift : c <<< 3 < 2 ^ 32 := by rw [Nat.shiftLeft_eq]; omega
  rw [mkLoc, Nat.mod_eq_of_lt hshift, ← Nat.shiftLeft_add_eq_or_of_lt (i := 3) hs,
    Nat.shiftLeft_eq]

theorem locChunk_mkLoc {c slot : Nat} (hc : c < 2 ^ 29) (hs : slot < 8) :
    locChunk (mkLoc c slot) = c := by
  rw [locChunk, mkLoc_eq hc hs, Nat.shiftRight_eq_div_pow]
  omega

theorem locSlot_mkLoc {c slot : Nat} (hc : c < 2 ^ 29) (hs : slot < 8) :
    locSlot (mkLoc c slot) = slot := by
  rw [locSlot, mkLoc_eq hc hs, show (7 : Nat) = 2 ^ 3 - 1 from rfl, Nat.and_two_pow_sub_one_eq_mod]
  omega

/-! ## The cells of a chunk -/

namespace Chunk

/-- Slot `i` of chunk number `c`, if it is live. -/
def cell (c : Nat) (ch : Chunk) (i : Nat) : Option Cell :=
  match ch.s[i]?, ch.tif[i]? with
  | some s, some t => if s.qty = 0 then none else some ⟨mkLoc c i, s.id, s.qty, t⟩
  | _, _ => none

/-- The live slots of chunk number `c`, in slot order. -/
def cells (c : Nat) (ch : Chunk) : List Cell := (List.range ch.tail).filterMap (ch.cell c)

theorem cell_of_lt (c : Nat) {i : Nat} (ch : Chunk) (hi : i < CHUNK_SLOTS) :
    ∃ s t, ch.s[i]? = some s ∧ ch.tif[i]? = some t ∧
      ch.cell c i = if s.qty = 0 then none else some ⟨mkLoc c i, s.id, s.qty, t⟩ := by
  have h8 : i < 8 := Nat.lt_trans hi (by decide)
  refine ⟨ch.s[i], ch.tif[i], Vector.getElem?_eq_getElem hi, Vector.getElem?_eq_getElem h8, ?_⟩
  simp only [cell, Vector.getElem?_eq_getElem hi, Vector.getElem?_eq_getElem h8]

theorem cell_eq_some {c i : Nat} {ch : Chunk} {x : Cell} :
    ch.cell c i = some x ↔ i < CHUNK_SLOTS ∧ x.loc = mkLoc c i ∧ x.qty ≠ 0 ∧
      ch.s[i]? = some ⟨x.id, x.qty⟩ ∧ ch.tif[i]? = some x.tif := by
  unfold cell
  constructor
  · intro h
    split at h
    · next s t hs ht =>
      split at h
      · cases h
      · next hq =>
        cases h
        obtain ⟨hi, _⟩ := Vector.getElem?_eq_some_iff.mp hs
        exact ⟨hi, rfl, hq, hs, ht⟩
    · cases h
  · rintro ⟨_, hloc, hq, hs, ht⟩
    rw [hs, ht]
    simp only [if_neg hq]
    rw [← hloc]

theorem mem_cells {c : Nat} {ch : Chunk} {x : Cell} :
    x ∈ ch.cells c ↔ ∃ i, i < ch.tail ∧ ch.cell c i = some x := by
  simp [cells, List.mem_filterMap]

/-- The number of live slots does not depend on the chunk's number. -/
theorem length_cells (c c' : Nat) (ch : Chunk) : (ch.cells c).length = (ch.cells c').length := by
  unfold cells
  induction List.range ch.tail with
  | nil => rfl
  | cons i is ih =>
    have hiff : (ch.cell c i).isSome = (ch.cell c' i).isSome := by
      unfold cell
      split
      · split <;> rfl
      · rfl
    rcases h : ch.cell c i with _ | x <;> rcases h' : ch.cell c' i with _ | x' <;>
      simp_all

/-- Only slots, times in force and the tail matter to the cells. -/
theorem cells_congr {c : Nat} {ch ch' : Chunk} (hs : ch'.s = ch.s) (ht : ch'.tif = ch.tif)
    (htail : ch'.tail = ch.tail) : ch'.cells c = ch.cells c := by
  unfold cells cell
  rw [hs, ht, htail]

/-- The cells after the quantity of slot `i` became `q`. -/
theorem cells_setQty {c i : Nat} {ch ch' : Chunk} {s : Slot} (q : Qty) (hc : c < 2 ^ 29)
    (htail : ch.tail ≤ CHUNK_SLOTS) (hs : ch.s[i]? = some s) (hlive : s.qty ≠ 0)
    (hset : ch.setSlot i { s with qty := q } = some ch') :
    ch'.cells c = (ch.cells c).filterMap (Cell.reQty (mkLoc c i) q) := by
  obtain ⟨hi, rfl⟩ : ∃ hi : i < CHUNK_SLOTS,
      ch' = { ch with s := ch.s.set i { s with qty := q } hi } := by
    unfold setSlot at hset
    split at hset
    · next hi => exact ⟨hi, by simpa [eq_comm] using hset⟩
    · cases hset
  unfold cells
  rw [List.filterMap_filterMap]
  apply List.filterMap_congr
  intro j hj
  have hj' : j < CHUNK_SLOTS := lt_of_lt_of_le (List.mem_range.mp hj) htail
  have h8 : ∀ a, a < CHUNK_SLOTS → a < 8 := fun a ha => Nat.lt_trans ha (by decide)
  by_cases hij : i = j
  · subst hij
    obtain ⟨s', t, hs', ht, hcell⟩ := cell_of_lt c ch hi
    rw [hs] at hs'
    cases hs'
    rw [hcell, if_neg hlive]
    simp only [cell, ht, Option.bind_some, Cell.reQty, if_true]
    rw [Vector.getElem?_set_self hi]
  · obtain ⟨s', t, hs', ht, hcell⟩ := cell_of_lt c ch hj'
    rw [hcell]
    simp only [cell, ht]
    rw [Vector.getElem?_set_ne hi hij, hs']
    by_cases hq : s'.qty = 0
    · simp [hq]
    · have hne : ¬ mkLoc c j = mkLoc c i := by
        rw [mkLoc_eq hc (h8 j hj'), mkLoc_eq hc (h8 i hi)]
        omega
      simp [hq, Cell.reQty, hne]

/-- The cells after an order was appended at the tail. -/
theorem cells_append {ch : Chunk} (hroom : ch.tail < CHUNK_SLOTS) {id : OrderId} {qty : Qty}
    (tif : Tif) (hq : qty ≠ 0) :
    ∃ ch1 ch2, ch.setSlot ch.tail ⟨id, qty⟩ = some ch1 ∧ ch1.setTif ch.tail tif = some ch2 ∧
      ch2 = { ch with s := ch2.s, tif := ch2.tif } ∧
      (∀ i, i ≠ ch.tail → ch2.s[i]? = ch.s[i]?) ∧
      ∀ c n, Chunk.cells c { ch2 with tail := ch.tail + 1, live := n } =
        ch.cells c ++ [⟨mkLoc c ch.tail, id, qty, tif⟩] := by
  have h8 : ch.tail < 8 := Nat.lt_trans hroom (by decide)
  refine ⟨_, _, dif_pos hroom, dif_pos h8, rfl, ?_, ?_⟩
  · intro i hi
    exact Vector.getElem?_set_ne hroom (Ne.symm hi)
  intro c n
  rw [cells, cells, List.range_succ, List.filterMap_append]
  congr 1
  · apply List.filterMap_congr
    intro i hi
    have hne : ch.tail ≠ i := Nat.ne_of_gt (List.mem_range.mp hi)
    simp only [cell]
    rw [Vector.getElem?_set_ne hroom hne, Vector.getElem?_set_ne h8 hne]
  · simp [cell, hq, Vector.getElem?_set_self]

/-- No slot is live. -/
def Blank (ch : Chunk) : Prop := ∀ (i : Nat) (s : Slot), ch.s[i]? = some s → s.qty = 0

theorem blank_default : Blank {} := by
  intro i s hs
  obtain ⟨hi, rfl⟩ := Vector.getElem?_eq_some_iff.mp hs
  simp

end Chunk

/-! ## The layout invariant -/

namespace Store

/-- The `(prev, next)` links of chunk `c`. -/
def node (st : Store) (c : Nat) : Option (Nat × Nat) :=
  (st.chunks[c]?).map fun ch => (ch.prev, ch.next)

def nextOf (st : Store) (c : Nat) : Option Nat := (st.chunks[c]?).map Chunk.next

def liveAt (st : Store) (c : Nat) : Nat := ((st.chunks[c]?).map Chunk.live).getD 0

def cellsAt (st : Store) (c : Nat) : List Cell := ((st.chunks[c]?).map (Chunk.cells c)).getD []

/-- The live orders of a chunk list, in list order. -/
def queue (st : Store) (cs : List Nat) : List Cell := cs.flatMap st.cellsAt

/-- A chunk header that tells the truth about its slots. -/
structure ChunkOk (ch : Chunk) (label : Side × Price) : Prop where
  side : ch.side = label.1
  price : ch.price = label.2
  head_le : ch.head ≤ ch.tail
  tail_le : ch.tail ≤ CHUNK_SLOTS
  dead : ∀ (i : Nat) (s : Slot), i < ch.head → ch.s[i]? = some s → s.qty = 0
  spare : ∀ (i : Nat) (s : Slot), ch.tail ≤ i → ch.s[i]? = some s → s.qty = 0
  live : ch.live = (ch.cells 0).length

theorem ChunkOk.live_le {ch : Chunk} {label : Side × Price} (h : ChunkOk ch label) :
    ch.live ≤ ch.tail := by
  rw [h.live]
  simpa [Chunk.cells] using List.length_filterMap_le (Chunk.cell 0 ch) (List.range ch.tail)

/-- Without live orders there is no live slot. -/
theorem ChunkOk.blank {ch : Chunk} {label : Side × Price} (h : ChunkOk ch label)
    (hlive : ch.live = 0) : ch.Blank := by
  intro i s hs
  by_cases hi : i < ch.tail
  · obtain ⟨s', t, hs', _, hcell⟩ := Chunk.cell_of_lt 0 ch (lt_of_lt_of_le hi h.tail_le)
    cases hs.symm.trans hs'
    have hnil : ch.cells 0 = [] := List.eq_nil_of_length_eq_zero (h.live.symm.trans hlive)
    have hnone := List.filterMap_eq_nil_iff.mp hnil i (List.mem_range.mpr hi)
    by_contra hq
    rw [hcell, if_neg hq] at hnone
    cases hnone
  · exact h.spare i s (Nat.le_of_not_lt hi) hs

/-- Where the chunks are: each level's list and the free list. -/
structure Layout (κ : Type*) where
  chain : κ → List Nat
  free : List Nat

/-- The layout invariant of a store and the levels that share it. -/
structure Lay {κ : Type*} (label : κ → Side × Price) (st : Store) (lv : κ → Level)
    (L : Layout κ) : Prop where
  head : ∀ k, (lv k).head = (L.chain k).headD NIL
  tail : ∀ k, (lv k).tail = (L.chain k).getLastD NIL
  linked : ∀ k, Seg st.node NIL (L.chain k) NIL
  chunk_ok : ∀ k, ∀ c ∈ L.chain k, ∃ ch, st.chunks[c]? = some ch ∧ ChunkOk ch (label k)
  nodup : ∀ k, (L.chain k).Nodup
  disjoint : ∀ k k' c, c ∈ L.chain k → c ∈ L.chain k' → k = k'
  free_head : st.freeChunk = L.free.headD NIL
  free_path : Path st.nextOf L.free NIL
  free_live : ∀ c ∈ L.free, st.liveAt c = 0
  free_nodup : L.free.Nodup
  free_disjoint : ∀ k c, c ∈ L.chain k → c ∉ L.free
  blank : ∀ (c : Nat) (ch : Chunk), (∀ k, c ∉ L.chain k) → st.chunks[c]? = some ch → ch.Blank
  cover : ∀ c, c < st.used ↔ c ∈ L.free ∨ ∃ k, c ∈ L.chain k
  used_le : st.used ≤ st.chunks.size
  used_bound : st.used ≤ 2 ^ 29
  live_sum : st.live = ∑ c ∈ Finset.range st.used, st.liveAt c

/-- `push` to the level `l` finds a chunk among the first 2^29: the level's tail
chunk has a slot left, or a chunk is free, or not all of them are in use. -/
def Room (st : Store) (l : Level) : Prop :=
  st.usedUp l.tail = some true → st.freeChunk = NIL → st.used < 2 ^ 29

/-- Every linked chunk holds a live order. -/
def Busy {κ : Type*} (st : Store) (L : Layout κ) : Prop := ∀ k, ∀ c ∈ L.chain k, 0 < st.liveAt c

section Reads

variable {st : Store} {c : Nat} {ch : Chunk}

theorem liveAt_of (h : st.chunks[c]? = some ch) : st.liveAt c = ch.live := by simp [liveAt, h]

theorem cellsAt_of (h : st.chunks[c]? = some ch) : st.cellsAt c = ch.cells c := by
  simp [cellsAt, h]

theorem node_of (h : st.chunks[c]? = some ch) : st.node c = some (ch.prev, ch.next) := by
  simp [node, h]

theorem nextOf_of (h : st.chunks[c]? = some ch) : st.nextOf c = some ch.next := by
  simp [nextOf, h]

theorem updChunk_of_lt (f : Chunk → Chunk) (h : c < st.chunks.size) :
    st.updChunk c f = some { st with chunks := st.chunks.modify c f } := by
  rw [updChunk, modify?_of_lt f h, Option.map_some]

end Reads

/-- Overwrite chunk `c`. -/
def withChunk (st : Store) (c : Nat) (ch : Chunk) : Store :=
  { st with chunks := st.chunks.modify c fun _ => ch }

section WithChunk

variable {st : Store} {c : Nat} {ch ch' : Chunk}

theorem withChunk_self (hc : st.chunks[c]? = some ch) :
    (st.withChunk c ch').chunks[c]? = some ch' := by
  simp [withChunk, Array.getElem?_modify, hc]

theorem withChunk_ne {x : Nat} (hne : x ≠ c) : (st.withChunk c ch').chunks[x]? = st.chunks[x]? := by
  simp [withChunk, Array.getElem?_modify, Ne.symm hne]

@[simp] theorem withChunk_size : (st.withChunk c ch').chunks.size = st.chunks.size := by
  simp [withChunk]

@[simp] theorem withChunk_used : (st.withChunk c ch').used = st.used := rfl
@[simp] theorem withChunk_free : (st.withChunk c ch').freeChunk = st.freeChunk := rfl
@[simp] theorem withChunk_live : (st.withChunk c ch').live = st.live := rfl

theorem modify_const_twice (a : Array Chunk) (c : Nat) (ch ch' : Chunk) :
    (a.modify c fun _ => ch).modify c (fun _ => ch') = a.modify c fun _ => ch' := by
  apply Array.ext_getElem?
  intro j
  simp only [Array.getElem?_modify]
  split
  · rw [Option.map_map]
    rfl
  · rfl

theorem withChunk_idem (st : Store) (c : Nat) (ch ch' : Chunk) :
    (st.withChunk c ch).withChunk c ch' = st.withChunk c ch' :=
  congrArg (fun chunks => { st with chunks }) (modify_const_twice st.chunks c ch ch')

/-- Updating a chunk is overwriting it by its new value. -/
theorem updChunk_eq (f : Chunk → Chunk) (hc : st.chunks[c]? = some ch) :
    st.updChunk c f = some (st.withChunk c (f ch)) := by
  rw [updChunk_of_lt f (lt_size_of_getElem? hc), withChunk]
  congr 2
  apply Array.ext_getElem?
  intro j
  rw [Array.getElem?_modify, Array.getElem?_modify]
  split
  · next h => rw [← h, hc, Option.map_some, Option.map_some]
  · rfl

/-- A dead slot is counted out of the store and out of its chunk. -/
theorem retire_eq {loc : Nat} (hc : st.chunks[c]? = some ch) (hloc : locChunk loc = c) (l : Level) :
    st.retire l loc =
      if decr 8 ch.live = 0 then
        ({ st with live := decr 64 st.live }.withChunk c
          { ch with live := decr 8 ch.live }).dropChunk l c
      else
        some ({ st with live := decr 64 st.live }.withChunk c { ch with live := decr 8 ch.live },
          l) := by
  generalize hst0 : { st with live := decr 64 st.live } = st0
  have hc0 : st0.chunks[c]? = some ch := by
    rw [← hst0]
    exact hc
  have hupd := updChunk_eq (fun ch => { ch with live := decr 8 ch.live }) hc0
  have hself : (st0.withChunk c { ch with live := decr 8 ch.live }).chunks[c]? =
      some { ch with live := decr 8 ch.live } :=
    withChunk_self hc0
  rw [retire, hst0, hloc]
  rw [hupd, Option.bind_eq_bind, Option.bind_some, chunk, hloc, hself, Option.bind_eq_bind,
    Option.bind_some]
  rfl

end WithChunk

section Lay

variable {κ : Type*} {label : κ → Side × Price} {st : Store} {lv : κ → Level} {L : Layout κ}

/-- Levels count only through their ends. -/
theorem Lay.congr_level (h : Lay label st lv L) {lv' : κ → Level}
    (hhead : ∀ k, (lv' k).head = (lv k).head) (htail : ∀ k, (lv' k).tail = (lv k).tail) :
    Lay label st lv' L :=
  { h with head := fun k => (hhead k).trans (h.head k), tail := fun k =>
    (htail k).trans (h.tail k) }

theorem Lay.lt_used (h : Lay label st lv L) {k : κ} {c : Nat} (hc : c ∈ L.chain k) : c < st.used :=
  (h.cover c).mpr (Or.inr ⟨k, hc⟩)

theorem Lay.lt_bound (h : Lay label st lv L) {k : κ} {c : Nat} (hc : c ∈ L.chain k) : c < 2 ^ 29 :=
  lt_of_lt_of_le (h.lt_used hc) h.used_bound

theorem Lay.ne_nil (h : Lay label st lv L) {k : κ} {c : Nat} (hc : c ∈ L.chain k) : c ≠ NIL := by
  have := h.lt_bound hc
  unfold NIL
  omega

/-- A level is empty exactly when it has no chunks. -/
theorem Lay.empty_iff (h : Lay label st lv L) (k : κ) : (lv k).empty = true ↔ L.chain k = [] := by
  unfold Level.empty
  rw [beq_iff_eq, h.head k]
  cases hk : L.chain k with
  | nil => simp
  | cons c cs =>
    have : c ≠ NIL := h.ne_nil (k := k) (by simp [hk])
    simpa using this

/-- Change a linked chunk's slots, cursors and counter, but none of its links. -/
theorem Lay.touch (h : Lay label st lv L) (ch' : Chunk) (n : Nat) {k : κ} {c : Nat} {ch : Chunk}
    (hc : c ∈ L.chain k) (hch : st.chunks[c]? = some ch) (hprev : ch'.prev = ch.prev)
    (hnext : ch'.next = ch.next) (hok : ChunkOk ch' (label k))
    (hlive : n + ch.live = st.live + ch'.live) :
    Lay label { st.withChunk c ch' with live := n } lv L := by
  have hread : ∀ x, x ≠ c → { st.withChunk c ch' with live := n }.chunks[x]? = st.chunks[x]? :=
    fun x hx => withChunk_ne hx
  have hself : { st.withChunk c ch' with live := n }.chunks[c]? = some ch' := withChunk_self hch
  have hnode : ∀ x, { st.withChunk c ch' with live := n }.node x = st.node x := by
    intro x
    by_cases hx : x = c
    · rw [hx, node_of hself, node_of hch, hprev, hnext]
    · rw [node, node, hread x hx]
  refine { h with linked := ?_, chunk_ok := ?_, free_path := ?_, free_live := ?_, blank := ?_,
                  used_le := ?_, live_sum := ?_ }
  · exact fun k => (h.linked k).congr fun x _ => hnode x
  · intro k' x hx
    by_cases hxc : x = c
    · rw [hxc]
      rw [h.disjoint k' k c (hxc ▸ hx) hc]
      exact ⟨ch', hself, hok⟩
    · rw [hread x hxc]
      exact h.chunk_ok k' x hx
  · refine h.free_path.congr fun x hx => ?_
    have hxc : x ≠ c := by rintro rfl; exact h.free_disjoint k x hc hx
    rw [nextOf, nextOf, hread x hxc]
  · intro x hx
    have hxc : x ≠ c := by rintro rfl; exact h.free_disjoint k x hc hx
    rw [liveAt, hread x hxc]
    exact h.free_live x hx
  · intro x chx hx hchx
    have hxc : x ≠ c := by rintro rfl; exact hx k hc
    exact h.blank x chx hx (hread x hxc ▸ hchx)
  · simpa using h.used_le
  -- only the summand of `c` has changed
  · have hsum := sum_range_update (n := st.used) (f := st.liveAt)
      (g := { st.withChunk c ch' with live := n }.liveAt) (h.lt_used hc) fun x hx => by
        rw [liveAt, liveAt, hread x hx]
    rw [liveAt_of hself, liveAt_of hch] at hsum
    have := h.live_sum
    show n = ∑ x ∈ Finset.range st.used, _
    omega

end Lay

/-! ## Releasing a chunk -/

/-- `st'` differs from `st` in chunk contents only. -/
structure SameFrame (st st' : Store) : Prop where
  size : st'.chunks.size = st.chunks.size
  used : st'.used = st.used
  live : st'.live = st.live
  capacity : st'.capacity = st.capacity

theorem SameFrame.refl (st : Store) : SameFrame st st := ⟨rfl, rfl, rfl, rfl⟩

theorem SameFrame.trans {st st' st'' : Store} (h : SameFrame st st') (h' : SameFrame st' st'') :
    SameFrame st st'' :=
  ⟨h'.size.trans h.size, h'.used.trans h.used, h'.live.trans h.live, h'.capacity.trans h.capacity⟩

/-- Chunk `x` keeps everything but its links. -/
def Relinked (st st' : Store) (x : Nat) : Prop :=
  ∃ next prev : Chunk → Nat,
    st'.chunks[x]? = (st.chunks[x]?).map fun y => { y with next := next y, prev := prev y }

section Relinked

variable {st st' : Store} {x : Nat}

theorem Relinked.cells_eq (h : Relinked st st' x) : st'.cellsAt x = st.cellsAt x := by
  obtain ⟨next, prev, hread⟩ := h
  rw [cellsAt, cellsAt, hread, Option.map_map]
  congr 2

theorem Relinked.live_eq (h : Relinked st st' x) : st'.liveAt x = st.liveAt x := by
  obtain ⟨next, prev, hread⟩ := h
  rw [liveAt, liveAt, hread, Option.map_map]
  rfl

theorem Relinked.chunk_ok (h : Relinked st st' x) {lab : Side × Price}
    (hok : ∃ ch, st.chunks[x]? = some ch ∧ ChunkOk ch lab) : ∃ ch, st'.chunks[x]? = some ch ∧
    ChunkOk ch lab := by
  obtain ⟨next, prev, hread⟩ := h
  obtain ⟨ch, hch, hok⟩ := hok
  rw [hread, hch]
  exact ⟨_, rfl, hok.side, hok.price, hok.head_le, hok.tail_le, hok.dead, hok.spare, hok.live⟩

theorem Relinked.blank (h : Relinked st st' x) (hblank : ∀ ch, st.chunks[x]? = some ch → ch.Blank)
    {ch : Chunk} (hch : st'.chunks[x]? = some ch) : ch.Blank := by
  obtain ⟨next, prev, hread⟩ := h
  rw [hread] at hch
  obtain ⟨ch0, hch0, rfl⟩ := Option.map_eq_some_iff.mp hch
  exact hblank ch0 hch0

end Relinked

theorem linkNext_spec (st : Store) (l : Level) (o : Option Nat) (n : Nat)
    (hne : ∀ x, o = some x → x ≠ NIL ∧ x < st.chunks.size) :
    ∃ st', st.linkNext l (o.getD NIL) n = some (st', if o = none then { l with head := n } else l) ∧
      (∀ x : Nat, st'.chunks[x]? = (st.chunks[x]?).map fun y : Chunk =>
        { y with next := if o = some x then n else y.next }) ∧
      SameFrame st st' ∧ st'.freeChunk = st.freeChunk := by
  cases o with
  | none => exact ⟨st, by simp [linkNext], by simp, .refl st, rfl⟩
  | some a =>
    obtain ⟨hnil, hlt⟩ := hne a rfl
    refine ⟨{ st with chunks := st.chunks.modify a fun p => { p with next := n } }, ?_, ?_,
      ⟨by simp, rfl, rfl, rfl⟩, rfl⟩
    · simp [linkNext, hnil, updChunk_of_lt _ hlt]
    · intro x
      by_cases hax : a = x <;> simp [Array.getElem?_modify, hax]

theorem linkPrev_spec (st : Store) (l : Level) (o : Option Nat) (p : Nat)
    (hne : ∀ x, o = some x → x ≠ NIL ∧ x < st.chunks.size) :
    ∃ st', st.linkPrev l p (o.getD NIL) = some (st', if o = none then { l with tail := p } else l) ∧
      (∀ x : Nat, st'.chunks[x]? = (st.chunks[x]?).map fun y : Chunk =>
        { y with prev := if o = some x then p else y.prev }) ∧
      SameFrame st st' ∧ st'.freeChunk = st.freeChunk := by
  cases o with
  | none => exact ⟨st, by simp [linkPrev], by simp, .refl st, rfl⟩
  | some a =>
    obtain ⟨hnil, hlt⟩ := hne a rfl
    refine ⟨{ st with chunks := st.chunks.modify a fun n => { n with prev := p } }, ?_, ?_,
      ⟨by simp, rfl, rfl, rfl⟩, rfl⟩
    · simp [linkPrev, hnil, updChunk_of_lt _ hlt]
    · intro x
      by_cases hax : a = x <;> simp [Array.getElem?_modify, hax]

/-- What `drop_chunk` does to the memory: the neighbours of `c` are linked to
each other, `c` goes to the head of the free list. -/
theorem dropChunk_run {st : Store} {l : Level} {c : Nat} {ch : Chunk} {prev next : Option Nat}
    (hch : st.chunks[c]? = some ch) (hprev : ch.prev = prev.getD NIL)
    (hnext : ch.next = next.getD NIL)
    (hgood : ∀ x, prev = some x ∨ next = some x → x ≠ NIL ∧ x ≠ c ∧ x < st.chunks.size) :
    ∃ st' l', st.dropChunk l c = some (st', l') ∧
      l' = ⟨if prev = none then ch.next else l.head, if next = none then ch.prev else l.tail,
        l.total⟩ ∧
      (∀ x : Nat, x ≠ c → st'.chunks[x]? = (st.chunks[x]?).map fun y : Chunk =>
        { y with next := if prev = some x then ch.next else y.next
                 prev := if next = some x then ch.prev else y.prev }) ∧
      st'.chunks[c]? = some { ch with next := st.freeChunk } ∧
      st'.freeChunk = c ∧ SameFrame st st' := by
  obtain ⟨st1, hrun1, hread1, hframe1, hfree1⟩ := linkNext_spec st l prev ch.next fun x hx =>
    ⟨(hgood x (.inl hx)).1, (hgood x (.inl hx)).2.2⟩
  obtain ⟨l1, hl1⟩ : ∃ l1, l1 = if prev = none then { l with head := ch.next } else l := ⟨_, rfl⟩
  obtain ⟨st2, hrun2, hread2, hframe2, hfree2⟩ := linkPrev_spec st1 l1 next ch.prev fun x hx => by
    rw [hframe1.size]
    exact ⟨(hgood x (.inr hx)).1, (hgood x (.inr hx)).2.2⟩
  have hread : ∀ x : Nat, st2.chunks[x]? = (st.chunks[x]?).map fun y : Chunk =>
      { y with next := if prev = some x then ch.next else y.next
               prev := if next = some x then ch.prev else y.prev } := by
    intro x
    rw [hread2, hread1, Option.map_map]
    rfl
  -- `c` is not its own neighbour, so it still reads as before
  have hc1 : prev ≠ some c := fun hx => (hgood c (.inl hx)).2.1 rfl
  have hc2 : next ≠ some c := fun hx => (hgood c (.inr hx)).2.1 rfl
  have hreadc : st2.chunks[c]? = some ch := by
    rw [hread, hch, Option.map_some, if_neg hc1, if_neg hc2]
  have hframe := hframe1.trans hframe2
  have hl2 : (if next = none then { l1 with tail := ch.prev } else l1) =
      ⟨if prev = none then ch.next else l.head, if next = none then ch.prev else l.tail,
        l.total⟩ := by
    rw [hl1]
    by_cases h1 : prev = none <;> by_cases h2 : next = none <;> simp [h1, h2]
  refine ⟨{ st2.withChunk c { ch with next := st.freeChunk } with freeChunk := c }, _, ?_, rfl,
    fun x hx => (withChunk_ne hx).trans (hread x), withChunk_self hreadc, rfl,
    ⟨by simpa using hframe.size, hframe.used, hframe.live, hframe.capacity⟩⟩
  rw [← hprev, ← hl1] at hrun1
  rw [← hnext, hl2] at hrun2
  simp only [Store.dropChunk, hch, Option.bind_eq_bind, Option.bind_some, hrun1, hrun2,
    updChunk_eq _ hreadc, hfree2, hfree1]
  rfl

section Drop

variable {κ : Type*} {label : κ → Side × Price} {st : Store} {lv : κ → Level} {L : Layout κ}

/-- Taking a chunk list apart at one of its chunks. -/
theorem Lay.split (h : Lay label st lv L) {k : κ} {c : Nat} (hc : c ∈ L.chain k) :
    ∃ ls rs ch, L.chain k = ls ++ c :: rs ∧ c ∉ ls ++ rs ∧ (∀ x ∈ ls ++ rs, x ∈ L.chain k) ∧
      st.chunks[c]? = some ch ∧ ChunkOk ch (label k) ∧
      ch.prev = ls.getLast?.getD NIL ∧ ch.next = rs.head?.getD NIL := by
  obtain ⟨ls, rs, hsplit⟩ := List.append_of_mem hc
  have hnd := h.nodup k
  have hlinks := h.linked k
  rw [hsplit] at hnd hlinks
  obtain ⟨ch, hch, hok⟩ := h.chunk_ok k c hc
  have hnode := hlinks.at
  rw [node_of hch, Option.some.injEq, Prod.mk.injEq, List.getLastD_eq_getLast?,
    List.headD_eq_head?_getD] at hnode
  refine ⟨ls, rs, ch, hsplit, ?_, ?_, hch, hok, hnode.1, hnode.2⟩
  · exact (List.nodup_cons.mp (List.nodup_middle.mp hnd)).1
  · intro x hx
    rw [hsplit]
    simp only [List.mem_append, List.mem_cons] at hx ⊢
    grind

/-- The chunks of the levels other than `k`. -/
def Layout.others (L : Layout κ) (k : κ) (x : Nat) : Prop := ∃ k', k' ≠ k ∧ x ∈ L.chain k'

theorem Layout.mem_others (L : Layout κ) {k : κ} {x : Nat} :
    (∃ k', x ∈ L.chain k') ↔ x ∈ L.chain k ∨ L.others k x := by
  constructor
  · rintro ⟨k', hx⟩
    by_cases hk : k' = k
    · exact Or.inl (hk ▸ hx)
    · exact Or.inr ⟨k', hk, hx⟩
  · rintro (hx | ⟨k', _, hx⟩)
    · exact ⟨k, hx⟩
    · exact ⟨k', hx⟩

/-- In `st'` one level has the chunks `cs` and the free list has the chunks `free`, while
the chunks of the `others` keep their links and their slots. -/
structure Rechained (lab : Side × Price) (st st' : Store) (others : Nat → Prop) (l : Level)
    (cs free : List Nat) :
    Prop where
  head : l.head = cs.headD NIL
  tail : l.tail = cs.getLastD NIL
  linked : Seg st'.node NIL cs NIL
  chunk_ok : ∀ x ∈ cs, ∃ ch, st'.chunks[x]? = some ch ∧ ChunkOk ch lab
  nodup : cs.Nodup
  far_node : ∀ x, others x → st'.node x = st.node x
  far_chunk : ∀ x, others x → Relinked st st' x
  far : ∀ x, others x → x ∉ cs
  free_head : st'.freeChunk = free.headD NIL
  free_path : Path st'.nextOf free NIL
  free_live : ∀ x ∈ free, st'.liveAt x = 0
  free_nodup : free.Nodup
  free_disjoint : ∀ x, x ∈ cs ∨ others x → x ∉ free
  blank : ∀ (x : Nat) (ch : Chunk), x ∉ cs → ¬ others x → st'.chunks[x]? = some ch → ch.Blank
  cover : ∀ x, x < st'.used ↔ x ∈ free ∨ x ∈ cs ∨ others x
  used_le : st'.used ≤ st'.chunks.size
  used_bound : st'.used ≤ 2 ^ 29
  live_sum : st'.live = ∑ x ∈ Finset.range st'.used, st'.liveAt x

variable [DecidableEq κ]

theorem mem_update_chain {k k' : κ} {cs : List Nat} {x : Nat} :
    x ∈ Function.update L.chain k cs k' ↔ (k' = k ∧ x ∈ cs) ∨ (k' ≠ k ∧ x ∈ L.chain k') := by
  by_cases hk : k' = k
  · simp [hk]
  · simp [hk]

/-- A level with its chunks and the free list are exchanged; the other levels stay. -/
theorem Lay.rechain (h : Lay label st lv L) {k : κ} {st' : Store} {l : Level} {cs free : List Nat}
    (hr : Rechained (label k) st st' (L.others k) l cs free) :
    Lay label st' (Function.update lv k l) ⟨Function.update L.chain k cs, free⟩ where
  head := by
    intro k'
    by_cases hk : k' = k
    · simp only [hk, Function.update_self, hr.head]
    · simp only [Function.update_of_ne hk, h.head k']
  tail := by
    intro k'
    by_cases hk : k' = k
    · simp only [hk, Function.update_self, hr.tail]
    · simp only [Function.update_of_ne hk, h.tail k']
  linked := by
    intro k'
    by_cases hk : k' = k
    · simp only [hk, Function.update_self]
      exact hr.linked
    · simp only [Function.update_of_ne hk]
      exact (h.linked k').congr fun x hx => hr.far_node x ⟨k', hk, hx⟩
  chunk_ok := by
    intro k' x hx
    rcases mem_update_chain.mp hx with ⟨rfl, hcs⟩ | ⟨hk, hx⟩
    · exact hr.chunk_ok x hcs
    · exact (hr.far_chunk x ⟨k', hk, hx⟩).chunk_ok (h.chunk_ok k' x hx)
  nodup := by
    intro k'
    by_cases hk : k' = k
    · simp only [hk, Function.update_self]
      exact hr.nodup
    · simp only [Function.update_of_ne hk]
      exact h.nodup k'
  disjoint := by
    intro k1 k2 x hx1 hx2
    rcases mem_update_chain.mp hx1 with ⟨rfl, h1⟩ | ⟨hk1, h1⟩ <;>
      rcases mem_update_chain.mp hx2 with ⟨rfl, h2⟩ | ⟨hk2, h2⟩
    · rfl
    · exact absurd h1 (hr.far x ⟨k2, hk2, h2⟩)
    · exact absurd h2 (hr.far x ⟨k1, hk1, h1⟩)
    · exact h.disjoint k1 k2 x h1 h2
  free_head := hr.free_head
  free_path := hr.free_path
  free_live := hr.free_live
  free_nodup := hr.free_nodup
  free_disjoint := by
    intro k' x hx
    rcases mem_update_chain.mp hx with ⟨rfl, hcs⟩ | ⟨hk, hx⟩
    · exact hr.free_disjoint x (Or.inl hcs)
    · exact hr.free_disjoint x (Or.inr ⟨k', hk, hx⟩)
  blank := by
    intro x ch hx
    refine hr.blank x ch (fun hcs => hx k (mem_update_chain.mpr (Or.inl ⟨rfl, hcs⟩))) ?_
    rintro ⟨k', hother⟩
    exact hx k' (mem_update_chain.mpr (Or.inr hother))
  -- the chains of the other levels are the ones they were
  cover := by
    intro x
    have hchain : (∃ k', x ∈ Function.update L.chain k cs k') ↔ x ∈ cs ∨ L.others k x := by
      constructor
      · rintro ⟨k', hx⟩
        exact (mem_update_chain.mp hx).imp And.right fun hx => ⟨k', hx⟩
      · rintro (hx | ⟨k', hx⟩)
        · exact ⟨k, mem_update_chain.mpr (Or.inl ⟨rfl, hx⟩)⟩
        · exact ⟨k', mem_update_chain.mpr (Or.inr hx)⟩
    exact (hr.cover x).trans (or_congr_right hchain.symm)
  used_le := hr.used_le
  used_bound := hr.used_bound
  live_sum := hr.live_sum

/-- `drop_chunk` takes a dead chunk out of its level and puts it on the free
list; no cell changes. -/
theorem Lay.dropChunk (h : Lay label st lv L) {k : κ} {c : Nat} (hc : c ∈ L.chain k)
    (hdead : st.liveAt c = 0) {l : Level} (hhead : l.head = (lv k).head)
    (htail : l.tail = (lv k).tail) :
    ∃ st' l' cs, st.dropChunk l c = some (st', l') ∧ l'.total = l.total ∧
      Lay label st' (Function.update lv k l') ⟨Function.update L.chain k cs, c :: L.free⟩ ∧
      (∀ x, x ∈ cs ↔ x ∈ L.chain k ∧ x ≠ c) ∧ st.queue cs = st.queue (L.chain k) ∧
      (∀ x, st'.cellsAt x = st.cellsAt x) ∧ (∀ x, st'.liveAt x = st.liveAt x) ∧
      SameFrame st st' := by
  obtain ⟨ls, rs, ch, hsplit, hnc, hsub, hch, hok, hprev, hnext⟩ := h.split hc
  have hls : ∀ x, ls.getLast? = some x → x ∈ ls ++ rs := fun x hx => by
    simp [List.mem_of_getLast? hx]
  have hrs : ∀ x, rs.head? = some x → x ∈ ls ++ rs := fun x hx => by
    simp [List.mem_of_mem_head? hx]
  have hmem : ∀ x, x ∈ ls ++ rs ↔ x ∈ L.chain k ∧ x ≠ c := by
    intro x
    constructor
    · intro hx
      exact ⟨hsub x hx, by rintro rfl; exact hnc hx⟩
    · rintro ⟨hx, hne⟩
      rw [hsplit] at hx
      simp only [List.mem_append, List.mem_cons] at hx ⊢
      grind
  obtain ⟨st', l', hrun, hl', hread, hself, hfree, hframe⟩ :=
    dropChunk_run (l := l) hch hprev hnext fun x hx => by
      have hx' : x ∈ ls ++ rs := hx.elim (hls x) (hrs x)
      exact ⟨h.ne_nil (hsub x hx'), ((hmem x).mp hx').2,
        lt_of_lt_of_le (h.lt_used (hsub x hx')) h.used_le⟩
  have hrelinked : ∀ x, Relinked st st' x := by
    intro x
    by_cases hx : x = c
    · rw [hx]
      exact ⟨fun _ => st.freeChunk, Chunk.prev, by rw [hself, hch, Option.map_some]⟩
    · exact ⟨_, _, hread x hx⟩
  have hqueue : st.queue (ls ++ rs) = st.queue (L.chain k) := by
    have hnil : st.cellsAt c = [] := by
      rw [cellsAt_of hch, ← List.length_eq_zero_iff, Chunk.length_cells c 0, ← hok.live,
        ← liveAt_of hch]
      exact hdead
    rw [hsplit]
    simp [queue, hnil]
  -- at most one link of a chunk other than `c` has changed
  have hnode : ∀ x, x ≠ c → st'.node x = (st.node x).map fun n =>
      (if rs.head? = some x then ch.prev else n.1,
        if ls.getLast? = some x then ch.next else n.2) := by
    intro x hx
    rw [node, node, hread x hx, Option.map_map, Option.map_map]
    rfl
  have hnotmem : ∀ x, x ∉ L.chain k → ls.getLast? ≠ some x ∧ rs.head? ≠ some x := fun x hx =>
    ⟨fun hl => hx (hsub x (hls x hl)), fun hr => hx (hsub x (hrs x hr))⟩
  have hnd := h.nodup k
  have hlinks := h.linked k
  have hhead' := h.head k
  have htail' := h.tail k
  rw [hsplit] at hnd hlinks hhead' htail'
  have hlinked : Seg st'.node NIL (ls ++ rs) NIL := by
    refine hlinks.unlink hnd ?_ ?_ ?_
    · intro a ha
      have hanr : rs.head? ≠ some a := fun hr => by
        have h1 := List.mem_of_getLast? ha
        have h2 := List.mem_of_mem_head? (show a ∈ rs.head? from hr)
        exact (List.nodup_append.mp hnd).2.2 a h1 a (by simp [h2]) rfl
      rw [hnode a ((hmem a).mp (hls a ha)).2]
      simp only [if_neg hanr, if_pos ha, hnext, List.headD_eq_head?_getD]
    · intro b hb
      have hbnl : ls.getLast? ≠ some b := fun hl => by
        have h1 := List.mem_of_getLast? hl
        have h2 := List.mem_of_mem_head? (show b ∈ rs.head? from hb)
        exact (List.nodup_append.mp hnd).2.2 b h1 b (by simp [h2]) rfl
      rw [hnode b ((hmem b).mp (hrs b hb)).2]
      simp only [if_pos hb, if_neg hbnl, hprev, List.getLastD_eq_getLast?]
    · intro x hx h1 h2
      rw [hnode x ((hmem x).mp hx).2]
      simp [h1, h2]
  have hfar : ∀ x, L.others k x → x ∉ L.chain k := fun x hx hxk => by
    obtain ⟨k', hk, hx⟩ := hx
    exact hk (h.disjoint k' k x hx hxk)
  have hrechained : Rechained (label k) st st' (L.others k) l' (ls ++ rs) (c :: L.free) :=
    { head := by
        simp only [hl', hnext, hhead, hhead']
        rcases ls with _ | ⟨a, ls⟩
        · cases rs <;> simp
        · simp
      tail := by
        simp only [hl', hprev, htail, htail']
        rcases rs with _ | ⟨b, rs⟩
        · simp
        · simp
      linked := hlinked
      chunk_ok := fun x hx => (hrelinked x).chunk_ok (h.chunk_ok k x (hsub x hx))
      nodup := (List.nodup_cons.mp (List.nodup_middle.mp hnd)).2
      far_node := by
        intro x hx
        have hne : x ≠ c := by rintro rfl; exact hfar x hx hc
        rw [hnode x hne]
        simp [(hnotmem x (hfar x hx)).1, (hnotmem x (hfar x hx)).2]
      far_chunk := fun x _ => hrelinked x
      far := fun x hx hxk => hfar x hx (hsub x hxk)
      free_head := by simp [hfree]
      free_path := by
        refine ⟨?_, h.free_path.congr fun x hx => ?_⟩
        · rw [nextOf_of hself, h.free_head]
        · have hxk : x ∉ L.chain k := fun hxk => h.free_disjoint k x hxk hx
          have hne : x ≠ c := by rintro rfl; exact hxk hc
          rw [nextOf, nextOf, hread x hne, Option.map_map]
          congr 1
          funext y
          simp [(hnotmem x hxk).1]
      free_live := by
        intro x hx
        rw [(hrelinked x).live_eq]
        rcases List.mem_cons.mp hx with rfl | hx
        · exact hdead
        · exact h.free_live x hx
      free_nodup := List.nodup_cons.mpr ⟨h.free_disjoint k c hc, h.free_nodup⟩
      free_disjoint := by
        intro x hx hfree
        rcases List.mem_cons.mp hfree with rfl | hfree
        · exact hx.elim hnc fun hx => hfar x hx hc
        · rcases hx with hx | ⟨k', _, hx⟩
          · exact h.free_disjoint k x (hsub x hx) hfree
          · exact h.free_disjoint k' x hx hfree
      blank := by
        intro x chx hx hother hchx
        refine (hrelinked x).blank (fun ch' hch' => ?_) hchx
        by_cases hxc : x = c
        · rw [hxc, hch] at hch'
          cases hch'
          exact hok.blank ((liveAt_of hch).symm.trans hdead)
        · refine h.blank x ch' (fun k' hk' => ?_) hch'
          exact (L.mem_others.mp ⟨k', hk'⟩).elim (fun hxk => hx ((hmem x).mpr ⟨hxk, hxc⟩)) hother
      cover := by
        intro x
        have hcs := hmem x
        have hex : (∃ k', x ∈ L.chain k') ↔ x ∈ L.chain k ∨ L.others k x := L.mem_others
        rw [hframe.used, h.cover x, hex, List.mem_cons]
        grind
      used_le := by
        rw [hframe.used, hframe.size]
        exact h.used_le
      used_bound := by
        rw [hframe.used]
        exact h.used_bound
      live_sum := by
        rw [hframe.live, hframe.used, h.live_sum]
        exact Finset.sum_congr rfl fun x _ => (hrelinked x).live_eq.symm }
  exact ⟨st', l', ls ++ rs, hrun, by rw [hl'], h.rechain hrechained, hmem, hqueue,
    fun x => (hrelinked x).cells_eq, fun x => (hrelinked x).live_eq, hframe⟩

/-! ## Adding a chunk -/

/-- Chunk `n` has been handed out: no level uses it, and the free list is `free`. -/
structure Taken (st : Store) (L : Layout κ) (st' : Store) (n : Nat) (free : List Nat) : Prop where
  lt_size : n < st'.chunks.size
  read : ∀ x : Nat, x ≠ n → st'.chunks[x]? = st.chunks[x]?
  fresh : ∀ k, n ∉ L.chain k
  blank : ∀ ch, st'.chunks[n]? = some ch → ch.Blank
  mem_free : ∀ x, x ∈ n :: free ↔ x ∈ L.free ∨ x = n
  nodup : (n :: free).Nodup
  free_head : st'.freeChunk = free.headD NIL
  free_path : Path st.nextOf free NIL
  lt_used : ∀ x, x < st'.used ↔ x < st.used ∨ x = n
  used_le : st'.used ≤ st'.chunks.size
  used_bound : st'.used ≤ 2 ^ 29
  live : st'.live = st.live
  live_sum : ∀ g : Nat → Nat, g n = 0 → (∀ x, x ≠ n → g x = st.liveAt x) →
    st.live = ∑ x ∈ Finset.range st'.used, g x

omit [DecidableEq κ] in
/-- With no chunk to recycle, the next one is fresh. -/
theorem Lay.takeChunk_fresh (h : Lay label st lv L) (hf : L.free = []) (hroom : st.used < 2 ^ 29) :
    ∃ st', st.takeChunk = some (st', st.used) ∧ Taken st L st' st.used [] := by
  have hnil : st.freeChunk = NIL := by rw [h.free_head, hf]; rfl
  have hincr : incr 32 st.used = st.used + 1 := incr_of_lt (by omega)
  have hle := h.used_le
  -- the new chunk adds nothing to the count of live slots
  have hsum : ∀ g : Nat → Nat, g st.used = 0 → (∀ x, x ≠ st.used → g x = st.liveAt x) →
      st.live = ∑ x ∈ Finset.range (st.used + 1), g x := by
    intro g hg0 hg
    rw [Finset.sum_range_succ, hg0, h.live_sum]
    exact Finset.sum_congr rfl fun x hx => (hg x (Finset.mem_range.mp hx).ne).symm
  -- the chunk was prefaulted, or is pushed now
  obtain ⟨chunks, hchunks⟩ : ∃ chunks,
      chunks = if st.used = st.chunks.size then st.chunks.push {} else st.chunks := ⟨_, rfl⟩
  have hsize : st.used < chunks.size := by
    rw [hchunks]
    split
    · next hfull => simp [hfull]
    · next hfull => exact lt_of_le_of_ne hle hfull
  have hfresh : ∀ k, st.used ∉ L.chain k := fun k hk => lt_irrefl _ (h.lt_used hk)
  refine ⟨{ st with used := st.used + 1, chunks }, ?_, ?_⟩
  · simp [takeChunk, hnil, hincr, hchunks]
  exact
    { lt_size := hsize
      read := by
        intro x hx
        show chunks[x]? = _
        rw [hchunks]
        split
        · next hfull => simp [Array.getElem?_push, hfull ▸ hx]
        · rfl
      fresh := hfresh
      blank := by
        intro ch hch
        rw [hchunks] at hch
        split at hch
        · next hfull =>
          rw [hfull, Array.getElem?_push_size, Option.some.injEq] at hch
          exact hch ▸ Chunk.blank_default
        · exact h.blank _ ch hfresh hch
      mem_free := by simp [hf]
      nodup := by simp
      free_head := hnil
      free_path := trivial
      lt_used := fun x => Nat.lt_succ_iff_lt_or_eq
      used_le := hsize
      used_bound := hroom
      live := rfl
      live_sum := hsum }

omit [DecidableEq κ] in
/-- Otherwise the head of the free list is recycled. -/
theorem Lay.takeChunk_recycled (h : Lay label st lv L) {n : Nat} {free : List Nat}
    (hf : L.free = n :: free) : ∃ st', st.takeChunk = some (st', n) ∧ Taken st L st' n free := by
  have hpath := h.free_path
  have hnd := h.free_nodup
  rw [hf] at hpath hnd
  have hused : n < st.used := (h.cover n).mpr (.inl (by simp [hf]))
  have hlt := lt_of_lt_of_le hused h.used_le
  obtain ⟨ch, hch⟩ := exists_getElem? hlt
  have hhead : st.freeChunk = n := by rw [h.free_head, hf]; rfl
  -- a used chunk is no `NIL`: the free list is not at its end
  have hne : n ≠ NIL := by
    have := lt_of_lt_of_le hused h.used_bound
    unfold NIL
    omega
  have hfresh : ∀ k, n ∉ L.chain k := fun k hk => h.free_disjoint k n hk (by simp [hf])
  refine ⟨{ st with freeChunk := ch.next }, by simp [takeChunk, hhead, hne, hch], ?_⟩
  exact
    { lt_size := hlt
      read := fun _ _ => rfl
      fresh := hfresh
      blank := fun ch => h.blank n ch hfresh
      mem_free := by
        intro x
        rw [hf]
        simp only [List.mem_cons]
        grind
      nodup := hnd
      free_head := by simpa [nextOf_of hch] using hpath.1
      free_path := hpath.2
      lt_used := fun x => ⟨Or.inl, fun hx => hx.elim id fun hx => hx ▸ hused⟩
      used_le := h.used_le
      used_bound := h.used_bound
      live := rfl
      live_sum := by
        intro g hg0 hg
        rw [h.live_sum]
        refine Finset.sum_congr rfl fun x _ => ?_
        by_cases hx : x = n
        · rw [hx, hg0]
          exact h.free_live n (by simp [hf])
        · exact (hg x hx).symm }

omit [DecidableEq κ] in
/-- `alloc_chunk` hands out a chunk and blanks its header. -/
theorem Lay.allocChunk (h : Lay label st lv L) (hroom : L.free = [] → st.used < 2 ^ 29)
    (side : Side) (price : Price) :
    ∃ (st' : Store) (n : Nat) (ch : Chunk) (free : List Nat),
      st.allocChunk side price = some (st', n) ∧ Taken st L st' n free ∧
      st'.chunks[n]? = some { ch with
        price, prev := NIL, next := NIL, head := 0, tail := 0, live := 0, side } ∧ ch.Blank := by
  obtain ⟨st1, n, free, htake, ht⟩ : ∃ st1 n free, st.takeChunk = some (st1, n) ∧
      Taken st L st1 n free := by
    rcases hf : L.free with _ | ⟨n, free⟩
    · obtain ⟨st1, hrun, ht⟩ := h.takeChunk_fresh hf (hroom hf)
      exact ⟨st1, _, _, hrun, ht⟩
    · obtain ⟨st1, hrun, ht⟩ := h.takeChunk_recycled hf
      exact ⟨st1, _, _, hrun, ht⟩
  obtain ⟨ch, hch⟩ := exists_getElem? ht.lt_size
  refine ⟨st1.withChunk n
      { ch with price, prev := NIL, next := NIL, head := 0, tail := 0, live := 0, side },
    n, ch, free, ?_, ?_, withChunk_self hch, ht.blank ch hch⟩
  · simp only [Store.allocChunk, htake, Option.bind_eq_bind, Option.bind_some, updChunk_eq _ hch]
    rfl
  · exact { ht with
      lt_size := by simpa using ht.lt_size
      read := fun x hx => (withChunk_ne hx).trans (ht.read x hx)
      blank := by
        intro ch' hch'
        cases (withChunk_self hch).symm.trans hch'
        exact ht.blank ch hch
      used_le := by simpa using ht.used_le }

/-- The branch of `push` that appends a chunk: it is empty and the level's last. -/
theorem Lay.extend (h : Lay label st lv L) (hroom : L.free = [] → st.used < 2 ^ 29) {k : κ}
    {side : Side} {price : Price} (hk : label k = (side, price)) :
    ∃ st1 st2 st' n l' L', st.allocChunk side price = some (st1, n) ∧
      st1.updChunk n (fun ch => { ch with prev := (lv k).tail }) = some st2 ∧
      st2.linkNext (lv k) (lv k).tail n = some (st', l') ∧ l'.total = (lv k).total ∧
      Lay label st' (Function.update lv k { l' with tail := n }) L' ∧
      L'.chain = Function.update L.chain k (L.chain k ++ [n]) ∧
      (∀ k, n ∉ L.chain k) ∧ (∃ ch, st'.chunks[n]? = some ch ∧ ch.tail = 0) ∧
      (∀ x, x ≠ n → st'.cellsAt x = st.cellsAt x) ∧ (∀ x, x ≠ n → st'.liveAt x = st.liveAt x) ∧
      st'.live = st.live := by
  obtain ⟨st1, n, ch0, free, halloc, ht, hn, hblank⟩ := h.allocChunk hroom side price
  have htail : (lv k).tail = (L.chain k).getLast?.getD NIL := by
    rw [h.tail k, List.getLastD_eq_getLast?]
  have hlast : ∀ x, (L.chain k).getLast? = some x → x ∈ L.chain k := fun x => List.mem_of_getLast?
  obtain ⟨chn, hchn⟩ : ∃ chn : Chunk, chn = { ch0 with
      price, prev := (lv k).tail, next := NIL, head := 0, tail := 0, live := 0, side } := ⟨_, rfl⟩
  -- behind the last chunk, or as the first one
  obtain ⟨st', hlink, hread', hframe, hfree'⟩ := linkNext_spec (st1.withChunk n chn) (lv k)
    (L.chain k).getLast? n fun x hx => by
      have hxk := hlast x hx
      refine ⟨h.ne_nil hxk, ?_⟩
      have hxn : x < st1.used := (ht.lt_used x).mpr (.inl (h.lt_used hxk))
      simpa using lt_of_lt_of_le hxn ht.used_le
  -- of the other chunks, the level's last one alone changes, and only its link
  have hread : ∀ x : Nat, x ≠ n → st'.chunks[x]? = (st.chunks[x]?).map fun y : Chunk =>
      { y with next := if (L.chain k).getLast? = some x then n else y.next } := fun x hx => by
    rw [hread', withChunk_ne hx, ht.read x hx]
  have hself : st'.chunks[n]? = some chn := by
    rw [hread', withChunk_self hn, Option.map_some, if_neg fun hl => ht.fresh k (hlast n hl)]
  have hrelinked : ∀ x, x ≠ n → Relinked st st' x := fun x hx => ⟨_, Chunk.prev, hread x hx⟩
  have hne : ∀ k' x, x ∈ L.chain k' → x ≠ n := by
    rintro k' x hx rfl
    exact ht.fresh k' hx
  have hnode : ∀ x, x ≠ n → st'.node x = (st.node x).map fun y =>
      (y.1, if (L.chain k).getLast? = some x then n else y.2) := by
    intro x hx
    rw [node, node, hread x hx, Option.map_map, Option.map_map]
    rfl
  have hok : ChunkOk chn (label k) := by
    rw [hchn, hk]
    exact ⟨rfl, rfl, le_rfl, Nat.zero_le _, fun i _ hi => absurd hi (Nat.not_lt_zero i),
      fun i s _ => hblank i s, rfl⟩
  have hnofree : n ∉ free := (List.nodup_cons.mp ht.nodup).1
  have hfreesub : ∀ x, x ∈ free → x ∈ L.free := fun x hx =>
    ((ht.mem_free x).mp (List.mem_cons_of_mem _ hx)).resolve_right fun hxn => hnofree (hxn ▸ hx)
  -- the chain as it was, its end led to the new chunk
  have hlinked : Seg st'.node NIL (L.chain k ++ [n]) NIL := by
    refine Seg.append_iff.mpr ⟨?_, ?_, trivial⟩
    · refine (h.linked k).retarget (h.nodup k) ?_ ?_
      · intro a ha
        rw [hnode a (hne k a (hlast a ha))]
        simp [ha]
      · intro x hx hxl
        rw [hnode x (hne k x hx)]
        simp [hxl]
    · rw [node_of hself, hchn, h.tail k]
      rfl
  rw [← htail] at hlink
  obtain ⟨l', hl'⟩ : ∃ l', l' =
      if (L.chain k).getLast? = none then { lv k with head := n } else lv k := ⟨_, rfl⟩
  rw [← hl'] at hlink
  have hrechained : Rechained (label k) st st' (L.others k) { l' with tail := n } (L.chain k ++
      [n]) free :=
    { head := by
        have hhead := h.head k
        rw [hl']
        rcases hc : L.chain k with _ | ⟨a, r⟩
        · simp
        · rw [hc] at hhead
          simpa using hhead
      tail := by simp
      linked := hlinked
      chunk_ok := by
        intro x hx
        rcases List.mem_append.mp hx with hx | hx
        · exact (hrelinked x (hne k x hx)).chunk_ok (h.chunk_ok k x hx)
        · rw [List.mem_singleton.mp hx]
          exact ⟨chn, hself, hok⟩
      nodup := by
        rw [← List.concat_eq_append]
        exact (h.nodup k).concat (ht.fresh k)
      -- a chunk of another level is not this level's last
      far_node := by
        rintro x ⟨k', hk', hx⟩
        have hxl : (L.chain k).getLast? ≠ some x :=
          fun hl => hk' (h.disjoint k' k x hx (hlast x hl))
        rw [hnode x (hne k' x hx)]
        simp [hxl]
      far_chunk := by
        rintro x ⟨k', _, hx⟩
        exact hrelinked x (hne k' x hx)
      far := by
        rintro x ⟨k', hk', hx⟩ hxk
        rcases List.mem_append.mp hxk with hxk | hxn
        · exact hk' (h.disjoint k' k x hx hxk)
        · exact hne k' x hx (List.mem_singleton.mp hxn)
      free_head := hfree'.trans ht.free_head
      free_path := by
        refine ht.free_path.congr fun x hx => ?_
        have hxn : x ≠ n := by rintro rfl; exact hnofree hx
        have hxl : (L.chain k).getLast? ≠ some x := fun hl =>
          h.free_disjoint k x (hlast x hl) (hfreesub x hx)
        rw [nextOf, nextOf, hread x hxn, Option.map_map]
        congr 1
        funext y
        simp [hxl]
      free_live := by
        intro x hx
        have hxn : x ≠ n := by rintro rfl; exact hnofree hx
        rw [(hrelinked x hxn).live_eq]
        exact h.free_live x (hfreesub x hx)
      free_nodup := (List.nodup_cons.mp ht.nodup).2
      free_disjoint := by
        rintro x (hx | ⟨k', _, hx⟩) hxf
        · rcases List.mem_append.mp hx with hx | hx
          · exact h.free_disjoint k x hx (hfreesub x hxf)
          · exact hnofree (List.mem_singleton.mp hx ▸ hxf)
        · exact h.free_disjoint k' x hx (hfreesub x hxf)
      blank := by
        intro x chx hx hother hchx
        rw [List.mem_append, not_or, List.mem_singleton] at hx
        refine (hrelinked x hx.2).blank (fun ch' hch' => h.blank x ch' (fun k' hk' => ?_) hch') hchx
        exact (L.mem_others.mp ⟨k', hk'⟩).elim hx.1 hother
      cover := by
        intro x
        have hex : (∃ k', x ∈ L.chain k') ↔ x ∈ L.chain k ∨ L.others k x := L.mem_others
        have hmem := ht.mem_free x
        rw [List.mem_cons] at hmem
        rw [hframe.used, withChunk_used, ht.lt_used, h.cover x, hex, List.mem_append,
          List.mem_singleton]
        grind
      used_le := by
        rw [hframe.used, hframe.size, withChunk_size]
        exact ht.used_le
      used_bound := by
        rw [hframe.used]
        exact ht.used_bound
      live_sum := by
        rw [hframe.live, hframe.used, withChunk_live, withChunk_used, ht.live]
        refine ht.live_sum _ ?_ fun x hx => (hrelinked x hx).live_eq
        rw [liveAt_of hself, hchn] }
  refine ⟨st1, st1.withChunk n chn, st', n, l', _, halloc, ?_, hlink, ?_, h.rechain hrechained, rfl,
    ht.fresh, ⟨chn, hself, by rw [hchn]⟩, fun x hx => (hrelinked x hx).cells_eq,
    fun x hx => (hrelinked x hx).live_eq, hframe.live.trans ht.live⟩
  · rw [updChunk_eq _ hn, hchn]
  · rw [hl']
    split <;> rfl

/-! ## Appending an order -/

omit [DecidableEq κ] in
/-- With the free list empty every used chunk holds a live order. -/
theorem Lay.used_le_live (h : Lay label st lv L) (hbusy : Busy st L) (hf : L.free = []) :
    st.used ≤ st.live := by
  rw [h.live_sum]
  calc st.used = ∑ _x ∈ Finset.range st.used, 1 := by simp
    _ ≤ ∑ x ∈ Finset.range st.used, st.liveAt x := Finset.sum_le_sum fun x hx => by
      rcases (h.cover x).mp (Finset.mem_range.mp hx) with hx | ⟨k, hx⟩
      · rw [hf] at hx
        cases hx
      · exact hbusy k x hx

omit [DecidableEq κ] in
theorem Lay.free_nil (h : Lay label st lv L) (hfree : st.freeChunk = NIL) : L.free = [] := by
  cases hL : L.free with
  | nil => rfl
  | cons c cs =>
    have hc : c < st.used := (h.cover c).mpr (Or.inl (by simp [hL]))
    have hnil : c = NIL := by rw [← hfree, h.free_head, hL]; rfl
    have := h.used_bound
    unfold NIL at hnil
    omega

omit [DecidableEq κ] in
/-- A store with fewer than 2^29 live orders has room. -/
theorem Lay.room (h : Lay label st lv L) (hbusy : Busy st L)
    (hlive : st.live < 2 ^ 29) (l : Level) :
    st.Room l :=
  fun _ hfree => lt_of_le_of_lt (h.used_le_live hbusy (h.free_nil hfree)) hlive

omit [DecidableEq κ] in
/-- A chunk has six slots. -/
theorem Lay.live_le_used (h : Lay label st lv L) : st.live ≤ st.used * CHUNK_SLOTS := by
  have hat : ∀ c ∈ Finset.range st.used, st.liveAt c ≤ CHUNK_SLOTS := by
    intro c hc
    rcases (h.cover c).mp (Finset.mem_range.mp hc) with hc | ⟨k, hc⟩
    · rw [h.free_live c hc]
      exact Nat.zero_le _
    · obtain ⟨ch, hch, hok⟩ := h.chunk_ok k c hc
      rw [liveAt_of hch]
      exact hok.live_le.trans hok.tail_le
  rw [h.live_sum]
  simpa using Finset.sum_le_card_nsmul _ _ _ hat

/-- `push` first makes sure the level's last chunk has room; no queue changes. -/
theorem Lay.tailChunk (h : Lay label st lv L) (hbusy : Busy st L) {k : κ} (hroom : st.Room (lv k))
    {side : Side} {price : Price} (hk : label k = (side, price)) :
    ∃ st' l' c L' cs ch, st.tailChunk (lv k) side price = some (st', l', c) ∧
      l'.total = (lv k).total ∧ Lay label st' (Function.update lv k l') L' ∧
      L'.chain k = cs ++ [c] ∧ (∀ k', st'.queue (L'.chain k') = st.queue (L.chain k')) ∧
      (∀ k', ∀ x ∈ L'.chain k', x ≠ c → 0 < st'.liveAt x) ∧
      st'.chunks[c]? = some ch ∧ ch.tail < CHUNK_SLOTS ∧ st'.live = st.live := by
  have hlast : (lv k).tail = (L.chain k).getLastD NIL := h.tail k
  by_cases hkeep : ∃ cs c ch, L.chain k = cs ++ [c] ∧ st.chunks[c]? = some ch ∧
    ch.tail < CHUNK_SLOTS
  -- the last chunk has a slot left
  · obtain ⟨cs, c, ch, hcs, hch, hroom⟩ := hkeep
    have htail : (lv k).tail = c := by simp [hlast, hcs]
    have hne : c ≠ NIL := h.ne_nil (k := k) (by simp [hcs])
    refine ⟨st, lv k, c, L, cs, ch, ?_, rfl, by simpa using h, hcs, fun _ => rfl,
      fun k' x hx _ => hbusy k' x hx, hch, hroom, rfl⟩
    have hused : st.usedUp c = some false := by simp [usedUp, hne, hch, hroom.ne]
    simp [Store.tailChunk, htail, hused]
  -- there is no last chunk, or it is full: a new one goes behind it
  · have hused : st.usedUp (lv k).tail = some true := by
      rcases List.eq_nil_or_concat (L.chain k) with hnil | ⟨cs, c, hcs⟩
      · simp [usedUp, hlast, hnil]
      · rw [List.concat_eq_append] at hcs
        have htail : (lv k).tail = c := by simp [hlast, hcs]
        obtain ⟨chc, hchc, hok⟩ := h.chunk_ok k c (by simp [hcs])
        have hfull : chc.tail = CHUNK_SLOTS := by
          by_contra hne
          exact hkeep ⟨cs, c, chc, hcs, hchc, lt_of_le_of_ne hok.tail_le hne⟩
        simp [usedUp, htail, hchc, hfull]
    obtain ⟨st1, st2, st', n, l', L', halloc, hupd, hlink, htot, hlay, hchain, hfresh,
      ⟨ch, hch, hch0⟩, hcells, hlives, hlive'⟩ := h.extend (fun hf =>
        hroom hused (by rw [h.free_head, hf]; rfl)) hk
    refine ⟨st', { l' with tail := n }, n, L', L.chain k, ch, ?_, htot, hlay, by simp [hchain],
      ?_, ?_, hch, by rw [hch0]; decide, hlive'⟩
    · simp only [Store.tailChunk, hused, Option.bind_eq_bind, Option.bind_some, if_true, halloc,
        hupd, hlink]
      rfl
    · have hsame : ∀ k', st'.queue (L.chain k') = st.queue (L.chain k') := by
        intro k'
        refine List.flatMap_congr fun x hx => hcells x ?_
        rintro rfl
        exact hfresh k' hx
      have hnil : st'.cellsAt n = [] := by rw [cellsAt_of hch, Chunk.cells, hch0]; rfl
      intro k'
      by_cases hk' : k' = k
      · subst hk'
        rw [hchain, Function.update_self, queue, List.flatMap_append, ← queue, hsame]
        simp [hnil]
      · rw [hchain, Function.update_of_ne hk', hsame]
    · intro k' x hx hxn
      rw [hlives x hxn]
      rw [hchain] at hx
      by_cases hk' : k' = k
      · subst hk'
        rw [Function.update_self, List.mem_append, List.mem_singleton] at hx
        exact hbusy k' x (hx.resolve_right hxn)
      · rw [Function.update_of_ne hk'] at hx
        exact hbusy k' x hx

/-- `push` appends one cell to its level's queue. -/
theorem Lay.push (h : Lay label st lv L) (hbusy : Busy st L) {k : κ} (hroom : st.Room (lv k))
    {side : Side} {price : Price} (hk : label k = (side, price)) {qty : Qty} (hq : qty ≠ 0)
    (id : OrderId) (tif : Tif) :
    ∃ st' l' x L', st.push (lv k) side price id qty tif = some (st', l', x.loc) ∧
      x.id = id ∧ x.qty = qty ∧ x.tif = tif ∧ l'.total = (lv k).total + qty ∧
      Lay label st' (Function.update lv k l') L' ∧ Busy st' L' ∧
      (∀ k', st'.queue (L'.chain k') = Function.update (fun j => st.queue (L.chain j)) k
        (st.queue (L.chain k) ++ [x]) k') ∧ st'.live = st.live + 1 := by
  have hlive : st.live < 2 ^ 64 - 1 := by
    have hle : st.live ≤ st.used * 6 := h.live_le_used
    have hused := h.used_bound
    omega
  obtain ⟨st1, l', c, L', cs, ch, hrun, htot, hlay, hcs, hqueue, hbusy1, hch, hroom, hlive1⟩ :=
    h.tailChunk hbusy hroom hk
  have hc : c ∈ L'.chain k := by simp [hcs]
  obtain ⟨ch1, ch2, hset, htif, hframe, hlow, hcells⟩ :=
    Chunk.cells_append hroom tif hq
  obtain ⟨_, hch', hok⟩ := hlay.chunk_ok k c hc
  rw [hch] at hch'
  cases hch'
  have hslots : ch.live ≤ CHUNK_SLOTS - 1 := hok.live_le.trans (Nat.le_sub_one_of_lt hroom)
  -- neither counter of the chunk wraps: there is a slot left
  have hincr : incr 8 ch.live = ch.live + 1 := incr_of_lt (by
    have : CHUNK_SLOTS = 6 := rfl
    omega)
  have htincr : incr 8 ch.tail = ch.tail + 1 := incr_of_lt (by
    have : CHUNK_SLOTS = 6 := rfl
    omega)
  obtain ⟨new, hnew⟩ : ∃ new : Chunk, new = { ch2 with tail := ch.tail + 1, live := ch.live + 1 } :=
    ⟨_, rfl⟩
  have hnewcells : ∀ c, new.cells c = ch.cells c ++ [⟨mkLoc c ch.tail, id, qty, tif⟩] := fun c => by
    rw [hnew, hcells]
  -- the slots below the tail are those of `ch`, and the one at the tail is live
  have hnewok : ChunkOk new (label k) := by
    refine ⟨?_, ?_, ?_, ?_, ?_, ?_, ?_⟩
    · rw [hnew, hframe]
      exact hok.side
    · rw [hnew, hframe]
      exact hok.price
    · rw [hnew, hframe]
      exact Nat.le_succ_of_le hok.head_le
    · rw [hnew]
      exact hroom
    · intro i s hi hs
      rw [hnew, hframe] at hi
      rw [hnew] at hs
      exact hok.dead i s hi ((hlow i (lt_of_lt_of_le hi hok.head_le).ne).symm.trans hs)
    · intro i s hi hs
      rw [hnew] at hi hs
      exact hok.spare i s (Nat.le_of_succ_le hi) ((hlow i (Nat.ne_of_gt hi)).symm.trans hs)
    · rw [hnewcells, List.length_append, ← hok.live, hnew]
      rfl
  obtain ⟨st', hst'⟩ : ∃ st', st' = { st1.withChunk c new with live := st.live + 1 } := ⟨_, rfl⟩
  have hself : st'.chunks[c]? = some new := by
    rw [hst']
    exact withChunk_self hch
  have hread : ∀ x : Nat, x ≠ c → st'.chunks[x]? = st1.chunks[x]? := fun x hx => by
    rw [hst']
    exact withChunk_ne hx
  refine ⟨st', { l' with total := l'.total + qty }, ⟨mkLoc c ch.tail, id, qty, tif⟩, L', ?_,
    rfl, rfl, rfl, by rw [htot], ?_, ?_, ?_, by rw [hst']⟩
  · have hincr64 : incr 64 st1.live = st.live + 1 := by
      rw [hlive1]
      exact incr_of_lt (by omega)
    have hlive2 : ch2.live = ch.live := by rw [hframe]
    simp only [Store.push, hrun, Option.bind_eq_bind, Option.bind_some, hch, hset, htif,
      updChunk_eq _ hch, htincr, hlive2, hincr]
    rw [withChunk_live, hincr64, ← hnew, ← hst']
    rfl
  · have htouch := hlay.touch new (st.live + 1) hc hch (by rw [hnew, hframe])
      (by rw [hnew, hframe]) hnewok (by rw [hnew, hlive1]; simp; omega)
    rw [hst']
    refine htouch.congr_level ?_ ?_ <;> intro k' <;> by_cases hk' : k' = k <;>
      simp [hk', Function.update_of_ne]
  · intro k' x hx
    by_cases hxc : x = c
    · rw [hxc, liveAt_of hself, hnew]
      exact Nat.succ_pos _
    · rw [liveAt, hread x hxc]
      exact hbusy1 k' x hx hxc
  · intro k'
    -- only the chunk written to reads differently, and it is the last of its level
    have hother : ∀ xs : List Nat, c ∉ xs → st'.queue xs = st1.queue xs := by
      intro xs hxs
      refine List.flatMap_congr fun x hx => ?_
      have hxc : x ≠ c := by rintro rfl; exact hxs hx
      rw [cellsAt, cellsAt, hread x hxc]
    by_cases hk' : k' = k
    · subst hk'
      have hnd := hlay.nodup k'
      rw [hcs] at hnd
      have hcmem : c ∉ cs := fun hmem => (List.nodup_append.mp hnd).2.2 c hmem c (by simp) rfl
      have hold := hqueue k'
      rw [hcs, queue, List.flatMap_append, ← queue] at hold
      simp only [List.flatMap_cons, List.flatMap_nil, List.append_nil, cellsAt_of hch] at hold
      rw [Function.update_self, hcs, queue, List.flatMap_append, ← queue, hother cs hcmem, ← hold]
      simp [cellsAt_of hself, hnewcells]
    · rw [Function.update_of_ne hk', hother, hqueue]
      intro hmem
      exact hk' (hlay.disjoint k' k c hmem hc)

end Drop

end Store

end Matcher
