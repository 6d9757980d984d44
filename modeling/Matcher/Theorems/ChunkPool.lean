import Matcher.Logic.ChunkFrame
import Matcher.Logic.Wide
import Matcher.Theorems.CrossStructure

/-!
# The chunk pool

Every chunk in use belongs to one level or to the free list, a level's chunks count
their live slots, and a chunk is taken for the first time only when every other one
holds a live order. So the chunks reserved at construction are enough, constructed
ahead of time or not.
-/

namespace Matcher

open Kit

/-- The number of slots that hold an order. -/
def Chunk.occupied (ch : Chunk) : Nat := ch.s.toList.countP fun x => x.qty ≠ 0

namespace OrderBook

/-- The chunks of `b`: those of the free list, and those of the level at each price. -/
structure Pool (b : OrderBook) (free : List Nat) (chain : Side → Price → List Nat) : Prop where
  freeHead : b.store.freeChunk = free.headD NIL
  freePath : Path b.store.nextOf free NIL
  freeOnce : free.Nodup
  ends : ∀ s p l, b.readLevel s p = some l → l.head = (chain s p).headD NIL ∧
    l.tail = (chain s p).getLastD NIL
  noLevel : ∀ s p, b.readLevel s p = none → chain s p = []
  linked : ∀ s p, Seg b.store.node NIL (chain s p) NIL
  once : ∀ s p, (chain s p).Nodup
  apart : ∀ s p s' p' c, c ∈ chain s p → c ∈ chain s' p' → s = s' ∧ p = p'
  notFree : ∀ s p, ∀ c ∈ chain s p, c ∉ free
  inUse : ∀ c, c < b.store.used ↔ c ∈ free ∨ ∃ s p, c ∈ chain s p
  counted : ∀ s p, ∀ c ∈ chain s p, ∃ ch, b.store.chunks[c]? = some ch ∧ ch.live = ch.occupied ∧
    1 ≤ ch.live
  few : {c | ∃ s p, c ∈ chain s p}.encard ≤ b.store.live
  bounded : b.store.used ≤ b.cfg.maxOrders.toNat
  reserved : b.store.capacity = b.cfg.maxOrders.toNat
  within : b.store.chunks.size ≤ b.store.capacity

/-- The books that commands reach, with chunks constructed ahead of time or not. -/
inductive Operated (cfg : BookConfig) : OrderBook → Prop
  | start {b : OrderBook} : new cfg = some b → Operated cfg b
  | apply {b b' : OrderBook} {c : Command} {out : List Emission} :
      Operated cfg b → b.apply c = some (b', out) →
      Operated cfg b'
  | prefault {b : OrderBook} : Operated cfg b → Operated cfg b.prefault

end OrderBook

/-! ## Counting slots -/

/-- Counting the members is counting the indexes of members. -/
theorem countP_range {α : Type*} (P : α → Bool) (xs : List α) :
    (List.range xs.length).countP (fun i => (xs[i]?).any P) = xs.countP P := by
  induction xs with
  | nil => rfl
  | cons x xs ih =>
    rw [List.length_cons, List.range_succ_eq_map, List.countP_cons, List.countP_cons,
      List.countP_map, ← ih]
    rfl

namespace Store

/-- A chunk's counter counts all slots: there is no live slot behind the tail. -/
theorem ChunkOk.occupied {ch : Chunk} {label : Side × Price} (h : ChunkOk ch label) :
    ch.live = ch.occupied := by
  have hcell : ∀ i, i < CHUNK_SLOTS → (ch.cell 0 i).isSome = (ch.s.toList[i]?).any fun x =>
      decide (x.qty ≠ 0) := by
    intro i hi
    obtain ⟨s, t, hs, _, hcell⟩ := Chunk.cell_of_lt 0 ch hi
    rw [hcell, Vector.getElem?_toList, hs]
    by_cases hq : s.qty = 0 <;> simp [hq]
  have hspare : ∀ i ∈ List.range' ch.tail (CHUNK_SLOTS - ch.tail), (ch.cell 0 i).isSome =
      false := by
    intro i hi
    obtain ⟨htail, hi⟩ := List.mem_range'_1.mp hi
    obtain ⟨s, t, hs, _, hcell⟩ := Chunk.cell_of_lt 0 ch (show i < CHUNK_SLOTS by omega)
    rw [hcell, if_pos (h.spare i s htail hs)]
    rfl
  have hsplit : List.range CHUNK_SLOTS = List.range ch.tail ++ List.range' ch.tail (CHUNK_SLOTS -
      ch.tail) := by
    have happend := List.range'_append_1 (s := 0) (m := ch.tail) (n := CHUNK_SLOTS - ch.tail)
    rw [Nat.zero_add, Nat.add_sub_cancel' h.tail_le] at happend
    rw [List.range_eq_range', List.range_eq_range', happend]
  have hbehind : (List.range' ch.tail (CHUNK_SLOTS - ch.tail)).countP (fun i =>
      (ch.cell 0 i).isSome) = 0 :=
    List.countP_eq_zero.mpr fun i hi => by simp [hspare i hi]
  have hlen : ch.s.toList.length = CHUNK_SLOTS := ch.s.length_toList
  calc ch.live = (List.range ch.tail).countP fun i => (ch.cell 0 i).isSome := by
        rw [h.live, Chunk.cells, List.length_filterMap_eq_countP]
    _ = (List.range CHUNK_SLOTS).countP fun i => (ch.cell 0 i).isSome := by
        rw [hsplit, List.countP_append, hbehind, Nat.add_zero]
    _ = (List.range ch.s.toList.length).countP fun i => (ch.s.toList[i]?).any fun x =>
      decide (x.qty ≠ 0) := by
        rw [hlen]
        exact List.countP_congr fun i hi => by rw [hcell i (List.mem_range.mp hi)]
    _ = ch.occupied := countP_range _ _

section

variable {κ : Type*} {label : κ → Side × Price} {st : Store} {lv : κ → Level} {L : Layout κ}

/-- There are no more chunks in the levels than live orders. -/
theorem Lay.encard_chains (h : Lay label st lv L) (hbusy : Busy st L) :
    {c | ∃ k, c ∈ L.chain k}.encard ≤ st.live := by
  classical
  have hset : {c | ∃ k, c ∈ L.chain k} = ((Finset.range st.used).filter fun c =>
      ∃ k, c ∈ L.chain k : Finset Nat) := by
    ext c
    rw [Finset.coe_filter, Set.mem_ofPred_eq, Set.mem_ofPred_eq, Finset.mem_range]
    exact ⟨fun hc => ⟨(h.cover c).mpr (Or.inr hc), hc⟩, And.right⟩
  rw [hset, Set.encard_coe_eq_coe_finsetCard, Nat.cast_le, h.live_sum, Finset.card_eq_sum_ones]
  calc ∑ _c ∈ (Finset.range st.used).filter fun c => ∃ k, c ∈ L.chain k, 1
      ≤ ∑ c ∈ (Finset.range st.used).filter fun c => ∃ k, c ∈ L.chain k, st.liveAt c :=
        Finset.sum_le_sum fun c hc => by
          obtain ⟨k, hk⟩ := (Finset.mem_filter.mp hc).2
          exact hbusy k c hk
    _ ≤ ∑ c ∈ Finset.range st.used, st.liveAt c :=
      Finset.sum_le_sum_of_subset (Finset.filter_subset _ _)

/-- With no chunk free, every chunk in use holds a live order. -/
theorem Queues.used_le_live {Q : κ → List Cell} (h : Queues label st lv Q)
    (hfree : st.freeChunk = NIL) :
    st.used ≤ st.live := by
  obtain ⟨L, hlay, hbusy, _⟩ := h
  exact hlay.used_le_live hbusy (hlay.free_nil hfree)

end

end Store

namespace OrderBook

/-! ## Runs -/

section

variable {cfg : BookConfig} {b b' : OrderBook} {C : Content}

theorem Rep.prefault (h : Rep none none b C) : Rep none none b.prefault C :=
  { h with store := h.store.prefault }

/-- As many chunks are in use, constructed and reserved as orders may rest, at most. -/
structure Stocked (b : OrderBook) : Prop where
  bounded : b.store.used ≤ b.cfg.maxOrders.toNat
  reserved : b.store.capacity = b.cfg.maxOrders.toNat
  within : b.store.chunks.size ≤ b.store.capacity

theorem Stocked.apply (h : Stocked b) (hrep : Rep none none b C) {c : Command} {out : List Emission}
    (hrun : b.apply c = some (b', out)) (hrep' : Rep none none b' C') (hcfg : b'.cfg = b.cfg) :
    Stocked b' := by
  obtain ⟨hcapacity, _, hdrawn⟩ := apply_drawn hrun
  obtain ⟨hbounded, hreserved, hwithin⟩ := h
  have hsmall := hrep.small
  rcases hdrawn with hsteady | ⟨hfree, hused, hsize⟩
  · refine ⟨?_, ?_, ?_⟩
    · rw [hsteady.used, hcfg]
      exact hbounded
    · rw [hcapacity, hcfg]
      exact hreserved
    · rw [hsteady.size, hcapacity]
      exact hwithin
  · -- the chunk taken is in use, and so is every other one
    have hlive := hrep'.store.used_le_live hfree
    have hmax : b'.store.live ≤ b'.cfg.maxOrders.toNat := by
      have hcard := hrep'.ids.card
      have hfull := hrep'.ids.full
      omega
    rw [incr_of_lt (by omega)] at hused
    refine ⟨hlive.trans hmax, ?_, ?_⟩
    · rw [hcapacity, hcfg]
      exact hreserved
    · rw [hcfg] at hmax
      omega

theorem Stocked.prefault (h : Stocked b) : Stocked b.prefault := by
  refine ⟨h.bounded, h.reserved, ?_⟩
  have hwithin := h.within
  show (b.store.chunks ++ _).size ≤ b.store.capacity
  rw [Array.size_append, Array.size_replicate]
  omega

theorem Operated.stocked (horders : cfg.maxOrders.toNat ≤ 2 ^ 29) (h : Operated cfg b) :
    ∃ C, Rep none none b C ∧ b.cfg = cfg ∧ Stocked b := by
  induction h with
  | start hnew =>
    obtain ⟨hrep, _, hcfg⟩ := rep_of_new horders hnew
    refine ⟨blank, hrep, hcfg, ?_⟩
    obtain ⟨_, _, map, _, rfl⟩ := new_eq_some.mp hnew
    exact ⟨Nat.zero_le _, rfl, Nat.zero_le _⟩
  | apply _ hrun ih =>
    obtain ⟨C, hrep, hcfg, hstocked⟩ := ih
    obtain ⟨C', hrep', hcfg'⟩ := hrep.apply_keeps hrun
    exact ⟨C', hrep', hcfg'.trans hcfg, hstocked.apply hrep hrun hrep' hcfg'⟩
  | prefault _ ih =>
    obtain ⟨C, hrep, hcfg, hstocked⟩ := ih
    exact ⟨C, hrep.prefault, hcfg, hstocked.prefault⟩

theorem Reaches.operated (h : Reaches cfg b) : Operated cfg b := by
  obtain ⟨b0, cs, out, hnew, hrun⟩ := h
  suffices hrun' : ∀ (cs : List Command) (b0 : OrderBook) out, Operated cfg b0 →
      b0.applyAll cs = some (b, out) → Operated cfg b from
    hrun' cs b0 out (.start hnew) hrun
  intro cs
  induction cs with
  | nil =>
    intro b0 out h0 hrun
    cases hrun
    exact h0
  | cons c cs ih =>
    intro b0 out h0 hrun
    obtain ⟨⟨b1, out1⟩, hrun1, hrun⟩ := Option.bind_eq_some_iff.mp hrun
    obtain ⟨⟨b2, out2⟩, hrun2, hout⟩ := Option.bind_eq_some_iff.mp hrun
    cases hout
    exact ih b1 out2 (h0.apply hrun1) hrun2

/-- The chunks of a book in order. -/
theorem Rep.pool (h : Rep none none b C) (hstocked : Stocked b) :
    ∃ free chain, b.Pool free chain := by
  have hempty := h.store.level_empty
  obtain ⟨L, hlay, hbusy, _, _⟩ := h.store
  refine ⟨L.free, fun s p => L.chain (s, p), ?_⟩
  exact
    { freeHead := hlay.free_head
      freePath := hlay.free_path
      freeOnce := hlay.free_nodup
      ends := by
        intro s p l hread
        rw [(h.index s).read_eq hread]
        exact ⟨hlay.head (s, p), hlay.tail (s, p)⟩
      noLevel := by
        intro s p hread
        refine (hlay.empty_iff (s, p)).mp ((hempty (s, p)).1.mpr ?_)
        by_contra hne
        have hlisted := (h.listed (s, p) (by simp)).mpr hne
        rw [readLevel, (h.index s).read hlisted] at hread
        cases hread
      linked := fun s p => hlay.linked (s, p)
      once := fun s p => hlay.nodup (s, p)
      apart := by
        intro s p s' p' c hc hc'
        exact Prod.mk.inj (hlay.disjoint _ _ c hc hc')
      notFree := fun s p c hc => hlay.free_disjoint (s, p) c hc
      inUse := by
        intro c
        rw [hlay.cover c, Prod.exists]
      counted := by
        intro s p c hc
        obtain ⟨ch, hch, hok⟩ := hlay.chunk_ok (s, p) c hc
        have hpos := hbusy (s, p) c hc
        rw [Store.liveAt_of hch] at hpos
        exact ⟨ch, hch, hok.occupied, hpos⟩
      few := by
        have hfew := hlay.encard_chains hbusy
        simpa only [Prod.exists] using hfew
      bounded := hstocked.bounded
      reserved := hstocked.reserved
      within := hstocked.within }

end

end OrderBook

/-- In every book that commands reach, each chunk in use is in one level or free, the
levels' chunks count their slots, and there are no more chunks than were reserved. -/
theorem chunk_pool_accounts {cfg : BookConfig} (horders : cfg.maxOrders.toNat ≤ 2 ^ 29)
    {b : OrderBook} (h : OrderBook.Operated cfg b) : ∃ free chain, b.Pool free chain := by
  obtain ⟨C, hrep, _, hstocked⟩ := h.stocked horders
  exact hrep.pool hstocked

theorem chunk_pool_accounts_small : ∃ b : OrderBook, ∃ free chain, b.prefault.Pool free chain := by
  obtain ⟨b, h⟩ := OrderBook.exists_reaches smallBook_opens smallRun
  exact ⟨b, chunk_pool_accounts smallBook_fits.orders h.operated.prefault⟩

end Matcher
