import Matcher.Batch
import Matcher.Logic.Runs

/-!
# Looking ahead is safe

What `apply_batch` reads ahead of a command belongs to the book as it stands before
that command, and that book is in order: the map's probes end, a location it holds
names a chunk, and a level's tail chunk exists.
-/

namespace Matcher

open Kit

/-- A level's tail chunk exists. -/
theorem Store.Queues.exists_tail {κ : Type*} {label : κ → Side × Price} {st : Store}
    {lv : κ → Level} {Q : κ → List Cell} (h : Store.Queues label st lv Q) (k : κ)
    (htail : (lv k).tail ≠ NIL) : ∃ ch, st.chunks[(lv k).tail]? = some ch := by
  obtain ⟨L, hlay, _⟩ := h
  have hlast := hlay.tail k
  cases hchain : L.chain k with
  | nil =>
    rw [hchain] at hlast
    exact absurd hlast htail
  | cons c cs =>
    -- the last chunk of a chain that is not empty
    have hmem : (lv k).tail ∈ L.chain k := by
      rw [hlast, hchain, List.getLastD_cons]
      exact List.getLastD_mem_cons
    obtain ⟨ch, hch, _⟩ := hlay.chunk_ok k _ hmem
    exact ⟨ch, hch⟩

theorem PriceIndex.prefetch_eq (ix : PriceIndex) (p : Price) : ix.prefetch p = some () := by
  rw [PriceIndex.prefetch]
  cases ix.kind with
  | tree => rfl
  | ladder =>
    show ix.lad.prefetch p = some ()
    rw [LadderIndex.prefetch]
    split
    · next hlt =>
      obtain ⟨l, hl⟩ := exists_getElem? hlt
      rw [hl]
      rfl
    · rfl

namespace OrderBook

section Lookahead

variable {b : OrderBook} {C : Content}

theorem Rep.prefetchMap (h : Rep none none b C) (k : OrderId) : b.map.prefetch k = some () := by
  have hshape := h.ids.models.shape
  obtain ⟨t, e, ht, he, _⟩ := hshape.slot (hshape.home_lt k)
  rw [OrderMap.prefetch, ht, he]
  rfl

/-- A probe ends, and what it finds names a chunk. -/
theorem Rep.located (h : Rep none none b C) (oid : OrderId) :
    b.map.get oid = some none ∨
      ∃ ploc loc ch, b.map.get oid = some (some ploc) ∧ b.map.readVal ploc = some loc ∧
        b.store.chunk loc = some ch := by
  cases hloc : C.locs.lookup oid with
  | none => exact Or.inl (h.ids.models.get_none h.ids.room hloc)
  | some loc =>
    obtain ⟨ploc, hget, hval, _⟩ := h.ids.models.get_some hloc
    obtain ⟨s, p, x, hx, _, rfl, _⟩ := h.find_some hloc
    obtain ⟨ch, hch, _⟩ := (h.store.reads hx).read
    exact Or.inr ⟨ploc, x.loc, ch, hget, hval, hch⟩

theorem Rep.prefetchChunk (h : Rep none none b C) (c : Command) : b.prefetchChunk c = some () := by
  rw [OrderBook.prefetchChunk]
  split
  · rw [PriceIndex.prefetch_eq]
    exact ite_self _
  · rcases h.located c.orderId with hget | ⟨ploc, loc, ch, hget, hval, hch⟩
    · rw [hget]
      rfl
    · simp only [hget, hval, hch, Option.bind_eq_bind, Option.bind_some]
      rfl

/-- The level that `peek` shows has its tail chunk in the store. -/
theorem Rep.peeked (h : Rep none none b C) {s : Side} {p : Price} {l : Level}
    (hpeek : (b.ownIndex s).peek p = some l) (htail : l.tail ≠ NIL) :
    ∃ ch, b.store.chunks[l.tail]? = some ch := by
  have hlists := h.index s
  rw [PriceIndex.peek, hlists.kind] at hpeek
  cases hk : b.cfg.index with
  | tree =>
    rw [hk] at hpeek
    cases hpeek
  | ladder =>
    rw [hk] at hpeek
    have hl := (hlists.ladder hk).levels p l hpeek
    rw [hl] at htail ⊢
    exact h.store.exists_tail (s, p) htail

theorem Rep.prefetchLevel (h : Rep none none b C) (c : Command) : b.prefetchLevel c = some () := by
  rw [OrderBook.prefetchLevel]
  split
  · split
    · cases hpeek : (b.ownIndex c.side).peek c.price with
      | none => rfl
      | some l =>
        dsimp only
        split
        · next htail =>
          obtain ⟨ch, hch⟩ := h.peeked hpeek htail
          rw [hch]
          rfl
        · rfl
    · rfl
  · rcases h.located c.orderId with hget | ⟨ploc, loc, ch, hget, hval, hch⟩
    · rw [hget]
      rfl
    · simp only [hget, hval, hch, PriceIndex.prefetch_eq, Option.bind_eq_bind, Option.bind_some]
      split <;> rfl

theorem lookAhead_eq {touch : Command → Option Unit} (h : ∀ c, touch c = some ())
    (cmds : List Command) (d : Nat) :
    lookAhead touch cmds d = some () := by
  rw [lookAhead]
  split
  · exact h _
  · rfl

/-- Before each command the look-ahead finds a book in order, so it changes nothing. -/
theorem Rep.applyAhead (h : Rep none none b C) (hn : b.cfg.Narrow) (cmds : List Command) :
    ∃ b' out, b.applyAhead cmds = some (b', out) ∧ b.applyAll cmds = some (b', out) := by
  induction cmds generalizing b C with
  | nil => exact ⟨b, [], rfl, rfl⟩
  | cons c cs ih =>
    obtain ⟨b1, C1, out1, hrun1, hdone⟩ := h.apply hn c
    obtain ⟨b2, out2, hahead, hall⟩ := ih hdone.rep (hdone.cfg ▸ hn)
    refine ⟨b2, out1 ++ out2, ?_, ?_⟩
    · rw [OrderBook.applyAhead, lookAhead_eq fun a => h.prefetchMap a.orderId,
        lookAhead_eq h.prefetchChunk, lookAhead_eq h.prefetchLevel]
      simp only [hrun1, hahead, Option.bind_eq_bind, Option.bind_some]
      rfl
    · simp only [OrderBook.applyAll, hrun1, hall, Option.bind_eq_bind, Option.bind_some]
      rfl

end Lookahead

end OrderBook

/-- In every reachable state, with any threshold and any commands: `apply_batch` reads
within its arrays, and does what applying the commands one by one does. -/
theorem batch_is_apply {cfg : BookConfig} (hfits : cfg.Fits) {b : OrderBook}
    (h : OrderBook.Reaches cfg b) (threshold : Nat) (cmds : List Command) :
    ∃ b' out, (b.setPrefetchThreshold threshold).applyBatch cmds = some (b', out) ∧
      (b.setPrefetchThreshold threshold).applyAll cmds = some (b', out) := by
  obtain ⟨C, hrep, hcfg⟩ := h.rep hfits
  have hrep' : OrderBook.Rep none none (b.setPrefetchThreshold threshold) C := { hrep with }
  obtain ⟨b', out, hahead, hall⟩ :=
    hrep'.applyAhead (show b.cfg.Narrow from hcfg ▸ hfits.narrow) cmds
  refine ⟨b', out, ?_, hall⟩
  rw [OrderBook.applyBatch]
  split
  · exact hall
  · exact hahead

/-- More commands than the look-ahead reaches over, about ids that others of them create,
replace and close. -/
def smallBatch : List Command :=
  (List.replicate 6 [.newLimit 1 .bid 5 10 .gtc, .replace 1 6 4, .newMarket 2 .ask 3,
    .cancel 1]).flatten

theorem batch_is_apply_small : 16 < smallBatch.length ∧ ∃ b, OrderBook.Reaches smallBook b ∧
    ∃ b' out, (b.setPrefetchThreshold 0).applyBatch smallBatch = some (b', out) ∧
      (b.setPrefetchThreshold 0).applyAll smallBatch = some (b', out) := by
  obtain ⟨b, h⟩ := OrderBook.exists_reaches smallBook_opens smallRun
  exact ⟨by decide, b, h, batch_is_apply smallBook_fits h 0 smallBatch⟩

end Matcher
