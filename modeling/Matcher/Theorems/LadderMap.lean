import Matcher.Logic.IndexRep

/-!
# The ladder is a sorted map of its non-empty levels

Levels are filled and emptied as the book does it: through the pointers that
`level_insert` and `level_mut` return. Whatever the history, the bits, the summary,
the counter and the cursor say which levels are non-empty, and `depth` and
`sum_range` enumerate just these.
-/

namespace Matcher

open Kit

inductive LadderOp where
  /-- `level_insert(p)`, then write the level. -/
  | fill (p : Price) (l : Level)
  /-- Write through `level_mut(p)`, then `unlink_level(p)`. -/
  | clear (p : Price) (l : Level)
deriving DecidableEq, Repr

namespace LadderOp

def price : LadderOp → Price
  | fill p _ => p
  | clear p _ => p

def level : LadderOp → Level
  | fill _ l => l
  | clear _ l => l

/-- A level is filled with a non-empty one and cleared with an empty one, at a
price of the ladder. -/
def Ok (pmin pmax : Price) (op : LadderOp) : Prop :=
  (pmin ≤ op.price ∧ op.price ≤ pmax) ∧
    match op with
    | fill _ l => l.empty = false
    | clear _ l => l.empty = true

/-- The level of each price after a history. -/
def contents (lv : Price → Level) (ops : List LadderOp) : Price → Level :=
  ops.foldl (fun lv op => Function.update lv op.price op.level) lv

/-- Only non-empty levels are cleared. -/
def ClearsFull : (Price → Level) → List LadderOp → Prop
  | _, [] => True
  | lv, op :: ops =>
    (match op with
      | fill _ _ => True
      | clear p _ => (lv p).empty = false) ∧
    ClearsFull (Function.update lv op.price op.level) ops

end LadderOp

namespace LadderIndex

/-- One step; `level_mut` of an empty level is the null pointer, and there is no
writing through it. -/
def step (lad : LadderIndex) : LadderOp → Option LadderIndex
  | .fill p l => do (← lad.levelInsert p).write p l
  | .clear p l => do
    let _ ← lad.levelMut p
    (← lad.write p l).unlinkLevel p

def run : LadderIndex → List LadderOp → Option LadderIndex
  | lad, [] => some lad
  | lad, op :: ops => do (← lad.step op).run ops

/-- Level `i` is non-empty. -/
def Full (lad : LadderIndex) (i : Nat) : Prop := ∃ l, lad.levels[i]? = some l ∧ l.empty = false

/-- The ladder over `[pmin, pmax]` is the sorted map of the non-empty levels among `lv`. -/
structure SortedMap (lad : LadderIndex) (side : Side) (pmin pmax : Price) (lv : Price → Level) :
    Prop where
  levels : ∀ p, pmin ≤ p → p ≤ pmax → lad.levels[lad.idx p]? = some (lv p)
  bits : ∀ i, lad.bit i = true ↔ lad.Full i
  summary : ∀ w, (lad.sumWord (w / 64)).getLsbD (w % 64) = true ↔ lad.word w ≠ 0
  count : {i | lad.Full i}.encard = lad.count
  noBest : lad.best = NIL ↔ ∀ i, ¬ lad.Full i
  best : ∀ i, i ≠ NIL → (lad.best = i ↔ lad.Full i ∧ ∀ j, lad.Full j → ¬ Inner side j i)
  listing : ∃ ps : List Price, ps.Pairwise (Better side) ∧
    (∀ p, p ∈ ps ↔ (pmin ≤ p ∧ p ≤ pmax) ∧ (lv p).empty = false) ∧
    (∀ n, lad.depth n = some ((ps.take n).map fun p => ⟨p, (lv p).total⟩)) ∧
    ∀ lo hi, pmin ≤ lo → lo ≤ pmax → pmin ≤ hi → hi ≤ pmax →
      lad.sumRange lo hi = some ((ps.filter fun p => lo ≤ p ∧ p ≤ hi).map fun p => (lv p).total).sum

section Lists

variable {lad : LadderIndex} {cfg : BookConfig} {side : Side} {ps : List Price} {lv : Price → Level}

/-- A narrow ladder has a level for each tick. -/
theorem Holds.size_eq {top : Price} {occ : List Nat} (h : lad.Holds side top occ)
    (hn : lad.Narrow top) (hle : lad.base ≤ top) :
    lad.levels.size = (top.toInt - lad.base.toInt + 1).toNat := by
  rw [h.levels_size, ← span_eq hle ((hn hle).trans (by decide))]
  exact Array.size_replicate

/-- Every index of a narrow ladder is that of a price in its span. -/
theorem Holds.exists_price {top : Price} {occ : List Nat} (h : lad.Holds side top occ)
    (hn : lad.Narrow top) (hle : lad.base ≤ top) {i : Nat} (hi : i < lad.levels.size) :
    ∃ p, lad.Spans top p ∧ lad.idx p = i := by
  have hspan := hn hle
  have hle' := Int64.le_iff_toInt_le.mp hle
  rw [h.size_eq hn hle] at hi
  have hi' : (i : Int) ≤ top.toInt - lad.base.toInt := by omega
  have hbase := lad.base.le_toInt
  have htop := top.toInt_lt
  have hofNat : (Int64.ofNat i).toInt = i := Int64.toInt_ofNat_of_lt (by omega)
  have hprice : (lad.priceAt i).toInt = lad.base.toInt + i := by
    rw [priceAt, Int64.toInt_add, hofNat, Int.bmod_eq_of_le (by omega) (by omega)]
  have hlow : lad.base ≤ lad.priceAt i := by rw [Int64.le_iff_toInt_le]; omega
  refine ⟨lad.priceAt i, ⟨hlow, by rw [Int64.le_iff_toInt_le]; omega⟩, ?_⟩
  rw [idx_eq lad hlow, hprice]
  omega

/-- The listed prices are few. -/
theorem Lists.length_le (h : lad.Lists cfg side ps lv) {p : Price} (hp : p ∉ ps)
    (hroom : lad.HasRoom p) :
    ps.length + 1 ≤ lad.levels.size := by
  have hnd : ((p :: ps).map lad.idx).Nodup := by
    rw [List.map_cons, List.nodup_cons]
    exact ⟨fun hmem => hp (mem_map_idx.mp hmem), h.holds.nodup⟩
  have hsub : (p :: ps).map lad.idx ⊆ List.range lad.levels.size := by
    intro i hi
    obtain ⟨q, hq, rfl⟩ := List.mem_map.mp hi
    rw [List.mem_range]
    rcases List.mem_cons.mp hq with rfl | hq
    · exact hroom.1
    · exact (h.spans hq).2.1
  simpa using (hnd.subperm hsub).length_le

/-- What a history keeps: the prices listed are those with non-empty levels. -/
structure Tracked (lad : LadderIndex) (cfg : BookConfig) (side : Side) (ps : List Price)
    (lv : Price → Level) :
    Prop extends lad.Lists cfg side ps lv where
  kind : cfg.index = .ladder
  narrow : cfg.Narrow
  listed : ∀ p, p ∈ ps ↔ (cfg.priceMin ≤ p ∧ p ≤ cfg.priceMax) ∧ (lv p).empty = false
  sorted : ps.Pairwise (Better side)

section Tracked

variable (h : lad.Tracked cfg side ps lv)

include h

theorem Tracked.narrowLad : lad.Narrow cfg.priceMax := h.toLists.narrow h.kind h.narrow

theorem Tracked.spans_iff {p : Price} : lad.Spans cfg.priceMax p ↔ cfg.priceMin ≤ p ∧
    p ≤ cfg.priceMax := by
  rw [Spans, h.base]

/-- Filling a level. -/
theorem Tracked.fill {p : Price} {l : Level} (hp : cfg.priceMin ≤ p ∧ p ≤ cfg.priceMax)
    (hl : l.empty = false) :
    ∃ lad' ps', lad.step (.fill p l) = some lad' ∧
      lad'.Tracked cfg side ps' (Function.update lv p l) := by
  have hspans := h.spans_iff.mpr hp
  obtain ⟨hroom, _⟩ := h.holds.room h.narrowLad.short hspans
  have hlisted : ∀ ps' : List Price, (∀ q, q ∈ ps' ↔ q = p ∨ q ∈ ps) → ∀ q, q ∈ ps' ↔
      (cfg.priceMin ≤ q ∧ q ≤ cfg.priceMax) ∧ (Function.update lv p l q).empty = false := by
    intro ps' hmem q
    rw [hmem]
    by_cases hq : q = p
    · subst hq
      simp [hp, hl]
    · rw [Function.update_of_ne hq, h.listed q]
      simp [hq]
  by_cases hmem : p ∈ ps
  · have hinsert : lad.levelInsert p = some lad := by
      simp [LadderIndex.levelInsert, h.read hmem, ((h.listed p).mp hmem).2]
    obtain ⟨lad', hwrite, hlists⟩ := h.toLists.write hmem l
    have hsame : ∀ q, q ∈ ps ↔ q = p ∨ q ∈ ps := by
      refine fun q => ⟨Or.inr, ?_⟩
      rintro (rfl | hq)
      · exact hmem
      · exact hq
    exact ⟨lad', ps, by simp [step, hinsert, hwrite], hlists, h.kind, h.narrow, hlisted ps hsame,
      h.sorted⟩
  · have hempty : (lv p).empty = true := by
      rw [← Bool.not_eq_false]
      exact fun hfull => hmem ((h.listed p).mpr ⟨hp, hfull⟩)
    have hfew : ps.length + 1 < 2 ^ 32 := by
      have hlen := h.toLists.length_le hmem hroom
      have hlt := h.narrowLad (Int64.le_trans hspans.1 hspans.2)
      have hsize := h.holds.size_eq h.narrowLad (Int64.le_trans hspans.1 hspans.2)
      omega
    obtain ⟨lad1, hinsert, hlists1⟩ := h.toLists.levelInsert hspans hroom hfew hmem hempty
    obtain ⟨lad', hwrite, hlists⟩ := hlists1.write ((List.mem_orderedInsert _).mpr (Or.inl rfl)) l
    refine ⟨lad', _, by simp [step, hinsert, hwrite], hlists, h.kind, h.narrow, ?_,
      ranked_insert h.sorted hmem⟩
    exact hlisted _ fun q => List.mem_orderedInsert _

/-- Clearing a non-empty level. -/
theorem Tracked.clear {p : Price} {l : Level} (hp : cfg.priceMin ≤ p ∧ p ≤ cfg.priceMax)
    (hl : l.empty = true) (hfull : (lv p).empty = false) :
    ∃ lad' ps', lad.step (.clear p l) = some lad' ∧
      lad'.Tracked cfg side ps' (Function.update lv p l) := by
  have hmem := (h.listed p).mpr ⟨hp, hfull⟩
  obtain ⟨lad1, hwrite, hlists1⟩ := h.toLists.write hmem l
  obtain ⟨lad', hunlink, hlists⟩ := hlists1.unlinkLevel hmem
  rw [Function.update_self, if_pos hl] at hlists
  have hmut : lad.levelMut p = some (lv p) := by simp [LadderIndex.levelMut, h.read hmem, hfull]
  refine ⟨lad', _, by simp [step, hmut, hwrite, hunlink], hlists, h.kind, h.narrow, fun q => ?_,
    h.sorted.sublist List.erase_sublist⟩
  rw [h.sorted.nodup.mem_erase_iff, h.listed]
  by_cases hq : q = p
  · subst hq
    simp [hl]
  · rw [Function.update_of_ne hq]
    simp [hq]

/-- Clearing an empty level writes through the null pointer. -/
theorem Tracked.clear_empty {p : Price} {l : Level} (hp : cfg.priceMin ≤ p ∧ p ≤ cfg.priceMax)
    (hempty : (lv p).empty = true) : lad.step (.clear p l) = none := by
  obtain ⟨hroom, _⟩ := h.holds.room h.narrowLad.short (h.spans_iff.mpr hp)
  simp [step, LadderIndex.levelMut, h.toLists.read_room hroom, hempty]

theorem Tracked.full_iff (hle : cfg.priceMin ≤ cfg.priceMax) {i : Nat} :
    lad.Full i ↔ i ∈ ps.map lad.idx := by
  constructor
  · rintro ⟨l, hread, hl⟩
    obtain ⟨p, hp, rfl⟩ :=
      h.holds.exists_price h.narrowLad (h.base ▸ hle) (lt_size_of_getElem? hread)
    rw [h.levels p l hread] at hl
    exact mem_map_idx.mpr ((h.listed p).mpr ⟨h.spans_iff.mp hp, hl⟩)
  · intro hi
    obtain ⟨p, hp, rfl⟩ := List.mem_map.mp hi
    exact ⟨_, h.read hp, ((h.listed p).mp hp).2⟩

/-- The ladder is the sorted map. -/
theorem Tracked.sortedMap (hle : cfg.priceMin ≤ cfg.priceMax) :
    lad.SortedMap side cfg.priceMin cfg.priceMax lv where
  levels p hlo hhi :=
    h.toLists.read_room (h.holds.room h.narrowLad.short (h.spans_iff.mpr ⟨hlo, hhi⟩)).1
  bits i := by rw [h.holds.bits, decide_eq_true_iff, h.full_iff hle]
  summary w := by rw [h.holds.sum, decide_eq_true_iff]
  count := by
    have hset : {i | lad.Full i} = ((ps.map lad.idx).toFinset : Set Nat) := by
      ext i
      rw [List.coe_toFinset]
      exact h.full_iff hle
    rw [hset, Set.encard_coe_eq_coe_finsetCard, List.toFinset_card_of_nodup h.holds.nodup,
      h.holds.count]
  noBest := by
    simp only [h.holds.best h.narrowLad, h.full_iff hle]
    cases hocc : ps.map lad.idx with
    | nil => simp
    | cons j js =>
      have hj : j ≠ NIL := (h.holds.lt_nil h.narrowLad (i := j) (by simp [hocc])).ne
      simp only [List.head?_cons, Option.getD_some, hj, false_iff, not_forall, not_not]
      exact ⟨j, List.mem_cons_self⟩
  best i hi := by
    have hsorted := h.holds.sorted
    simp only [h.holds.best h.narrowLad, h.full_iff hle]
    cases hocc : ps.map lad.idx with
    | nil => simpa using hi.symm
    | cons j js =>
      rw [hocc] at hsorted
      obtain ⟨hj, _⟩ := List.pairwise_cons.mp hsorted
      show j = i ↔ _
      constructor
      · rintro rfl
        refine ⟨List.mem_cons_self, fun k hk hinner => ?_⟩
        rcases List.mem_cons.mp hk with rfl | hk
        · exact irrefl_of (Inner side) _ hinner
        · exact irrefl_of (Inner side) _ (trans_of (Inner side) (hj k hk) hinner)
      · rintro ⟨hmem, hbest⟩
        rcases List.mem_cons.mp hmem with rfl | hmem
        · rfl
        · exact absurd (hj i hmem) (hbest j List.mem_cons_self)
  listing := by
    refine ⟨ps, h.sorted, h.listed, fun n => h.toLists.depth n, fun lo hi hlo hlo' hhi hhi' => ?_⟩
    exact h.toLists.sumRange h.narrowLad.short (h.spans_iff.mpr ⟨hlo, hlo'⟩) (h.spans_iff.mpr ⟨hhi,
      hhi'⟩)

end Tracked

/-- A whole history: it runs just when only non-empty levels are cleared. -/
theorem Tracked.run (h : lad.Tracked cfg side ps lv) (ops : List LadderOp)
    (hops : ∀ op ∈ ops, op.Ok cfg.priceMin cfg.priceMax) :
    ((lad.run ops).isSome ↔ LadderOp.ClearsFull lv ops) ∧
      ∀ lad', lad.run ops = some lad' →
        ∃ ps', lad'.Tracked cfg side ps' (LadderOp.contents lv ops) := by
  induction ops generalizing lad ps lv with
  | nil => exact ⟨⟨fun _ => trivial, fun _ => rfl⟩, fun lad' hrun => ⟨ps, Option.some.inj hrun ▸ h⟩⟩
  | cons op ops ih =>
    have hop := hops op List.mem_cons_self
    have hops' := fun op' hop' => hops op' (List.mem_cons_of_mem _ hop')
    cases op with
    | fill p l =>
      obtain ⟨lad1, ps1, hstep, h1⟩ := h.fill (p := p) (l := l) hop.1 hop.2
      obtain ⟨hruns, hkeeps⟩ := ih h1 hops'
      have hrun : lad.run (.fill p l :: ops) = lad1.run ops := by
        rw [LadderIndex.run, hstep]
        rfl
      rw [hrun]
      exact ⟨hruns.trans (and_iff_right trivial).symm, hkeeps⟩
    | clear p l =>
      cases hfull : (lv p).empty with
      | true =>
        have hrun : lad.run (.clear p l :: ops) = none := by
          rw [LadderIndex.run, h.clear_empty (p := p) (l := l) hop.1 hfull]
          rfl
        rw [hrun]
        refine ⟨⟨fun hsome => (by cases hsome), fun hclears => ?_⟩, fun lad' hrun' => by
          cases hrun'⟩
        exact absurd (hclears.1.symm.trans hfull) (by decide)
      | false =>
        obtain ⟨lad1, ps1, hstep, h1⟩ := h.clear (p := p) (l := l) hop.1 hop.2 hfull
        obtain ⟨hruns, hkeeps⟩ := ih h1 hops'
        have hrun : lad.run (.clear p l :: ops) = lad1.run ops := by
          rw [LadderIndex.run, hstep]
          rfl
        rw [hrun]
        exact ⟨hruns.trans (and_iff_right hfull).symm, hkeeps⟩

end Lists

end LadderIndex

/-- Over any span below 2^32 an empty ladder is built, from which a history of fills and
clears runs just when it clears only non-empty levels, and then leaves the sorted map of the
levels it made non-empty. -/
theorem ladder_is_sorted_map (side : Side) {pmin pmax : Price} (hle : pmin ≤ pmax)
    (hspan : pmax.toInt - pmin.toInt + 1 < 2 ^ 32) (ops : List LadderOp)
    (hops : ∀ op ∈ ops, op.Ok pmin pmax) :
    ∃ lad0, LadderIndex.new side pmin pmax = some lad0 ∧
      ((lad0.run ops).isSome ↔ LadderOp.ClearsFull (fun _ => {}) ops) ∧
      ∀ lad, lad0.run ops = some lad →
        lad.SortedMap side pmin pmax (LadderOp.contents (fun _ => {}) ops) := by
  have hbuilds : BookConfig.Builds ⟨pmin, pmax, 0, .ladder⟩ :=
    BookConfig.builds_of_span hle (hspan.trans (by decide))
  have hstart : (LadderIndex.blank side pmin pmax).Tracked ⟨pmin, pmax, 0, .ladder⟩ side []
      fun _ => {} := by
    refine ⟨(PriceIndex.blank_lists ⟨pmin, pmax, 0, .ladder⟩ side).ladder rfl, rfl,
      fun _ _ => hspan, fun p => ?_, List.Pairwise.nil⟩
    simp [Level.empty]
  obtain ⟨hruns, hkeeps⟩ := hstart.run ops hops
  refine ⟨_, if_neg (Nat.not_lt.mpr hbuilds), hruns, fun lad hrun => ?_⟩
  obtain ⟨ps, h⟩ := hkeeps lad hrun
  exact h.sortedMap hle

theorem ladder_is_sorted_map_hundred :
    let ops := [LadderOp.fill 5 ⟨0, 0, 7⟩, .fill 70 ⟨1, 1, 8⟩, .clear 70 {}]
    ∃ lad0, LadderIndex.new .bid 1 100 = some lad0 ∧
      ((lad0.run ops).isSome ↔ LadderOp.ClearsFull (fun _ => {}) ops) ∧
      ∀ lad, lad0.run ops = some lad →
        lad.SortedMap .bid 1 100 (LadderOp.contents (fun _ => {}) ops) := by
  refine ladder_is_sorted_map .bid (by decide) (by decide) _ fun op hop => ?_
  simp only [List.mem_cons, List.not_mem_nil, or_false] at hop
  rcases hop with rfl | rfl | rfl <;> exact ⟨by decide, rfl⟩

end Matcher
