import Matcher.Logic.LadderRep

/-!
# Both price indexes list the levels of a side

`PriceIndex.Lists cfg side ix ps lv`: the index `ix` lists exactly the prices `ps`,
best first, and holds the level `lv p` for every price `p` (a default level where
none is listed). The ladder and the tree satisfy one set of specifications, so
nothing above this module depends on which of the two is in use.
-/

namespace Matcher

open Kit

/-! ## Price priority is a strict total order -/

instance strictBetter (s : Side) : IsStrictTotalOrder Price (Better s) where
  irrefl p h := by cases s <;> exact Int64.lt_irrefl h
  trans p q r hpq hqr := by
    cases s
    · exact Int64.lt_trans hqr hpq
    · exact Int64.lt_trans hpq hqr
  trichotomous p q hpq hqp := by
    cases s
    · exact Int64.le_antisymm (Int64.not_lt.mp hpq) (Int64.not_lt.mp hqp)
    · exact Int64.le_antisymm (Int64.not_lt.mp hqp) (Int64.not_lt.mp hpq)

/-- The prices the configuration lets a limit order have. -/
def BookConfig.Valid (cfg : BookConfig) (p : Price) : Prop :=
  match cfg.index with
  | .ladder => cfg.priceMin ≤ p ∧ p ≤ cfg.priceMax
  | .tree => 0 < p

/-- The ladder, which is built for a tree as well, has a length that a vector can have. -/
def BookConfig.Builds (cfg : BookConfig) : Prop :=
  LadderIndex.span cfg.priceMin cfg.priceMax ≤ LadderIndex.maxLevels

instance : DecidablePred BookConfig.Builds := fun _ => inferInstanceAs (Decidable (_ ≤ _))

/-- A tree book with its limits the wrong way round cannot be built. -/
example : ¬ BookConfig.Builds ⟨10, 5, 4, .tree⟩ := by decide

theorem BookConfig.builds_of_span {cfg : BookConfig} (hle : cfg.priceMin ≤ cfg.priceMax)
    (hspan : cfg.priceMax.toInt - cfg.priceMin.toInt + 1 < 2 ^ 59) : cfg.Builds := by
  rw [BookConfig.Builds, LadderIndex.span_eq hle (hspan.trans (by decide)), LadderIndex.maxLevels]
  omega

/-- Ladder indices fit the 32-bit cursor. -/
def BookConfig.Narrow (cfg : BookConfig) : Prop :=
  cfg.index = .ladder → cfg.priceMin ≤ cfg.priceMax →
    cfg.priceMax.toInt - cfg.priceMin.toInt + 1 < 2 ^ 32

/-- Ladder indices fit the signed counters of the range sum. -/
def BookConfig.Short (cfg : BookConfig) : Prop :=
  cfg.index = .ladder → cfg.priceMin ≤ cfg.priceMax →
    cfg.priceMax.toInt - cfg.priceMin.toInt + 1 < 2 ^ 63

theorem BookConfig.Narrow.short {cfg : BookConfig} (hn : cfg.Narrow) : cfg.Short := fun hk hle =>
  (hn hk hle).trans (by decide)

/-- The price index has a slot for `p`. -/
def BookConfig.HasRoom (cfg : BookConfig) (p : Price) : Prop :=
  cfg.index = .ladder → (LadderIndex.blank .bid cfg.priceMin cfg.priceMax).HasRoom p

/-! ## The tree -/

namespace TreeIndex

/-- The map holds the levels of `ps` and no others. -/
def Lists (t : TreeIndex) (ps : List Price) (lv : Price → Level) : Prop :=
  ∀ p : Price, t.map[p]? = if p ∈ ps then some (lv p) else none

section Lists

variable {t : TreeIndex} {side : Side} {ps : List Price} {lv : Price → Level}

/-- Prices in ascending order. -/
def ascending (side : Side) (ps : List Price) : List Price :=
  match side with
  | .ask => ps
  | .bid => ps.reverse

theorem ascending_perm (side : Side) (ps : List Price) : (ascending side ps).Perm ps := by
  cases side
  · exact List.reverse_perm ps
  · exact List.Perm.refl ps

theorem ascending_sorted (h : ps.Pairwise (Better side)) :
    (ascending side ps).Pairwise (· < ·) := by
  cases side
  · exact List.pairwise_reverse.mpr h
  · exact h

/-- A list of entries is its keys with what they map to. -/
theorem toList_eq (h : t.Lists ps lv) (hsorted : ps.Pairwise (Better side)) :
    t.map.toList = (ascending side ps).map fun p => (p, lv p) := by
  have hlt : IsStrictOrder Price (· < ·) := inferInstanceAs (IsStrictOrder Price (Better .ask))
  have hkeys : t.map.keys = ascending side ps := by
    refine ranked_ext (r := (· < ·)) ?_ (ascending_sorted hsorted) fun p => ?_
    · exact Std.TreeMap.ordered_keys.imp fun {a b} hab => Std.compare_eq_lt.mp hab
    · rw [Std.TreeMap.mem_keys, Std.TreeMap.mem_iff_isSome_getElem?, h p,
        (ascending_perm side ps).mem_iff]
      split <;> simp_all
  rw [← hkeys, ← Std.TreeMap.map_fst_toList_eq_keys, List.map_map]
  refine (List.map_id' _).symm.trans (List.map_congr_left fun e he => ?_)
  have hget := Std.TreeMap.mem_toList_iff_getElem?_eq_some.mp (show (e.1, e.2) ∈
    t.map.toList from he)
  rw [h e.1] at hget
  split at hget
  · exact Prod.ext rfl (Option.some.inj hget).symm
  · cases hget

theorem Lists.write (h : t.Lists ps lv) {p : Price} (hp : p ∈ ps) (l : Level) :
    ∃ t', t.write p l = some t' ∧ t'.side = t.side ∧ t'.Lists ps (Function.update lv p l) := by
  have hmem : p ∈ t.map := by rw [Std.TreeMap.mem_iff_isSome_getElem?, h p, if_pos hp]; rfl
  refine ⟨_, if_pos hmem, rfl, fun q => ?_⟩
  rw [Std.TreeMap.getElem?_insert, h q]
  by_cases hpq : p = q
  · subst hpq
    simp [hp]
  · rw [if_neg (by simpa using hpq), Function.update_of_ne (Ne.symm hpq)]

theorem Lists.levelInsert (h : t.Lists ps lv) {p : Price} {ps' : List Price}
    (hps' : ∀ q, q ∈ ps' ↔ q = p ∨ q ∈ ps) (hp : p ∉ ps → lv p = {}) :
    (t.levelInsert p).Lists ps' lv := by
  intro q
  have hmem : p ∈ t.map ↔ p ∈ ps := by
    rw [Std.TreeMap.mem_iff_isSome_getElem?, h p]
    split <;> simp_all
  rw [TreeIndex.levelInsert, Std.TreeMap.getElem?_insertIfNew, h q]
  by_cases hpq : p = q
  · subst hpq
    by_cases hin : p ∈ ps
    · simp [hmem, hps', hin]
    · simp [hmem, hps', hin, hp hin]
  · rw [if_neg (fun hc => hpq (by simpa using hc.1))]
    refine if_congr ?_ rfl rfl
    rw [hps' q]
    exact ⟨Or.inr, fun hq => hq.resolve_left (Ne.symm hpq)⟩

theorem Lists.unlinkLevel (h : t.Lists ps lv) (hnd : ps.Nodup) {p : Price} (hp : p ∈ ps) :
    (t.unlinkLevel p).Lists (if (lv p).empty then ps.erase p else ps) lv := by
  intro q
  rw [TreeIndex.unlinkLevel, h p, if_pos hp]
  by_cases hempty : (lv p).empty = true
  · simp only [hempty, if_true]
    rw [Std.TreeMap.getElem?_erase, h q]
    by_cases hpq : p = q
    · subst hpq
      simp [hnd.mem_erase_iff]
    · rw [if_neg (by simpa using hpq)]
      refine if_congr ?_ rfl rfl
      rw [hnd.mem_erase_iff]
      exact ⟨fun hq => ⟨Ne.symm hpq, hq⟩, And.right⟩
  · rw [if_neg hempty]
    simp only [hempty]
    exact h q

theorem Lists.bestPrice (h : t.Lists ps lv) (hsorted : ps.Pairwise (Better side))
    (hside : t.side = side) :
    t.bestPrice = ps.head? := by
  have hmem : ∀ p, p ∈ t.map ↔ p ∈ ps := by
    intro p
    rw [Std.TreeMap.mem_iff_isSome_getElem?, h p]
    split <;> simp_all
  have hle : ∀ p q : Price, p = q ∨ p < q → (compare p q).isLE = true := by
    rintro p q (rfl | hpq)
    · simp
    · rw [Std.compare_eq_lt.mpr hpq]
      rfl
  cases hps : ps with
  | nil =>
    have hno : t.map.isEmpty = true := by
      rw [Std.TreeMap.isEmpty_iff_forall_not_mem]
      intro p
      rw [hmem, hps]
      exact List.not_mem_nil
    cases hs : t.side
    · simp only [TreeIndex.bestPrice, hs, Std.TreeMap.maxKey?_of_isEmpty hno, List.head?_nil]
    · simp only [TreeIndex.bestPrice, hs, Std.TreeMap.minKey?_of_isEmpty hno, List.head?_nil]
  | cons p l =>
    have hfirst : ∀ q ∈ t.map, q = p ∨ Better side p q := fun q hq =>
      ranked_head hsorted (by rw [hps]; rfl) ((hmem q).mp hq)
    have hp : p ∈ t.map := (hmem p).mpr (by simp [hps])
    cases side
    · simp only [TreeIndex.bestPrice, hside, List.head?_cons]
      exact Std.TreeMap.maxKey?_eq_some_iff_mem_and_forall.mpr ⟨hp, fun q hq =>
        hle q p (hfirst q hq)⟩
    · simp only [TreeIndex.bestPrice, hside, List.head?_cons]
      exact Std.TreeMap.minKey?_eq_some_iff_mem_and_forall.mpr
        ⟨hp, fun q hq => hle p q ((hfirst q hq).imp_left Eq.symm)⟩

theorem Lists.len (h : t.Lists ps lv) (hsorted : ps.Pairwise (Better side)) :
    t.len = ps.length := by
  rw [TreeIndex.len, ← Std.TreeMap.length_toList, toList_eq h hsorted, List.length_map,
    (ascending_perm side ps).length_eq]

theorem Lists.depth (h : t.Lists ps lv) (hsorted : ps.Pairwise (Better side))
    (hside : t.side = side) (n : Nat) : t.depth n = (ps.take n).map fun p => ⟨p, (lv p).total⟩ := by
  rw [TreeIndex.depth, toList_eq h hsorted, hside]
  cases side
  · simp only [ascending, List.map_reverse, List.reverse_reverse, ← List.map_take, List.map_map]
    rfl
  · simp only [ascending, ← List.map_take, List.map_map]
    rfl

theorem Lists.sumRange (h : t.Lists ps lv) (hsorted : ps.Pairwise (Better side)) (lo hi : Price) :
    t.sumRange lo hi = ((ps.filter fun p => lo ≤ p ∧ p ≤ hi).map fun p => (lv p).total).sum := by
  have hasc := ascending_sorted hsorted
  have hpair : ((ascending side ps).map fun p => (p, lv p)).Pairwise fun a b => a.1 < b.1 :=
    List.pairwise_map.mpr hasc
  have hdrop : (t.map.toList.dropWhile (·.1 < lo)) = t.map.toList.filter fun e =>
      !decide (e.1 < lo) := by
    rw [toList_eq h hsorted]
    refine dropWhile_eq_filter (hpair.imp fun {a b} hab hb => ?_)
    simpa using Int64.lt_trans hab (by simpa using hb)
  have htake : ((t.map.toList.filter fun e => !decide (e.1 < lo)).takeWhile (·.1 ≤ hi)) =
      (t.map.toList.filter fun e => !decide (e.1 < lo)).filter (·.1 ≤ hi) := by
    rw [toList_eq h hsorted]
    refine takeWhile_eq_filter ((hpair.filter _).imp fun {a b} hab hb => ?_)
    simpa using Int64.le_trans (Int64.le_of_lt hab) (by simpa using hb)
  rw [TreeIndex.sumRange, hdrop, htake, toList_eq h hsorted, List.filter_filter, List.filter_map,
    List.map_map]
  have hperm := ((ascending_perm side ps).filter fun p => decide (lo ≤ p ∧ p ≤ hi)).map fun p =>
    (lv p).total
  rw [← hperm.sum_eq]
  congr 2
  refine List.filter_congr fun p _ => ?_
  by_cases h1 : p < lo <;> by_cases h2 : p ≤ hi <;> simp [h1, h2, Int64.not_le, Int64.not_lt.mp]

end Lists

end TreeIndex

/-! ## The ladder -/

namespace LadderIndex

/-- The occupied indices are those of `ps`, and a price finds its own level. -/
structure Lists (lad : LadderIndex) (cfg : BookConfig) (side : Side) (ps : List Price)
    (lv : Price → Level) : Prop where
  base : lad.base = cfg.priceMin
  holds : lad.Holds side cfg.priceMax (ps.map lad.idx)
  levels : ∀ (p : Price) (l : Level), lad.levels[lad.idx p]? = some l → l = lv p

section Lists

variable {lad : LadderIndex} {cfg : BookConfig} {side : Side} {ps : List Price} {lv : Price → Level}

theorem mem_map_idx {p : Price} : lad.idx p ∈ ps.map lad.idx ↔ p ∈ ps :=
  List.mem_map_of_injective fun _ _ => idx_inj

theorem Lists.spans (h : lad.Lists cfg side ps lv) {p : Price} (hp : p ∈ ps) :
    lad.Spans cfg.priceMax p ∧ lad.HasRoom p := by
  obtain ⟨q, hq, hroom, heq⟩ := h.holds.valid _ (List.mem_map_of_mem hp)
  rw [idx_inj heq]
  exact ⟨hq, hroom⟩

theorem Lists.narrow (h : lad.Lists cfg side ps lv) (hk : cfg.index = .ladder) (hn : cfg.Narrow) :
    lad.Narrow cfg.priceMax := by
  rw [LadderIndex.Narrow, h.base]
  exact hn hk

theorem Lists.short (h : lad.Lists cfg side ps lv) (hk : cfg.index = .ladder) (hn : cfg.Short) :
    lad.Short cfg.priceMax := by
  rw [LadderIndex.Short, h.base]
  exact hn hk

/-- The slots are those of a new ladder. -/
theorem Lists.hasRoom (h : lad.Lists cfg side ps lv) {p : Price} :
    lad.HasRoom p ↔ (blank .bid cfg.priceMin cfg.priceMax).HasRoom p := by
  have hl := h.holds.levels_size
  have hb := h.holds.bits_size
  rw [h.base] at hl hb
  have hidx : (blank .bid cfg.priceMin cfg.priceMax).idx p = lad.idx p := by
    rw [idx, idx, h.base]
    rfl
  rw [HasRoom, HasRoom, hl, hb, hidx]
  rfl

theorem Lists.read_room (h : lad.Lists cfg side ps lv) {p : Price} (hroom : lad.HasRoom p) :
    lad.levels[lad.idx p]? = some (lv p) := by
  obtain ⟨l, hl⟩ := exists_getElem? hroom.1
  rw [hl, h.levels p l hl]

theorem Lists.read (h : lad.Lists cfg side ps lv) {p : Price} (hp : p ∈ ps) :
    lad.levels[lad.idx p]? = some (lv p) := h.read_room (h.spans hp).2

theorem Lists.write (h : lad.Lists cfg side ps lv) {p : Price} (hp : p ∈ ps) (l : Level) :
    ∃ lad', lad.write p l = some lad' ∧ lad'.Lists cfg side ps (Function.update lv p l) := by
  refine ⟨{ lad with levels := lad.levels.modify (lad.idx p) fun _ => l }, ?_, h.base, ?_,
    fun q m hm => ?_⟩
  · rw [LadderIndex.write, set?_of_lt l (h.spans hp).2.1]
    rfl
  · exact h.holds.congr_levels (by simp)
  · have hm' : (lad.levels.modify (lad.idx p) fun _ => l)[lad.idx q]? = some m := hm
    rw [Array.getElem?_modify] at hm'
    by_cases hpq : p = q
    · subst hpq
      rw [if_pos rfl, h.read hp, Option.map_some] at hm'
      rw [Function.update_self]
      exact (Option.some.inj hm').symm
    · rw [if_neg fun heq => hpq (idx_inj heq)] at hm'
      rw [Function.update_of_ne (Ne.symm hpq)]
      exact h.levels q m hm'

/-- The same ladder, listing other prices. -/
theorem Lists.relist (h : lad.Lists cfg side ps lv) {lad' : LadderIndex} {ps' : List Price}
    (hbase : lad'.base = lad.base) (hlevels : lad'.levels = lad.levels)
    (hholds : lad'.Holds side cfg.priceMax (ps'.map lad.idx)) : lad'.Lists cfg side ps' lv := by
  have hidx : ∀ p, lad'.idx p = lad.idx p := fun p => by rw [idx, idx, hbase]
  refine ⟨hbase.trans h.base, ?_, fun p l hl => ?_⟩
  · rwa [funext hidx]
  · rw [hlevels, hidx] at hl
    exact h.levels p l hl

theorem Lists.levelInsert (h : lad.Lists cfg side ps lv) {p : Price} (hp : lad.Spans cfg.priceMax p)
    (hroom : lad.HasRoom p) (hfew : ps.length + 1 < 2 ^ 32) (hnew : p ∉ ps)
    (hempty : (lv p).empty = true) :
    ∃ lad', lad.levelInsert p = some lad' ∧
      lad'.Lists cfg side (ps.orderedInsert (Better side) p) lv := by
  obtain ⟨lad', hrun, hholds, hlevels, hbase⟩ :=
    h.holds.levelInsert hp hroom (by rwa [List.length_map])
    (fun hmem => hnew (mem_map_idx.mp hmem)) (h.read_room hroom) hempty
  refine ⟨lad', hrun, h.relist hbase hlevels ?_⟩
  rw [List.map_orderedInsert (r := Better side) (s := Inner side)]
  · exact hholds
  · exact fun q hq => (idx_inner (h.spans hq).1.1 hp.1 side).symm
  · exact fun q hq => (idx_inner hp.1 (h.spans hq).1.1 side).symm

theorem Lists.unlinkLevel (h : lad.Lists cfg side ps lv) {p : Price} (hp : p ∈ ps) :
    ∃ lad', lad.unlinkLevel p = some lad' ∧
      lad'.Lists cfg side (if (lv p).empty then ps.erase p else ps) lv := by
  by_cases hempty : (lv p).empty = true
  · obtain ⟨lad', hrun, hholds, hlevels, hbase⟩ :=
      h.holds.unlinkLevel (mem_map_idx.mpr hp) (h.read hp) hempty
    refine ⟨lad', hrun, ?_⟩
    rw [if_pos hempty]
    refine h.relist hbase hlevels ?_
    rwa [List.map_erase fun _ _ => idx_inj]
  · refine ⟨lad, ?_, by rwa [if_neg hempty]⟩
    simp [LadderIndex.unlinkLevel, h.read hp, hempty]

theorem Lists.totalAt (h : lad.Lists cfg side ps lv) {p : Price} (hp : p ∈ ps) :
    lad.totalAt (lad.idx p) = (lv p).total := by
  rw [LadderIndex.totalAt, h.read hp]
  rfl

theorem Lists.sumRange (h : lad.Lists cfg side ps lv) (hn : lad.Short cfg.priceMax) {lo hi : Price}
    (hlo : lad.Spans cfg.priceMax lo) (hhi : lad.Spans cfg.priceMax hi) :
    lad.sumRange lo hi = some ((ps.filter fun p => lo ≤ p ∧ p ≤ hi).map fun p =>
      (lv p).total).sum := by
  have hmono : ∀ {p q : Price}, lad.Spans cfg.priceMax p → lad.Spans cfg.priceMax q →
      (lad.idx p ≤ lad.idx q ↔ p ≤ q) := by
    intro p q hp hq
    have := idx_inner hq.1 hp.1 .ask
    simp only [Inner, Better] at this
    rw [← Nat.not_lt, this, Int64.not_lt]
  rw [h.holds.sumRange hn hlo hhi, List.filter_map, List.map_map]
  congr 2
  have hfilter : (ps.filter ((fun j => decide (lad.idx lo ≤ j ∧ j ≤ lad.idx hi)) ∘ lad.idx)) =
      ps.filter fun p => decide (lo ≤ p ∧ p ≤ hi) := by
    refine List.filter_congr fun p hp => ?_
    have hspans := (h.spans hp).1
    simp only [Function.comp_apply, hmono hlo hspans, hmono hspans hhi]
  rw [hfilter]
  exact List.map_congr_left fun p hp => h.totalAt (List.mem_of_mem_filter hp)

theorem Lists.depth (h : lad.Lists cfg side ps lv) (n : Nat) :
    lad.depth n = some ((ps.take n).map fun p => ⟨p, (lv p).total⟩) := by
  rw [h.holds.depth n, ← List.map_take, List.map_map]
  refine congrArg some (List.map_congr_left fun p hp => ?_)
  rw [Function.comp_apply, LadderIndex.depthOf, h.totalAt (List.mem_of_mem_take hp), priceAt_idx]

theorem Lists.bestPrice (h : lad.Lists cfg side ps lv) (hn : lad.Narrow cfg.priceMax) :
    lad.bestPrice = ps.head? := by
  rw [h.holds.bestPrice hn, List.head?_map, Option.map_map]
  cases ps.head? with
  | none => rfl
  | some p => exact congrArg some (lad.priceAt_idx p)

end Lists

end LadderIndex

/-! ## Either index -/

namespace PriceIndex

theorem bestPrice_ladder {ix : PriceIndex} (hk : ix.kind = .ladder) :
    ix.bestPrice = ix.lad.bestPrice := by
  rw [PriceIndex.bestPrice, hk]

theorem levelMut_ladder {ix : PriceIndex} (hk : ix.kind = .ladder) (p : Price) :
    ix.levelMut p = ix.lad.levelMut p := by
  rw [PriceIndex.levelMut, hk]

theorem depth_ladder {ix : PriceIndex} (hk : ix.kind = .ladder) (n : Nat) :
    ix.depth n = ix.lad.depth n := by
  rw [PriceIndex.depth, hk]

theorem unlinkLevel_ladder {ix : PriceIndex} (hk : ix.kind = .ladder) {p : Price}
    {lad : LadderIndex} (hrun : ix.lad.unlinkLevel p = some lad) :
    ix.unlinkLevel p = some { ix with lad } := by
  rw [PriceIndex.unlinkLevel, hk]
  dsimp only
  rw [hrun, ← hk]
  rfl

/-- The index lists the prices `ps`, best first, with the levels `lv`. -/
structure Lists (cfg : BookConfig) (side : Side) (ix : PriceIndex) (ps : List Price)
    (lv : Price → Level) : Prop where
  kind : ix.kind = cfg.index
  sorted : ps.Pairwise (Better side)
  valid : ∀ p ∈ ps, cfg.Valid p
  default : ∀ p, p ∉ ps → lv p = {}
  ladder : cfg.index = .ladder → ix.lad.Lists cfg side ps lv
  tree : cfg.index = .tree → ix.tree.side = side ∧ ix.tree.Lists ps lv

section Lists

variable {cfg : BookConfig} {side : Side} {ix : PriceIndex} {ps : List Price} {lv : Price → Level}

theorem Lists.nodup (h : Lists cfg side ix ps lv) : ps.Nodup := h.sorted.nodup

theorem valid_ladder (hk : cfg.index = .ladder) (p : Price) :
    cfg.Valid p ↔ cfg.priceMin ≤ p ∧ p ≤ cfg.priceMax := by
  rw [BookConfig.Valid, hk]

/-- A valid price is in the ladder's span. -/
theorem Lists.spans (h : Lists cfg side ix ps lv) (hk : cfg.index = .ladder) {p : Price}
    (hp : cfg.Valid p) :
    ix.lad.Spans cfg.priceMax p := by
  rw [LadderIndex.Spans, (h.ladder hk).base]
  exact (valid_ladder hk p).mp hp

/-- A listed price has a slot. -/
theorem Lists.hasRoom (h : Lists cfg side ix ps lv) {p : Price} (hp : p ∈ ps) : cfg.HasRoom p :=
  fun hk =>
  (h.ladder hk).hasRoom.mp ((h.ladder hk).spans hp).2

theorem Lists.read (h : Lists cfg side ix ps lv) {p : Price} (hp : p ∈ ps) :
    ix.read p = some (lv p) := by
  cases hk : cfg.index with
  | ladder =>
    rw [PriceIndex.read, h.kind, hk]
    exact (h.ladder hk).read hp
  | tree =>
    rw [PriceIndex.read, h.kind, hk]
    exact ((h.tree hk).2 p).trans (if_pos hp)

/-- `level_mut` finds the levels that are not empty, at any price. -/
theorem Lists.levelMut (h : Lists cfg side ix ps lv) (p : Price) :
    ix.levelMut p = if (lv p).empty then none else some (lv p) := by
  have hunlisted : p ∉ ps → (lv p).empty = true := fun hp => by
    rw [h.default p hp]
    rfl
  cases hk : cfg.index with
  | ladder =>
    rw [PriceIndex.levelMut, h.kind, hk]
    cases hl : ix.lad.levels[ix.lad.idx p]? with
    | none =>
      have hp : p ∉ ps := fun hmem => by
        rw [(h.ladder hk).read hmem] at hl
        cases hl
      simp [LadderIndex.levelMut, hl, hunlisted hp]
    | some l =>
      rw [(h.ladder hk).levels p l hl] at hl
      simp only [LadderIndex.levelMut, hl, Option.bind_eq_bind, Option.bind_some]
      rfl
  | tree =>
    rw [PriceIndex.levelMut, h.kind, hk]
    simp only [TreeIndex.levelMut, (h.tree hk).2 p]
    by_cases hmem : p ∈ ps
    · simp only [if_pos hmem, Option.bind_eq_bind, Option.bind_some]
      rfl
    · rw [if_neg hmem, if_pos (hunlisted hmem)]
      rfl

theorem Lists.write (h : Lists cfg side ix ps lv) {p : Price} (hp : p ∈ ps) (l : Level) :
    ∃ ix', ix.write p l = some ix' ∧ Lists cfg side ix' ps (Function.update lv p l) := by
  have hdefault : ∀ q, q ∉ ps → Function.update lv p l q = {} := fun q hq => by
    rw [Function.update_of_ne (by rintro rfl; exact hq hp)]
    exact h.default q hq
  cases hk : cfg.index with
  | ladder =>
    obtain ⟨lad', hrun, hl⟩ := (h.ladder hk).write hp l
    refine ⟨{ ix with lad := lad' }, ?_, h.kind, h.sorted, h.valid, hdefault, fun _ => hl,
      fun hk' => by rw [hk] at hk'; cases hk'⟩
    rw [PriceIndex.write, h.kind, hk]
    simp only [hrun, Option.map_some]
  | tree =>
    obtain ⟨t', hrun, hside, hl⟩ := (h.tree hk).2.write hp l
    refine ⟨{ ix with tree := t' }, ?_, h.kind, h.sorted, h.valid, hdefault,
      fun hk' => (by rw [hk] at hk'; cases hk'), fun _ => ⟨hside.trans (h.tree hk).1, hl⟩⟩
    rw [PriceIndex.write, h.kind, hk]
    simp only [hrun, Option.map_some]

/-- The prices listed once `p` is. -/
def listed (side : Side) (p : Price) (ps : List Price) : List Price :=
  if p ∈ ps then ps else ps.orderedInsert (Better side) p

theorem mem_listed {p q : Price} : q ∈ listed side p ps ↔ q = p ∨ q ∈ ps := by
  unfold listed
  split
  · next hp => exact ⟨Or.inr, fun hq => hq.elim (fun heq => heq ▸ hp) id⟩
  · exact List.mem_orderedInsert _

/-- `level_insert` lists its price. -/
theorem Lists.levelInsert (h : Lists cfg side ix ps lv) {p : Price} (hp : cfg.Valid p)
    (hroom : cfg.HasRoom p) (hfew : ps.length + 1 < 2 ^ 32)
    (hbusy : p ∈ ps → (lv p).empty = false) :
    ∃ ix', ix.levelInsert p = some ix' ∧ Lists cfg side ix' (listed side p ps) lv := by
  have hsorted : (listed side p ps).Pairwise (Better side) := by
    unfold listed
    split
    · exact h.sorted
    · next hnew => exact ranked_insert h.sorted hnew
  have hvalid : ∀ q ∈ listed side p ps, cfg.Valid q := fun q hq =>
    (mem_listed.mp hq).elim (fun heq => heq ▸ hp) (h.valid q)
  have hdefault : ∀ q, q ∉ listed side p ps → lv q = {} := fun q hq =>
    h.default q fun hmem => hq (mem_listed.mpr (Or.inr hmem))
  cases hk : cfg.index with
  | ladder =>
    obtain ⟨lad', hrun, hl⟩ : ∃ lad', ix.lad.levelInsert p = some lad' ∧
        lad'.Lists cfg side (listed side p ps) lv := by
      unfold listed
      split
      · next hmem =>
        refine ⟨ix.lad, ?_, h.ladder hk⟩
        simp [LadderIndex.levelInsert, (h.ladder hk).read hmem, hbusy hmem]
      · next hnew =>
        exact (h.ladder hk).levelInsert (h.spans hk hp) ((h.ladder hk).hasRoom.mpr (hroom hk)) hfew
          hnew
          (by rw [h.default p hnew]; rfl)
    refine ⟨{ ix with lad := lad' }, ?_, h.kind, hsorted, hvalid, hdefault, fun _ => hl,
      fun hk' => by rw [hk] at hk'; cases hk'⟩
    rw [PriceIndex.levelInsert, h.kind, hk]
    simp only [hrun, Option.map_some]
  | tree =>
    refine ⟨{ ix with tree := ix.tree.levelInsert p }, ?_, h.kind, hsorted, hvalid, hdefault,
      fun hk' => (by rw [hk] at hk'; cases hk'),
      fun _ => ⟨(h.tree hk).1, (h.tree hk).2.levelInsert (fun q => mem_listed) (h.default p)⟩⟩
    rw [PriceIndex.levelInsert, h.kind, hk]

/-- Where the ladder has no slot, `level_insert` indexes outside an array. -/
theorem Lists.levelInsert_none (h : Lists cfg side ix ps lv) {p : Price} (hroom : ¬ cfg.HasRoom p) :
    ix.levelInsert p = none := by
  obtain ⟨hk, hout⟩ := Classical.not_imp.mp hroom
  rw [← (h.ladder hk).hasRoom] at hout
  have hp : p ∉ ps := fun hmem => hout ((h.ladder hk).spans hmem).2
  rw [PriceIndex.levelInsert, h.kind, hk]
  cases hl : ix.lad.levels[ix.lad.idx p]? with
  | none => simp [LadderIndex.levelInsert, hl]
  | some l =>
    have hword : ¬ ix.lad.idx p / 64 < ix.lad.bits.size :=
      fun hlt => hout ⟨lt_size_of_getElem? hl, hlt⟩
    rw [(h.ladder hk).levels p l hl, h.default p hp] at hl
    simp [LadderIndex.levelInsert, hl, Level.empty, modify?, hword]

/-- `unlink_level` takes an emptied level off the list. -/
theorem Lists.unlinkLevel (h : Lists cfg side ix ps lv) {p : Price} (hp : p ∈ ps)
    (hdef : (lv p).empty = true → lv p = {}) :
    ∃ ix', ix.unlinkLevel p = some ix' ∧
      Lists cfg side ix' (if (lv p).empty then ps.erase p else ps) lv := by
  have hsub : (if (lv p).empty then ps.erase p else ps).Sublist ps := by
    split
    · exact List.erase_sublist
    · exact List.Sublist.refl ps
  have hdefault : ∀ q, q ∉ (if (lv p).empty then ps.erase p else ps) → lv q = {} := by
    intro q hq
    split at hq
    · next hempty =>
      by_cases hqp : q = p
      · rw [hqp]
        exact hdef hempty
      · exact h.default q fun hmem => hq (h.nodup.mem_erase_iff.mpr ⟨hqp, hmem⟩)
    · exact h.default q hq
  cases hk : cfg.index with
  | ladder =>
    obtain ⟨lad', hrun, hl⟩ := (h.ladder hk).unlinkLevel hp
    refine ⟨{ ix with lad := lad' }, ?_, h.kind, h.sorted.sublist hsub,
      fun q hq => h.valid q (hsub.subset hq), hdefault, fun _ => hl,
      fun hk' => by rw [hk] at hk'; cases hk'⟩
    rw [PriceIndex.unlinkLevel, h.kind, hk]
    simp only [hrun, Option.map_some]
  | tree =>
    have hl := (h.tree hk).2.unlinkLevel h.nodup hp
    have hside : (ix.tree.unlinkLevel p).side = ix.tree.side := by
      unfold TreeIndex.unlinkLevel
      split
      · split <;> rfl
      · rfl
    refine ⟨{ ix with tree := ix.tree.unlinkLevel p }, ?_, h.kind, h.sorted.sublist hsub,
      fun q hq => h.valid q (hsub.subset hq), hdefault, fun hk' => (by rw [hk] at hk'; cases hk'),
      fun _ => ⟨hside.trans (h.tree hk).1, hl⟩⟩
    rw [PriceIndex.unlinkLevel, h.kind, hk]

theorem Lists.bestPrice (h : Lists cfg side ix ps lv) (hn : cfg.Narrow) :
    ix.bestPrice = ps.head? := by
  cases hk : cfg.index with
  | ladder =>
    rw [PriceIndex.bestPrice, h.kind, hk]
    exact (h.ladder hk).bestPrice ((h.ladder hk).narrow hk hn)
  | tree =>
    rw [PriceIndex.bestPrice, h.kind, hk]
    exact (h.tree hk).2.bestPrice h.sorted (h.tree hk).1

theorem Lists.len (h : Lists cfg side ix ps lv) : ix.len = ps.length := by
  cases hk : cfg.index with
  | ladder =>
    rw [PriceIndex.len, h.kind, hk]
    simpa [LadderIndex.len] using (h.ladder hk).holds.count
  | tree =>
    rw [PriceIndex.len, h.kind, hk]
    exact (h.tree hk).2.len h.sorted

theorem Lists.depth (h : Lists cfg side ix ps lv) (n : Nat) :
    ix.depth n = some ((ps.take n).map fun p => ⟨p, (lv p).total⟩) := by
  cases hk : cfg.index with
  | ladder =>
    rw [PriceIndex.depth, h.kind, hk]
    exact (h.ladder hk).depth n
  | tree =>
    rw [PriceIndex.depth, h.kind, hk]
    exact congrArg some ((h.tree hk).2.depth h.sorted (h.tree hk).1 n)

/-- `sum_range` adds up the totals of the listed prices in the range. -/
theorem Lists.sumRange (h : Lists cfg side ix ps lv) (hn : cfg.Short) (lo hi : Price)
    (hvalid : cfg.index = .ladder → cfg.Valid lo ∧ cfg.Valid hi) :
    ix.sumRange lo hi = some ((ps.filter fun p => lo ≤ p ∧ p ≤ hi).map fun p =>
      (lv p).total).sum := by
  cases hk : cfg.index with
  | ladder =>
    rw [PriceIndex.sumRange, h.kind, hk]
    exact (h.ladder hk).sumRange ((h.ladder hk).short hk hn) (h.spans hk (hvalid hk).1)
      (h.spans hk (hvalid hk).2)
  | tree =>
    rw [PriceIndex.sumRange, h.kind, hk]
    exact congrArg some ((h.tree hk).2.sumRange h.sorted lo hi)

/-- In a short ladder every valid price has a slot. -/
theorem Lists.room (h : Lists cfg side ix ps lv) (hn : cfg.Short) {p : Price} (hp : cfg.Valid p) :
    cfg.HasRoom p := fun hk =>
  (h.ladder hk).hasRoom.mp ((h.ladder hk).holds.room ((h.ladder hk).short hk hn) (h.spans hk hp)).1

end Lists

/-- The index over the ladder that the constructor leaves behind. -/
def blank (kind : IndexKind) (side : Side) (pmin pmax : Price) : PriceIndex :=
  { kind, lad := LadderIndex.blank side pmin pmax, tree := { side } }

/-- The constructor returns if and only if the ladder can be built. -/
theorem new_eq_some (cfg : BookConfig) (side : Side) {ix : PriceIndex} :
    PriceIndex.new cfg.index side cfg.priceMin cfg.priceMax = some ix ↔
      cfg.Builds ∧ blank cfg.index side cfg.priceMin cfg.priceMax = ix := by
  unfold BookConfig.Builds PriceIndex.new LadderIndex.new
  split
  · next hgt => exact iff_of_false (fun h => by cases h) fun h => absurd h.1 (Nat.not_le.mpr hgt)
  · next hle => exact Option.some_inj.trans (and_iff_right (Nat.not_lt.mp hle)).symm

/-- A new index lists nothing. -/
theorem blank_lists (cfg : BookConfig) (side : Side) :
    Lists cfg side (blank cfg.index side cfg.priceMin cfg.priceMax) [] fun _ => {} := by
  refine ⟨rfl, List.Pairwise.nil, fun _ h => absurd h List.not_mem_nil, fun _ _ => rfl, fun hk =>
    ?_, fun _ => ?_⟩
  · refine ⟨rfl, LadderIndex.blank_holds side cfg.priceMin cfg.priceMax, fun p l hl => ?_⟩
    have hblank : (LadderIndex.blank side cfg.priceMin cfg.priceMax).levels[_]? = some l := hl
    simp only [LadderIndex.blank, Array.getElem?_replicate] at hblank
    split at hblank
    · exact (Option.some.inj hblank).symm
    · cases hblank
  · refine ⟨rfl, fun p => ?_⟩
    simp [blank]

end PriceIndex

end Matcher
