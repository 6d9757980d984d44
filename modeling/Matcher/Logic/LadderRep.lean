import Matcher.Detail.PriceIndex
import Matcher.Kit.Ranked

/-!
# The ladder lists its occupied levels

`LadderIndex.Holds lad side top occ`: the occupied indices of the ladder are `occ`,
listed from the best price inward. The two bitmap tiers and the counter are
functions of that list, and so is the cursor as long as the indices fit its 32
bits (`Narrow`); each ladder operation is specified by what it does to the list.
-/

namespace Matcher

open Kit

/-- On side `s`, index `i` is strictly nearer to the best price than `j`. -/
def Inner : Side → Nat → Nat → Prop
  | .bid, i, j => j < i
  | .ask, i, j => i < j

instance decidableInner : (s : Side) → DecidableRel (Inner s)
  | .bid => fun i j => inferInstanceAs (Decidable (j < i))
  | .ask => fun i j => inferInstanceAs (Decidable (i < j))

instance strictInner (s : Side) : IsStrictTotalOrder Nat (Inner s) := by
  cases s
  · exact inferInstanceAs (IsStrictTotalOrder Nat (· > ·))
  · exact inferInstanceAs (IsStrictTotalOrder Nat (· < ·))

namespace LadderIndex

/-! ## Prices and indices -/

theorem idx_eq (lad : LadderIndex) {p : Price} (h : lad.base ≤ p) :
    lad.idx p = (p.toInt - lad.base.toInt).toNat := by
  have hle := Int64.le_iff_toInt_le.mp h
  show (p.toBitVec - lad.base.toBitVec).toNat = (p.toBitVec.toInt - lad.base.toBitVec.toInt).toNat
  have hle' : lad.base.toBitVec.toInt ≤ p.toBitVec.toInt := hle
  rw [BitVec.toNat_sub]
  rw [BitVec.toInt_eq_toNat_cond, BitVec.toInt_eq_toNat_cond] at *
  have h1 := p.toBitVec.isLt
  have h2 := lad.base.toBitVec.isLt
  split at hle' <;> split at hle' <;> omega

/-- The number of ticks, unless it wraps. -/
theorem span_eq {pmin pmax : Price} (hle : pmin ≤ pmax)
    (hspan : pmax.toInt - pmin.toInt + 1 < 2 ^ 63) :
    span pmin pmax = (pmax.toInt - pmin.toInt + 1).toNat := by
  have hle' := Int64.le_iff_toInt_le.mp hle
  have hdiff : (pmax - pmin).toUInt64.toNat = (pmax.toInt - pmin.toInt).toNat :=
    idx_eq (blank .bid pmin pmax) hle
  rw [span, UInt64.toNat_add, hdiff, UInt64.toNat_one]
  omega

/-- Limits the wrong way round by one tick leave no tick. -/
theorem span_empty {pmin pmax : Price} (h : pmin.toInt = pmax.toInt + 1) : span pmin pmax = 0 := by
  have hpmin : pmin = pmax + 1 := by
    have hlt := Int64.toInt_lt pmin
    have hle := Int64.le_toInt pmax
    have hone : (1 : Int64).toInt = 1 := rfl
    rw [← Int64.toInt_inj, Int64.toInt_add, h, hone, Int.bmod_eq_of_le (by omega) (by omega)]
  have hgap : pmax - (pmax + 1) = -1 := by grind
  rw [span, hpmin, hgap]
  rfl

theorem priceAt_idx (lad : LadderIndex) (p : Price) : lad.priceAt (lad.idx p) = p := by
  apply Int64.toBitVec_inj.mp
  show lad.base.toBitVec + BitVec.ofNat 64 (p.toBitVec - lad.base.toBitVec).toNat = p.toBitVec
  rw [BitVec.ofNat_toNat, BitVec.setWidth_eq]
  bv_omega

theorem idx_inj {lad : LadderIndex} {p q : Price} (h : lad.idx p = lad.idx q) : p = q := by
  rw [← lad.priceAt_idx p, h, lad.priceAt_idx q]

/-- Indices are ordered as the prices are. -/
theorem idx_inner {lad : LadderIndex} {p q : Price} (hp : lad.base ≤ p) (hq : lad.base ≤ q)
    (s : Side) : Inner s (lad.idx p) (lad.idx q) ↔ Better s p q := by
  have h1 := Int64.le_iff_toInt_le.mp hp
  have h2 := Int64.le_iff_toInt_le.mp hq
  cases s
  · show lad.idx q < lad.idx p ↔ q < p
    rw [idx_eq lad hp, idx_eq lad hq, Int64.lt_iff_toInt_lt]
    omega
  · show lad.idx p < lad.idx q ↔ p < q
    rw [idx_eq lad hp, idx_eq lad hq, Int64.lt_iff_toInt_lt]
    omega

/-! ## The two bitmap tiers -/

def word (lad : LadderIndex) (w : Nat) : Word := (lad.bits[w]?).getD 0

def sumWord (lad : LadderIndex) (s : Nat) : Word := (lad.summary[s]?).getD 0

def bit (lad : LadderIndex) (i : Nat) : Bool := (lad.word (i / 64)).getLsbD (i % 64)

/-- The summary tier marks the words that are not 0. -/
structure Tiers (lad : LadderIndex) : Prop where
  words_le : lad.bits.size ≤ 64 * lad.summary.size
  sum : ∀ w, (lad.sumWord (w / 64)).getLsbD (w % 64) = decide (lad.word w ≠ 0)

section Tiers

variable {lad : LadderIndex}

theorem word_of_lt {w : Nat} (h : w < lad.bits.size) : lad.bits[w]? = some (lad.word w) := by
  rw [word, Array.getElem?_eq_getElem h, Option.getD_some]

theorem lt_of_word {w : Nat} (h : lad.word w ≠ 0) : w < lad.bits.size := by
  by_contra hge
  rw [word, Array.getElem?_eq_none (Nat.le_of_not_lt hge)] at h
  exact h rfl

theorem Tiers.summary_of_lt (ht : lad.Tiers) {w : Nat} (h : w < lad.bits.size) :
    lad.summary[w / 64]? = some (lad.sumWord (w / 64)) := by
  have := ht.words_le
  rw [sumWord, Array.getElem?_eq_getElem (by omega), Option.getD_some]

/-- A word is not 0 when one of its bits is set. -/
theorem word_ne_zero {i : Nat} (h : lad.bit i = true) : lad.word (i / 64) ≠ 0 := by
  intro h0
  rw [bit, h0] at h
  simp at h

theorem bit_word (w j : Nat) (hj : j < 64) : lad.bit (w * 64 + j) = (lad.word w).getLsbD j := by
  rw [bit, show (w * 64 + j) / 64 = w by omega, show (w * 64 + j) % 64 = j by omega]

/-- `rescan`'s upward loop stops at the first word that is not 0. -/
theorem Tiers.rescanUp_spec (ht : lad.Tiers) :
    ∀ fuel s, lad.bits.size < s + fuel → (∃ w, s ≤ w ∧ lad.word w ≠ 0) →
      ∃ w, s ≤ w ∧ lad.word w ≠ 0 ∧ (∀ v, s ≤ v → v < w → lad.word v = 0) ∧
        lad.rescanUp fuel s = some ((w * 64 + ctz (lad.word w)) % 2 ^ 32) := by
  intro fuel
  induction fuel with
  | zero =>
    rintro s hfuel ⟨w, hw, hne⟩
    have := lt_of_word hne
    omega
  | succ fuel ih =>
    rintro s hfuel ⟨w, hw, hne⟩
    have hlt := lt_of_word hne
    have hs : s < lad.bits.size := lt_of_le_of_lt hw hlt
    -- a summary bit at or behind `s`: a word that is not 0 at or behind `s`
    have hmask : ∀ j, (lad.sumWord (s / 64) &&& maskFrom (s % 64)).getLsbD j =
        (decide (lad.word (s / 64 * 64 + j) ≠ 0) && (decide (s % 64 ≤ j) && decide (j < 64))) := by
      intro j
      rw [BitVec.getLsbD_and, getLsbD_maskFrom]
      by_cases hj : j < 64
      · have := ht.sum (s / 64 * 64 + j)
        rw [show (s / 64 * 64 + j) / 64 = s / 64 by omega,
          show (s / 64 * 64 + j) % 64 = j by omega] at this
        rw [this]
      · simp [hj]
    simp only [rescanUp, if_pos hs, ht.summary_of_lt hs, Option.bind_eq_bind, Option.bind_some]
    by_cases hzero : lad.sumWord (s / 64) &&& maskFrom (s % 64) = 0
    -- nothing is marked in this summary word, so the loop skips its 64 words
    · have hall : ∀ v, s ≤ v → v < s / 64 * 64 + 64 → lad.word v = 0 := by
        intro v hv hv'
        have := word_eq_zero.mp hzero (v % 64)
        rw [hmask, show s / 64 * 64 + v % 64 = v by omega,
          decide_eq_true (by omega : s % 64 ≤ v % 64), decide_eq_true (Nat.mod_lt v (by decide)),
          Bool.and_true, Bool.and_true] at this
        simpa using this
      have hge : s / 64 * 64 + 64 ≤ w := by
        by_contra hlt'
        exact hne (hall w hw (by omega))
      obtain ⟨w', hw', hne', hbefore, hrun⟩ := ih (s / 64 * 64 + 64) (by omega) ⟨w, hge, hne⟩
      refine ⟨w', by omega, hne', fun v hv hv' => ?_, ?_⟩
      · by_cases hin : v < s / 64 * 64 + 64
        · exact hall v hv hin
        · exact hbefore v (by omega) hv'
      · rw [if_neg (by simpa using hzero), hrun]
    -- the lowest marked word is the one the loop stops at
    · have hbit := getLsbD_ctz hzero
      rw [hmask, Bool.and_eq_true, Bool.and_eq_true, decide_eq_true_iff, decide_eq_true_iff,
        decide_eq_true_iff] at hbit
      obtain ⟨hne', hle, hlt64⟩ := hbit
      refine ⟨s / 64 * 64 + ctz (lad.sumWord (s / 64) &&& maskFrom (s % 64)), by omega, hne',
        fun v hv hv' => ?_, ?_⟩
      · have hlow := getLsbD_lt_ctz (w := lad.sumWord (s / 64) &&& maskFrom (s % 64)) (i := v % 64)
          (by omega)
        rw [hmask, show s / 64 * 64 + v % 64 = v by omega,
          decide_eq_true (by omega : s % 64 ≤ v % 64), decide_eq_true (Nat.mod_lt v (by decide)),
          Bool.and_true, Bool.and_true] at hlow
        simpa using hlow
      · rw [if_pos (by simpa using hzero), word_of_lt (lt_of_word hne'), Option.bind_some]
        rfl

/-- `rescan`'s downward loop stops at the last word before `n` that is not 0. -/
theorem Tiers.rescanDown_spec (ht : lad.Tiers) :
    ∀ fuel n, n < fuel → n ≤ lad.bits.size → (∃ w, w < n ∧ lad.word w ≠ 0) →
      ∃ w, w < n ∧ lad.word w ≠ 0 ∧ (∀ v, v < n → w < v → lad.word v = 0) ∧
        lad.rescanDown fuel n = some ((w * 64 + topBit (lad.word w)) % 2 ^ 32) := by
  intro fuel
  induction fuel with
  | zero =>
    intro n hfuel
    exact absurd hfuel (Nat.not_lt_zero n)
  | succ fuel ih =>
    rintro (_ | s) hfuel hn ⟨w, hw, hne⟩
    · exact absurd hw (Nat.not_lt_zero w)
    have hs : s < lad.bits.size := hn
    -- a summary bit up to `s`: a word that is not 0 up to `s`
    have hmask : ∀ j, (lad.sumWord (s / 64) &&& maskUpTo (s % 64)).getLsbD j =
        (decide (lad.word (s / 64 * 64 + j) ≠ 0) && decide (j ≤ s % 64)) := by
      intro j
      rw [BitVec.getLsbD_and, getLsbD_maskUpTo (Nat.mod_lt s (by decide))]
      by_cases hj : j < 64
      · have := ht.sum (s / 64 * 64 + j)
        rw [show (s / 64 * 64 + j) / 64 = s / 64 by omega,
          show (s / 64 * 64 + j) % 64 = j by omega] at this
        rw [this]
      · have hgt : ¬ j ≤ s % 64 := by omega
        simp [hgt]
    simp only [rescanDown, ht.summary_of_lt hs, Option.bind_eq_bind, Option.bind_some]
    by_cases hzero : lad.sumWord (s / 64) &&& maskUpTo (s % 64) = 0
    -- nothing is marked in this summary word, so the loop goes on in the one before
    · have hall : ∀ v, v < s + 1 → s / 64 * 64 ≤ v → lad.word v = 0 := by
        intro v hv hv'
        have := word_eq_zero.mp hzero (v % 64)
        rw [hmask, show s / 64 * 64 + v % 64 = v by omega,
          decide_eq_true (by omega : v % 64 ≤ s % 64), Bool.and_true] at this
        simpa using this
      have hlt : w < s / 64 * 64 := by
        by_contra hge
        exact hne (hall w hw (by omega))
      obtain ⟨w', hw', hne', hafter, hrun⟩ := ih (s / 64 * 64) (by omega) (by omega) ⟨w, hlt, hne⟩
      refine ⟨w', by omega, hne', fun v hv hv' => ?_, ?_⟩
      · by_cases hin : v < s / 64 * 64
        · exact hafter v hin hv'
        · exact hall v hv (by omega)
      · rw [if_neg (by simpa using hzero), hrun]
    -- the highest marked word is the one the loop stops at
    · have hbit := getLsbD_topBit hzero
      rw [hmask, Bool.and_eq_true, decide_eq_true_iff, decide_eq_true_iff] at hbit
      obtain ⟨hne', hle⟩ := hbit
      refine ⟨s / 64 * 64 + topBit (lad.sumWord (s / 64) &&& maskUpTo (s % 64)), by omega, hne',
        fun v hv hv' => ?_, ?_⟩
      · have hhigh := getLsbD_gt_topBit (w := lad.sumWord (s / 64) &&& maskUpTo (s % 64))
          (i := v % 64) (by omega)
        rw [hmask, show s / 64 * 64 + v % 64 = v by omega,
          decide_eq_true (by omega : v % 64 ≤ s % 64), Bool.and_true] at hhigh
        simpa using hhigh
      · rw [if_pos (by simpa using hzero), word_of_lt (lt_of_word hne'), Option.bind_some]
        rfl

/-- A summary bit marks a word that is not 0. -/
theorem Tiers.marked (ht : lad.Tiers) {s j : Nat} {mask : Word}
    (h : (lad.sumWord s &&& mask).getLsbD j = true) : lad.word (s * 64 + j) ≠ 0 := by
  have hj := BitVec.lt_of_getLsbD h
  rw [BitVec.getLsbD_and, Bool.and_eq_true] at h
  have hsum := ht.sum (s * 64 + j)
  rw [show (s * 64 + j) / 64 = s by omega, show (s * 64 + j) % 64 = j by omega, h.1] at hsum
  simpa using hsum.symm

theorem Tiers.rescanUp_total (ht : lad.Tiers) :
    ∀ fuel s, 0 < fuel → lad.bits.size < s + fuel → (lad.rescanUp fuel s).isSome := by
  intro fuel
  induction fuel with
  | zero => exact fun s h0 => absurd h0 (Nat.lt_irrefl 0)
  | succ fuel ih =>
    intro s _ hfuel
    by_cases hs : s < lad.bits.size
    · simp only [rescanUp, if_pos hs, ht.summary_of_lt hs, Option.bind_eq_bind, Option.bind_some]
      by_cases hzero : lad.sumWord (s / 64) &&& maskFrom (s % 64) = 0
      · rw [if_neg (by simpa using hzero)]
        exact ih _ (by omega) (by omega)
      · rw [if_pos (by simpa using hzero), word_of_lt (lt_of_word (ht.marked (getLsbD_ctz hzero)))]
        rfl
    · rw [rescanUp, if_neg hs]
      rfl

theorem Tiers.rescanDown_total (ht : lad.Tiers) :
    ∀ fuel n, n < fuel → n ≤ lad.bits.size → (lad.rescanDown fuel n).isSome := by
  intro fuel
  induction fuel with
  | zero => exact fun n h0 => absurd h0 (Nat.not_lt_zero n)
  | succ fuel ih =>
    rintro (_ | s) hfuel hn
    · rfl
    · simp only [rescanDown, ht.summary_of_lt hn, Option.bind_eq_bind, Option.bind_some]
      by_cases hzero : lad.sumWord (s / 64) &&& maskUpTo (s % 64) = 0
      · rw [if_neg (by simpa using hzero)]
        exact ih _ (by omega) (by omega)
      · rw [if_pos (by simpa using hzero),
          word_of_lt (lt_of_word (ht.marked (getLsbD_topBit hzero)))]
        rfl

/-- `rescan` always returns. -/
theorem Tiers.rescan_total (ht : lad.Tiers) (start : Nat) (hstart : start / 64 < lad.bits.size) :
    ∃ r, lad.rescan start = some r := by
  rw [← Option.isSome_iff_exists]
  simp only [rescan, word_of_lt hstart, Option.bind_eq_bind, Option.bind_some]
  split
  · split
    · rfl
    · exact ht.rescanUp_total _ _ (Nat.succ_pos _) (by omega)
  · split
    · rfl
    · exact ht.rescanDown_total _ _ (by omega) (by omega)

/-- `rescan` finds the next set bit inward of `start`. -/
theorem Tiers.rescan_spec (ht : lad.Tiers) (start : Nat) {j : Nat}
    (hstart : start / 64 < lad.bits.size) (hsmall : ∀ i, lad.bit i = true → i < 2 ^ 32)
    (hj : lad.bit j = true) (hinner : j = start ∨ Inner lad.side start j) :
    ∃ r, lad.rescan start = some r ∧ lad.bit r = true ∧
      ∀ i, lad.bit i = true → i = start ∨ Inner lad.side start i → i = r ∨ Inner lad.side r i := by
  have hbit : ∀ w i, i < 64 → (lad.word w).getLsbD i = true → lad.bit (w * 64 + i) = true :=
    fun w i hi h => (bit_word w i hi).trans h
  have hself : ∀ i, lad.bit i = true → (lad.word (i / 64)).getLsbD (i % 64) = true := fun i hi => hi
  simp only [rescan, word_of_lt hstart, Option.bind_eq_bind, Option.bind_some]
  cases hside : lad.side with
  | ask =>
    simp only [hside, Inner] at hinner ⊢
    have hle : start ≤ j := by omega
    by_cases hzero : lad.word (start / 64) &&& maskFrom (start % 64) = 0
    · -- nothing left in the word of `start`
      have hout : ∀ i, lad.bit i = true → start ≤ i → start / 64 + 1 ≤ i / 64 := by
        intro i hi hsi
        by_contra hlt
        have hbits := word_eq_zero.mp hzero (i % 64)
        rw [BitVec.getLsbD_and, getLsbD_maskFrom, show start / 64 = i / 64 by omega, hself i hi,
          decide_eq_true (by omega : start % 64 ≤ i % 64),
          decide_eq_true (Nat.mod_lt i (by decide))] at hbits
        exact Bool.noConfusion hbits
      obtain ⟨w, hw, hne, hbefore, hrun⟩ :=
        ht.rescanUp_spec (lad.bits.size + 1) (start / 64 + 1) (by omega)
        ⟨j / 64, hout j hj hle, word_ne_zero hj⟩
      have hc := ctz_lt hne
      have hset := hbit w _ hc (getLsbD_ctz hne)
      rw [Nat.mod_eq_of_lt (hsmall _ hset)] at hrun
      refine ⟨_, by rw [if_neg (by simpa using hzero), hrun], hset, fun i hi hsi => ?_⟩
      have hword := hout i hi (by omega)
      have hge : w ≤ i / 64 := by
        by_contra hlt
        exact word_ne_zero hi (hbefore _ hword (by omega))
      rcases Nat.lt_or_ge w (i / 64) with hlt | hge'
      · omega
      -- in the word found, no set bit is below the lowest
      · have hmin : ¬ i % 64 < ctz (lad.word w) := fun hlow => by
          have := getLsbD_lt_ctz hlow
          rw [show w = i / 64 by omega, hself i hi] at this
          exact Bool.noConfusion this
        omega
    -- the word of `start` has a bit at `start` or above
    · have hbits := getLsbD_ctz hzero
      rw [BitVec.getLsbD_and, getLsbD_maskFrom, Bool.and_eq_true, Bool.and_eq_true,
        decide_eq_true_iff, decide_eq_true_iff] at hbits
      obtain ⟨hset, hge, hlt⟩ := hbits
      have hset' := hbit _ _ hlt hset
      refine ⟨_, by rw [if_pos (by simpa using hzero)]; rfl, ?_, fun i hi hsi => ?_⟩
      · rwa [Nat.mod_eq_of_lt (hsmall _ hset')]
      · rw [Nat.mod_eq_of_lt (hsmall _ hset')]
        rcases Nat.lt_or_ge (start / 64) (i / 64) with hlt' | hge'
        · omega
        · have hmin : ¬ i % 64 < ctz (lad.word (start / 64) &&& maskFrom (start % 64)) :=
            fun hlow => by
            have := getLsbD_lt_ctz hlow
            rw [BitVec.getLsbD_and, getLsbD_maskFrom, show start / 64 = i / 64 by omega, hself i hi,
              decide_eq_true (by omega : start % 64 ≤ i % 64),
              decide_eq_true (Nat.mod_lt i (by decide))] at this
            exact Bool.noConfusion this
          omega
  | bid =>
    simp only [hside, Inner] at hinner ⊢
    have hle : j ≤ start := by omega
    have hs64 : start % 64 < 64 := Nat.mod_lt _ (by decide)
    by_cases hzero : lad.word (start / 64) &&& maskUpTo (start % 64) = 0
    -- nothing left in the word of `start`
    · have hout : ∀ i, lad.bit i = true → i ≤ start → i / 64 < start / 64 := by
        intro i hi hsi
        by_contra hge
        have hbits := word_eq_zero.mp hzero (i % 64)
        rw [BitVec.getLsbD_and, getLsbD_maskUpTo hs64, show start / 64 = i / 64 by omega,
          hself i hi, decide_eq_true (by omega : i % 64 ≤ start % 64)] at hbits
        exact Bool.noConfusion hbits
      obtain ⟨w, hw, hne, hafter, hrun⟩ := ht.rescanDown_spec (lad.bits.size + 1) (start / 64)
        (Nat.lt_succ_of_lt hstart) (Nat.le_of_lt hstart) ⟨j / 64, hout j hj hle, word_ne_zero hj⟩
      have hset := hbit w _ (topBit_lt _) (getLsbD_topBit hne)
      rw [Nat.mod_eq_of_lt (hsmall _ hset)] at hrun
      refine ⟨_, by rw [if_neg (by simpa using hzero), hrun], hset, fun i hi hsi => ?_⟩
      have hword := hout i hi (by omega)
      have hle' : i / 64 ≤ w := by
        by_contra hgt
        exact word_ne_zero hi (hafter _ hword (by omega))
      have htop := topBit_lt (lad.word w)
      rcases Nat.lt_or_ge (i / 64) w with hlt | hge
      · omega
      -- in the word found, no set bit is above the highest
      · have hmax : ¬ topBit (lad.word w) < i % 64 := fun hhigh => by
          have := getLsbD_gt_topBit hhigh
          rw [show w = i / 64 by omega, hself i hi] at this
          exact Bool.noConfusion this
        omega
    -- the word of `start` has a bit at `start` or below
    · have hbits := getLsbD_topBit hzero
      rw [BitVec.getLsbD_and, getLsbD_maskUpTo hs64, Bool.and_eq_true, decide_eq_true_iff] at hbits
      obtain ⟨hset, hge⟩ := hbits
      have htop := topBit_lt (lad.word (start / 64) &&& maskUpTo (start % 64))
      have hset' := hbit _ _ htop hset
      refine ⟨_, by rw [if_pos (by simpa using hzero)]; rfl, ?_, fun i hi hsi => ?_⟩
      · rwa [Nat.mod_eq_of_lt (hsmall _ hset')]
      · rw [Nat.mod_eq_of_lt (hsmall _ hset')]
        rcases Nat.lt_or_ge (i / 64) (start / 64) with hlt' | hge'
        · omega
        · have hmax : ¬ topBit (lad.word (start / 64) &&& maskUpTo (start % 64)) < i % 64 :=
            fun hhigh => by
            have := getLsbD_gt_topBit hhigh
            rw [BitVec.getLsbD_and, getLsbD_maskUpTo hs64, show start / 64 = i / 64 by omega,
              hself i hi, decide_eq_true (by omega : i % 64 ≤ start % 64)] at this
            exact Bool.noConfusion this
          omega

end Tiers

/-! ## The ladder as a list of occupied indices -/

/-- The prices the ladder has a slot for: from its base up to `top`. -/
def Spans (lad : LadderIndex) (top p : Price) : Prop := lad.base ≤ p ∧ p ≤ top

/-- Every index, and `NIL` beside them, fits 32 bits. -/
def Narrow (lad : LadderIndex) (top : Price) : Prop :=
  lad.base ≤ top → top.toInt - lad.base.toInt + 1 < 2 ^ 32

/-- The span fits a signed 64-bit counter. -/
def Short (lad : LadderIndex) (top : Price) : Prop :=
  lad.base ≤ top → top.toInt - lad.base.toInt + 1 < 2 ^ 63

theorem Narrow.short {lad : LadderIndex} {top : Price} (hn : lad.Narrow top) : lad.Short top :=
  fun hle =>
  (hn hle).trans (by decide)

/-- The ladder's arrays have a slot for `p`. -/
def HasRoom (lad : LadderIndex) (p : Price) : Prop :=
  lad.idx p < lad.levels.size ∧ lad.idx p / 64 < lad.bits.size

/-- The occupied indices are `occ`, best first. -/
structure Holds (lad : LadderIndex) (side : Side) (top : Price) (occ : List Nat) : Prop
    extends Tiers lad where
  side_eq : lad.side = side
  levels_size : lad.levels.size = (blank side lad.base top).levels.size
  bits_size : lad.bits.size = (blank side lad.base top).bits.size
  bits : ∀ i, lad.bit i = decide (i ∈ occ)
  sorted : occ.Pairwise (Inner side)
  valid : ∀ i ∈ occ, ∃ p, lad.Spans top p ∧ lad.HasRoom p ∧ i = lad.idx p
  few : occ.length < 2 ^ 32
  count : lad.count = occ.length
  best : lad.Narrow top → lad.best = occ.head?.getD NIL

section Holds

variable {lad : LadderIndex} {side : Side} {top : Price} {occ : List Nat}

theorem Holds.nodup (h : lad.Holds side top occ) : occ.Nodup := h.sorted.nodup

/-- The index of a price in the span. -/
theorem Narrow.lt_nil (hn : lad.Narrow top) {p : Price} (hp : lad.Spans top p) :
    lad.idx p < NIL := by
  have h1 := Int64.le_iff_toInt_le.mp hp.1
  have h2 := Int64.le_iff_toInt_le.mp hp.2
  have hlt := hn (Int64.le_trans hp.1 hp.2)
  rw [idx_eq lad hp.1]
  unfold NIL
  omega

theorem Holds.lt_nil (h : lad.Holds side top occ) (hn : lad.Narrow top) {i : Nat} (hi : i ∈ occ) :
    i < NIL := by
  obtain ⟨p, hp, _, rfl⟩ := h.valid i hi
  exact hn.lt_nil hp

theorem Holds.lt_size (h : lad.Holds side top occ) {i : Nat} (hi : i ∈ occ) :
    i < lad.levels.size ∧ i / 64 < lad.bits.size := by
  obtain ⟨p, _, hroom, rfl⟩ := h.valid i hi
  exact hroom

/-- A ladder has a slot for every price in its span. -/
theorem Holds.room (h : lad.Holds side top occ) (hn : lad.Short top) {p : Price}
    (hp : lad.Spans top p) :
    lad.HasRoom p ∧ lad.levels.size < 2 ^ 63 := by
  have h1 := Int64.le_iff_toInt_le.mp hp.1
  have h2 := Int64.le_iff_toInt_le.mp hp.2
  have hlt := hn (Int64.le_trans hp.1 hp.2)
  have hspan := span_eq (Int64.le_trans hp.1 hp.2) hlt
  have hidx := idx_eq lad hp.1
  have hlevels := h.levels_size
  have hbits := h.bits_size
  simp only [blank, Array.size_replicate, hspan] at hlevels hbits
  exact ⟨⟨by omega, by omega⟩, by omega⟩

/-- Only the words, the summary and the array sizes matter to the bitmap part. -/
theorem word_modify (lad' : LadderIndex) {w : Nat} {f : Word → Word} (hw : w < lad.bits.size)
    (hbits : lad'.bits = lad.bits.modify w f) (v : Nat) :
    lad'.word v = if v = w then f (lad.word w) else lad.word v := by
  rw [word, word, word, hbits, Array.getElem?_modify]
  by_cases hv : v = w
  · subst hv
    simp [hw]
  · simp [hv, Ne.symm hv]

theorem sumWord_modify (lad' : LadderIndex) {s : Nat} {f : Word → Word} (hs : s < lad.summary.size)
    (hsum : lad'.summary = lad.summary.modify s f) (v : Nat) :
    lad'.sumWord v = if v = s then f (lad.sumWord s) else lad.sumWord v := by
  rw [sumWord, sumWord, sumWord, hsum, Array.getElem?_modify]
  by_cases hv : v = s
  · subst hv
    simp [hs]
  · simp [hv, Ne.symm hv]

/-- Level contents do not matter. -/
theorem Holds.congr_levels (h : lad.Holds side top occ) {levels : Array Level}
    (hsize : levels.size = lad.levels.size) : Holds { lad with levels } side top occ :=
  { h with
    levels_size := hsize.trans h.levels_size
    valid := fun i hi => by
      obtain ⟨p, hp, hroom, heq⟩ := h.valid i hi
      refine ⟨p, hp, ?_, heq⟩
      rw [HasRoom, ← hsize] at hroom
      exact hroom }

/-- A new ladder lists nothing. -/
theorem blank_holds (side : Side) (pmin pmax : Price) :
    (LadderIndex.blank side pmin pmax).Holds side pmax [] := by
  obtain ⟨lad, hlad⟩ : ∃ lad, lad = LadderIndex.blank side pmin pmax := ⟨_, rfl⟩
  have hword : ∀ w, lad.word w = 0 := by
    intro w
    rw [word, hlad, LadderIndex.blank]
    simp only [Array.getElem?_replicate]
    split <;> rfl
  have hsumw : ∀ s, lad.sumWord s = 0 := by
    intro s
    rw [sumWord, hlad, LadderIndex.blank]
    simp only [Array.getElem?_replicate]
    split <;> rfl
  rw [← hlad]
  refine { side_eq := by rw [hlad]; rfl, words_le := ?_, sum := ?_,
           levels_size := by rw [hlad]; rfl, bits_size := by rw [hlad]; rfl, bits := ?_,
           sorted := List.Pairwise.nil, valid := fun _ h => absurd h List.not_mem_nil,
           few := by simp, count := by rw [hlad]; rfl, best := fun _ => by rw [hlad]; rfl }
  · rw [hlad, LadderIndex.blank]
    simp only [Array.size_replicate]
    omega
  · intro w
    rw [hsumw, hword]
    simp
  · intro i
    rw [bit, hword]
    simp

/-- `level_insert` lists an empty level's index. -/
theorem Holds.levelInsert (h : lad.Holds side top occ) {p : Price} (hp : lad.Spans top p)
    (hroom : lad.HasRoom p) (hfew : occ.length + 1 < 2 ^ 32) (hnew : lad.idx p ∉ occ) {l : Level}
    (hl : lad.levels[lad.idx p]? = some l) (hempty : l.empty = true) :
    ∃ lad', lad.levelInsert p = some lad' ∧
      lad'.Holds side top (occ.orderedInsert (Inner side) (lad.idx p)) ∧
      lad'.levels = lad.levels ∧ lad'.base = lad.base := by
  obtain ⟨hsize, hw⟩ := hroom
  obtain ⟨i, hi⟩ : ∃ i, i = lad.idx p := ⟨_, rfl⟩
  rw [← hi] at hsize hw hnew hl ⊢
  have hle := h.words_le
  -- the source finds the summary word from the index itself
  have h4096 : i / 4096 = i / 64 / 64 := by omega
  have hs : i / 64 / 64 < lad.summary.size := by omega
  obtain ⟨best', hbest'⟩ : ∃ best', best' =
      if lad.best = NIL ∨ lad.side = .bid ∧ i % 2 ^ 32 > lad.best ∨
        lad.side = .ask ∧ i % 2 ^ 32 < lad.best then i % 2 ^ 32 else lad.best := ⟨_, rfl⟩
  obtain ⟨lad', hlad'⟩ : ∃ lad' : LadderIndex, lad' = { lad with
      bits := lad.bits.modify (i / 64) (· ||| (1 : Word) <<< (i % 64))
      summary := lad.summary.modify (i / 64 / 64) (· ||| (1 : Word) <<< (i / 64 % 64))
      count := occ.length + 1
      best := best' } := ⟨_, rfl⟩
  have hword := word_modify lad' hw (by rw [hlad'])
  have hsumw := sumWord_modify lad' hs (by rw [hlad'])
  have hidx : ∀ q, lad'.idx q = lad.idx q := fun q => by rw [hlad']; rfl
  have hspans : ∀ q, lad'.Spans top q ↔ lad.Spans top q := fun q => by rw [hlad']; rfl
  refine ⟨lad', ?_, ?_, by rw [hlad'], by rw [hlad']⟩
  · have hcount : incr 32 lad.count = occ.length + 1 := by
      rw [h.count]
      exact incr_of_lt hfew
    simp only [LadderIndex.levelInsert, ← hi, hl, Option.bind_eq_bind, Option.bind_some,
      hempty, if_true, modify?_of_lt _ hw, h4096, modify?_of_lt _ hs, hcount, ← hbest']
    rw [hlad']
    rfl
  · have hlt64 : i % 64 < 64 := Nat.mod_lt i (by decide)
    have hlt64' : i / 64 % 64 < 64 := Nat.mod_lt _ (by decide)
    have hroom' : ∀ q, lad'.HasRoom q ↔ lad.HasRoom q := fun q => by
      rw [HasRoom, HasRoom, hidx, hlad']
      simp
    refine { side_eq := by rw [hlad']; exact h.side_eq, words_le := ?_, sum := ?_,
             levels_size := by rw [hlad']; exact h.levels_size, bits_size := ?_, bits := ?_,
             sorted := ranked_insert h.sorted hnew, valid := ?_, few := ?_, count := ?_,
             best := fun hn => ?_ }
    · rw [hlad']
      simpa using hle
    · intro w
      rw [hsumw, hword]
      by_cases hwi : w = i / 64
      -- a word with the new bit is marked
      · have hne : lad.word (i / 64) ||| (1 : Word) <<< (i % 64) ≠ 0 := by
          intro h0
          have := word_eq_zero.mp h0 (i % 64)
          rw [getLsbD_or_bit hlt64] at this
          simp at this
        rw [if_pos hwi, if_pos (by rw [hwi]), getLsbD_or_bit hlt64', decide_eq_true hne]
        simp [hwi]
      · rw [if_neg hwi, ← h.sum w]
        split
        · next hww =>
          rw [getLsbD_or_bit hlt64', hww, decide_eq_false (by omega : ¬ w % 64 = i / 64 % 64),
            Bool.or_false]
        · rfl
    · rw [hlad']
      simpa using h.bits_size
    · intro j
      rw [bit, hword]
      have hmem : decide (j ∈ occ.orderedInsert (Inner side) i) =
          (decide (j ∈ occ) || decide (j = i)) := by
        simp only [List.mem_orderedInsert, Bool.decide_or, Bool.or_comm]
      rw [hmem, ← h.bits j, bit]
      split
      · next hji =>
        rw [getLsbD_or_bit hlt64, hji]
        congr 1
        simp only [decide_eq_decide]
        omega
      · next hji =>
        rw [decide_eq_false (by rintro rfl; exact hji rfl), Bool.or_false]
    · intro j hj
      rcases (List.mem_orderedInsert _).mp hj with rfl | hj
      · exact ⟨p, (hspans p).mpr hp, (hroom' p).mpr ⟨hi ▸ hsize, hi ▸ hw⟩, by rw [hidx, hi]⟩
      · obtain ⟨q, hq, hqr, rfl⟩ := h.valid j hj
        exact ⟨q, (hspans q).mpr hq, (hroom' q).mpr hqr, (hidx q).symm⟩
    · rwa [List.orderedInsert_length]
    · rw [hlad', List.orderedInsert_length]
    · -- in a narrow ladder the cursor moves to the new index just when it comes first
      have hn' : lad.Narrow top := by
        rw [hlad'] at hn
        exact hn
      have hnil : i < NIL := hi ▸ hn'.lt_nil hp
      have hi32 : i % 2 ^ 32 = i := Nat.mod_eq_of_lt (Nat.lt_trans hnil (by decide))
      rw [hlad', show ({ lad with best := best' } : LadderIndex).best = best' from rfl, hbest',
        hi32, h.best hn', h.side_eq]
      cases hocc : occ with
      | nil => simp
      | cons b r =>
        have hb : b ≠ NIL := (h.lt_nil hn' (i := b) (by simp [hocc])).ne
        have hcond : (b = NIL ∨ side = .bid ∧ i > b ∨ side = .ask ∧ i < b) ↔ Inner side i b := by
          cases side <;> simp [Inner, hb]
        simp only [List.head?_cons, Option.getD_some, hcond, List.orderedInsert_cons]
        split <;> rfl

/-- `clearBit` clears one bit and keeps the tiers in step. -/
theorem Tiers.clearBit (ht : lad.Tiers) {i : Nat} (hw : i / 64 < lad.bits.size) :
    ∃ lad', lad.clearBit i = some lad' ∧ lad'.Tiers ∧ lad'.bits.size = lad.bits.size ∧
      lad' = { lad with bits := lad'.bits, summary := lad'.summary } ∧
      ∀ j, lad'.bit j = (lad.bit j && decide (j ≠ i)) := by
  have hle := ht.words_le
  have hs : i / 64 / 64 < lad.summary.size := by omega
  have hlt64 : i % 64 < 64 := Nat.mod_lt i (by decide)
  have hlt64' : i / 64 % 64 < 64 := Nat.mod_lt _ (by decide)
  obtain ⟨cleared, hcleared⟩ : ∃ c, c = lad.word (i / 64) &&& ~~~((1 : Word) <<< (i % 64)) :=
    ⟨_, rfl⟩
  obtain ⟨bits, hbits⟩ : ∃ b, b = lad.bits.modify (i / 64) (· &&& ~~~((1 : Word) <<< (i % 64))) :=
    ⟨_, rfl⟩
  obtain ⟨summary, hsummary⟩ : ∃ s, s = if cleared = 0 then
      lad.summary.modify (i / 64 / 64) (· &&& ~~~((1 : Word) <<< (i / 64 % 64))) else lad.summary :=
        ⟨_, rfl⟩
  obtain ⟨lad', hlad'⟩ : ∃ lad' : LadderIndex, lad' = { lad with bits, summary } := ⟨_, rfl⟩
  have hword : ∀ v, lad'.word v = if v = i / 64 then cleared else lad.word v := fun v => by
    rw [word_modify lad' hw (by rw [hlad', hbits]) v, hcleared]
  -- the mark goes only when the word has become 0
  have hsumw : ∀ v, lad'.sumWord v = if cleared = 0 ∧ v = i / 64 / 64 then
      lad.sumWord (i / 64 / 64) &&& ~~~((1 : Word) <<< (i / 64 % 64)) else lad.sumWord v := by
    intro v
    by_cases hz : cleared = 0
    · rw [sumWord_modify lad' hs (by rw [hlad', hsummary, if_pos hz]) v]
      simp [hz]
    · rw [if_neg (fun hc => hz hc.1), sumWord, sumWord, hlad', hsummary, if_neg hz]
  refine ⟨lad', ?_, ⟨?_, fun w => ?_⟩, by simp [hlad', hbits], by rw [hlad'], fun j => ?_⟩
  · have hread : bits[i / 64]? = some cleared := by
      rw [hbits, Array.getElem?_modify, if_pos rfl, word_of_lt hw, Option.map_some, hcleared]
    simp only [LadderIndex.clearBit, modify?_of_lt _ hw, modify?_of_lt _ hs, Option.bind_eq_bind,
      Option.bind_some, ← hbits, hread]
    rw [hlad', hsummary]
    split <;> rfl
  · rw [hlad', hsummary, hbits]
    split <;> simpa using hle
  · rw [hsumw, hword]
    by_cases hwi : w = i / 64
    · subst hwi
      rw [if_pos rfl]
      by_cases hz : cleared = 0
      · rw [if_pos ⟨hz, rfl⟩, getLsbD_clear_bit hlt64']
        simp [hz]
      · rw [if_neg (fun hc => hz hc.1), ht.sum, decide_eq_true hz, decide_eq_true]
        -- the word was not 0 before either, or clearing a bit would have left 0
        intro h0
        rw [h0] at hcleared
        exact hz (by rw [hcleared]; simp)
    · rw [if_neg hwi, ← ht.sum w]
      split
      · next hc =>
        rw [getLsbD_clear_bit hlt64', ← hc.2, decide_eq_true (by omega : w % 64 ≠ i / 64 % 64),
          Bool.and_true]
      · rfl
  · rw [bit, bit, hword]
    split
    · next hji =>
      rw [hcleared, getLsbD_clear_bit hlt64, hji]
      congr 1
      simp only [decide_eq_decide]
      omega
    · next hji =>
      rw [decide_eq_true (by rintro rfl; exact hji rfl), Bool.and_true]

/-- `unlink_level` takes an emptied level's index off the list. -/
theorem Holds.unlinkLevel (h : lad.Holds side top occ) {p : Price}
    (hmem : lad.idx p ∈ occ) {l : Level} (hl : lad.levels[lad.idx p]? = some l)
    (hempty : l.empty = true) :
    ∃ lad', lad.unlinkLevel p = some lad' ∧ lad'.Holds side top (occ.erase (lad.idx p)) ∧
      lad'.levels = lad.levels ∧ lad'.base = lad.base := by
  obtain ⟨i, hi⟩ : ∃ i, i = lad.idx p := ⟨_, rfl⟩
  rw [← hi] at hmem hl ⊢
  have hw := (h.lt_size hmem).2
  obtain ⟨mid, hclear, htiers, hbsize, hmid, hbit⟩ := h.toTiers.clearBit hw
  have hbits : ∀ j, mid.bit j = decide (j ∈ occ.erase i) := by
    intro j
    rw [hbit, h.bits]
    by_cases hj : j = i <;> simp [hj, h.nodup.mem_erase_iff]
  have hcount : decr 32 mid.count = (occ.erase i).length := by
    have hpos : 0 < occ.length := List.length_pos_of_mem hmem
    rw [hmid, h.count, decr_of_pos hpos h.few, List.length_erase_of_mem hmem]
  -- whatever the cursor becomes, the rest of the invariant holds
  have hfinal : ∀ best, (lad.Narrow top → best = (occ.erase i).head?.getD NIL) →
      Holds { mid with count := (occ.erase i).length, best } side top (occ.erase i) := by
    intro best hbest
    refine { toTiers := ⟨htiers.words_le, htiers.sum⟩, side_eq := ?_, levels_size := ?_,
             bits_size := ?_, bits := hbits, sorted := h.sorted.sublist List.erase_sublist,
             valid := ?_, few := ?_, count := rfl, best := fun hn => hbest ?_ }
    · rw [hmid]
      exact h.side_eq
    · rw [hmid]
      exact h.levels_size
    · show mid.bits.size = _
      rw [hbsize, hmid]
      exact h.bits_size
    · intro j hj
      obtain ⟨q, hq, hroom, rfl⟩ := h.valid j (List.mem_of_mem_erase hj)
      have hidx : mid.idx q = lad.idx q := by rw [hmid]; rfl
      refine ⟨q, ?_, ?_, hidx.symm⟩
      · show mid.base ≤ q ∧ q ≤ top
        rw [hmid]
        exact hq
      · show mid.idx q < mid.levels.size ∧ mid.idx q / 64 < mid.bits.size
        rw [hbsize, hidx, hmid]
        exact hroom
    · exact lt_of_le_of_lt List.length_erase_le h.few
    · rw [hmid] at hn
      exact hn
  have hrun : lad.unlinkLevel p = if (occ.erase i).length = 0 then
        some { mid with count := (occ.erase i).length, best := NIL }
      else if i % 2 ^ 32 = lad.best then
        (mid.rescan i).map fun r =>
          { mid with count := (occ.erase i).length, best := r }
      else some { mid with count := (occ.erase i).length } := by
    have hbest : mid.best = lad.best := by rw [hmid]
    rw [LadderIndex.unlinkLevel, ← hi, hl]
    show (if (!l.empty) = true then some lad else (lad.clearBit i).bind fun lad =>
      if decr 32 lad.count = 0 then some { lad with count := decr 32 lad.count, best := NIL }
      else if i % 2 ^ 32 = lad.best then
        (lad.rescan i).bind fun r => some { lad with count := decr 32 lad.count, best := r }
      else some { lad with count := decr 32 lad.count }) = _
    rw [hempty, hclear, Option.bind_some, hcount, hbest, Option.map_eq_bind]
    rfl
  by_cases hlen : (occ.erase i).length = 0
  · refine ⟨_, by rw [hrun, if_pos hlen], hfinal NIL fun _ => ?_, by rw [hmid], by rw [hmid]⟩
    rw [List.length_eq_zero_iff.mp hlen]
    rfl
  have hi32 : lad.Narrow top → i % 2 ^ 32 = i := fun hn =>
    Nat.mod_eq_of_lt (Nat.lt_trans (h.lt_nil hn hmem) (by decide))
  by_cases hbest : i % 2 ^ 32 = lad.best
  · obtain ⟨best, hrescan⟩ := htiers.rescan_total i (by rwa [hbsize])
    refine ⟨_, by rw [hrun, if_neg hlen, if_pos hbest, hrescan, Option.map_some],
      hfinal best fun hn => ?_, by rw [hmid], by rw [hmid]⟩
    -- the best level went: `rescan` finds the next one
    rw [hi32 hn] at hbest
    obtain ⟨r, l', hocc⟩ : ∃ r l', occ.erase i = r :: l' :=
      List.exists_cons_of_length_pos (Nat.pos_of_ne_zero hlen)
    have hinner : ∀ j ∈ occ.erase i, Inner side i j := by
      intro j hj
      have hj' := h.nodup.mem_erase_iff.mp hj
      have hhead : occ.head? = some i := by
        rw [hbest, h.best hn]
        cases hh : occ.head? with
        | none => simp [List.head?_eq_none_iff.mp hh] at hmem
        | some b => rfl
      exact (ranked_head h.sorted hhead hj'.2).resolve_left hj'.1
    have hside : mid.side = side := by
      rw [hmid]
      exact h.side_eq
    obtain ⟨best', hrescan', hbestbit, hfirst⟩ := htiers.rescan_spec i (j := r) (by rwa [hbsize])
      (fun j hj => by
        rw [hbits, decide_eq_true_iff] at hj
        exact Nat.lt_trans (h.lt_nil hn (List.mem_of_mem_erase hj)) (by decide))
      (by simp [hbits, hocc]) (Or.inr (by rw [hside]; exact hinner r (by simp [hocc])))
    obtain rfl : best = best' := Option.some.inj (hrescan.symm.trans hrescan')
    have hbestmem : best ∈ occ.erase i := by rwa [hbits, decide_eq_true_iff] at hbestbit
    have hhead : (occ.erase i).head? = some best := by
      refine ranked_head?_eq (h.sorted.sublist List.erase_sublist) hbestmem fun j hj => ?_
      rw [hside] at hfirst
      exact hfirst j (by simpa [hbits] using hj) (Or.inr (hinner j hj))
    rw [hhead]
    rfl
  · refine ⟨_, by rw [hrun, if_neg hlen, if_neg hbest], hfinal mid.best fun hn =>
      ?_, by rw [hmid], by rw [hmid]⟩
    rw [hmid]
    show lad.best = _
    rw [hi32 hn, h.best hn] at hbest
    rw [h.best hn]
    cases hocc : occ with
    | nil => simp [hocc] at hmem
    | cons b l' =>
      rw [hocc] at hbest
      rw [List.erase_cons_tail (by simpa using Ne.symm hbest)]
      rfl

/-! ## Enumerating the levels -/

/-- The total recorded at index `i`. -/
def totalAt (lad : LadderIndex) (i : Nat) : Qty := ((lad.levels[i]?).map Level.total).getD 0

theorem Holds.read_level (h : lad.Holds side top occ) {i : Nat} (hi : i ∈ occ) :
    ∃ l, lad.levels[i]? = some l ∧ lad.totalAt i = l.total := by
  obtain ⟨l, hl⟩ := exists_getElem? (h.lt_size hi).1
  exact ⟨l, hl, by simp [totalAt, hl]⟩

/-- The occupied indices within one word. -/
theorem Holds.mem_word (h : lad.Holds side top occ) {w j : Nat} :
    j ∈ (bitsOf (lad.word w)).map (w * 64 + ·) ↔ j ∈ occ ∧ j / 64 = w := by
  rw [List.mem_map]
  constructor
  · rintro ⟨b, hb, rfl⟩
    have hb' := mem_bitsOf.mp hb
    have h64 := BitVec.lt_of_getLsbD hb'
    rw [← bit_word w b h64, h.bits, decide_eq_true_iff] at hb'
    exact ⟨hb', by omega⟩
  · rintro ⟨hj, rfl⟩
    refine ⟨j % 64, mem_bitsOf.mpr ?_, by omega⟩
    rw [← bit_word _ _ (Nat.mod_lt j (by decide)), show j / 64 * 64 + j % 64 = j by omega, h.bits,
      decide_eq_true hj]

theorem nodup_word (w : Nat) (word : Word) : ((bitsOf word).map (w * 64 + ·)).Nodup :=
  (pairwise_bitsOf word).nodup.map fun _ _ hab => Nat.add_left_cancel hab

/-- `sum_range`'s word loop adds up the occupied indices in `[i, hi]`. -/
theorem Holds.sumFrom (h : lad.Holds side top occ) {hi : Nat} (hhi : hi / 64 < lad.bits.size) :
    ∀ fuel i, 0 < fuel → hi / 64 + 1 < i / 64 + fuel →
      lad.sumFrom hi fuel i =
        some (((occ.filter fun j => i ≤ j ∧ j ≤ hi).map lad.totalAt).sum) := by
  intro fuel
  induction fuel with
  | zero => exact fun i h0 => absurd h0 (Nat.lt_irrefl 0)
  | succ fuel ih =>
    intro i _ hfuel
    by_cases hi' : i ≤ hi
    · have hw : i / 64 < lad.bits.size := by omega
      obtain ⟨last, hlast⟩ : ∃ last, last = min (i / 64 * 64 + 63) hi := ⟨_, rfl⟩
      obtain ⟨word, hword⟩ :
        ∃ w, w = lad.word (i / 64) &&& maskFrom (i % 64) &&& maskUpTo (last % 64) :=
        ⟨_, rfl⟩
      have hbit : ∀ b, word.getLsbD b =
          ((lad.word (i / 64)).getLsbD b && decide (i % 64 ≤ b ∧ b ≤ last % 64)) := by
        intro b
        rw [hword, BitVec.getLsbD_and, BitVec.getLsbD_and, getLsbD_maskFrom,
          getLsbD_maskUpTo (Nat.mod_lt _ (by decide))]
        by_cases hb : b < 64
        · simp [hb, Bool.and_assoc]
        · simp [BitVec.getLsbD_of_ge _ b (Nat.le_of_not_lt hb)]
      -- the bits of the masked word are the occupied indices of this round
      have hmem : ∀ j, j ∈ (bitsOf word).map (i / 64 * 64 + ·) ↔ j ∈ occ ∧ i ≤ j ∧ j ≤ last := by
        intro j
        have hj := h.mem_word (w := i / 64) (j := j)
        simp only [List.mem_map, mem_bitsOf, hbit, Bool.and_eq_true, decide_eq_true_iff] at hj ⊢
        constructor
        · rintro ⟨b, ⟨hb, hb1, hb2⟩, rfl⟩
          have h64 := BitVec.lt_of_getLsbD hb
          exact ⟨(hj.mp ⟨b, hb, rfl⟩).1, by omega, by omega⟩
        · rintro ⟨hj', h1, h2⟩
          obtain ⟨b, hb, hbj⟩ := hj.mpr ⟨hj', by omega⟩
          have h64 := BitVec.lt_of_getLsbD hb
          exact ⟨b, ⟨hb, by omega, by omega⟩, hbj⟩
      have hperm : ((bitsOf word).map (i / 64 * 64 + ·) ++
          occ.filter fun j => i / 64 * 64 + 64 ≤ j ∧ j ≤ hi).Perm (occ.filter fun j => i ≤ j ∧
          j ≤ hi) := by
        rw [List.perm_ext_iff_of_nodup _ (h.nodup.filter _)]
        · intro j
          rw [List.mem_append, hmem, List.mem_filter, List.mem_filter, decide_eq_true_iff,
            decide_eq_true_iff]
          constructor
          · rintro (⟨hj, h1, h2⟩ | ⟨hj, h1, h2⟩)
            · exact ⟨hj, h1, by omega⟩
            · exact ⟨hj, by omega, h2⟩
          · rintro ⟨hj, h1, h2⟩
            by_cases hlow : j ≤ last
            · exact Or.inl ⟨hj, h1, hlow⟩
            · exact Or.inr ⟨hj, by omega, h2⟩
        · refine List.nodup_append.mpr ⟨nodup_word _ _, h.nodup.filter _, fun a ha b hb hab => ?_⟩
          rw [hmem] at ha
          rw [List.mem_filter, decide_eq_true_iff] at hb
          omega
      have hloop : ((scanUp 64 word).mapM fun b => (lad.levels[i / 64 * 64 + b]?).map Level.total) =
          some (((bitsOf word).map (i / 64 * 64 + ·)).map lad.totalAt) := by
        rw [scanUp_eq 64 word (length_bitsOf word), List.map_map]
        refine mapM_eq_some fun b hb => ?_
        obtain ⟨l, hl, htot⟩ := h.read_level ((hmem _).mp (List.mem_map_of_mem hb)).1
        rw [hl, Option.map_some, Function.comp_apply, htot]
      have hrest := ih (i / 64 * 64 + 64) (by omega) (by omega)
      simp only [LadderIndex.sumFrom, if_pos hi', word_of_lt hw, Option.bind_eq_bind,
        Option.bind_some, ← hlast, ← hword, hloop, hrest]
      rw [← (hperm.map lad.totalAt).sum_eq, List.map_append, List.sum_append]
      rfl
    · have hempty : (occ.filter fun j => i ≤ j ∧ j ≤ hi) = [] := by
        rw [List.filter_eq_nil_iff]
        intro j _ hj
        rw [decide_eq_true_iff] at hj
        omega
      rw [LadderIndex.sumFrom, if_neg hi', hempty]
      rfl

/-- `sum_range` over a range within the ladder. -/
theorem Holds.sumRange (h : lad.Holds side top occ) (hn : lad.Short top) {lo hi : Price}
    (hlo : lad.Spans top lo) (hhi : lad.Spans top hi) :
    lad.sumRange lo hi =
      some (((occ.filter fun j => lad.idx lo ≤ j ∧ j ≤ lad.idx hi).map lad.totalAt).sum) := by
  obtain ⟨⟨hsize, hw⟩, hlast⟩ := h.room hn hhi
  obtain ⟨⟨hsize', _⟩, _⟩ := h.room hn hlo
  have hlong : ∀ n, n < 2 ^ 63 → toLong n = (n : Int) := fun n hn => if_pos hn
  have hclampLo : (if toLong (lad.idx lo) < 0 then (0 : Int) else toLong (lad.idx lo)) =
      lad.idx lo := by
    rw [hlong _ (by omega), if_neg (by omega)]
  have hclampHi : (if toLong (lad.idx hi) > toLong lad.levels.size - 1 then toLong lad.levels.size -
      1
      else toLong (lad.idx hi)) = lad.idx hi := by
    rw [hlong _ (by omega), hlong _ hlast, if_neg (by omega)]
  simp only [LadderIndex.sumRange, hclampLo, hclampHi, Int.toNat_natCast]
  split
  · next hgt =>
    have hempty : (occ.filter fun j => lad.idx lo ≤ j ∧ j ≤ lad.idx hi) = [] := by
      rw [List.filter_eq_nil_iff]
      intro j _ hj
      rw [decide_eq_true_iff] at hj
      omega
    rw [hempty]
    rfl
  · next hle => exact h.sumFrom hw _ _ (Nat.succ_pos _) (by omega)

/-- What `depth` reports for an occupied index. -/
def depthOf (lad : LadderIndex) (i : Nat) : LevelDepth := ⟨lad.priceAt i, lad.totalAt i⟩

theorem Holds.depthAt (h : lad.Holds side top occ) {i : Nat} (hi : i ∈ occ) :
    lad.depthAt i = some (lad.depthOf i) := by
  obtain ⟨l, hl, htot⟩ := h.read_level hi
  rw [LadderIndex.depthAt, hl, Option.map_some, depthOf, htot]

/-- One word's worth of levels, the wanted number of them. -/
theorem Holds.depthWord (h : lad.Holds side top occ) (w room : Nat) (bs : List Nat)
    (hbs : ∀ b ∈ bs, b ∈ bitsOf (lad.word w)) :
    ((bs.take room).mapM fun b => lad.depthAt (w * 64 + b)) =
      some (((bs.map (w * 64 + ·)).take room).map lad.depthOf) := by
  rw [← List.map_take, List.map_map]
  refine mapM_eq_some fun b hb => ?_
  have hmem := h.mem_word.mp (List.mem_map_of_mem (f := (w * 64 + ·))
    (hbs b (List.mem_of_mem_take hb)))
  exact h.depthAt hmem.1

/-- Listing one word and then the rest is listing all. -/
theorem take_map_append {xs ys : List Nat} {room : Nat} (g : Nat → LevelDepth) :
    (xs.take room).map g ++ (ys.take (room - ((xs.take room).map g).length)).map g =
      ((xs ++ ys).take room).map g := by
  rw [List.take_append, List.map_append, List.length_map, List.length_take,
    show room - min room xs.length = room - xs.length by omega]

theorem Holds.depthUp (h : lad.Holds .ask top occ) :
    ∀ n w room, w + n = lad.bits.size →
      lad.depthUp n w room =
        some (((occ.filter fun j => w * 64 ≤ j).take room).map lad.depthOf) := by
  intro n
  induction n with
  | zero =>
    intro w room hw
    have hempty : (occ.filter fun j => w * 64 ≤ j) = [] := by
      rw [List.filter_eq_nil_iff]
      intro j hj hle
      have := (h.lt_size hj).2
      rw [decide_eq_true_iff] at hle
      omega
    rw [hempty, LadderIndex.depthUp, List.take_nil]
    rfl
  | succ n ih =>
    intro w room hw
    by_cases hroom : room = 0
    · rw [LadderIndex.depthUp, if_pos hroom, hroom, List.take_zero]
      rfl
    -- the occupied indices from here on: those of word `w`, then those of the later words
    · have hsplit : (occ.filter fun j => w * 64 ≤ j) =
          (bitsOf (lad.word w)).map (w * 64 + ·) ++ occ.filter fun j => (w + 1) * 64 ≤ j := by
        refine ranked_ext (r := (· < ·)) (h.sorted.filter _) (List.pairwise_append.mpr ⟨?_, ?_,
          ?_⟩) ?_
        · exact (pairwise_bitsOf _).map _ fun a b hab => Nat.add_lt_add_left hab _
        · exact h.sorted.filter _
        · intro a ha b hb
          have := (h.mem_word.mp ha).2
          rw [List.mem_filter, decide_eq_true_iff] at hb
          omega
        · intro j
          rw [List.mem_append, h.mem_word, List.mem_filter, List.mem_filter, decide_eq_true_iff,
            decide_eq_true_iff, ← and_or_left]
          exact and_congr_right fun _ => by omega
      have hword := h.depthWord w room (bitsOf (lad.word w)) fun _ hb => hb
      simp only [LadderIndex.depthUp, if_neg hroom, word_of_lt (by omega : w < lad.bits.size),
        Option.bind_eq_bind, Option.bind_some, scanUp_eq 64 _ (length_bitsOf _), hword,
        ih (w + 1) _ (by omega)]
      rw [hsplit, ← take_map_append]
      rfl

theorem Holds.depthDown (h : lad.Holds .bid top occ) :
    ∀ w room, w ≤ lad.bits.size →
      lad.depthDown w room =
        some (((occ.filter fun j => j < w * 64).take room).map lad.depthOf) := by
  intro w
  induction w with
  | zero =>
    intro room _
    have hempty : (occ.filter fun j => j < 0 * 64) = [] := by
      rw [List.filter_eq_nil_iff]
      intro j _ hlt
      simp at hlt
    rw [hempty, LadderIndex.depthDown, List.take_nil]
    rfl
  | succ w ih =>
    intro room hw
    by_cases hroom : room = 0
    · rw [LadderIndex.depthDown, if_pos hroom, hroom, List.take_zero]
      rfl
    -- the occupied indices below: those of word `w` from the top, then those of the earlier words
    · have hsplit : (occ.filter fun j => j < (w + 1) * 64) =
          (bitsOf (lad.word w)).reverse.map (w * 64 + ·) ++ occ.filter fun j => j < w * 64 := by
        refine ranked_ext (r := (· > ·)) (h.sorted.filter _) (List.pairwise_append.mpr ⟨?_, ?_,
          ?_⟩) ?_
        · rw [List.map_reverse, List.pairwise_reverse]
          exact (pairwise_bitsOf _).map _ fun a b hab => Nat.add_lt_add_left hab _
        · exact h.sorted.filter _
        · intro a ha b hb
          rw [List.map_reverse, List.mem_reverse, h.mem_word] at ha
          rw [List.mem_filter, decide_eq_true_iff] at hb
          omega
        · intro j
          rw [List.mem_append, List.map_reverse, List.mem_reverse, h.mem_word, List.mem_filter,
            List.mem_filter, decide_eq_true_iff, decide_eq_true_iff, ← and_or_left]
          exact and_congr_right fun _ => by omega
      have hword := h.depthWord w room (bitsOf (lad.word w)).reverse fun _ hb =>
        List.mem_reverse.mp hb
      simp only [LadderIndex.depthDown, if_neg hroom, word_of_lt (by omega : w < lad.bits.size),
        Option.bind_eq_bind, Option.bind_some, scanDown_eq 64 _ (length_bitsOf _), hword,
        ih _ (by omega)]
      rw [hsplit, ← take_map_append]
      rfl

/-- `depth` lists the first `n` levels. -/
theorem Holds.depth (h : lad.Holds side top occ) (n : Nat) :
    lad.depth n = some ((occ.take n).map lad.depthOf) := by
  have hbound : ∀ j ∈ occ, j < lad.bits.size * 64 := by
    intro j hj
    have := (h.lt_size hj).2
    omega
  cases side with
  | ask =>
    rw [LadderIndex.depth, h.side_eq]
    simp only [h.depthUp lad.bits.size 0 n (Nat.zero_add _)]
    rw [List.filter_eq_self.mpr fun j _ => by simp]
  | bid =>
    rw [LadderIndex.depth, h.side_eq]
    simp only [h.depthDown lad.bits.size n le_rfl]
    rw [List.filter_eq_self.mpr fun j hj => by simpa using hbound j hj]

/-- `best_price` is the price of the first level. -/
theorem Holds.bestPrice (h : lad.Holds side top occ) (hn : lad.Narrow top) :
    lad.bestPrice = occ.head?.map lad.priceAt := by
  rw [LadderIndex.bestPrice, h.best hn]
  cases hocc : occ with
  | nil => simp
  | cons i l =>
    have hi : i ≠ NIL := (h.lt_nil hn (i := i) (by simp [hocc])).ne
    simp [hi]

end Holds

end LadderIndex

end Matcher
