import Mathlib

/-!
# 64-bit words as sets of bit positions

Occupancy bitmaps: masks that keep the bits from or up to a position, the lowest
and the highest set bit, and the two loops that visit all set bits in order by
clearing the lowest (highest) one each round. Every lemma states what
`getLsbD`, the membership test, says about the result.
-/

namespace Kit

abbrev Word := BitVec 64

/-- `~0ull << k` -/
def maskFrom (k : Nat) : Word := BitVec.allOnes 64 <<< k

/-- `~0ull >> (63 - k)` -/
def maskUpTo (k : Nat) : Word := BitVec.allOnes 64 >>> (63 - k)

/-- `__builtin_ctzll` -/
def ctz (w : Word) : Nat := w.ctz.toNat

/-- `63 - __builtin_clzll`: the highest set bit. -/
def topBit (w : Word) : Nat := 63 - w.clz.toNat

/-- The bits a `while (word)` loop visits that clears the lowest set bit each
round; 64 rounds clear any word. -/
def scanUp : Nat → Word → List Nat
  | 0, _ => []
  | n + 1, w => if w = 0 then [] else ctz w :: scanUp n (w &&& (w - 1))

/-- The same from the highest set bit downwards. -/
def scanDown : Nat → Word → List Nat
  | 0, _ => []
  | n + 1, w => if w = 0 then [] else topBit w :: scanDown n (w &&& ~~~((1 : Word) <<< topBit w))

/-! ## Single bits -/

theorem getLsbD_bit {k : Nat} (hk : k < 64) (i : Nat) :
    ((1 : Word) <<< k).getLsbD i = decide (i = k) := by
  rw [BitVec.getLsbD_shiftLeft]
  by_cases hik : i = k
  · subst hik
    simp [hk]
  · by_cases hlt : i < k
    · simp [hlt, hik]
    · have hpos : i - k ≠ 0 := by omega
      simp [hik, hlt, hpos]

theorem getLsbD_or_bit {k : Nat} (hk : k < 64) (w : Word) (i : Nat) :
    (w ||| (1 : Word) <<< k).getLsbD i = (w.getLsbD i || decide (i = k)) := by
  rw [BitVec.getLsbD_or, getLsbD_bit hk]

theorem getLsbD_clear_bit {k : Nat} (hk : k < 64) (w : Word) (i : Nat) :
    (w &&& ~~~((1 : Word) <<< k)).getLsbD i = (w.getLsbD i && decide (i ≠ k)) := by
  rw [BitVec.getLsbD_and, BitVec.getLsbD_not, getLsbD_bit hk]
  by_cases hi : i < 64
  · simp [hi]
  · simp [hi, BitVec.getLsbD_of_ge w i (Nat.le_of_not_lt hi)]

theorem getLsbD_maskFrom (k i : Nat) :
    (maskFrom k).getLsbD i = (decide (k ≤ i) && decide (i < 64)) := by
  rw [maskFrom, BitVec.getLsbD_shiftLeft, BitVec.getLsbD_allOnes]
  by_cases hi : i < 64
  · by_cases hk : k ≤ i
    · simp [hi, hk]
      omega
    · simp [hi, hk, Nat.lt_of_not_le hk]
  · simp [hi]

theorem getLsbD_maskUpTo {k : Nat} (hk : k < 64) (i : Nat) :
    (maskUpTo k).getLsbD i = decide (i ≤ k) := by
  rw [maskUpTo, BitVec.getLsbD_ushiftRight, BitVec.getLsbD_allOnes]
  simp only [decide_eq_decide]
  omega

/-- A word is 0 exactly when it has no bit. -/
theorem word_eq_zero {w : Word} : w = 0 ↔ ∀ i, w.getLsbD i = false := by
  constructor
  · rintro rfl i
    simp
  · intro h
    exact BitVec.eq_of_getLsbD_eq fun i _ => by rw [h i]; simp

/-! ## The lowest and the highest bit -/

theorem ctz_lt {w : Word} (h : w ≠ 0) : ctz w < 64 := by
  have := BitVec.lt_def.mp (BitVec.ctz_lt_iff_ne_zero.mpr h)
  simpa [ctz] using this

theorem getLsbD_ctz {w : Word} (h : w ≠ 0) : w.getLsbD (ctz w) = true :=
  BitVec.getLsbD_true_ctz_of_ne_zero h

theorem getLsbD_lt_ctz {w : Word} {i : Nat} (h : i < ctz w) : w.getLsbD i = false :=
  BitVec.getLsbD_false_of_lt_ctz h

theorem reverse_ne_zero {w : Word} (h : w ≠ 0) : w.reverse ≠ 0 := by
  intro hrev
  refine h (word_eq_zero.mpr fun i => ?_)
  by_cases hi : i < 64
  · have hbit := word_eq_zero.mp hrev (63 - i)
    rw [BitVec.getLsbD_reverse, BitVec.getMsbD, show 64 - 1 - (63 - i) = i by omega] at hbit
    simpa [show 63 - i < 64 by omega] using hbit
  · exact BitVec.getLsbD_of_ge w i (Nat.le_of_not_lt hi)

theorem getLsbD_reverse {w : Word} {i : Nat} (hi : i < 64) :
    w.reverse.getLsbD i = w.getLsbD (63 - i) := by
  rw [BitVec.getLsbD_reverse, BitVec.getMsbD, decide_eq_true hi, Bool.true_and,
    show 64 - 1 - i = 63 - i by omega]

theorem topBit_eq (w : Word) : topBit w = 63 - ctz w.reverse := by
  rw [topBit, ctz, BitVec.clz_eq_reverse_ctz]

theorem topBit_lt (w : Word) : topBit w < 64 := by
  unfold topBit
  omega

theorem getLsbD_topBit {w : Word} (h : w ≠ 0) : w.getLsbD (topBit w) = true := by
  have hlt := ctz_lt (reverse_ne_zero h)
  rw [topBit_eq, ← getLsbD_reverse hlt]
  exact getLsbD_ctz (reverse_ne_zero h)

theorem getLsbD_gt_topBit {w : Word} {i : Nat} (h : topBit w < i) : w.getLsbD i = false := by
  by_cases hi : i < 64
  · rw [topBit_eq] at h
    have hlow : 63 - i < ctz w.reverse := by omega
    have := getLsbD_lt_ctz hlow
    rwa [getLsbD_reverse (by omega), show 63 - (63 - i) = i by omega] at this
  · exact BitVec.getLsbD_of_ge w i (Nat.le_of_not_lt hi)

/-- `w & (w - 1)` clears the lowest set bit. -/
theorem getLsbD_clear_lowest {w : Word} (h : w ≠ 0) (i : Nat) :
    (w &&& (w - 1)).getLsbD i = (w.getLsbD i && decide (i ≠ ctz w)) := by
  obtain ⟨k, hk⟩ : ∃ k, k = ctz w := ⟨_, rfl⟩
  have hmod : w.toNat % 2 ^ (k + 1) = 2 ^ k := by
    apply Nat.eq_of_testBit_eq
    intro j
    rw [Nat.testBit_mod_two_pow, Nat.testBit_two_pow, BitVec.testBit_toNat]
    rcases Nat.lt_trichotomy j k with hj | rfl | hj
    · rw [getLsbD_lt_ctz (hk ▸ hj)]
      simp [Nat.ne_of_gt hj]
    · rw [hk, getLsbD_ctz h]
      simp
    · simp [show ¬ j < k + 1 by omega, Nat.ne_of_lt hj]
  obtain ⟨m, hm⟩ : ∃ m, w.toNat = 2 ^ (k + 1) * m + 2 ^ k :=
    ⟨w.toNat / 2 ^ (k + 1), by rw [← hmod, Nat.div_add_mod]⟩
  have hpow : 2 ^ k < 2 ^ (k + 1) := Nat.pow_lt_pow_right (by decide) (Nat.lt_succ_self k)
  have hpos : 0 < 2 ^ k := Nat.two_pow_pos k
  have hpred : (w - 1).toNat = 2 ^ (k + 1) * m + (2 ^ k - 1) := by
    have hlt := w.isLt
    have hone : (1 : Word).toNat = 1 := rfl
    rw [BitVec.toNat_sub, hone]
    omega
  rw [BitVec.getLsbD_and, ← BitVec.testBit_toNat (w - 1), hpred,
    Nat.testBit_two_pow_mul_add _ (by omega), ← hk]
  rcases Nat.lt_trichotomy i k with hi | rfl | hi
  · rw [getLsbD_lt_ctz (hk ▸ hi), Bool.false_and, Bool.false_and]
  · simp [Nat.testBit_two_pow_sub_one]
  · have hbit : w.getLsbD i = m.testBit (i - (k + 1)) := by
      rw [← BitVec.testBit_toNat, hm, Nat.testBit_two_pow_mul_add _ hpow,
        if_neg (by omega : ¬ i < k + 1)]
    rw [if_neg (by omega : ¬ i < k + 1), ← hbit]
    simp [Nat.ne_of_gt hi]

/-! ## Visiting the bits -/

/-- The bits of a word, in ascending order. -/
def bitsOf (w : Word) : List Nat := (List.range 64).filter w.getLsbD

theorem mem_bitsOf {w : Word} {i : Nat} : i ∈ bitsOf w ↔ w.getLsbD i = true := by
  rw [bitsOf, List.mem_filter, List.mem_range]
  exact ⟨And.right, fun h => ⟨BitVec.lt_of_getLsbD h, h⟩⟩

theorem pairwise_bitsOf (w : Word) : (bitsOf w).Pairwise (· < ·) :=
  List.pairwise_lt_range.filter _

/-- Taking the lowest bit off the front. -/
theorem bitsOf_cons {w : Word} (h : w ≠ 0) : bitsOf w = ctz w :: bitsOf (w &&& (w - 1)) := by
  refine @List.Perm.eq_of_pairwise _ (· < ·) _ _ (fun a b _ _ h1 h2 => absurd h1 (Nat.lt_asymm h2))
    (pairwise_bitsOf w) ?_ ?_
  · refine List.pairwise_cons.mpr ⟨fun i hi => ?_, pairwise_bitsOf _⟩
    rw [mem_bitsOf, getLsbD_clear_lowest h, Bool.and_eq_true, decide_eq_true_iff] at hi
    by_contra hle
    have hlt : i < ctz w := lt_of_le_of_ne (Nat.le_of_not_lt hle) hi.2
    rw [getLsbD_lt_ctz hlt] at hi
    exact Bool.false_ne_true hi.1
  · rw [List.perm_ext_iff_of_nodup ((pairwise_bitsOf w).imp Nat.ne_of_lt)]
    · intro i
      rw [List.mem_cons, mem_bitsOf, mem_bitsOf, getLsbD_clear_lowest h, Bool.and_eq_true,
        decide_eq_true_iff]
      by_cases hi : i = ctz w
      · simp [hi, getLsbD_ctz h]
      · simp [hi]
    · refine List.nodup_cons.mpr ⟨?_, (pairwise_bitsOf _).imp Nat.ne_of_lt⟩
      rw [mem_bitsOf, getLsbD_clear_lowest h]
      simp

/-- Taking the highest bit off the end. -/
theorem bitsOf_concat {w : Word} (h : w ≠ 0) :
    bitsOf w = bitsOf (w &&& ~~~((1 : Word) <<< topBit w)) ++ [topBit w] := by
  have hk := topBit_lt w
  refine @List.Perm.eq_of_pairwise _ (· < ·) _ _ (fun a b _ _ h1 h2 => absurd h1 (Nat.lt_asymm h2))
    (pairwise_bitsOf w) ?_ ?_
  · refine List.pairwise_append.mpr ⟨pairwise_bitsOf _, List.pairwise_singleton _ _,
      fun i hi j hj => ?_⟩
    rw [mem_bitsOf, getLsbD_clear_bit hk, Bool.and_eq_true, decide_eq_true_iff] at hi
    rw [List.mem_singleton.mp hj]
    by_contra hle
    have hlt : topBit w < i := lt_of_le_of_ne (Nat.le_of_not_lt hle) (Ne.symm hi.2)
    rw [getLsbD_gt_topBit hlt] at hi
    exact Bool.false_ne_true hi.1
  · rw [List.perm_ext_iff_of_nodup ((pairwise_bitsOf w).imp Nat.ne_of_lt)]
    · intro i
      rw [List.mem_append, List.mem_singleton, mem_bitsOf, mem_bitsOf, getLsbD_clear_bit hk,
        Bool.and_eq_true, decide_eq_true_iff]
      by_cases hi : i = topBit w
      · simp [hi, getLsbD_topBit h]
      · simp [hi]
    · refine List.nodup_append.mpr ⟨(pairwise_bitsOf _).imp Nat.ne_of_lt, List.nodup_singleton _,
        ?_⟩
      intro i hi j hj hij
      rw [mem_bitsOf, getLsbD_clear_bit hk, hij, List.mem_singleton.mp hj] at hi
      simp at hi

theorem bitsOf_zero : bitsOf 0 = [] := by
  rw [List.eq_nil_iff_forall_not_mem]
  intro i hi
  rw [mem_bitsOf] at hi
  simp at hi

/-- The upward loop visits all bits, lowest first. -/
theorem scanUp_eq : ∀ (n : Nat) (w : Word), (bitsOf w).length ≤ n → scanUp n w = bitsOf w := by
  intro n
  induction n with
  | zero =>
    intro w h
    exact (List.length_eq_zero_iff.mp (Nat.le_zero.mp h)).symm
  | succ n ih =>
    intro w h
    by_cases hw : w = 0
    · rw [scanUp, if_pos hw, hw, bitsOf_zero]
    · rw [bitsOf_cons hw] at h ⊢
      rw [scanUp, if_neg hw, ih _ (Nat.le_of_succ_le_succ h)]

/-- The downward loop visits all bits, highest first. -/
theorem scanDown_eq :
    ∀ (n : Nat) (w : Word), (bitsOf w).length ≤ n → scanDown n w = (bitsOf w).reverse := by
  intro n
  induction n with
  | zero =>
    intro w h
    rw [List.length_eq_zero_iff.mp (Nat.le_zero.mp h)]
    rfl
  | succ n ih =>
    intro w h
    by_cases hw : w = 0
    · rw [scanDown, if_pos hw, hw, bitsOf_zero]
      rfl
    · rw [bitsOf_concat hw, List.length_append] at h
      rw [bitsOf_concat hw, scanDown, if_neg hw, ih _ (Nat.le_of_succ_le_succ h),
        List.reverse_append]
      rfl

theorem length_bitsOf (w : Word) : (bitsOf w).length ≤ 64 := by
  simpa [bitsOf] using List.length_filter_le w.getLsbD (List.range 64)

end Kit
