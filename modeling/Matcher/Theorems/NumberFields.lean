import Matcher.Logic.JsonFlat

/-!
# Numbers in fields

The digit loops of `get_u64` and `get_i64` count modulo 2^64 and do not ask for a digit
after a sign. A number is read exactly as long as the text denotes one that the loop can
count up to.
-/

namespace Matcher

namespace JsonFlat

/-- `s` is a string of decimal digits, not empty, and denotes `n`. -/
structure DenotesNat (s : Text) (n : Nat) : Prop where
  nonempty : s ≠ []
  digits : ∀ c ∈ s, c.isDigit = true
  value : Nat.ofDigitChars 10 s 0 = n

/-- `s` is an optional minus sign and at least one decimal digit, and denotes `z`. -/
inductive DenotesInt (s : Text) : Int → Prop
  | plus {n : Nat} (h : DenotesNat s n) : DenotesInt s n
  | minus {t : Text} {n : Nat} (hs : s = '-' :: t) (h : DenotesNat t n) : DenotesInt s (-n)

/-- The range of `std::int64_t`. -/
def InI64 (z : Int) : Prop := -2 ^ 63 ≤ z ∧ z < 2 ^ 63

/-- In whole numbers, every product and sum of the digit loop from `v` on, and the product
with the sign after it, is in range. -/
def StaysInRange (sign v : Int) : Text → Prop
  | [] => InI64 (v * sign)
  | c :: s => if c < '0' ∨ c > '9' then True else
    InI64 (v * 10) ∧ InI64 (v * 10 + (c.toNat - '0'.toNat : Nat)) ∧
      StaysInRange sign (v * 10 + (c.toNat - '0'.toNat : Nat)) s

/-- No signed computation of `get_i64` on the field's text overflows. -/
def NoOverflow : Text → Prop
  | '-' :: s => StaysInRange (-1) 0 s
  | s => StaysInRange 1 0 s

/-- `get_u64` returns `v` just for the texts of `v`. -/
def ReadsU64 (line key : Text) : Prop :=
  ∀ v : UInt64, getU64 line key = some v ↔ DenotesNat (getStr line key) v.toNat

/-- `get_i64` returns `v` just for the texts of `v`, and computes in range. -/
structure ReadsI64 (line key : Text) : Prop where
  exact : ∀ v : Int64, getI64 line key = some v ↔ DenotesInt (getStr line key) v.toInt
  inRange : ∀ z, DenotesInt (getStr line key) z → InI64 z → NoOverflow (getStr line key)

section Digits

variable {s : Text} {c : Char}

theorem isDigit_of_bounds (hc : ¬ (c < '0' ∨ c > '9')) : c.isDigit = true := by
  rw [not_or] at hc
  have h0 : '0'.toNat ≤ c.toNat := UInt32.not_lt.mp fun h => hc.1 (Char.lt_def.mpr h)
  have h9 : c.toNat ≤ '9'.toNat := UInt32.not_lt.mp fun h => hc.2 (Char.lt_def.mpr h)
  exact Char.isDigit_iff_toNat.mpr ⟨h0, h9⟩

/-- The loops stop at the first character that is no digit. -/
theorem readU64_isDigit {v w : UInt64} (h : readU64 v s = some w) : ∀ c ∈ s, c.isDigit = true := by
  induction s generalizing v with
  | nil => exact List.forall_mem_nil _
  | cons c s ih =>
    rw [readU64] at h
    split at h
    · cases h
    · next hc => exact List.forall_mem_cons.mpr ⟨isDigit_of_bounds hc, ih h⟩

theorem readI64_isDigit {v w : Int64} (h : readI64 v s = some w) : ∀ c ∈ s, c.isDigit = true := by
  induction s generalizing v with
  | nil => exact List.forall_mem_nil _
  | cons c s ih =>
    rw [readI64] at h
    split at h
    · cases h
    · next hc => exact List.forall_mem_cons.mpr ⟨isDigit_of_bounds hc, ih h⟩

/-- The loop only counts up. -/
theorem le_ofDigitChars (s : Text) (v : Nat) : v ≤ Nat.ofDigitChars 10 s v := by
  induction s generalizing v with
  | nil => rw [Nat.ofDigitChars_nil]
  | cons c s ih =>
    rw [Nat.ofDigitChars_cons]
    exact le_trans (by omega) (ih _)

/-- Digits that lead to a number in range go through numbers in range. -/
theorem staysInRange_of {sign : Int} (hsign : sign = 1 ∨ sign = -1) {v : Nat}
    (hv : Nat.ofDigitChars 10 s v < 2 ^ 63) :
    StaysInRange sign v s := by
  induction s generalizing v with
  | nil =>
    rw [Nat.ofDigitChars_nil] at hv
    show InI64 (v * sign)
    rcases hsign with rfl | rfl
    · exact ⟨by omega, by omega⟩
    · exact ⟨by omega, by omega⟩
  | cons c s ih =>
    rw [Nat.ofDigitChars_cons] at hv
    have hle := le_ofDigitChars s (10 * v + (c.toNat - '0'.toNat))
    have hcast : (v : Int) * 10 + (c.toNat - '0'.toNat : Nat) =
        (10 * v + (c.toNat - '0'.toNat) : Nat) := by
      push_cast
      omega
    rw [StaysInRange, hcast]
    split
    · trivial
    · exact ⟨⟨by omega, by omega⟩, ⟨by omega, by omega⟩, ih hv⟩

/-- Numbers in range all the way lead to a number in range. -/
theorem lt_of_staysInRange {sign : Int} (hs : ∀ c ∈ s, c.isDigit = true) {v : Nat} (hv : v < 2 ^ 63)
    (h : StaysInRange sign v s) : Nat.ofDigitChars 10 s v < 2 ^ 63 := by
  induction s generalizing v with
  | nil => rwa [Nat.ofDigitChars_nil]
  | cons c s ih =>
    have hcast : (v : Int) * 10 + (c.toNat - '0'.toNat : Nat) =
        (10 * v + (c.toNat - '0'.toNat) : Nat) := by
      push_cast
      omega
    rw [StaysInRange, if_neg (digit_bounds (hs c List.mem_cons_self)), hcast] at h
    obtain ⟨_, ⟨_, hlt⟩, h⟩ := h
    rw [Nat.ofDigitChars_cons]
    exact ih (fun d hd => hs d (List.mem_cons_of_mem _ hd)) (by omega) h

end Digits

section Denotes

variable {s : Text}

theorem DenotesNat.unique {n m : Nat} (hn : DenotesNat s n) (hm : DenotesNat s m) : n = m :=
  hn.value.symm.trans hm.value

/-- A sign is no digit. -/
theorem DenotesNat.unsigned {n : Nat} (h : DenotesNat s n) (t : Text) : s ≠ '-' :: t := by
  rintro rfl
  cases h.digits '-' List.mem_cons_self

theorem DenotesInt.unique {z w : Int} (hz : DenotesInt s z) (hw : DenotesInt s w) : z = w := by
  cases hz with
  | plus hz =>
    cases hw with
    | plus hw => rw [hz.unique hw]
    | minus hs => exact absurd hs (hz.unsigned _)
  | minus hs hz =>
    cases hw with
    | plus hw => exact absurd hs (hw.unsigned _)
    | minus hs' hw =>
      obtain rfl := (List.cons.inj (hs.symm.trans hs')).2
      rw [hz.unique hw]

end Denotes

section Fields

variable {line key : Text}

/-- What `get_u64` returns: the number, modulo 2^64. -/
theorem getU64_eq_some {v : UInt64} :
    getU64 line key = some v ↔ ∃ n, DenotesNat (getStr line key) n ∧ v = UInt64.ofNat n := by
  rw [getU64]
  generalize getStr line key = s
  cases s with
  | nil =>
    constructor
    · intro h
      cases h
    · rintro ⟨_, h, _⟩
      exact absurd rfl h.nonempty
  | cons c s =>
    constructor
    · intro h
      have hdigits := readU64_isDigit h
      have hread := readU64_digits hdigits 0
      exact ⟨_, ⟨List.cons_ne_nil c s, hdigits, rfl⟩, Option.some.inj (h.symm.trans hread)⟩
    · rintro ⟨n, h, rfl⟩
      have hread := readU64_digits h.digits 0
      rwa [h.value] at hread

/-- What `get_i64` returns: the number, modulo 2^64, and 0 for a sign without digits. -/
theorem getI64_eq_some {v : Int64} :
    getI64 line key = some v ↔ (getStr line key = ['-'] ∧ v = 0) ∨
      (∃ n, DenotesNat (getStr line key) n ∧ v = Int64.ofNat n) ∨
      ∃ t n, getStr line key = '-' :: t ∧ DenotesNat t n ∧ v = -Int64.ofNat n := by
  rw [getI64]
  generalize getStr line key = s
  split
  · constructor
    · intro h
      cases h
    · rintro (⟨hs, _⟩ | ⟨_, h, _⟩ | ⟨_, _, hs, _⟩)
      · cases hs
      · exact absurd rfl h.nonempty
      · cases hs
  · next t =>
    constructor
    · intro h
      obtain ⟨w, hw, rfl⟩ := Option.map_eq_some_iff.mp h
      have hdigits := readI64_isDigit hw
      have hread := Option.some.inj (hw.symm.trans (readI64_digits hdigits 0))
      cases t with
      | nil => exact Or.inl ⟨rfl, by rw [hread]; rfl⟩
      | cons c t =>
        refine Or.inr (Or.inr ⟨_, _, rfl, ⟨List.cons_ne_nil c t, hdigits, rfl⟩, ?_⟩)
        rw [hread, Int64.mul_neg, Int64.mul_one]
    · rintro (⟨hs, rfl⟩ | ⟨_, h, _⟩ | ⟨t', n, hs, h, rfl⟩)
      · cases hs
        rfl
      · exact absurd rfl (h.unsigned t)
      · cases hs
        have hread := readI64_digits h.digits 0
        rw [h.value] at hread
        rw [show (0 : Int64) = Int64.ofNat 0 from rfl, hread, Option.map_some, Int64.mul_neg,
          Int64.mul_one]
  · next hne hminus =>
    constructor
    · intro h
      obtain ⟨w, hw, rfl⟩ := Option.map_eq_some_iff.mp h
      have hdigits := readI64_isDigit hw
      have hread := Option.some.inj (hw.symm.trans (readI64_digits hdigits 0))
      refine Or.inr (Or.inl ⟨_, ⟨hne, hdigits, rfl⟩, ?_⟩)
      rw [hread, Int64.mul_one]
    · rintro (⟨hs, _⟩ | ⟨n, h, rfl⟩ | ⟨t, n, hs, _⟩)
      · exact absurd hs (hminus _)
      · have hread := readI64_digits h.digits 0
        rw [h.value] at hread
        rw [show (0 : Int64) = Int64.ofNat 0 from rfl, hread, Option.map_some, Int64.mul_one]
      · exact absurd hs (hminus t)

/-- Counting modulo 2^64 is exact below 2^64. -/
theorem readsU64_iff : ReadsU64 line key ↔ ∀ n, DenotesNat (getStr line key) n → n < 2 ^ 64 := by
  constructor
  · intro h n hn
    have hv := (h _).mp (getU64_eq_some.mpr ⟨n, hn, rfl⟩)
    rw [hn.unique hv]
    exact UInt64.toNat_lt _
  · intro h v
    rw [getU64_eq_some]
    constructor
    · rintro ⟨n, hn, rfl⟩
      rwa [UInt64.toNat_ofNat_of_lt' (h n hn)]
    · intro hv
      exact ⟨_, hv, UInt64.ofNat_toNat.symm⟩

/-- Counting modulo 2^64 is exact within the int64 range. -/
theorem getI64_exact (hsign : getStr line key ≠ ['-'])
    (h : ∀ z, DenotesInt (getStr line key) z → InI64 z) (v : Int64) :
    getI64 line key = some v ↔ DenotesInt (getStr line key) v.toInt := by
  rw [getI64_eq_some]
  constructor
  · rintro (⟨hs, _⟩ | ⟨n, hn, rfl⟩ | ⟨t, n, hs, hn, rfl⟩)
    · exact absurd hs hsign
    · have hplus := DenotesInt.plus hn
      obtain ⟨_, hlt⟩ := h _ hplus
      rwa [Int64.toInt_ofNat_of_lt (by omega)]
    · have hminus := DenotesInt.minus hs hn
      obtain ⟨hle, _⟩ := h _ hminus
      have hval : -Int64.ofNat n = Int64.ofInt (-n) := by
        rw [← Int64.ofInt_eq_ofNat, Int64.neg_ofInt]
      rwa [hval, Int64.toInt_ofInt_of_le hle (by omega)]
  · intro hv
    generalize hz : v.toInt = z at hv
    cases hv with
    | @plus n hn =>
      refine Or.inr (Or.inl ⟨n, hn, ?_⟩)
      rw [← Int64.ofInt_eq_ofNat, ← hz, Int64.ofInt_toInt]
    | @minus t n hs hn =>
      refine Or.inr (Or.inr ⟨t, n, hs, hn, ?_⟩)
      rw [← Int64.ofInt_eq_ofNat, Int64.neg_ofInt, ← hz, Int64.ofInt_toInt]

theorem readsI64_iff : ReadsI64 line key ↔
    getStr line key ≠ ['-'] ∧ ∀ z, DenotesInt (getStr line key) z → -2 ^ 63 < z ∧ z < 2 ^ 63 := by
  constructor
  · rintro ⟨hexact, hrange⟩
    refine ⟨fun hs => ?_, fun z hz => ?_⟩
    · -- the sign alone reads as 0
      have hzero := (hexact 0).mp (getI64_eq_some.mpr (Or.inl ⟨hs, rfl⟩))
      generalize (0 : Int64).toInt = z at hzero
      cases hzero with
      | plus h => exact h.unsigned [] hs
      | minus hs' h => exact h.nonempty (List.cons.inj (hs.symm.trans hs')).2.symm
    · cases hz with
      | @plus n hn =>
        have hv := (hexact _).mp (getI64_eq_some.mpr (Or.inr (Or.inl ⟨n, hn, rfl⟩)))
        have heq := DenotesInt.unique (.plus hn) hv
        have hlt := Int64.toInt_lt (Int64.ofNat n)
        exact ⟨by omega, by omega⟩
      | @minus t n hs hn =>
        have hv := (hexact _).mp (getI64_eq_some.mpr (Or.inr (Or.inr ⟨t, n, hs, hn, rfl⟩)))
        have heq := DenotesInt.unique (.minus hs hn) hv
        have hle := Int64.le_toInt (-Int64.ofNat n)
        have hsafe := hrange _ (.minus hs hn) ⟨by omega, by omega⟩
        rw [hs] at hsafe
        have hlt := lt_of_staysInRange hn.digits (by decide) hsafe
        rw [hn.value] at hlt
        omega
  · rintro ⟨hsign, hrange⟩
    have hin : ∀ z, DenotesInt (getStr line key) z → InI64 z :=
      fun z hz => ⟨le_of_lt (hrange z hz).1, (hrange z hz).2⟩
    refine ⟨getI64_exact hsign hin, fun z hz _ => ?_⟩
    have hz' := hrange z hz
    cases hz with
    | @plus n hn =>
      have hsmall : Nat.ofDigitChars 10 (getStr line key) 0 < 2 ^ 63 := by
        rw [hn.value]
        omega
      have hstay := staysInRange_of (Or.inl (rfl : (1 : Int) = 1)) hsmall
      rw [NoOverflow]
      · exact hstay
      · exact hn.unsigned
    | @minus t n hs hn =>
      rw [hs]
      exact staysInRange_of (Or.inr rfl) (by rw [hn.value]; omega)

end Fields

end JsonFlat

/-- `get_u64` reads a field exactly unless its digits denote 2^64 or more; `get_i64` reads
it exactly, without overflow, unless it is a sign alone or denotes -2^63, less, or 2^63 or
more. -/
theorem numbers_read_iff (line key : Text) :
    (JsonFlat.ReadsU64 line key ↔
      ∀ n, JsonFlat.DenotesNat (JsonFlat.getStr line key) n → n < 2 ^ 64) ∧
    (JsonFlat.ReadsI64 line key ↔ JsonFlat.getStr line key ≠ ['-'] ∧
      ∀ z, JsonFlat.DenotesInt (JsonFlat.getStr line key) z → -2 ^ 63 < z ∧ z < 2 ^ 63) :=
  ⟨JsonFlat.readsU64_iff, JsonFlat.readsI64_iff⟩

/-- A quantity of 2^64 reads as 0, and so does a price without digits. -/
theorem numbers_read_zero : ∃ line : Text,
    JsonFlat.getStr line "qty".toList = "18446744073709551616".toList ∧
    JsonFlat.getU64 line "qty".toList = some 0 ∧ ¬ JsonFlat.ReadsU64 line "qty".toList ∧
    JsonFlat.getStr line "price".toList = ['-'] ∧ JsonFlat.getI64 line "price".toList = some 0 ∧
    ¬ JsonFlat.ReadsI64 line "price".toList := by
  have hqty : JsonFlat.getStr "\x7b\"price\":-,\"qty\":18446744073709551616\x7d".toList
      "qty".toList = "18446744073709551616".toList := by rfl
  have hprice : JsonFlat.getStr "\x7b\"price\":-,\"qty\":18446744073709551616\x7d".toList
      "price".toList = ['-'] := by rfl
  generalize "\x7b\"price\":-,\"qty\":18446744073709551616\x7d".toList = line at hqty hprice
  have hnat : JsonFlat.DenotesNat (JsonFlat.getStr line "qty".toList) (2 ^ 64) := by
    rw [hqty]
    exact ⟨List.cons_ne_nil _ _, List.all_eq_true.mp (by rfl), by rfl⟩
  refine ⟨line, hqty, JsonFlat.getU64_eq_some.mpr ⟨2 ^ 64, hnat, rfl⟩, fun h => ?_, hprice,
    JsonFlat.getI64_eq_some.mpr (Or.inl ⟨hprice, rfl⟩), fun h => ?_⟩
  · exact absurd (JsonFlat.readsU64_iff.mp h _ hnat) (Nat.lt_irrefl _)
  · exact (JsonFlat.readsI64_iff.mp h).1 hprice

end Matcher
