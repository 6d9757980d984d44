import Matcher.JsonFlat

/-!
# What the reader finds in a record

Of a well-formed record the reader finds every field, and numbers that were written as
decimal digits read back, modulo 2^64.
-/

namespace Matcher

open Kit

namespace JsonFlat

/-! ## Fields -/

theorem takeWhile_mark {p : Char → Bool} {w : Text} (hw : ∀ c ∈ w, p c = true) {c : Char}
    (hc : p c = false) (s : Text) :
    (w ++ c :: s).takeWhile p = w := by
  rw [List.takeWhile_append_of_pos hw, List.takeWhile_cons, hc]
  simp

theorem takeWhile_snoc {p : Char → Bool} {s : Text} {c : Char}
    (h : p c = false ∨ ∃ d ∈ s, p d = false) :
    (s ++ [c]).takeWhile p = s.takeWhile p := by
  induction s with
  | nil =>
    have hc : p c = false := by
      refine h.resolve_right fun hex => ?_
      obtain ⟨d, hd, _⟩ := hex
      exact absurd hd List.not_mem_nil
    rw [List.nil_append, List.takeWhile_cons, hc]
    rfl
  | cons d s ih =>
    rw [List.cons_append, List.takeWhile_cons, List.takeWhile_cons]
    by_cases hd : p d = true
    · rw [if_pos hd, if_pos hd, ih]
      refine h.imp_right ?_
      rintro ⟨x, hx, hpx⟩
      refine ⟨x, (List.mem_cons.mp hx).resolve_left ?_, hpx⟩
      rintro rfl
      rw [hd] at hpx
      cases hpx
    · rw [if_neg hd, if_neg hd]

/-- The reader takes the value of the first field of the name. -/
theorem getStr_record {f : Field} {fs : List Field} (hfs : ∀ g ∈ f :: fs, g.Plain) {key : Text}
    (hne : key ≠ []) (hkey : ∀ c ∈ key, PlainChar c) :
    getStr (recordText f fs) key =
      (((f :: fs).find? fun g => g.key = key).map Field.value).getD [] := by
  have hfind : (f :: fs).find? (fun g => g.key = key) = ((f :: fs).dropWhile fun g =>
      g.key ≠ key).head? := by
    rw [List.find?_eq_head?_dropWhile_not]
    simp only [ne_eq, decide_not]
  rw [getStr, after_record hfs hne hkey, hfind]
  cases hdrop : (f :: fs).dropWhile fun g => g.key ≠ key with
  | nil => rfl
  | cons g gs =>
    have hg : g.Plain :=
      hfs g ((List.dropWhile_sublist _).subset (by rw [hdrop]; exact List.mem_cons_self))
    have hquote := quote_not_mem hg.value
    obtain ⟨c, s, hrest, hc⟩ := restText_cases gs
    simp only [List.head?_cons, Option.map_some, Option.getD_some]
    have htext : g.valueText ++ restText gs =
        if g.quoted then '"' :: (g.value ++ '"' :: c :: s) else g.value ++ c :: s := by
      rw [Field.valueText, hrest]
      split <;> simp
    rw [htext]
    by_cases hq : g.quoted = true
    · rw [if_pos hq]
      simp only [List.mem_append, List.mem_cons, true_or, or_true, if_true]
      have hnot : ∀ d ∈ g.value, decide (d ≠ '"') = true := fun d hd => decide_eq_true fun heq =>
        hquote (heq ▸ hd)
      exact takeWhile_mark hnot rfl _
    · rw [if_neg hq]
      have hplain : ∀ d ∈ g.value, decide (d ≠ ',' ∧ d ≠ '\x7d') = true := fun d hd =>
        decide_eq_true ⟨(hg.value d hd).2.2.1, (hg.value d hd).2.2.2.1⟩
      have hmark : decide (c ≠ ',' ∧ c ≠ '\x7d') = false := decide_eq_false fun h => hc.elim h.1 h.2
      have htake := takeWhile_mark hplain hmark s
      split
      · next h => cases h
      · next rest h =>
        -- a value without quotes does not begin with one
        have heq := Option.some.inj h
        cases hv : g.value with
        | nil =>
          rw [hv] at heq
          rcases hc with rfl | rfl <;> cases heq
        | cons d w =>
          rw [hv] at heq
          exact absurd (hv ▸ List.mem_cons.mpr (Or.inl (List.cons.inj heq).1.symm)) hquote
      · next rest _ h =>
        rw [← Option.some.inj h]
        exact htake

/-- A field that is not in a line is in no line that was cut off. -/
theorem getStr_torn {s t key : Text} (h : after (pattern key) t = none) (hst : s <+: t) :
    getStr s key = [] := by
  rw [getStr, after_prefix h hst]

/-- A value without quotes ends at the next comma or brace. -/
theorem getStr_bare {s key : Text} {c : Char} {v : Text} (h : after (pattern key) s = some (c :: v))
    (hc : c ≠ '"') :
    getStr s key = (c :: v).takeWhile fun c => c ≠ ',' ∧ c ≠ '\x7d' := by
  rw [getStr, h]
  split
  · next h => cases h
  · next h => exact absurd (List.cons.inj (Option.some.inj h)).1 hc
  · next h => rw [Option.some.inj h]

/-- The reader does not need the closing brace. -/
theorem getStr_open {key : Text} (hkey : ∀ c ∈ key, PlainChar c) (s : Text) :
    getStr (s ++ ['\x7d']) key = getStr s key := by
  have hbrace : '\x7d' ∉ pattern key := by
    intro h
    simp only [pattern, List.mem_cons, List.mem_append, List.not_mem_nil, or_false] at h
    rcases h with h | h | h | h
    · cases h
    · exact (hkey _ h).2.2.2.1 rfl
    · cases h
    · cases h
  have hsnoc := after_snoc hbrace s
  cases hs : after (pattern key) s with
  | none =>
    rw [hs] at hsnoc
    rw [getStr, getStr, hs, hsnoc]
    rfl
  | some v =>
    rw [hs, Option.map_some] at hsnoc
    cases v with
    | nil =>
      rw [getStr, getStr, hs, hsnoc]
      rfl
    | cons c v =>
      by_cases hc : c = '"'
      · subst hc
        have hquote : '"' ∈ v ++ ['\x7d'] ↔ '"' ∈ v := by simp
        rw [getStr, getStr, hs, hsnoc, List.cons_append]
        simp only [hquote]
        split
        · next hv => exact takeWhile_snoc (Or.inr ⟨'"', hv, rfl⟩)
        · rfl
      · rw [getStr_bare hs hc, getStr_bare hsnoc hc]
        exact takeWhile_snoc (s := c :: v) (Or.inl rfl)

/-! ## Numbers -/

theorem digit_bounds {c : Char} (hc : c.isDigit = true) : ¬ (c < '0' ∨ c > '9') := by
  have hd := Char.isDigit_iff_toNat.mp hc
  have h0 : '0'.toNat = 48 := rfl
  have h9 : '9'.toNat = 57 := rfl
  rintro (h | h)
  · have : c.toNat < '0'.toNat := UInt32.lt_iff_toNat_lt.mp (Char.lt_def.mp h)
    omega
  · have : '9'.toNat < c.toNat := UInt32.lt_iff_toNat_lt.mp (Char.lt_def.mp h)
    omega

theorem readU64_digits {s : Text} (hs : ∀ c ∈ s, c.isDigit = true) (m : Nat) :
    readU64 (UInt64.ofNat m) s = some (UInt64.ofNat (Nat.ofDigitChars 10 s m)) := by
  induction s generalizing m with
  | nil => rfl
  | cons c s ih =>
    have hstep : UInt64.ofNat m * 10 + UInt64.ofNat (c.toNat - '0'.toNat) =
        UInt64.ofNat (10 * m + (c.toNat - '0'.toNat)) := by
      rw [UInt64.ofNat_add, UInt64.ofNat_mul, UInt64.mul_comm]
      rfl
    rw [readU64, if_neg (digit_bounds (hs c List.mem_cons_self)), hstep, ih fun d hd =>
      hs d (List.mem_cons_of_mem _ hd), Nat.ofDigitChars_cons]

theorem readI64_digits {s : Text} (hs : ∀ c ∈ s, c.isDigit = true) (m : Nat) :
    readI64 (Int64.ofNat m) s = some (Int64.ofNat (Nat.ofDigitChars 10 s m)) := by
  induction s generalizing m with
  | nil => rfl
  | cons c s ih =>
    have hstep : Int64.ofNat m * 10 + Int64.ofNat (c.toNat - '0'.toNat) =
        Int64.ofNat (10 * m + (c.toNat - '0'.toNat)) := by
      rw [Int64.ofNat_add, Int64.ofNat_mul, Int64.mul_comm]
      rfl
    rw [readI64, if_neg (digit_bounds (hs c List.mem_cons_self)), hstep, ih fun d hd =>
      hs d (List.mem_cons_of_mem _ hd), Nat.ofDigitChars_cons]

theorem digits_isDigit (n : Nat) : ∀ c ∈ digits n, c.isDigit = true := fun _ hc =>
  Nat.isDigit_of_mem_toDigits (by decide) (by decide) hc

theorem digits_ne_nil (n : Nat) : digits n ≠ [] := Nat.toDigits_ne_nil

theorem plain_digit {c : Char} (hc : c.isDigit = true) : PlainChar c := by
  refine ⟨?_, ?_, ?_, ?_, ?_⟩ <;>
    · rintro rfl
      cases hc

theorem plain_digits (n : Nat) : ∀ c ∈ digits n, PlainChar c :=
  fun c hc => plain_digit (digits_isDigit n c hc)

theorem plain_price (p : Price) : ∀ c ∈ Price.text p, PlainChar c := by
  rw [Price.text]
  split
  · intro c hc
    rcases List.mem_cons.mp hc with rfl | hc
    · decide
    · exact plain_digits _ c hc
  · exact plain_digits _

/-- More digits make a larger number. -/
theorem lt_ofDigitChars {s : Text} {m : Nat} (hs : s ≠ []) (hm : m ≠ 0) :
    m < Nat.ofDigitChars 10 s m := by
  induction s generalizing m with
  | nil => exact absurd rfl hs
  | cons c s ih =>
    rw [Nat.ofDigitChars_cons]
    have hstep : m < 10 * m + (c.toNat - '0'.toNat) := by omega
    by_cases hnil : s = []
    · rw [hnil, Nat.ofDigitChars_nil]
      exact hstep
    · exact hstep.trans (ih hnil (by omega))

/-- The first digits of a positive number, but not all of them, are a smaller number. -/
theorem ofDigitChars_torn {n : Nat} (hn : n ≠ 0) {s t : Text} (ht : t ≠ [])
    (h : digits n = s ++ t) :
    Nat.ofDigitChars 10 s 0 < n := by
  have hvalue : Nat.ofDigitChars 10 (s ++ t) 0 = n := by
    rw [← h]
    exact Nat.ofDigitChars_ten_toDigits
  rw [Nat.ofDigitChars_append] at hvalue
  by_cases hs : Nat.ofDigitChars 10 s 0 = 0
  · rw [hs]
    exact Nat.pos_of_ne_zero hn
  · exact lt_of_lt_of_eq (lt_ofDigitChars ht hs) hvalue

/-- A number that was written reads back. -/
theorem readU64_written (n : UInt64) : readU64 0 (digits n.toNat) = some n := by
  have h := readU64_digits (digits_isDigit n.toNat) 0
  rwa [digits, Nat.ofDigitChars_ten_toDigits, UInt64.ofNat_toNat] at h

theorem getU64_of {line key : Text} {n : UInt64} (h : getStr line key = digits n.toNat) :
    getU64 line key = some n := by
  rw [getU64, h]
  split
  · next hnil => exact absurd hnil (digits_ne_nil _)
  · exact readU64_written n

theorem getI64_of {line key : Text} {p : Price} (h : getStr line key = Price.text p) :
    getI64 line key = some p := by
  have hread : readI64 0 (digits p.toInt.natAbs) = some (Int64.ofNat p.toInt.natAbs) := by
    have h := readI64_digits (digits_isDigit p.toInt.natAbs) 0
    rwa [digits, Nat.ofDigitChars_ten_toDigits] at h
  rw [getI64, h, Price.text]
  by_cases hneg : p < 0
  · rw [if_pos hneg]
    simp only [hread, Option.map_some]
    have hlt := Int64.lt_iff_toInt_lt.mp hneg
    have h0 : (0 : Int64).toInt = 0 := rfl
    have habs : -(p.toInt.natAbs : Int) = p.toInt := by omega
    have hval : Int64.ofNat p.toInt.natAbs * -1 = p := by
      rw [← Int64.ofInt_eq_ofNat, Int64.mul_neg, Int64.mul_one, Int64.neg_ofInt, habs,
        Int64.ofInt_toInt]
    rw [hval]
  · rw [if_neg hneg]
    have hge : 0 ≤ p.toInt := by
      have := Int64.not_lt.mp hneg
      exact Int64.le_iff_toInt_le.mp this
    have hval : Int64.ofNat p.toInt.natAbs = p := by
      rw [← Int64.ofInt_eq_ofNat, Int.natAbs_of_nonneg hge, Int64.ofInt_toInt]
    split
    · next hnil => exact absurd hnil (digits_ne_nil _)
    · next s hs =>
      have hminus := digits_isDigit p.toInt.natAbs '-' (by rw [hs]; exact List.mem_cons_self)
      cases hminus
    · rw [hread, Option.map_some, hval, Int64.mul_one]

theorem tifOf_text (t : Tif) : tifOf t.text = t := by cases t <;> rfl

theorem sideOf_text (s : Side) : sideOf s.text = s := by cases s <;> rfl

theorem indexOf_text (k : IndexKind) : indexOf k.text = k := by cases k <;> rfl

theorem plain_of_all {s : Text} (h : s.all (fun c => decide (PlainChar c)) = true) :
    ∀ c ∈ s, PlainChar c :=
  fun c hc => of_decide_eq_true (List.all_eq_true.mp h c hc)

theorem plain_field {key value : Text} (q : Bool) (hne : key ≠ [])
    (hkey : key.all (fun c => decide (PlainChar c)) = true) (hvalue : ∀ c ∈ value, PlainChar c) :
    Field.Plain ⟨key, q, value⟩ :=
  ⟨hne, plain_of_all hkey, hvalue⟩

theorem plain_tif (t : Tif) : ∀ c ∈ t.text, PlainChar c := by
  cases t <;> exact plain_of_all rfl

theorem plain_side (s : Side) : ∀ c ∈ s.text, PlainChar c := by
  cases s <;> exact plain_of_all rfl

theorem plain_index (k : IndexKind) : ∀ c ∈ k.text, PlainChar c := by
  cases k <;> exact plain_of_all rfl

end JsonFlat

end Matcher
