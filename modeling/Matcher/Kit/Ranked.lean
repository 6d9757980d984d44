import Mathlib

/-!
# Lists in strict order

A list in strict order is determined by its members (`List.Pairwise.eq_of_mem_iff`),
so an enumeration is specified by what it lists and in which order. Insertion is
`List.orderedInsert`; here are the facts about it that hold for strict orders. A list in
the order of a key, where many elements may share one, is determined by its parts of one
key each.
-/

namespace Kit

variable {α : Type*} {r : α → α → Prop}

/-- Strictly ordered lists with the same members are equal. -/
theorem ranked_ext [IsStrictOrder α r] {l l' : List α} (h : l.Pairwise r) (h' : l'.Pairwise r)
    (hmem : ∀ a, a ∈ l ↔ a ∈ l') : l = l' := by
  have : Std.Antisymm r := ⟨fun a b hab hba => absurd (trans_of r hab hba) (irrefl_of r a)⟩
  exact h.eq_of_mem_iff h' hmem

/-- Insertion of a new element keeps a strict order. -/
theorem ranked_insert [IsStrictTotalOrder α r] [DecidableRel r] {l : List α} {a : α}
    (h : l.Pairwise r) (ha : a ∉ l) : (l.orderedInsert r a).Pairwise r := by
  induction l with
  | nil => simp
  | cons b l ih =>
    obtain ⟨hb, hl⟩ := List.pairwise_cons.mp h
    rw [List.mem_cons, not_or] at ha
    rw [List.orderedInsert_cons]
    split
    · next hab =>
      refine List.pairwise_cons.mpr ⟨fun x hx => ?_, h⟩
      rcases List.mem_cons.mp hx with rfl | hx
      · exact hab
      · exact trans_of r hab (hb x hx)
    · next hab =>
      have hba : r b a := (trichotomous_of r a b).resolve_left hab |>.resolve_left ha.1
      refine List.pairwise_cons.mpr ⟨fun x hx => ?_, ih hl ha.2⟩
      rcases (List.mem_orderedInsert r).mp hx with rfl | hx
      · exact hba
      · exact hb x hx

/-- The first element of a strictly ordered list is before all others. -/
theorem ranked_head {l : List α} {a b : α} (h : l.Pairwise r) (ha : l.head? = some a) (hb : b ∈ l) :
    b = a ∨ r a b := by
  cases l with
  | nil => cases ha
  | cons c l =>
    cases ha
    rcases List.mem_cons.mp hb with rfl | hb
    · exact Or.inl rfl
    · exact Or.inr ((List.pairwise_cons.mp h).1 b hb)

/-- What an element is before is what its place in the order is before. -/
theorem ranked_head?_eq [IsStrictOrder α r] {l : List α} {a : α} (h : l.Pairwise r) (ha : a ∈ l)
    (hfirst : ∀ b ∈ l, b = a ∨ r a b) : l.head? = some a := by
  cases l with
  | nil => cases ha
  | cons c l =>
    rcases hfirst c List.mem_cons_self with rfl | hac
    · rfl
    · rcases List.mem_cons.mp ha with rfl | hal
      · rfl
      · exact absurd (trans_of r hac ((List.pairwise_cons.mp h).1 a hal)) (irrefl_of r a)

/-- When `p` never holds again once it failed, `takeWhile` selects all of `p`. -/
theorem takeWhile_eq_filter {p : α → Bool} {l : List α} (h : l.Pairwise fun a b => p b → p a) :
    l.takeWhile p = l.filter p := by
  induction l with
  | nil => rfl
  | cons a l ih =>
    obtain ⟨ha, hl⟩ := List.pairwise_cons.mp h
    by_cases hp : p a = true
    · rw [List.takeWhile_cons_of_pos hp, List.filter_cons_of_pos hp, ih hl]
    · rw [List.takeWhile_cons_of_neg hp, List.filter_cons_of_neg hp]
      exact (List.filter_eq_nil_iff.mpr fun b hb hpb => hp (ha b hb hpb)).symm

/-- And `dropWhile` selects the rest. -/
theorem dropWhile_eq_filter {p : α → Bool} {l : List α} (h : l.Pairwise fun a b => p b → p a) :
    l.dropWhile p = l.filter fun a => !p a := by
  induction l with
  | nil => rfl
  | cons a l ih =>
    obtain ⟨ha, hl⟩ := List.pairwise_cons.mp h
    by_cases hp : p a = true
    · rw [List.dropWhile_cons_of_pos hp, List.filter_cons_of_neg (by simp [hp]), ih hl]
    · rw [List.dropWhile_cons_of_neg hp, List.filter_cons_of_pos (by simp [hp])]
      congr 1
      refine (List.filter_eq_self.mpr fun b hb => ?_).symm
      have : ¬ p b = true := fun hpb => hp (ha b hb hpb)
      simp [this]

/-! ## Lists in the order of a key -/

section Keyed

variable {α K : Type*} [DecidableEq K] {key : α → K} {r : K → K → Prop}

/-- A list in the order of its keys is determined by its parts of one key each. -/
theorem keyed_ext (hr : ∀ k k', r k k' → r k' k → k = k') {l l' : List α}
    (hl : l.Pairwise fun a b => r (key a) (key b)) (hl' : l'.Pairwise fun a b => r (key a) (key b))
    (h : ∀ k, l.filter (fun a => key a = k) = l'.filter (fun a => key a = k)) : l = l' := by
  have hmem : ∀ {l l' : List α}, (∀ k, l.filter (fun a => key a = k) = l'.filter (fun a =>
      key a = k)) → ∀ a ∈ l, a ∈ l' := by
    intro l l' h a ha
    have hpart : a ∈ l.filter fun x => key x = key a := List.mem_filter.mpr ⟨ha, decide_eq_true rfl⟩
    rw [h] at hpart
    exact (List.mem_filter.mp hpart).1
  induction l generalizing l' with
  | nil =>
    cases l' with
    | nil => rfl
    | cons b l' => exact absurd (hmem (fun k => (h k).symm) b List.mem_cons_self) List.not_mem_nil
  | cons a l ih =>
    cases l' with
    | nil => exact absurd (hmem h a List.mem_cons_self) List.not_mem_nil
    | cons b l' =>
      rw [List.pairwise_cons] at hl hl'
      -- the first elements have one key, and each is the first of it
      have hkey : key a = key b := by
        have ha := hmem h a List.mem_cons_self
        have hb := hmem (fun k => (h k).symm) b List.mem_cons_self
        rcases List.mem_cons.mp ha with rfl | ha
        · rfl
        rcases List.mem_cons.mp hb with rfl | hb
        · rfl
        exact hr _ _ (hl.1 b hb) (hl'.1 a ha)
      have hab : a = b := by
        have hpart := h (key a)
        rw [List.filter_cons_of_pos (by simp), List.filter_cons_of_pos (by simp [hkey])] at hpart
        exact (List.cons.inj hpart).1
      subst hab
      rw [ih hl.2 hl'.2 fun k => ?_]
      have hpart := h k
      by_cases hk : key a = k
      · rw [List.filter_cons_of_pos (by simp [hk]), List.filter_cons_of_pos (by simp [hk])] at hpart
        exact (List.cons.inj hpart).2
      · rwa [List.filter_cons_of_neg (by simp [hk]), List.filter_cons_of_neg (by simp [hk])]
          at hpart

end Keyed

end Kit
