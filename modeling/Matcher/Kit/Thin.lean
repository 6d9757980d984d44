import Mathlib.Data.List.Forall2

/-!
# Queues that only advance

A queue advances when what is left of it comes first, in the old order and with less of
each, and newcomers stand behind. Queues that advance twice have advanced, and whoever is
not a newcomer has fewer before him than he had.
-/

namespace Kit

variable {α : Type*} {R : α → α → Prop} {J J' : α → Prop} {l l' l'' : List α}

/-- Whoever is left had a place in the queue, and all before him were before him. -/
theorem thin_split {a r : List α} {x : α} (h : List.SublistForall₂ R (a ++ x :: r) l) :
    ∃ a0 y r0, l = a0 ++ y :: r0 ∧ List.SublistForall₂ R a a0 ∧ R x y := by
  induction l generalizing a with
  | nil =>
    cases a <;> cases h
  | cons z zs ih =>
    cases a with
    | nil =>
      cases h with
      | cons hxz _ => exact ⟨[], z, zs, rfl, .nil, hxz⟩
      | cons_right htail =>
        obtain ⟨a0, y, r0, hzs, ha, hxy⟩ := ih (a := []) htail
        exact ⟨z :: a0, y, r0, by rw [hzs]; rfl, .nil, hxy⟩
    | cons w ws =>
      cases h with
      | cons hwz htail =>
        obtain ⟨a0, y, r0, hzs, ha, hxy⟩ := ih htail
        exact ⟨z :: a0, y, r0, by rw [hzs]; rfl, .cons hwz ha, hxy⟩
      | cons_right htail =>
        obtain ⟨a0, y, r0, hzs, ha, hxy⟩ := ih (a := w :: ws) htail
        exact ⟨z :: a0, y, r0, by rw [hzs]; rfl, .cons_right ha, hxy⟩

/-- What is left of two queues, one behind the other. -/
theorem thin_append {a b : List α} (h : List.SublistForall₂ R l (a ++ b)) :
    ∃ k m, l = k ++ m ∧ List.SublistForall₂ R k a ∧ List.SublistForall₂ R m b := by
  induction a generalizing l with
  | nil => exact ⟨[], l, rfl, .nil, h⟩
  | cons x xs ih =>
    cases h with
    | nil => exact ⟨[], [], rfl, .nil, .nil⟩
    | cons hx htail =>
      obtain ⟨k, m, rfl, hk, hm⟩ := ih htail
      exact ⟨_ :: k, m, rfl, .cons hx hk, hm⟩
    | cons_right htail =>
      obtain ⟨k, m, rfl, hk, hm⟩ := ih htail
      exact ⟨k, m, rfl, .cons_right hk, hm⟩

/-- `l'` is what is left of `l`, and newcomers behind, who are all `J`. -/
def Advances (R : α → α → Prop) (J : α → Prop) (l l' : List α) : Prop :=
  ∃ kept joined, l' = kept ++ joined ∧ List.SublistForall₂ R kept l ∧ ∀ x ∈ joined, J x

theorem Advances.of_thin (h : List.SublistForall₂ R l' l) : Advances R J l l' :=
  ⟨l', [], (List.append_nil l').symm, h, fun _ hx => absurd hx List.not_mem_nil⟩

theorem Advances.refl [Std.Refl R] (J : α → Prop) (l : List α) : Advances R J l l :=
  .of_thin (refl_of (List.SublistForall₂ R) l)

theorem Advances.mono (h : Advances R J l l') (hJ : ∀ x, J x → J' x) : Advances R J' l l' := by
  obtain ⟨kept, joined, heq, hkept, hjoined⟩ := h
  exact ⟨kept, joined, heq, hkept, fun x hx => hJ x (hjoined x hx)⟩

theorem Advances.trans [IsTrans α R] (hJ : ∀ x y, R x y → J y → J x) (h : Advances R J l l')
    (h' : Advances R J l' l'') :
    Advances R J l l'' := by
  obtain ⟨kept, joined, rfl, hkept, hjoined⟩ := h
  obtain ⟨kept', joined', rfl, hkept', hjoined'⟩ := h'
  obtain ⟨k, m, rfl, hk, hm⟩ := thin_append hkept'
  refine ⟨k, m ++ joined', List.append_assoc .., trans_of (List.SublistForall₂ R) hk hkept,
    fun x hx => ?_⟩
  rcases List.mem_append.mp hx with hx | hx
  · -- a newcomer of the first time who is still there
    obtain ⟨a, r, rfl⟩ := List.append_of_mem hx
    obtain ⟨a0, y, r0, rfl, _, hxy⟩ := thin_split hm
    exact hJ x y hxy (hjoined y (List.mem_append_right a0 List.mem_cons_self))
  · exact hjoined' x hx

/-- Whoever is no newcomer had a place, and those before him are left of those before. -/
theorem Advances.ahead {a r : List α} {x : α} (h : Advances R J l (a ++ x :: r)) (hx : ¬ J x) :
    ∃ a0 y r0, l = a0 ++ y :: r0 ∧ List.SublistForall₂ R a a0 ∧ R x y := by
  obtain ⟨kept, joined, heq, hkept, hjoined⟩ := h
  rcases List.append_eq_append_iff.mp heq with ⟨t, rfl, ht⟩ | ⟨t, rfl, rfl⟩
  · cases t with
    | nil =>
      rw [List.nil_append] at ht
      rw [← ht] at hjoined
      exact absurd (hjoined x List.mem_cons_self) hx
    | cons z zs =>
      cases (List.cons_eq_cons.mp ht).1
      exact thin_split hkept
  · exact absurd (hjoined x (List.mem_append_right t List.mem_cons_self)) hx

end Kit
