import Mathlib

/-!
# Checked arrays and wrapping counters

A program that indexes arrays without bounds checks and counts in fixed-width
integers is modelled in `Option`: an access outside its array has no result
(`none`), every other run has exactly one. `modify?` is the checked in-place
update, `incr`/`decr` are `++` and `--` on an unsigned integer of `w` bits.
-/

namespace Kit

variable {α : Type*}

/-- Update the element at `i` in place; no result when `i` is out of bounds. -/
def modify? (a : Array α) (i : Nat) (f : α → α) : Option (Array α) :=
  if i < a.size then some (a.modify i f) else none

/-- Overwrite the element at `i`; no result when `i` is out of bounds. -/
def set? (a : Array α) (i : Nat) (v : α) : Option (Array α) :=
  modify? a i fun _ => v

theorem modify?_of_lt {a : Array α} {i : Nat} (f : α → α) (h : i < a.size) :
    modify? a i f = some (a.modify i f) := if_pos h

theorem modify?_eq_some {a b : Array α} {i : Nat} {f : α → α} :
    modify? a i f = some b ↔ i < a.size ∧ b = a.modify i f := by
  unfold modify?
  split <;> simp_all [eq_comm]

theorem set?_of_lt {a : Array α} {i : Nat} (v : α) (h : i < a.size) :
    set? a i v = some (a.modify i fun _ => v) := if_pos h

theorem lt_size_of_getElem? {a : Array α} {i : Nat} {v : α} (h : a[i]? = some v) :
    i < a.size := by
  obtain ⟨hi, _⟩ := Array.getElem?_eq_some_iff.mp h
  exact hi

theorem exists_getElem? {a : Array α} {i : Nat} (h : i < a.size) : ∃ v, a[i]? = some v :=
  ⟨a[i], Array.getElem?_eq_getElem h⟩

/-- A loop none of whose rounds fails. -/
theorem mapM_eq_some {β : Type*} {f : α → Option β} {g : α → β} {l : List α}
    (h : ∀ a ∈ l, f a = some (g a)) : l.mapM f = some (l.map g) := by
  induction l with
  | nil => rfl
  | cons a l ih =>
    rw [List.mapM_cons, h a List.mem_cons_self, ih fun b hb => h b (List.mem_cons_of_mem _ hb)]
    rfl

/-- What a loop returns was returned by one of its rounds. -/
theorem mem_mapM {β : Type*} {f : α → Option β} {l : List α} {ys : List β}
    (h : l.mapM f = some ys) {y : β} (hy : y ∈ ys) : ∃ a ∈ l, f a = some y := by
  induction l generalizing ys with
  | nil =>
    cases h
    cases hy
  | cons a l ih =>
    rw [List.mapM_cons] at h
    obtain ⟨y', hy', h⟩ := Option.bind_eq_some_iff.mp h
    obtain ⟨ys', hys', h⟩ := Option.bind_eq_some_iff.mp h
    cases h
    rcases List.mem_cons.mp hy with rfl | hy
    · exact ⟨a, List.mem_cons_self, hy'⟩
    · obtain ⟨a', ha', hfa⟩ := ih hys' hy
      exact ⟨a', List.mem_cons_of_mem a ha', hfa⟩

/-- Every round of a loop that returns has returned. -/
theorem mapM_mem {β : Type*} {f : α → Option β} {l : List α} {ys : List β}
    (h : l.mapM f = some ys) {a : α} (ha : a ∈ l) : ∃ y ∈ ys, f a = some y := by
  induction l generalizing ys with
  | nil => cases ha
  | cons b l ih =>
    rw [List.mapM_cons] at h
    obtain ⟨y', hy', h⟩ := Option.bind_eq_some_iff.mp h
    obtain ⟨ys', hys', h⟩ := Option.bind_eq_some_iff.mp h
    cases h
    rcases List.mem_cons.mp ha with rfl | ha
    · exact ⟨y', List.mem_cons_self, hy'⟩
    · obtain ⟨y, hy, hrun⟩ := ih hys' ha
      exact ⟨y, List.mem_cons_of_mem _ hy, hrun⟩

/-- `++n` on `w` bits. -/
def incr (w n : Nat) : Nat := (n + 1) % 2 ^ w

/-- `--n` on `w` bits. -/
def decr (w n : Nat) : Nat := (n + (2 ^ w - 1)) % 2 ^ w

theorem incr_of_lt {w n : Nat} (h : n + 1 < 2 ^ w) : incr w n = n + 1 :=
  Nat.mod_eq_of_lt h

theorem decr_of_pos {w n : Nat} (h0 : 0 < n) (h : n < 2 ^ w) : decr w n = n - 1 := by
  unfold decr
  have hsplit : n + (2 ^ w - 1) = (n - 1) + 2 ^ w := by omega
  rw [hsplit, Nat.add_mod_right, Nat.mod_eq_of_lt (by omega)]

end Kit
