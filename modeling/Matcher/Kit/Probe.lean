import Mathlib

/-!
# Linear probing with backward-shift deletion

An open-addressed table over `n` slots arranged in a circle, as a function from
slot numbers to optional `(key, value)` pairs; `home` sends a key to the slot
its probe chain starts at. Nothing here depends on how keys hash or how slots
are stored.

`Chained` is the invariant that makes probing correct without tombstones: every
slot between an entry's home and the entry itself is occupied. `walk` is the
probe loop, `closeGap` the backward shift after a deletion (Knuth 6.4R): it
scans forward from the hole and moves back every entry whose chain crosses it.
`OpenAt` is the shift's loop invariant: the chains are intact except across the
hole, and the scanned entries' chains do not cross it.
-/

namespace Kit.Probe

/-- Steps forward from `a` to `b` on a circle of `n` slots. -/
def gap (n a b : Nat) : Nat := if a ≤ b then b - a else b + n - a

/-- The next slot on the circle. -/
def next (n i : Nat) : Nat := if i + 1 = n then 0 else i + 1

theorem next_lt {n i : Nat} (hi : i < n) : next n i < n := by
  unfold next
  split <;> omega

theorem gap_lt {n a b : Nat} (ha : a < n) (hb : b < n) : gap n a b < n := by
  unfold gap
  split <;> omega

@[simp] theorem gap_self (n a : Nat) : gap n a a = 0 := by simp [gap]

theorem gap_eq_zero {n a b : Nat} (ha : a < n) : gap n a b = 0 ↔ a = b := by
  unfold gap
  split <;> omega

theorem gap_next {n a i : Nat} (ha : a < n) (hne : next n i ≠ a) :
    gap n a (next n i) = gap n a i + 1 := by
  unfold gap next at *
  split_ifs at * <;> omega

theorem gap_next_left {n i z : Nat} (hi : i < n) (hz : z < n) (hne : i ≠ z) :
    gap n i z = gap n (next n i) z + 1 := by
  unfold gap next
  split_ifs <;> omega

/-- Where the probe chain of a key ends. -/
inductive Stop where
  | hit (i : Nat)
  | miss (i : Nat)
deriving DecidableEq

variable {κ ν : Type*}

/-- The slots of a table; `none` is an empty slot. -/
abbrev Slots (κ ν : Type*) := Nat → Option (κ × ν)

/-- The probe loop for `k` from slot `i`. -/
def walk [DecidableEq κ] (n : Nat) (T : Slots κ ν) (k : κ) : Nat → Nat → Option Stop
  | 0, _ => none
  | fuel + 1, i =>
    match T i with
    | none => some (.miss i)
    | some e => if e.1 = k then some (.hit i) else walk n T k fuel (next n i)

/-- Is `h` in the circular interval `(hole, j]`? -/
def inInterval (hole j h : Nat) : Bool :=
  if hole < j then hole < h && h ≤ j else hole < h || h ≤ j

/-- The backward shift: `hole` is the open slot, `j` the slot examined last. -/
def closeGap (n : Nat) (home : κ → Nat) : Slots κ ν → Nat → Nat → Nat → Option (Slots κ ν)
  | _, 0, _, _ => none
  | T, fuel + 1, hole, j =>
    match T (next n j) with
    | none => some T
    | some e =>
      if inInterval hole (next n j) (home e.1) then closeGap n home T fuel hole (next n j)
      else closeGap n home
        (Function.update (Function.update T hole (some e)) (next n j) none) fuel
          (next n j) (next n j)

theorem inInterval_iff {n hole j h : Nat} (hole_lt : hole < n) (hj : j < n) (hh : h < n)
    (hne : hole ≠ j) :
    inInterval hole j h = true ↔ 0 < gap n hole h ∧ gap n hole h ≤ gap n hole j := by
  unfold inInterval gap
  split_ifs <;> simp only [Bool.and_eq_true, Bool.or_eq_true, decide_eq_true_eq] <;> omega

/-! ## The table invariant -/

/-- A table of `n` slots in good order: homes are slots, no key sits twice, and
every probe chain is unbroken. -/
structure Good (n : Nat) (home : κ → Nat) (T : Slots κ ν) : Prop where
  pos : 0 < n
  home_lt : ∀ k, home k < n
  inj : ∀ i j e e', i < n → j < n → T i = some e → T j = some e' → e.1 = e'.1 → i = j
  chained : ∀ i e, i < n → T i = some e →
    ∀ x, x < n → gap n (home e.1) x < gap n (home e.1) i → T x ≠ none

/-- `T` holds the pair `(k, v)` in some slot. -/
def Holds (n : Nat) (T : Slots κ ν) (k : κ) (v : ν) : Prop := ∃ i, i < n ∧ T i = some (k, v)

section Lookup

variable [DecidableEq κ] {n : Nat} {home : κ → Nat} {T : Slots κ ν}

/-- The walk passes every occupied slot that does not hold the key. -/
theorem walk_passes (k : κ) {i t : Nat} :
    ∀ (fuel a : Nat), a < n → t < n → gap n a t = i → i < fuel →
      (∀ x, x < n → gap n a x < i → ∃ e, T x = some e ∧ e.1 ≠ k) →
      walk n T k fuel a = walk n T k (fuel - i) t := by
  induction i with
  | zero =>
    intro fuel a ha ht hgap _ _
    rw [(gap_eq_zero ha).mp hgap, Nat.sub_zero]
  | succ i ih =>
    intro fuel a ha ht hgap hfuel hpass
    obtain ⟨fuel, rfl⟩ : ∃ f, fuel = f + 1 := ⟨fuel - 1, by omega⟩
    have hne : a ≠ t := fun h => by simp [h] at hgap
    obtain ⟨e, he, hk⟩ := hpass a ha (by simp)
    have hstep := gap_next_left ha ht hne
    have hnext : walk n T k (fuel + 1) a = walk n T k fuel (next n a) := by
      simp only [walk, he, if_neg hk]
    rw [hnext, ih fuel (next n a) (next_lt ha) ht (by omega) (by omega), Nat.add_sub_add_right]
    intro x hx hlt
    have hxa : x ≠ a := by
      rintro rfl
      unfold gap next at *
      split_ifs at * <;> omega
    refine hpass x hx ?_
    have := gap_next_left ha hx (Ne.symm hxa)
    omega

/-- Probing finds a key that is present, in its own slot. -/
theorem walk_hit (hT : Good n home T) {k : κ} {v : ν} {i : Nat} (hi : i < n)
    (hTi : T i = some (k, v)) : walk n T k n (home k) = some (.hit i) := by
  have hlt := gap_lt (hT.home_lt k) hi
  rw [walk_passes k n (home k) (hT.home_lt k) hi rfl hlt]
  · obtain ⟨f, hf⟩ : ∃ f, n - gap n (home k) i = f + 1 := ⟨n - gap n (home k) i - 1, by omega⟩
    simp [hf, walk, hTi]
  · intro x hx hgap
    obtain ⟨e, he⟩ := Option.ne_none_iff_exists'.mp (hT.chained i (k, v) hi hTi x hx hgap)
    refine ⟨e, he, fun hek => ?_⟩
    have := hT.inj x i e (k, v) hx hi he hTi hek
    subst this
    exact lt_irrefl _ hgap

/-- Probing for an absent key stops at the first empty slot of its chain. -/
theorem walk_miss (hT : Good n home T) {k : κ} (habs : ∀ v, ¬ Holds n T k v)
    (hfree : ∃ z, z < n ∧ T z = none) :
    ∃ i, walk n T k n (home k) = some (.miss i) ∧ i < n ∧ T i = none ∧
      ∀ x, x < n → gap n (home k) x < gap n (home k) i → T x ≠ none := by
  classical
  -- the empty slot nearest to the key's home
  have hex : ∃ d, ∃ z, z < n ∧ T z = none ∧ gap n (home k) z = d := by
    obtain ⟨z, hz, hTz⟩ := hfree
    exact ⟨_, z, hz, hTz, rfl⟩
  obtain ⟨z, hz, hTz, hd⟩ := Nat.find_spec hex
  have hmin : ∀ x, x < n → gap n (home k) x < gap n (home k) z → T x ≠ none := by
    intro x hx hlt hTx
    exact Nat.find_min hex (hd ▸ hlt) ⟨x, hx, hTx, rfl⟩
  refine ⟨z, ?_, hz, hTz, hmin⟩
  have hlt := gap_lt (hT.home_lt k) hz
  rw [walk_passes k n (home k) (hT.home_lt k) hz rfl hlt]
  · obtain ⟨f, hf⟩ : ∃ f, n - gap n (home k) z = f + 1 := ⟨n - gap n (home k) z - 1, by omega⟩
    simp [hf, walk, hTz]
  · intro x hx hgap
    obtain ⟨e, he⟩ := Option.ne_none_iff_exists'.mp (hmin x hx hgap)
    exact ⟨e, he, fun hek => habs e.2 ⟨x, hx, by rw [he, ← hek]⟩⟩

end Lookup

/-! ## Writing an entry -/

/-- Slot `i` is where key `k` belongs: no other slot holds it, no other key is
there, and the chain from its home reaches it. -/
structure Spot (n : Nat) (home : κ → Nat) (T : Slots κ ν) (k : κ) (i : Nat) : Prop where
  lt : i < n
  only : ∀ j e, j < n → T j = some e → e.1 = k → j = i
  own : ∀ e, T i = some e → e.1 = k
  chain : ∀ x, x < n → gap n (home k) x < gap n (home k) i → T x ≠ none

section Write

variable {n : Nat} {home : κ → Nat} {T : Slots κ ν} {k : κ} {i : Nat}

theorem Good.spot_of_hit (hT : Good n home T) {v : ν} (hi : i < n) (hTi : T i = some (k, v)) :
    Spot n home T k i where
  lt := hi
  only := fun j e hj he hek => hT.inj j i e (k, v) hj hi he hTi hek
  own := fun e he => by rw [hTi] at he; cases he; rfl
  chain := hT.chained i (k, v) hi hTi

theorem spot_of_miss (habs : ∀ v, ¬ Holds n T k v) (hi : i < n) (hTi : T i = none)
    (hchain : ∀ x, x < n → gap n (home k) x < gap n (home k) i → T x ≠ none) :
    Spot n home T k i where
  lt := hi
  only := fun j e hj he hek => absurd ⟨j, hj, by rw [he, ← hek]⟩ (habs e.2)
  own := fun e he => by rw [hTi] at he; cases he
  chain := hchain

/-- Writing a key into its spot keeps the table good. -/
theorem Good.put (hT : Good n home T) (hs : Spot n home T k i) (w : ν) :
    Good n home (Function.update T i (some (k, w))) where
  pos := hT.pos
  home_lt := hT.home_lt
  inj := by
    intro a b e e' ha hb hea heb hkey
    by_cases hai : a = i <;> by_cases hbi : b = i
    · rw [hai, hbi]
    · rw [hai, Function.update_self] at hea
      rw [Function.update_of_ne hbi] at heb
      cases hea
      exact absurd (hs.only b e' hb heb hkey.symm) hbi
    · rw [Function.update_of_ne hai] at hea
      rw [hbi, Function.update_self] at heb
      cases heb
      exact absurd (hs.only a e ha hea hkey) hai
    · rw [Function.update_of_ne hai] at hea
      rw [Function.update_of_ne hbi] at heb
      exact hT.inj a b e e' ha hb hea heb hkey
  chained := by
    intro a e ha hea x hx hgap
    by_cases hxi : x = i
    · simp [hxi]
    rw [Function.update_of_ne hxi]
    by_cases hai : a = i
    · rw [hai, Function.update_self] at hea
      cases hea
      exact hs.chain x hx (hai ▸ hgap)
    · rw [Function.update_of_ne hai] at hea
      exact hT.chained a e ha hea x hx hgap

theorem Spot.holds_put_self (hs : Spot n home T k i) (w v : ν) :
    Holds n (Function.update T i (some (k, w))) k v ↔ v = w := by
  constructor
  · rintro ⟨x, hx, hTx⟩
    by_cases hxi : x = i
    · rw [hxi, Function.update_self] at hTx
      cases hTx
      rfl
    · rw [Function.update_of_ne hxi] at hTx
      exact absurd (hs.only x (k, v) hx hTx rfl) hxi
  · rintro rfl
    exact ⟨i, hs.lt, Function.update_self ..⟩

theorem Spot.holds_put_of_ne (hs : Spot n home T k i) (w v : ν) {k' : κ} (hne : k' ≠ k) :
    Holds n (Function.update T i (some (k, w))) k' v ↔ Holds n T k' v := by
  constructor
  · rintro ⟨x, hx, hTx⟩
    by_cases hxi : x = i
    · rw [hxi, Function.update_self] at hTx
      cases hTx
      exact absurd rfl hne
    · rw [Function.update_of_ne hxi] at hTx
      exact ⟨x, hx, hTx⟩
  · rintro ⟨x, hx, hTx⟩
    have hxi : x ≠ i := by
      rintro rfl
      exact hne (hs.own (k', v) hTx)
    exact ⟨x, hx, by rw [Function.update_of_ne hxi, hTx]⟩

end Write

/-! ## Closing the gap of a deleted entry -/

/-- The shift's loop invariant: chains are unbroken except across the hole, and
no entry scanned so far has a chain across it. -/
structure OpenAt (n : Nat) (home : κ → Nat) (T : Slots κ ν) (hole j : Nat) : Prop where
  pos : 0 < n
  home_lt : ∀ k, home k < n
  inj : ∀ i j e e', i < n → j < n → T i = some e → T j = some e' → e.1 = e'.1 → i = j
  hole_lt : hole < n
  j_lt : j < n
  hole_empty : T hole = none
  between : ∀ x, x < n → 0 < gap n hole x → gap n hole x ≤ gap n hole j → T x ≠ none
  chained : ∀ i e, i < n → T i = some e →
    ∀ x, x < n → gap n (home e.1) x < gap n (home e.1) i → T x ≠ none ∨ x = hole
  cleared : ∀ i e, i < n → T i = some e → 0 < gap n hole i → gap n hole i ≤ gap n hole j →
    ¬ gap n (home e.1) hole < gap n (home e.1) i

section Shift

variable {n : Nat} {home : κ → Nat} {T : Slots κ ν} {hole j : Nat}

/-- Emptying a slot opens the invariant there. -/
theorem OpenAt.of_clear (hT : Good n home T) (hi : j < n) :
    OpenAt n home (Function.update T j none) j j where
  pos := hT.pos
  home_lt := hT.home_lt
  inj := by
    intro a b e e' ha hb hea heb hkey
    have hai : a ≠ j := by rintro rfl; simp at hea
    have hbi : b ≠ j := by rintro rfl; simp at heb
    rw [Function.update_of_ne hai] at hea
    rw [Function.update_of_ne hbi] at heb
    exact hT.inj a b e e' ha hb hea heb hkey
  hole_lt := hi
  j_lt := hi
  hole_empty := Function.update_self ..
  between := by
    intro x _ h0 hle
    rw [gap_self] at hle
    omega
  chained := by
    intro a e ha hea x hx hgap
    by_cases hxj : x = j
    · exact Or.inr hxj
    have haj : a ≠ j := by rintro rfl; simp at hea
    rw [Function.update_of_ne haj] at hea
    rw [Function.update_of_ne hxj]
    exact Or.inl (hT.chained a e ha hea x hx hgap)
  cleared := by
    intro a e _ _ h0 hle
    rw [gap_self] at hle
    omega

/-- The scan has reached an empty slot: no chain crosses the hole any more. -/
theorem OpenAt.done (h : OpenAt n home T hole j) (hend : T (next n j) = none) : Good n home T where
  pos := h.pos
  home_lt := h.home_lt
  inj := h.inj
  chained := by
    intro i e hi he x hx hgap
    refine (h.chained i e hi he x hx hgap).resolve_right ?_
    rintro rfl
    -- the entry lies beyond the scanned part, so its chain also crosses the empty slot
    have hne : i ≠ x := by rintro rfl; exact lt_irrefl _ hgap
    have hout : ¬ gap n x i ≤ gap n x j := fun hle =>
      h.cleared i e hi he (by have := gap_eq_zero (b := i) h.hole_lt; omega) hle hgap
    have hhome := h.home_lt e.1
    have hlt := next_lt h.j_lt
    have hie : i ≠ next n j := by rintro rfl; rw [hend] at he; cases he
    have hxe : next n j ≠ x := by
      intro heq
      have := gap_next_left h.j_lt hi (by rintro rfl; exact hout le_rfl)
      have hj := h.j_lt
      unfold gap next at *
      split_ifs at * <;> omega
    have hcross : gap n (home e.1) (next n j) < gap n (home e.1) i := by
      have hj := h.j_lt
      have := gap_next h.hole_lt hxe
      unfold gap at *
      split_ifs at * <;> omega
    rcases h.chained i e hi he (next n j) hlt hcross with hocc | heq
    · exact hocc hend
    · exact hxe heq

/-- An entry whose chain starts behind the hole stays; only the scan advances. -/
theorem OpenAt.stay (h : OpenAt n home T hole j) {e : κ × ν} (he : T (next n j) = some e)
    (hin : inInterval hole (next n j) (home e.1) = true) : OpenAt n home T hole (next n j) := by
  have hlt := next_lt h.j_lt
  have hne : next n j ≠ hole := by intro heq; rw [heq, h.hole_empty] at he; cases he
  have hgap := gap_next h.hole_lt hne
  obtain ⟨hin0, hinle⟩ := (inInterval_iff h.hole_lt hlt (h.home_lt e.1) hne.symm).mp hin
  have split_range : ∀ x, x < n → gap n hole x ≤ gap n hole (next n j) →
      gap n hole x ≤ gap n hole j ∨ x = next n j := by
    intro x hx hle
    by_cases hxj : gap n hole x ≤ gap n hole j
    · exact Or.inl hxj
    · right
      have := h.hole_lt
      unfold gap at *
      split_ifs at * <;> omega
  refine { h with j_lt := hlt, between := ?_, cleared := ?_ }
  · intro x hx h0 hle
    rcases split_range x hx hle with hle' | rfl
    · exact h.between x hx h0 hle'
    · simp [he]
  · intro i e' hi he' h0 hle
    rcases split_range i hi hle with hle' | rfl
    · exact h.cleared i e' hi he' h0 hle'
    · rw [he] at he'
      cases he'
      have := h.hole_lt
      have := h.home_lt e.1
      unfold gap at *
      split_ifs at * <;> omega

/-- An entry whose chain crosses the hole moves into it, and the hole moves to
where the entry was. -/
theorem OpenAt.move (h : OpenAt n home T hole j) {e : κ × ν} (he : T (next n j) = some e)
    (hout : ¬ inInterval hole (next n j) (home e.1) = true) :
    OpenAt n home (Function.update (Function.update T hole (some e)) (next n j) none)
      (next n j) (next n j) := by
  have hlt := next_lt h.j_lt
  have hne : next n j ≠ hole := by intro heq; rw [heq, h.hole_empty] at he; cases he
  rw [inInterval_iff h.hole_lt hlt (h.home_lt e.1) hne.symm] at hout
  -- the updated table: `e` at the old hole, nothing at the new one, the rest as it was
  have at_hole : ∀ i e', i ≠ next n j → i = hole →
      Function.update (Function.update T hole (some e)) (next n j) none i = some e' → e' = e := by
    intro i e' hij hih hi
    rw [Function.update_of_ne hij, hih, Function.update_self] at hi
    exact (Option.some.inj hi).symm
  have off_hole : ∀ i, i ≠ next n j → i ≠ hole →
      Function.update (Function.update T hole (some e)) (next n j) none i = T i := by
    intro i hij hih
    rw [Function.update_of_ne hij, Function.update_of_ne hih]
  have ne_next : ∀ {i e'},
      Function.update (Function.update T hole (some e)) (next n j) none i = some e' →
        i ≠ next n j := by
    rintro i e' hi rfl
    simp at hi
  refine { pos := h.pos, home_lt := h.home_lt, hole_lt := hlt, j_lt := hlt, inj := ?_,
           hole_empty := Function.update_self .., between := ?_, chained := ?_, cleared := ?_ }
  · intro a b ea eb ha hb hea heb hkey
    have ha' := ne_next hea
    have hb' := ne_next heb
    by_cases hah : a = hole <;> by_cases hbh : b = hole
    · rw [hah, hbh]
    · rw [at_hole a ea ha' hah hea] at hkey
      rw [off_hole b hb' hbh] at heb
      exact absurd (h.inj _ b e eb hlt hb he heb hkey).symm hb'
    · rw [at_hole b eb hb' hbh heb] at hkey
      rw [off_hole a ha' hah] at hea
      exact absurd (h.inj a _ ea e ha hlt hea he hkey) ha'
    · rw [off_hole a ha' hah] at hea
      rw [off_hole b hb' hbh] at heb
      exact h.inj a b ea eb ha hb hea heb hkey
  · intro x _ h0 hle
    rw [gap_self] at hle
    omega
  · intro i e' hi he' x hx hgap
    have hi' := ne_next he'
    by_cases hxn : x = next n j
    · exact Or.inr hxn
    left
    by_cases hxh : x = hole
    · rw [Function.update_of_ne hxn, hxh, Function.update_self]
      simp
    rw [off_hole x hxn hxh]
    by_cases hih : i = hole
    · -- the moved entry: its chain to the hole is a prefix of its old chain
      have heq := at_hole i e' hi' hih he'
      subst heq
      have hhome := h.home_lt e'.1
      have hhole := h.hole_lt
      have hgap' : gap n (home e'.1) x < gap n (home e'.1) (next n j) := by
        rw [hih] at hgap
        unfold gap at *
        split_ifs at * <;> omega
      exact (h.chained _ e' hlt he x hx hgap').resolve_right hxh
    · rw [off_hole i hi' hih] at he'
      exact (h.chained i e' hi he' x hx hgap).resolve_right hxh
  · intro i e' _ _ h0 hle
    rw [gap_self] at hle
    omega

/-- Moving an entry into the hole does not change what the table holds. -/
theorem OpenAt.holds_move (h : OpenAt n home T hole j) {e : κ × ν} (he : T (next n j) = some e)
    (k : κ) (v : ν) :
    Holds n (Function.update (Function.update T hole (some e)) (next n j) none) k v ↔
      Holds n T k v := by
  have hlt := next_lt h.j_lt
  have hne : next n j ≠ hole := by intro heq; rw [heq, h.hole_empty] at he; cases he
  constructor
  · rintro ⟨x, hx, hTx⟩
    have hxn : x ≠ next n j := by rintro rfl; simp at hTx
    rw [Function.update_of_ne hxn] at hTx
    by_cases hxh : x = hole
    · rw [hxh, Function.update_self] at hTx
      exact ⟨next n j, hlt, he.trans hTx⟩
    · rw [Function.update_of_ne hxh] at hTx
      exact ⟨x, hx, hTx⟩
  · rintro ⟨x, hx, hTx⟩
    by_cases hxn : x = next n j
    · refine ⟨hole, h.hole_lt, ?_⟩
      rw [Function.update_of_ne hne.symm, Function.update_self, ← he, ← hxn, hTx]
    · have hxh : x ≠ hole := by rintro rfl; rw [h.hole_empty] at hTx; cases hTx
      exact ⟨x, hx, by rw [Function.update_of_ne hxn, Function.update_of_ne hxh, hTx]⟩

/-- The shift terminates before the next empty slot, leaves a good table, and
holds what it held. -/
theorem closeGap_spec {z : Nat} :
    ∀ (fuel : Nat) (T : Slots κ ν) (hole j : Nat), OpenAt n home T hole j →
      z < n → T z = none → z ≠ hole → z ≠ j → gap n j z ≤ fuel →
      ∃ T', closeGap n home T fuel hole j = some T' ∧ Good n home T' ∧
        ∀ k v, Holds n T' k v ↔ Holds n T k v := by
  intro fuel
  induction fuel with
  | zero =>
    intro T hole j h hz _ _ hzj hfuel
    exact absurd ((gap_eq_zero h.j_lt).mp (by omega)).symm hzj
  | succ fuel ih =>
    intro T hole j h hz hTz hzh hzj hfuel
    have hstep := gap_next_left h.j_lt hz hzj.symm
    cases he : T (next n j) with
    | none => exact ⟨T, by simp [closeGap, he], h.done he, fun _ _ => Iff.rfl⟩
    | some e =>
      have hzn : z ≠ next n j := by rintro rfl; rw [hTz] at he; cases he
      by_cases hin : inInterval hole (next n j) (home e.1) = true
      · obtain ⟨T', hrun, hgood, hholds⟩ :=
          ih T hole (next n j) (h.stay he hin) hz hTz hzh hzn (by omega)
        exact ⟨T', by simp [closeGap, he, hin, hrun], hgood, hholds⟩
      · have hTz' : Function.update (Function.update T hole (some e)) (next n j) none z = none := by
          rw [Function.update_of_ne hzn, Function.update_of_ne hzh, hTz]
        obtain ⟨T', hrun, hgood, hholds⟩ :=
          ih _ (next n j) (next n j) (h.move he hin) hz hTz' hzn hzn (by omega)
        exact ⟨T', by simp [closeGap, he, hin, hrun], hgood,
          fun k v => (hholds k v).trans (h.holds_move he k v)⟩

end Shift

/-! ## Free slots -/

/-- A good table that holds fewer keys than it has slots has an empty slot. -/
theorem Good.exists_empty {n : Nat} {home : κ → Nat} {T : Slots κ ν} (hT : Good n home T)
    {S : Finset κ} (hS : ∀ i e, i < n → T i = some e → e.1 ∈ S) (hcard : S.card < n) :
    ∃ z, z < n ∧ T z = none := by
  by_contra hfull
  push Not at hfull
  have hocc : ∀ i : Fin n, ∃ e, T i = some e := fun i =>
    Option.ne_none_iff_exists'.mp (hfull i i.isLt)
  choose e he using hocc
  have hinj : Function.Injective fun i : Fin n => (⟨(e i).1, hS i (e i) i.isLt (he i)⟩ : S) := by
    intro a b hab
    exact Fin.ext (hT.inj a b (e a) (e b) a.isLt b.isLt (he a) (he b) (congrArg Subtype.val hab))
  have := Fintype.card_le_of_injective _ hinj
  simp at this
  omega

end Kit.Probe
