import Mathlib

/-!
# Linked lists laid out in an addressed memory

`Seg node p cs e`: the nodes `cs` form a doubly linked segment in that order,
entered from `p` (the first node's `prev`) and leaving to `e` (the last node's
`next`). `node c` reads a node's `(prev, next)` pair, `none` if there is no such
node. `Path` is the singly linked version, for free lists.

Splitting at any point (`Seg.append_iff`), changing one end (`retarget`,
`reenter`) and cutting a node out (`unlink`) are all the surgery a list
implementation performs.
-/

namespace Kit

variable {ρ : Type*}

/-- A doubly linked segment. -/
def Seg (node : ρ → Option (ρ × ρ)) : ρ → List ρ → ρ → Prop
  | _, [], _ => True
  | p, c :: cs, e => node c = some (p, cs.headD e) ∧ Seg node c cs e

/-- A singly linked path. -/
def Path (next : ρ → Option ρ) : List ρ → ρ → Prop
  | [], _ => True
  | c :: cs, e => next c = some (cs.headD e) ∧ Path next cs e

section Seg

variable {node node' : ρ → Option (ρ × ρ)} {p e : ρ}

/-- Only the segment's own nodes matter. -/
theorem Seg.congr {cs : List ρ} (h : Seg node p cs e) (heq : ∀ c ∈ cs, node' c = node c) :
    Seg node' p cs e := by
  induction cs generalizing p with
  | nil => trivial
  | cons c cs ih =>
    refine ⟨(heq c List.mem_cons_self).trans h.1, ih h.2 fun x hx => ?_⟩
    exact heq x (List.mem_cons_of_mem _ hx)

/-- A segment splits at any point. -/
theorem Seg.append_iff {l r : List ρ} :
    Seg node p (l ++ r) e ↔ Seg node p l (r.headD e) ∧ Seg node (l.getLastD p) r e := by
  induction l generalizing p with
  | nil => simp [Seg]
  | cons c l ih =>
    have hhead : (l ++ r).headD e = l.headD (r.headD e) := by cases l <;> rfl
    simp only [List.cons_append, Seg, ih, hhead, List.getLastD_cons, and_assoc]

/-- The links of a node in the middle of a segment. -/
theorem Seg.at {l r : List ρ} {c : ρ} (h : Seg node p (l ++ c :: r) e) :
    node c = some (l.getLastD p, r.headD e) :=
  (Seg.append_iff.mp h).2.1

/-- Give a segment a new exit by changing its last node's `next`. -/
theorem Seg.retarget {cs : List ρ} {e' : ρ} (h : Seg node p cs e) (hnd : cs.Nodup)
    (hlast : ∀ a, cs.getLast? = some a → node' a = (node a).map fun n => (n.1, e'))
    (hrest : ∀ c ∈ cs, cs.getLast? ≠ some c → node' c = node c) : Seg node' p cs e' := by
  rcases List.eq_nil_or_concat cs with rfl | ⟨l, a, rfl⟩
  · trivial
  rw [List.concat_eq_append] at *
  have hal : a ∉ l := fun ha => (List.nodup_append.mp hnd).2.2 a ha a (by simp) rfl
  obtain ⟨hl, hnode, _⟩ := Seg.append_iff.mp h
  refine Seg.append_iff.mpr ⟨?_, ?_, trivial⟩
  · refine Seg.congr (e := a) hl fun c hc => hrest c (by simp [hc]) ?_
    rw [List.getLast?_concat]
    rintro ⟨rfl⟩
    exact hal hc
  · rw [hlast a (by simp), hnode]
    rfl

/-- Give a segment a new entry by changing its first node's `prev`. -/
theorem Seg.reenter {cs : List ρ} {p' : ρ} (h : Seg node p cs e) (hnd : cs.Nodup)
    (hhead : ∀ b, cs.head? = some b → node' b = (node b).map fun n => (p', n.2))
    (hrest : ∀ c ∈ cs, cs.head? ≠ some c → node' c = node c) : Seg node' p' cs e := by
  cases cs with
  | nil => trivial
  | cons b r =>
    have hbr : b ∉ r := (List.nodup_cons.mp hnd).1
    refine ⟨by rw [hhead b rfl, h.1]; rfl, h.2.congr fun c hc => ?_⟩
    refine hrest c (List.mem_cons_of_mem _ hc) ?_
    rintro ⟨rfl⟩
    exact hbr hc

/-- Cut node `c` out: its neighbours are linked to each other, all else stays. -/
theorem Seg.unlink {l r : List ρ} {c : ρ} (h : Seg node p (l ++ c :: r) e)
    (hnd : (l ++ c :: r).Nodup)
    (hprev : ∀ a, l.getLast? = some a → node' a = (node a).map fun n => (n.1, r.headD e))
    (hnext : ∀ b, r.head? = some b → node' b = (node b).map fun n => (l.getLastD p, n.2))
    (hrest : ∀ x ∈ l ++ r, l.getLast? ≠ some x → r.head? ≠ some x → node' x = node x) :
    Seg node' p (l ++ r) e := by
  obtain ⟨hl, _, hr⟩ := Seg.append_iff.mp h
  have hnd' := List.nodup_append.mp hnd
  have hdisj : ∀ x ∈ l, x ∉ r := fun x hx hxr => hnd'.2.2 x hx x (by simp [hxr]) rfl
  refine Seg.append_iff.mpr ⟨?_, ?_⟩
  · refine hl.retarget hnd'.1 hprev fun x hx hne => hrest x (by simp [hx]) hne fun hxr => ?_
    exact hdisj x hx (List.mem_of_mem_head? (by simpa using hxr))
  · refine hr.reenter (List.nodup_cons.mp hnd'.2.1).2 hnext fun x hx hne =>
      hrest x (by simp [hx]) (fun hxl => ?_) hne
    exact hdisj x (List.mem_of_getLast? hxl) hx

end Seg

section Path

variable {next next' : ρ → Option ρ} {e : ρ}

theorem Path.congr {cs : List ρ} (h : Path next cs e) (heq : ∀ c ∈ cs, next' c = next c) :
    Path next' cs e := by
  induction cs with
  | nil => trivial
  | cons c cs ih =>
    refine ⟨(heq c List.mem_cons_self).trans h.1, ih h.2 fun x hx => ?_⟩
    exact heq x (List.mem_cons_of_mem _ hx)

end Path

/-! ## Sums over an address range -/

/-- Changing one summand changes the sum by as much. -/
theorem sum_range_update {n c : Nat} {f g : Nat → Nat} (hc : c < n)
    (heq : ∀ x, x ≠ c → g x = f x) :
    ∑ x ∈ Finset.range n, g x + f c = ∑ x ∈ Finset.range n, f x + g c := by
  have hmem : c ∈ Finset.range n := Finset.mem_range.mpr hc
  rw [← Finset.sum_erase_add _ g hmem, ← Finset.sum_erase_add _ f hmem]
  have hrest : ∑ x ∈ (Finset.range n).erase c, g x = ∑ x ∈ (Finset.range n).erase c, f x :=
    Finset.sum_congr rfl fun x hx => heq x (Finset.ne_of_mem_erase hx)
  omega

end Kit
