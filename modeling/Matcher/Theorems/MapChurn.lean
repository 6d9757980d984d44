import Matcher.Logic.OrderMapRep

/-!
# The order map under any churn

`MapOp.latest` reads the value of a key off the history alone: the last insert of
the key that no remove of it followed. Whatever the keys and however they collide,
the table answers with it, as long as no more keys are present than it was made for.
-/

namespace Matcher

open Kit Kit.Probe

inductive MapOp where
  | insert (k : OrderId) (v : Nat)
  | remove (k : OrderId)
  | get (k : OrderId)
deriving DecidableEq, Repr

namespace MapOp

/-- What an operation makes of the value of the key `k`. -/
def effect (k : OrderId) (cur : Option Nat) : MapOp → Option Nat
  | insert k' v => if k' = k then some v else cur
  | remove k' => if k' = k then none else cur
  | get _ => cur

/-- The value of `k` after a history that started with the value `cur`. -/
def latestFrom (cur : Option Nat) (ops : List MapOp) (k : OrderId) : Option Nat :=
  ops.foldl (effect k) cur

/-- The value of `k` after a history that started with nothing. -/
def latest (ops : List MapOp) (k : OrderId) : Option Nat := latestFrom none ops k

end MapOp

/-- A present key was inserted. -/
theorem MapOp.mem_of_latestFrom {cur : Option Nat} {ops : List MapOp} {k : OrderId}
    (h : (latestFrom cur ops k).isSome) : cur.isSome ∨ ∃ v, insert k v ∈ ops := by
  induction ops generalizing cur with
  | nil => exact Or.inl h
  | cons op ops ih =>
    rcases ih h with hcur | ⟨v, hv⟩
    · cases op with
      | insert k' v =>
        rw [effect] at hcur
        split at hcur
        · next heq => exact Or.inr ⟨v, heq ▸ List.mem_cons_self⟩
        · exact Or.inl hcur
      | remove k' =>
        rw [effect] at hcur
        split at hcur
        · cases hcur
        · exact Or.inl hcur
      | get k' => exact Or.inl hcur
    · exact Or.inr ⟨v, List.mem_cons_of_mem _ hv⟩

namespace OrderMap

def step (m : OrderMap) : MapOp → Option OrderMap
  | .insert k v => m.insert k v
  | .remove k => m.remove k
  | .get k => (m.get k).map fun _ => m

/-- A history of operations. -/
def run : OrderMap → List MapOp → Option OrderMap
  | m, [] => some m
  | m, op :: ops => do (← m.step op).run ops

/-- `get`, and the value behind the pointer it returns. -/
def find (m : OrderMap) (k : OrderId) : Option (Option Nat) := do
  let some i ← m.get k | return none
  return some (← m.readVal i)

section Models

variable {m : OrderMap} {M : Finmap fun _ : OrderId => Nat} (h : m.Models M)
    (hroom : M.keys.card < m.tags.size)

include h hroom

theorem Models.find_eq (k : OrderId) : m.find k = some (M.lookup k) := by
  cases hk : M.lookup k with
  | none => simp [find, h.get_none hroom hk]
  | some v =>
    obtain ⟨i, hget, hval, _⟩ := h.get_some hk
    simp [find, hget, hval]

/-- A new key goes to an empty slot; every other slot stays as it was. -/
theorem Models.insert_new {k : OrderId} (hk : M.lookup k = none) (w : Nat) :
    ∃ m' i, m.insert k w = some m' ∧ m.view i = none ∧
      ∀ j, j ≠ i → m'.tags[j]? = m.tags[j]? ∧ m'.entries[j]? = m.entries[j]? := by
  obtain ⟨i, hprobe, hnone, hspot⟩ := h.probe_miss hroom hk
  refine ⟨{ m with
      tags := m.tags.modify i fun _ => tagOf (mix k)
      entries := m.entries.modify i fun _ => ⟨k, w⟩
      len := incr 64 m.len }, i, ?_, hnone, fun j hj => ?_⟩
  · simp [OrderMap.insert, hprobe, set?_of_lt _ hspot.lt, set?_of_lt _ (h.shape.entries ▸ hspot.lt)]
  simp [Array.getElem?_modify, Ne.symm hj]

/-- One operation keeps the table a model of the history. -/
theorem Models.step (op : MapOp) : ∃ m' M', m.step op = some m' ∧ m'.Models M' ∧
    m'.tags.size = m.tags.size ∧ ∀ k, M'.lookup k = op.effect k (M.lookup k) := by
  cases op with
  | insert k v =>
    obtain ⟨m', hrun, hm', hsize, _⟩ := h.insert hroom k v
    refine ⟨m', _, hrun, hm', hsize, fun k' => ?_⟩
    rw [MapOp.effect]
    split
    · next heq => rw [heq, Finmap.lookup_insert]
    · next hne => exact Finmap.lookup_insert_of_ne _ (Ne.symm hne)
  | remove k =>
    cases hk : M.lookup k with
    | none =>
      refine ⟨m, M, h.remove_absent hroom hk, h, rfl, fun k' => ?_⟩
      rw [MapOp.effect]
      split
      · next heq => rw [← heq, hk]
      · rfl
    | some v =>
      obtain ⟨m', hrun, hm', hsize, _⟩ := h.remove_present hroom hk
      refine ⟨m', _, hrun, hm', hsize, fun k' => ?_⟩
      rw [MapOp.effect]
      split
      · next heq => rw [heq, Finmap.lookup_erase]
      · next hne => exact Finmap.lookup_erase_ne (Ne.symm hne)
  | get k =>
    refine ⟨m, M, ?_, h, rfl, fun _ => rfl⟩
    cases hk : M.lookup k with
    | none => simp [OrderMap.step, h.get_none hroom hk]
    | some v =>
      obtain ⟨i, hget, _⟩ := h.get_some hk
      simp [OrderMap.step, hget]

end Models

/-- The present keys, counted. -/
theorem encard_present (M : Finmap fun _ : OrderId => Nat) :
    {k | (M.lookup k).isSome}.encard = M.keys.card := by
  rw [← Set.encard_coe_eq_coe_finsetCard]
  congr 1
  ext k
  rw [Set.mem_ofPred_eq, Finmap.lookup_isSome, Finset.mem_coe, Finmap.mem_keys]

/-- A whole history, as long as the table keeps a free slot. -/
theorem Models.run {liveMax : Nat} {m : OrderMap} {M : Finmap fun _ : OrderId => Nat}
    (h : m.Models M) (htags : liveMax < m.tags.size) (ops : List MapOp)
    (hfew : ∀ pre, pre <+: ops →
      {k | (MapOp.latestFrom (M.lookup k) pre k).isSome}.encard ≤ liveMax) :
    ∃ m' M', m.run ops = some m' ∧ m'.Models M' ∧ m'.tags.size = m.tags.size ∧
      ∀ k, M'.lookup k = MapOp.latestFrom (M.lookup k) ops k := by
  induction ops generalizing m M with
  | nil => exact ⟨m, M, rfl, h, rfl, fun _ => rfl⟩
  | cons op ops ih =>
    have hroom : M.keys.card < m.tags.size := by
      have hnow := hfew [] List.nil_prefix
      rw [show {k | (MapOp.latestFrom (M.lookup k) [] k).isSome} =
        {k | (M.lookup k).isSome} from rfl,
        encard_present, Nat.cast_le] at hnow
      exact lt_of_le_of_lt hnow htags
    obtain ⟨m1, M1, hstep, hm1, hsize1, hlook1⟩ := h.step hroom op
    obtain ⟨m2, M2, hrun, hm2, hsize2, hlook2⟩ := ih hm1 (hsize1 ▸ htags) fun pre hpre => by
      have := hfew (op :: pre) (List.cons_prefix_cons.mpr ⟨rfl, hpre⟩)
      simp only [hlook1]
      exact this
    refine ⟨m2, M2, by simp [OrderMap.run, hstep, hrun], hm2, hsize2.trans hsize1, fun k => ?_⟩
    rw [hlook2, hlook1]
    rfl

end OrderMap

/-- After any history in which at most `liveMax` keys are present at a time, the map
made for `liveMax` keys answers from the history: every probe ends, `get` finds the
last value inserted, `len` counts the present keys, removing an absent key changes
nothing, and inserting a new one leaves every entry where it is. -/
theorem map_answers_from_history {liveMax : Nat} (hmax : liveMax ≤ 2 ^ 61) (ops : List MapOp)
    (hfew : ∀ pre, pre <+: ops → {k | (MapOp.latest pre k).isSome}.encard ≤ liveMax) :
    ∃ m0 m, OrderMap.new liveMax = some m0 ∧ m0.run ops = some m ∧
      (∀ k, m.find k = some (MapOp.latest ops k)) ∧
      (m.len : ℕ∞) = {k | (MapOp.latest ops k).isSome}.encard ∧
      (∀ k, MapOp.latest ops k = none → m.remove k = some m) ∧
      ∀ k v, MapOp.latest ops k = none → ∃ m', m.insert k v = some m' ∧
        ∀ i e, m.view i = some e → m'.view i = some e := by
  obtain ⟨m0, hnew, hm0, htags, h16⟩ := OrderMap.new_models hmax
  obtain ⟨m, M, hrun, hm, hsize, hlook⟩ := hm0.run (show liveMax < m0.tags.size by omega) ops hfew
  have hlook' : ∀ k, M.lookup k = MapOp.latest ops k := hlook
  have hcard : (M.keys.card : ℕ∞) = {k | (MapOp.latest ops k).isSome}.encard := by
    rw [← OrderMap.encard_present]
    simp only [hlook']
  have hroom : M.keys.card < m.tags.size := by
    have := hfew ops List.prefix_rfl
    rw [← hcard, Nat.cast_le] at this
    omega
  refine ⟨m0, m, hnew, hrun, fun k => ?_, ?_, fun k hk => ?_, fun k v hk => ?_⟩
  · rw [hm.find_eq hroom, hlook']
  · rw [hm.len, hcard]
  · exact hm.remove_absent hroom ((hlook' k).trans hk)
  · obtain ⟨m', i, hins, hnone, hrest⟩ := hm.insert_new hroom ((hlook' k).trans hk) v
    refine ⟨m', hins, fun j e hj => ?_⟩
    have hji : j ≠ i := by
      rintro rfl
      rw [hnone] at hj
      cases hj
    rw [← hj, OrderMap.view, OrderMap.view, (hrest j hji).1, (hrest j hji).2]

/-- Two keys, one of them removed and inserted again. -/
theorem map_answers_from_history_two :
    let ops := [MapOp.insert 1 7, .insert 17 8, .remove 1, .get 17, .insert 1 9]
    ∃ m0 m, OrderMap.new 2 = some m0 ∧ m0.run ops = some m ∧
      (∀ k, m.find k = some (MapOp.latest ops k)) ∧
      (m.len : ℕ∞) = {k | (MapOp.latest ops k).isSome}.encard ∧
      (∀ k, MapOp.latest ops k = none → m.remove k = some m) ∧
      ∀ k v, MapOp.latest ops k = none → ∃ m', m.insert k v = some m' ∧
        ∀ i e, m.view i = some e → m'.view i = some e := by
  refine map_answers_from_history (by decide) _ fun pre hpre => ?_
  have hkeys : {k | (MapOp.latest pre k).isSome} ⊆ ({1, 17} : Set OrderId) := by
    intro k hk
    rcases MapOp.mem_of_latestFrom hk with hnone | ⟨v, hv⟩
    · cases hnone
    · have hmem := hpre.subset hv
      simp only [List.mem_cons, MapOp.insert.injEq, reduceCtorEq, List.not_mem_nil, or_false,
        false_or] at hmem
      rcases hmem with ⟨rfl, _⟩ | ⟨rfl, _⟩ | ⟨rfl, _⟩ <;> simp
  exact (Set.encard_le_encard hkeys).trans (Set.encard_pair (by decide)).le

end Matcher
