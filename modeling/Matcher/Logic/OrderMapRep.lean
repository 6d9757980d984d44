import Matcher.Detail.OrderMap

/-!
# The order map is a finite map

`OrderMap.view` reads the two arrays as the slots of a linear-probing table;
`Shape` says the arrays fit together (power-of-two size, matching tags), and
`Models m M` that the table holds exactly the finite map `M`. Each operation
has one specification lemma in terms of `M`; the probing theory is
`Kit.Probe`'s.
-/

namespace Matcher

open Kit Kit.Probe

namespace OrderMap

/-- The entry in slot `i`, if the slot is occupied. -/
def view (m : OrderMap) (i : Nat) : Option (OrderId × Nat) :=
  match m.tags[i]?, m.entries[i]? with
  | some t, some e => if t = 0 then none else some (e.key, e.val)
  | _, _ => none

/-- The arrays fit together: as many entries as tags, a power of two of them
with the mask to match, and every tag in use belongs to its entry's key. -/
structure Shape (m : OrderMap) : Prop where
  size : ∃ r, r ≤ 62 ∧ m.tags.size = 2 ^ r
  mask : m.mask = m.tags.size - 1
  entries : m.entries.size = m.tags.size
  tag_ok : ∀ (i : Nat) (t : UInt8) (e : Entry), m.tags[i]? = some t → t ≠ 0 →
    m.entries[i]? = some e → t = tagOf (mix e.key)

/-- The table holds exactly the finite map `M`. -/
structure Models (m : OrderMap) (M : Finmap fun _ : OrderId => Nat) : Prop where
  shape : m.Shape
  good : Good m.tags.size m.home m.view
  holds : ∀ k v, Holds m.tags.size m.view k v ↔ M.lookup k = some v
  len : m.len = M.keys.card

/-- A tag in use is never 0. -/
theorem tagOf_ne_zero (h : UInt64) : tagOf h ≠ 0 := by
  intro h0
  have hbit := congrArg (fun t : UInt8 => t.toBitVec.getLsbD 7) h0
  simp [tagOf] at hbit

section Shape

variable {m : OrderMap} (hs : m.Shape)

include hs

theorem Shape.pos : 0 < m.tags.size := by
  obtain ⟨r, _, hr⟩ := hs.size
  rw [hr]
  exact Nat.two_pow_pos r

theorem Shape.size_le : m.tags.size ≤ 2 ^ 62 := by
  obtain ⟨r, hr, hsize⟩ := hs.size
  rw [hsize]
  exact Nat.pow_le_pow_right (by decide) hr

theorem Shape.and_mask (x : Nat) : x &&& m.mask = x % m.tags.size := by
  obtain ⟨r, _, hr⟩ := hs.size
  rw [hs.mask, hr, Nat.and_two_pow_sub_one_eq_mod]

theorem Shape.home_lt (k : OrderId) : m.home k < m.tags.size := by
  rw [home, hs.and_mask]
  exact Nat.mod_lt _ hs.pos

theorem Shape.next_eq {i : Nat} (hi : i < m.tags.size) : m.next i = Probe.next m.tags.size i := by
  rw [next, hs.and_mask, Probe.next]
  split
  · next h => rw [h, Nat.mod_self]
  · exact Nat.mod_eq_of_lt (by omega)

/-- Slot `i` read back: its tag, its entry, and what the view makes of them. -/
theorem Shape.slot {i : Nat} (hi : i < m.tags.size) :
    ∃ t e, m.tags[i]? = some t ∧ m.entries[i]? = some e ∧
      m.view i = if t = 0 then none else some (e.key, e.val) := by
  obtain ⟨t, ht⟩ := exists_getElem? hi
  obtain ⟨e, he⟩ := exists_getElem? (hs.entries ▸ hi)
  exact ⟨t, e, ht, he, by simp [view, ht, he]⟩

/-- The probe loop of the source is the library's walk over the view. -/
theorem Shape.probeFrom_eq (k : OrderId) (fuel : Nat) {i : Nat} (hi : i < m.tags.size) :
    m.probeFrom k fuel i = walk m.tags.size m.view k fuel i := by
  induction fuel generalizing i with
  | zero => rfl
  | succ fuel ih =>
    obtain ⟨t, e, ht, he, hview⟩ := hs.slot hi
    have hnext : m.next i < m.tags.size := hs.next_eq hi ▸ next_lt hi
    have htag : e.key = k → t ≠ 0 → t = tagOf (mix k) := fun hk ht0 =>
      hk ▸ hs.tag_ok i t e ht ht0 he
    have hrec := ih hnext
    rw [hs.next_eq hi] at hrec
    rw [walk, hview, probeFrom, ht, hs.next_eq hi]
    by_cases ht0 : t = 0
    · simp only [ht0, if_true, Option.bind_eq_bind, Option.bind_some, Option.pure_def]
    by_cases hk : e.key = k
    · have := htag hk ht0
      simp only [if_neg ht0, if_pos this, he, if_pos hk, Option.bind_eq_bind, Option.bind_some,
        Option.pure_def]
    · -- a different key: whether or not the tags agree, the loop goes on
      by_cases htk : t = tagOf (mix k)
      · simp only [if_neg ht0, if_pos htk, he, if_neg hk, hrec, Option.bind_eq_bind,
          Option.bind_some]
      · simp only [if_neg ht0, if_neg htk, if_neg hk, hrec, Option.bind_eq_bind,
          Option.bind_some]

/-- Overwriting slot `i` with a tagged entry. -/
theorem Shape.put (i : Nat) (e : Entry) :
    Shape { m with tags := m.tags.modify i fun _ => tagOf (mix e.key)
                   entries := m.entries.modify i fun _ => e } where
  size := by simpa using hs.size
  mask := by simpa using hs.mask
  entries := by simpa using hs.entries
  tag_ok := by
    intro j t e' ht ht0 he'
    simp only [Array.getElem?_modify] at ht he'
    split at ht <;> rename_i hij
    · rw [if_pos hij] at he'
      obtain ⟨_, _, rfl⟩ := Option.map_eq_some_iff.mp ht
      obtain ⟨_, _, rfl⟩ := Option.map_eq_some_iff.mp he'
      rfl
    · rw [if_neg hij] at he'
      exact hs.tag_ok j t e' ht ht0 he'

theorem Shape.view_put {i : Nat} (hi : i < m.tags.size) (e : Entry) :
    view { m with tags := m.tags.modify i fun _ => tagOf (mix e.key)
                  entries := m.entries.modify i fun _ => e } =
      Function.update m.view i (some (e.key, e.val)) := by
  funext j
  obtain ⟨t, e', ht, he', _⟩ := hs.slot hi
  by_cases hij : i = j
  · subst hij
    have := tagOf_ne_zero (mix e.key)
    simp [view, Array.getElem?_modify, ht, he', this]
  · rw [Function.update_of_ne (Ne.symm hij)]
    simp [view, Array.getElem?_modify, hij]

/-- Emptying slot `i`. -/
theorem Shape.clear (i : Nat) :
    Shape { m with tags := m.tags.modify i fun _ => 0 } where
  size := by simpa using hs.size
  mask := by simpa using hs.mask
  entries := by simpa using hs.entries
  tag_ok := by
    intro j t e ht ht0 he
    rw [Array.getElem?_modify] at ht
    split at ht
    · obtain ⟨_, _, rfl⟩ := Option.map_eq_some_iff.mp ht
      exact absurd rfl ht0
    · exact hs.tag_ok j t e ht ht0 he

omit hs in
theorem view_clear (m : OrderMap) (i : Nat) :
    view { m with tags := m.tags.modify i fun _ => 0 } = Function.update m.view i none := by
  funext j
  by_cases hij : i = j
  · subst hij
    rw [Function.update_self]
    unfold view
    simp only [Array.getElem?_modify, if_true]
    cases m.tags[i]? <;> cases m.entries[i]? <;> simp
  · rw [Function.update_of_ne (Ne.symm hij)]
    simp [view, Array.getElem?_modify, hij]

end Shape

/-! ## The backward shift -/

/-- The shift loop of the source is the library's, and touches the arrays
only: size, mask and counters stay. -/
theorem Shape.shift_eq {m : OrderMap} (hs : m.Shape) {T' : Slots OrderId Nat} :
    ∀ (fuel hole j : Nat), hole < m.tags.size → j < m.tags.size →
      closeGap m.tags.size m.home m.view fuel hole j = some T' →
      ∃ m', m.shift fuel hole j = some m' ∧ m'.Shape ∧ m'.view = T' ∧
        m'.tags.size = m.tags.size ∧ m'.mask = m.mask ∧ m'.len = m.len ∧
        m'.removes = m.removes := by
  intro fuel
  induction fuel generalizing m with
  | zero => intro hole j _ _ h; simp [closeGap] at h
  | succ fuel ih =>
    intro hole j hhole hj h
    have hlt := next_lt hj
    obtain ⟨t, e, ht, he, hview⟩ := hs.slot hlt
    rw [closeGap, hview] at h
    rw [shift, hs.next_eq hj, ht]
    by_cases ht0 : t = 0
    · simp only [if_pos ht0, Option.some.injEq] at h
      exact ⟨m, by simp only [if_pos ht0, Option.bind_eq_bind, Option.bind_some, Option.pure_def],
        hs, h, rfl, rfl, rfl, rfl⟩
    simp only [if_neg ht0] at h
    simp only [if_neg ht0, he, Option.bind_eq_bind, Option.bind_some]
    have hin : OrderMap.inInterval = Probe.inInterval := rfl
    rw [hin]
    by_cases hstay : Probe.inInterval hole (Probe.next m.tags.size j) (m.home e.key) = true
    · rw [if_pos hstay] at h
      rw [if_pos hstay]
      exact ih hs hole _ hhole hlt h
    · rw [if_neg hstay] at h
      rw [if_neg hstay]
      -- the entry moves into the hole and leaves its own slot empty
      have htag : t = tagOf (mix e.key) := hs.tag_ok _ t e ht ht0 he
      have hput := hs.put hole e
      have hclear := hput.clear (Probe.next m.tags.size j)
      have hv := view_clear { m with
        tags := m.tags.modify hole fun _ => tagOf (mix e.key)
        entries := m.entries.modify hole fun _ => e } (Probe.next m.tags.size j)
      rw [hs.view_put hhole e] at hv
      rw [set?_of_lt _ hhole, set?_of_lt _ (hs.entries ▸ hhole), Option.bind_some,
        Option.bind_some, htag, set?_of_lt _ (by simpa using hlt), Option.bind_some]
      have hrun := ih hclear (Probe.next m.tags.size j) (Probe.next m.tags.size j)
        (by simpa using hlt) (by simpa using hlt)
      simp only [Array.size_modify] at hrun
      exact hrun (by rw [hv]; exact h)

/-! ## The operations on the finite map -/

section Ops

variable {m : OrderMap} {M : Finmap fun _ : OrderId => Nat}

/-- The table has an empty slot as long as it holds fewer keys than slots. -/
theorem Models.exists_empty (h : m.Models M) (hroom : M.keys.card < m.tags.size) :
    ∃ z, z < m.tags.size ∧ m.view z = none := by
  refine h.good.exists_empty (S := M.keys) ?_ hroom
  intro i e hi he
  rw [Finmap.mem_keys, Finmap.mem_iff]
  exact ⟨e.2, (h.holds e.1 e.2).mp ⟨i, hi, he⟩⟩

/-- Probing for a present key finds the slot that holds it. -/
theorem Models.probe_hit (h : m.Models M) {k : OrderId} {v : Nat} (hk : M.lookup k = some v) :
    ∃ i, m.probe k = some (.hit i) ∧ i < m.tags.size ∧ m.view i = some (k, v) := by
  obtain ⟨i, hi, hTi⟩ := (h.holds k v).mpr hk
  exact ⟨i, by rw [probe, h.shape.probeFrom_eq k _ (h.shape.home_lt k), walk_hit h.good hi hTi],
    hi, hTi⟩

theorem Models.absent (h : m.Models M) {k : OrderId} (hk : M.lookup k = none) (v : Nat) :
    ¬ Holds m.tags.size m.view k v := by
  intro hh
  rw [h.holds, hk] at hh
  cases hh

/-- Probing for an absent key ends at the spot where it would go. -/
theorem Models.probe_miss (h : m.Models M) (hroom : M.keys.card < m.tags.size) {k : OrderId}
    (hk : M.lookup k = none) :
    ∃ i, m.probe k = some (.miss i) ∧ m.view i = none ∧ Spot m.tags.size m.home m.view k i := by
  obtain ⟨i, hwalk, hi, hTi, hchain⟩ := walk_miss h.good (h.absent hk) (h.exists_empty hroom)
  exact ⟨i, by rw [probe, h.shape.probeFrom_eq k _ (h.shape.home_lt k), hwalk], hTi,
    spot_of_miss (h.absent hk) hi hTi hchain⟩

/-- `get` of a present key points at its value. -/
theorem Models.get_some (h : m.Models M) {k : OrderId} {v : Nat} (hk : M.lookup k = some v) :
    ∃ i, m.get k = some (some i) ∧ m.readVal i = some v ∧ m.view i = some (k, v) := by
  obtain ⟨i, hprobe, hi, hTi⟩ := h.probe_hit hk
  refine ⟨i, by simp [get, hprobe], ?_, hTi⟩
  obtain ⟨t, e, _, he, hview⟩ := h.shape.slot hi
  rw [hTi] at hview
  split at hview
  · cases hview
  · simp only [Option.some.injEq, Prod.mk.injEq] at hview
    rw [readVal, he, Option.map_some, hview.2]

/-- `get` of an absent key is the null pointer. -/
theorem Models.get_none (h : m.Models M) (hroom : M.keys.card < m.tags.size) {k : OrderId}
    (hk : M.lookup k = none) : m.get k = some none := by
  obtain ⟨i, hprobe, _⟩ := h.probe_miss hroom hk
  simp [get, hprobe]

theorem Models.contains_eq (h : m.Models M) (hroom : M.keys.card < m.tags.size) (k : OrderId) :
    m.contains k = some (M.lookup k).isSome := by
  unfold contains
  cases hk : M.lookup k with
  | none => simp [h.get_none hroom hk]
  | some v =>
    obtain ⟨i, hget, _⟩ := h.get_some hk
    simp [hget]

/-- Writing through the pointer of a present key updates its value. -/
theorem Models.writeVal (h : m.Models M) {k : OrderId} {v i : Nat} (hi : m.view i = some (k, v))
    (w : Nat) : ∃ m', m.writeVal i w = some m' ∧ m'.Models (M.insert k w) ∧
      m'.tags = m.tags ∧ m'.mask = m.mask ∧ m'.removes = m.removes := by
  have hlt : i < m.tags.size := by
    unfold view at hi
    cases ht : m.tags[i]? with
    | none => simp [ht] at hi
    | some t => exact lt_size_of_getElem? ht
  obtain ⟨t, e, ht, he, hview⟩ := h.shape.slot hlt
  have ht0 : t ≠ 0 := by rintro rfl; simp [hview] at hi
  rw [hi, if_neg ht0, Option.some.injEq, Prod.mk.injEq] at hview
  obtain ⟨rfl, rfl⟩ := hview
  have htag := h.shape.tag_ok i t e ht ht0 he
  have hspot := h.good.spot_of_hit hlt hi
  have hrun : m.writeVal i w = some { m with
      entries := m.entries.modify i fun e => { e with val := w } } := by
    simp [OrderMap.writeVal, modify?_of_lt _ (h.shape.entries ▸ hlt)]
  -- the write is an overwrite of the whole slot by the same key
  have hsame : { m with entries := m.entries.modify i fun e => { e with val := w } } =
      { m with tags := m.tags.modify i fun _ => tagOf (mix e.key)
               entries := m.entries.modify i fun _ => { e with val := w } } := by
    congr 1
    · apply Array.ext_getElem?
      intro j
      rw [Array.getElem?_modify]
      split
      · next hij => rw [← hij, ht, Option.map_some, htag]
      · rfl
    · apply Array.ext_getElem?
      intro j
      rw [Array.getElem?_modify, Array.getElem?_modify]
      split
      · next hij => rw [← hij, he, Option.map_some, Option.map_some]
      · rfl
  refine ⟨_, hrun, ?_, rfl, rfl, rfl⟩
  have hv := h.shape.view_put hlt { e with val := w }
  have hput := h.shape.put i { e with val := w }
  have hlookup : M.lookup e.key = some e.val := (h.holds e.key e.val).mp ⟨i, hlt, hi⟩
  rw [hsame]
  refine ⟨hput, ?_, ?_, ?_⟩
  · rw [hv, Array.size_modify]
    exact h.good.put hspot w
  · intro k' v'
    rw [hv, Array.size_modify]
    by_cases hk : k' = e.key
    · subst hk
      rw [hspot.holds_put_self, Finmap.lookup_insert, Option.some.injEq, eq_comm]
    · rw [hspot.holds_put_of_ne _ _ hk, Finmap.lookup_insert_of_ne _ hk, h.holds]
  · have hkeys : (M.insert e.key w).keys = M.keys := by
      ext k'
      simp only [Finmap.mem_keys, Finmap.mem_insert]
      refine ⟨?_, Or.inr⟩
      rintro (rfl | hk)
      · exact Finmap.mem_iff.mpr ⟨_, hlookup⟩
      · exact hk
    rw [hkeys]
    exact h.len

/-- `insert` updates a present key and adds an absent one. -/
theorem Models.insert (h : m.Models M) (hroom : M.keys.card < m.tags.size) (k : OrderId) (w : Nat) :
    ∃ m', m.insert k w = some m' ∧ m'.Models (M.insert k w) ∧ m'.tags.size = m.tags.size ∧
      m'.mask = m.mask ∧ m'.removes = m.removes := by
  cases hk : M.lookup k with
  | some v =>
    obtain ⟨i, hprobe, _, hTi⟩ := h.probe_hit hk
    obtain ⟨m', hrun, hm', htags, hrest⟩ := h.writeVal hTi w
    exact ⟨m', by simp [OrderMap.insert, hprobe, hrun], hm', by rw [htags], hrest⟩
  | none =>
    obtain ⟨i, hprobe, _, hspot⟩ := h.probe_miss hroom hk
    have hlen : incr 64 m.len = m.len + 1 := by
      apply incr_of_lt
      have := h.shape.size_le
      rw [h.len]
      omega
    have hrun : m.insert k w = some { m with
        tags := m.tags.modify i fun _ => tagOf (mix k)
        entries := m.entries.modify i fun _ => ⟨k, w⟩
        len := m.len + 1 } := by
      simp [OrderMap.insert, hprobe, set?_of_lt _ hspot.lt,
        set?_of_lt _ (h.shape.entries ▸ hspot.lt), hlen]
    have hput := h.shape.put i ⟨k, w⟩
    have hv := h.shape.view_put hspot.lt ⟨k, w⟩
    refine ⟨_, hrun, ⟨⟨hput.size, hput.mask, hput.entries, hput.tag_ok⟩, ?_, ?_, ?_⟩,
      by simp, rfl, rfl⟩
    · show Good _ m.home (view _)
      rw [show view { m with
        tags := m.tags.modify i fun _ => tagOf (mix k)
        entries := m.entries.modify i fun _ => ⟨k, w⟩
        len := m.len + 1 } = _ from hv]
      rw [Array.size_modify]
      exact h.good.put hspot w
    · intro k' v'
      show Holds _ (view _) k' v' ↔ _
      rw [show view { m with
        tags := m.tags.modify i fun _ => tagOf (mix k)
        entries := m.entries.modify i fun _ => ⟨k, w⟩
        len := m.len + 1 } = _ from hv, Array.size_modify]
      by_cases hk' : k' = k
      · subst hk'
        rw [hspot.holds_put_self, Finmap.lookup_insert, Option.some.injEq, eq_comm]
      · rw [hspot.holds_put_of_ne _ _ hk', Finmap.lookup_insert_of_ne _ hk', h.holds]
    · show m.len + 1 = _
      have hnot : k ∉ M.keys := by
        rw [Finmap.mem_keys, Finmap.mem_iff]
        rintro ⟨v, hv⟩
        rw [hk] at hv
        cases hv
      have hkeys : (M.insert k w).keys = Insert.insert k M.keys := by
        ext k'
        simp only [Finmap.mem_keys, Finmap.mem_insert, Finset.mem_insert]
      rw [hkeys, Finset.card_insert_of_notMem hnot, h.len]

/-- `remove` of an absent key changes nothing. -/
theorem Models.remove_absent (h : m.Models M) (hroom : M.keys.card < m.tags.size) {k : OrderId}
    (hk : M.lookup k = none) : m.remove k = some m := by
  obtain ⟨i, hprobe, _⟩ := h.probe_miss hroom hk
  simp [remove, hprobe]

/-- `remove` of a present key takes it, and only it, out of the map. -/
theorem Models.remove_present (h : m.Models M) (hroom : M.keys.card < m.tags.size) {k : OrderId}
    {v : Nat} (hk : M.lookup k = some v) :
    ∃ m', m.remove k = some m' ∧ m'.Models (M.erase k) ∧ m'.tags.size = m.tags.size ∧
      m'.mask = m.mask ∧ m'.removes = incr 64 m.removes := by
  obtain ⟨i, hprobe, hi, hTi⟩ := h.probe_hit hk
  obtain ⟨z, hz, hTz⟩ := h.exists_empty hroom
  have hzi : z ≠ i := by rintro rfl; rw [hTi] at hTz; cases hTz
  have hopen := OpenAt.of_clear h.good hi
  obtain ⟨T', hshift, hgood, hholds⟩ := closeGap_spec (2 * m.tags.size) _ i i hopen hz
    (by rw [Function.update_of_ne hzi, hTz]) hzi hzi (by have := gap_lt hi hz; omega)
  have hmem : k ∈ M.keys := Finmap.mem_keys.mpr (Finmap.mem_iff.mpr ⟨v, hk⟩)
  have hpos : 0 < M.keys.card := Finset.card_pos.mpr ⟨k, hmem⟩
  have hlen : decr 64 m.len = m.len - 1 := by
    have := h.shape.size_le
    apply decr_of_pos <;> rw [h.len] <;> omega
  -- the cleared table, on which the shift runs
  have hclear := h.shape.clear i
  obtain ⟨m', hrun, hshape, hview, hsize, hmask, hl, hr⟩ :=
    Shape.shift_eq (m := { m with
      tags := m.tags.modify i fun _ => 0, len := m.len - 1, removes := incr 64 m.removes })
      ⟨hclear.size, hclear.mask, hclear.entries, hclear.tag_ok⟩ (2 * m.tags.size) i i
      (by simpa using hi) (by simpa using hi)
      (by
        show closeGap _ m.home (view _) _ i i = some T'
        rw [show view { m with
          tags := m.tags.modify i fun _ => 0, len := m.len - 1
          removes := incr 64 m.removes } = _ from view_clear m i, Array.size_modify]
        exact hshift)
  have hhome : m'.home = m.home := by
    funext k'
    simp only [home, hmask]
  rw [Array.size_modify] at hsize
  refine ⟨m', ?_, ⟨hshape, ?_, ?_, ?_⟩, hsize, hmask, hr⟩
  · simp only [remove, hprobe, Option.bind_eq_bind, Option.bind_some, set?_of_lt _ hi, hlen,
      Array.size_modify]
    exact hrun
  · rw [hsize, hhome, hview]
    exact hgood
  · intro k' v'
    rw [hsize, hview, hholds]
    by_cases hk' : k' = k
    · subst hk'
      rw [Finmap.lookup_erase]
      refine iff_of_false ?_ (by simp)
      rintro ⟨x, hx, hTx⟩
      have hxi : x ≠ i := by rintro rfl; simp at hTx
      rw [Function.update_of_ne hxi] at hTx
      exact hxi (h.good.inj x i _ _ hx hi hTx hTi rfl)
    · rw [Finmap.lookup_erase_ne hk', ← h.holds]
      constructor
      · rintro ⟨x, hx, hTx⟩
        have hxi : x ≠ i := by rintro rfl; simp at hTx
        rw [Function.update_of_ne hxi] at hTx
        exact ⟨x, hx, hTx⟩
      · rintro ⟨x, hx, hTx⟩
        have hxi : x ≠ i := by
          rintro rfl
          rw [hTi, Option.some.injEq, Prod.mk.injEq] at hTx
          exact hk' hTx.1.symm
        exact ⟨x, hx, by rw [Function.update_of_ne hxi, hTx]⟩
  · rw [hl, Finmap.keys_erase, Finset.card_erase_of_mem hmem, h.len]

end Ops

/-! ## Construction -/

/-- Doubling from a power of two reaches the wanted capacity within the size
type. -/
theorem capFor_spec {want : Nat} (hwant : want ≤ 2 ^ 62) :
    ∀ (fuel r : Nat), r ≤ 62 → 62 - r < fuel →
      ∃ r', r ≤ r' ∧ r' ≤ 62 ∧ capFor want fuel (2 ^ r) = some (2 ^ r') ∧ want ≤ 2 ^ r' := by
  intro fuel
  induction fuel with
  | zero => intro r _ h; omega
  | succ fuel ih =>
    intro r hr hfuel
    unfold capFor
    split
    · next hlt =>
      have hr62 : r < 62 := by
        by_contra hge
        have : r = 62 := by omega
        subst this
        omega
      have hdouble : 2 ^ r <<< 1 % 2 ^ 64 = 2 ^ (r + 1) := by
        rw [Nat.shiftLeft_eq, ← pow_succ]
        exact Nat.mod_eq_of_lt (Nat.pow_lt_pow_right (by decide) (by omega))
      rw [hdouble]
      obtain ⟨r', hle, hle62, hrun, hwant'⟩ := ih (r + 1) (by omega) (by omega)
      exact ⟨r', by omega, hle62, hrun, hwant'⟩
    · next hge => exact ⟨r, le_rfl, hr, rfl, by omega⟩

theorem blank_view (cap i : Nat) : (blank cap).view i = none := by
  simp only [view, blank, Array.getElem?_replicate]
  split
  · next h1 h2 => split at h1 <;> simp_all
  · rfl

theorem blank_shape {r : Nat} (hr : r ≤ 62) : (blank (2 ^ r)).Shape where
  size := ⟨r, hr, by simp [blank]⟩
  mask := by simp [blank]
  entries := by simp [blank]
  tag_ok := by
    intro i t e ht ht0
    simp only [blank, Array.getElem?_replicate] at ht
    split at ht <;> simp_all

/-- A new map is empty and has room for twice the live orders it is made for. -/
theorem new_models {liveMax : Nat} (h : liveMax ≤ 2 ^ 61) :
    ∃ m, new liveMax = some m ∧ m.Models ∅ ∧ liveMax * 2 ≤ m.tags.size ∧ 16 ≤ m.tags.size := by
  obtain ⟨r, hr4, hr62, hcap, hwant⟩ :=
    capFor_spec (show liveMax * 2 ≤ 2 ^ 62 by omega) 65 4 (by decide) (by decide)
  have hmod : liveMax * 2 % 2 ^ 64 = liveMax * 2 := Nat.mod_eq_of_lt (by omega)
  refine ⟨blank (2 ^ r), ?_, ⟨blank_shape hr62, ?_, ?_, rfl⟩, ?_, ?_⟩
  · rw [new, hmod, show (16 : Nat) = 2 ^ 4 from rfl, hcap, Option.map_some]
  · refine ⟨(blank_shape hr62).pos, (blank_shape hr62).home_lt, ?_, ?_⟩
    · intro i j e e' _ _ hi
      rw [blank_view] at hi
      cases hi
    · intro i e _ hi
      rw [blank_view] at hi
      cases hi
  · intro k v
    rw [Finmap.lookup_empty]
    refine iff_of_false ?_ (by simp)
    rintro ⟨i, _, hi⟩
    rw [blank_view] at hi
    cases hi
  · simpa [blank] using hwant
  · rw [blank, Array.size_replicate]
    exact Nat.pow_le_pow_right (n := 2) (by decide) hr4

end OrderMap

end Matcher
