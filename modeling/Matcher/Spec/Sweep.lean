import Matcher.Spec.Facts

/-!
# One sweep in closed form

`fill` walks the opposite list order by order. Here is what it amounts to: the
makers are the shortest prefix of the reachable orders that covers the quantity,
all of them are exhausted but perhaps the last, and quantities are exact.
-/

namespace Matcher.Spec

open Matcher

/-- The orders of the opposite list up to the first price beyond the limit. -/
def reach (s : Side) (limit : Option Price) (os : List Order) : List Order :=
  os.takeWhile fun o => admits s limit o.price

/-- The exact sum of the quantities. -/
def volume (os : List Order) : Nat := (os.map fun o => o.qty.toNat).sum

@[simp] theorem volume_nil : volume [] = 0 := rfl

@[simp] theorem volume_cons (o : Order) (os : List Order) :
    volume (o :: os) = o.qty.toNat + volume os := rfl

theorem volume_append (os os' : List Order) : volume (os ++ os') = volume os + volume os' := by
  simp [volume]

/-- A maker is filled and leaves. -/
def exhaust (taker : OrderId) (o : Order) : List Event :=
  [.trade o.orderId taker o.price o.qty, .closed o.orderId .filled]

/-- A sweep of `qty` over the list `os` whose reachable part is `L`: the makers are
`gone` and then perhaps `last`, which keeps a rest. -/
structure Sweeps (taker : OrderId) (os L : List Order) (qty : Qty)
    (r : List Order × Qty × List Event) (gone : List Order) (last : Option Order) : Prop where
  /-- The makers are a prefix, -/
  reached : gone ++ last.toList <+: L
  /-- no shorter one covers the quantity, -/
  shortest : ∀ m, m < (gone ++ last.toList).length → volume ((gone ++ last.toList).take m) <
    qty.toNat
  /-- and this one does unless it is all there is. -/
  covers : qty.toNat ≤ volume (gone ++ last.toList) ∨ gone ++ last.toList = L
  fits : volume gone ≤ qty.toNat
  rest : ∀ o ∈ last, qty.toNat < volume gone + o.qty.toNat
  left : r.2.1.toNat = qty.toNat - volume (gone ++ last.toList)
  events : r.2.2 = gone.flatMap (exhaust taker) ++
    last.toList.map fun o => .trade o.orderId taker o.price (qty - UInt64.ofNat (volume gone))
  after : r.1 = (last.toList.map fun o =>
    { o with qty := o.qty - (qty - UInt64.ofNat (volume gone)) }) ++
    os.drop (gone ++ last.toList).length

theorem fill_sweeps (s : Side) (limit : Option Price) (taker : OrderId)
    (os : List Order) (qty : Qty) :
    ∃ gone last, Sweeps taker os (reach s limit os) qty (fill s limit taker os qty) gone last := by
  induction os generalizing qty with
  | nil =>
    exact ⟨[], none, List.nil_prefix, fun m hm => absurd hm (Nat.not_lt_zero m), Or.inr rfl,
      Nat.zero_le _, fun o ho => (by cases ho), rfl, rfl, rfl⟩
  | cons x xs ih =>
    rw [fill]
    by_cases hstop : qty = 0 ∨ admits s limit x.price = false
    · rw [if_pos hstop]
      refine ⟨[], none, List.nil_prefix, fun m hm => absurd hm (Nat.not_lt_zero m), ?_,
        Nat.zero_le _, fun o ho => (by cases ho), rfl, rfl, rfl⟩
      rcases hstop with rfl | hbeyond
      · exact Or.inl (Nat.zero_le _)
      · exact Or.inr (by rw [reach, List.takeWhile_cons_of_neg (by simp [hbeyond])]; rfl)
    rw [if_neg hstop]
    have hpos : 0 < qty.toNat := by
      have hne : qty ≠ 0 := fun h0 => hstop (Or.inl h0)
      exact UInt64.lt_iff_toNat_lt.mp (UInt64.pos_iff_ne_zero.mpr hne)
    have hreach : reach s limit (x :: xs) = x :: reach s limit xs := by
      have hadmits : admits s limit x.price = true := by
        rw [← Bool.not_eq_false]
        exact fun hf => hstop (Or.inr hf)
      simp [reach, hadmits]
    rw [hreach]
    by_cases hle : x.qty ≤ qty
    · -- `x` is exhausted, and the sweep goes on with what is left
      rw [if_pos hle]
      have hle' := UInt64.le_iff_toNat_le.mp hle
      have hsub : (qty - x.qty).toNat = qty.toNat - x.qty.toNat := UInt64.toNat_sub_of_le _ _ hle
      obtain ⟨gone, last, h⟩ := ih (qty - x.qty)
      -- what is left for `last` is the same, counted from here or from the start
      have hamount : qty - x.qty - UInt64.ofNat (volume gone) =
          qty - UInt64.ofNat (volume (x :: gone)) := by
        rw [volume_cons, UInt64.ofNat_add, UInt64.ofNat_toNat]
        grind
      refine ⟨x :: gone, last, ?_, fun m hm => ?_, ?_, ?_, fun o ho => ?_, ?_, ?_, ?_⟩
      · exact List.cons_prefix_cons.mpr ⟨rfl, h.reached⟩
      · cases m with
        | zero => exact hpos
        | succ m =>
          have hlt := h.shortest m (Nat.lt_of_succ_lt_succ hm)
          rw [List.cons_append, List.take_succ_cons, volume_cons]
          omega
      · rw [List.cons_append, volume_cons]
        rcases h.covers with hcov | hall
        · exact Or.inl (by omega)
        · exact Or.inr (by rw [hall])
      · have := h.fits
        rw [volume_cons]
        omega
      · have := h.rest o ho
        rw [volume_cons]
        omega
      · rw [List.cons_append, volume_cons, ← Nat.sub_sub, ← hsub]
        exact h.left
      · have hevents := h.events
        rw [hamount] at hevents
        dsimp only at hevents ⊢
        rw [hevents]
        rfl
      · have hafter := h.after
        rw [hamount] at hafter
        exact hafter
    · -- `x` keeps a rest
      rw [if_neg hle]
      have hlt := UInt64.lt_iff_toNat_lt.mp (UInt64.not_le.mp hle)
      refine ⟨[], some x, List.cons_prefix_cons.mpr ⟨rfl, List.nil_prefix⟩, fun m hm =>
        ?_, Or.inl ?_, Nat.zero_le _,
        fun o ho => ?_, ?_, ?_, ?_⟩
      · have hm0 : m = 0 := Nat.lt_one_iff.mp hm
        rw [hm0]
        exact hpos
      · show qty.toNat ≤ x.qty.toNat + 0
        omega
      · cases ho
        show qty.toNat < 0 + x.qty.toNat
        omega
      · show (0 : Qty).toNat = qty.toNat - (x.qty.toNat + 0)
        rw [UInt64.toNat_zero]
        omega
      · simp
      · simp

/-- Nothing is left over just when the reachable volume covers the quantity. -/
theorem fill_left_eq_zero {s : Side} {limit : Option Price} {taker : OrderId}
    {os : List Order} {qty : Qty} :
    (fill s limit taker os qty).2.1 = 0 ↔ qty.toNat ≤ volume (reach s limit os) := by
  obtain ⟨gone, last, h⟩ := fill_sweeps s limit taker os qty
  have hle : volume (gone ++ last.toList) ≤ volume (reach s limit os) := by
    obtain ⟨r, hr⟩ := h.reached
    have hsplit := volume_append (gone ++ last.toList) r
    rw [hr] at hsplit
    omega
  rw [← UInt64.toNat_inj, UInt64.toNat_zero, h.left]
  rcases h.covers with hcov | hall
  · omega
  · rw [hall]
    omega

/-- In a sorted list the reachable orders are those within the limit. -/
theorem reach_eq_filter {s : Side} {limit : Option Price} {os : List Order}
    (hsorted : os.Pairwise fun o o' => ¬ Better (opposite s) o'.price o.price) :
    reach s limit os = os.filter fun o => admits s limit o.price := by
  induction os with
  | nil => rfl
  | cons x xs ih =>
    rw [List.pairwise_cons] at hsorted
    rw [reach, List.takeWhile_cons]
    cases hx : admits s limit x.price with
    | true =>
      rw [if_pos rfl, List.filter_cons_of_pos (by rw [hx])]
      exact congrArg _ (ih hsorted.2)
    | false =>
      have hnone : ∀ o ∈ x :: xs, ¬ admits s limit o.price = true := by
        intro o ho
        rw [Bool.not_eq_true]
        rcases List.mem_cons.mp ho with rfl | ho
        · exact hx
        · exact admits_behind hx (hsorted.1 o ho)
      rw [if_neg Bool.false_ne_true, List.filter_eq_nil_iff.mpr hnone]

/-- So the volume within reach is what the list offers. -/
theorem volume_reach {s : Side} {limit : Price} {os : List Order}
    (hsorted : os.Pairwise fun o o' => ¬ Better (opposite s) o'.price o.price) :
    volume (reach s (some limit) os) = offered s limit os := by
  rw [reach_eq_filter hsorted]
  rfl

/-- The quantity of a trade. -/
def traded : Event → Nat
  | .trade _ _ _ q => q.toNat
  | _ => 0

theorem traded_exhaust (taker : OrderId) (os : List Order) :
    ((os.flatMap (exhaust taker)).map traded).sum = volume os := by
  induction os with
  | nil => rfl
  | cons o os ih =>
    rw [List.flatMap_cons, List.map_append, List.sum_append, ih, volume_cons]
    rfl

/-- What is traded and what is left over make up the quantity. -/
theorem fill_traded (s : Side) (limit : Option Price) (taker : OrderId)
    (os : List Order) (qty : Qty) :
    ((fill s limit taker os qty).2.2.map traded).sum + (fill s limit taker os qty).2.1.toNat =
      qty.toNat := by
  obtain ⟨gone, last, h⟩ := fill_sweeps s limit taker os qty
  have hfits := h.fits
  rw [h.left, h.events, List.map_append, List.sum_append, traded_exhaust, volume_append]
  cases last with
  | none =>
    simp only [Option.toList_none, List.map_nil, List.sum_nil, volume_nil]
    omega
  | some o =>
    have hrest := h.rest o rfl
    have hgone : (UInt64.ofNat (volume gone)).toNat = volume gone :=
      UInt64.toNat_ofNat_of_lt' (lt_of_le_of_lt hfits qty.toNat_lt)
    have hlast : (qty - UInt64.ofNat (volume gone)).toNat = qty.toNat - volume gone := by
      rw [UInt64.toNat_sub_of_le _ _ (UInt64.le_iff_toNat_le.mpr (by rwa [hgone])), hgone]
    simp only [Option.toList_some, List.map_cons, List.map_nil, traded, List.sum_cons, List.sum_nil,
      hlast, volume_cons, volume_nil]
    omega

/-- A sweep's events are its taker's trades and the makers' closures. -/
theorem fill_event {s : Side} {limit : Option Price} {taker : OrderId} {os : List Order}
    {qty : Qty} {e : Event} (he : e ∈ (fill s limit taker os qty).2.2) :
    (∃ m p q, e = .trade m taker p q) ∨ ∃ o ∈ os, e = .closed o.orderId .filled := by
  obtain ⟨gone, last, h⟩ := fill_sweeps s limit taker os qty
  rw [h.events, List.mem_append, List.mem_flatMap, List.mem_map] at he
  rcases he with ⟨o, ho, he⟩ | ⟨o, _, rfl⟩
  · rcases List.mem_pair.mp he with rfl | rfl
    · exact Or.inl ⟨_, _, _, rfl⟩
    · have hreach := h.reached.subset (List.mem_append_left _ ho)
      exact Or.inr ⟨o, (List.takeWhile_sublist _).subset hreach, rfl⟩
  · exact Or.inl ⟨_, _, _, rfl⟩

end Matcher.Spec
