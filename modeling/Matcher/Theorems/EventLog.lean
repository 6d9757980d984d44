import Matcher.Spec.Mirror
import Matcher.Theorems.Uncrossed
import Matcher.Logic.Crowded

/-!
# The event stream is a complete log of the book

The mirror and the specification's lists are kept equal by the events alone:
first through the fills of a sweep, then through the last event of each command.
That a replaced order kept its place can be read off the event only because the
book is uncrossed: at its own price a raised order trades with nothing.
-/

namespace Matcher

open Kit

/-- The mirror holds the orders of the lists `R`. -/
structure Mirror.Mirrors (M : Mirror) (R : Spec.Book) : Prop where
  nodup : (M.map MirrorOrder.orderId).Nodup
  level : ∀ s p, M.level s p =
    ((R.side s).filter fun o => o.price = p).map fun o => (o.orderId, o.qty)

namespace Mirror

section Mirrors

variable {M : Mirror} {R : Spec.Book} {id : OrderId}

theorem mem_level {s : Side} {p : Price} (iq : OrderId × Qty) :
    iq ∈ M.level s p ↔ ⟨iq.1, s, p, iq.2⟩ ∈ M := by
  simp only [level, List.mem_map, List.mem_filter, decide_eq_true_eq]
  constructor
  · rintro ⟨e, ⟨he, rfl, rfl⟩, rfl⟩
    exact he
  · exact fun he => ⟨_, ⟨he, rfl, rfl⟩, rfl⟩

/-- A mirrored order is one of the book's. -/
theorem Mirrors.mem (h : M.Mirrors R) {e : MirrorOrder} :
    e ∈ M ↔ ∃ o ∈ R.side e.side, o.orderId = e.orderId ∧ o.price = e.price ∧ o.qty = e.qty := by
  have hmem : e ∈ M ↔ (e.orderId, e.qty) ∈ M.level e.side e.price  :=
    (mem_level (e.orderId, e.qty)).symm
  rw [hmem, h.level, List.mem_map]
  constructor
  · rintro ⟨o, ho, heq⟩
    obtain ⟨ho, hp⟩ := List.mem_filter.mp ho
    exact ⟨o, ho, congrArg Prod.fst heq, of_decide_eq_true hp, congrArg Prod.snd heq⟩
  · rintro ⟨o, ho, hid, hp, hq⟩
    exact ⟨o, List.mem_filter.mpr ⟨ho, decide_eq_true hp⟩, by rw [hid, hq]⟩

/-- The mirror holds the book's orders. -/
theorem Mirrors.held_of_mem (h : M.Mirrors R) {s : Side} {o : Spec.Order} (ho : o ∈ R.side s) :
    M.held o.orderId = some ⟨o.orderId, s, o.price, o.qty⟩ := by
  have hmem : (⟨o.orderId, s, o.price, o.qty⟩ : MirrorOrder) ∈ M := h.mem.mpr ⟨o, ho, rfl, rfl, rfl⟩
  obtain ⟨l, r, hsplit⟩ := List.append_of_mem hmem
  have hnd := h.nodup
  rw [hsplit, List.map_append, List.map_cons] at hnd
  rw [held, hsplit]
  refine List.find?_eq_some_iff_append.mpr ⟨by simp, l, r, rfl, fun e he => ?_⟩
  have hne : e.orderId ≠ o.orderId :=
    (List.nodup_append.mp hnd).2.2 _ (List.mem_map_of_mem he) _ List.mem_cons_self
  simp [hne]

/-- And no others. -/
theorem Mirrors.held_none (h : M.Mirrors R) (hid : ∀ s, ∀ o ∈ R.side s, o.orderId ≠ id) :
    M.held id = none := by
  rw [held, List.find?_eq_none]
  intro e he heq
  obtain ⟨o, ho, hoid, _⟩ := h.mem.mp he
  exact hid _ o ho (hoid.trans (of_decide_eq_true heq))

theorem held_subtract (M : Mirror) (id : OrderId) (q : Qty) :
    (M.subtract id q).held id = (M.held id).map fun e => { e with qty := e.qty - q } := by
  have hkeep : ((fun e : MirrorOrder => decide (e.orderId = id)) ∘
      fun e => if e.orderId = id then { e with qty := e.qty - q } else e) = fun e =>
        decide (e.orderId = id) := by
    funext e
    simp only [Function.comp_apply]
    split <;> rfl
  rw [held, subtract, List.find?_map, hkeep, held]
  refine Option.map_congr fun e he => ?_
  have hid := List.find?_some he
  exact if_pos (of_decide_eq_true hid)

/-- Dropping an id drops it from the lists. -/
theorem Mirrors.drop (h : M.Mirrors R) {R' : Spec.Book}
    (hR : ∀ s, R'.side s = (R.side s).filter fun o => o.orderId ≠ id) : (M.drop id).Mirrors R' := by
  refine ⟨h.nodup.sublist (List.filter_sublist.map _), fun s p => ?_⟩
  have hlevel : (M.drop id).level s p = (M.level s p).filter fun iq => iq.1 ≠ id := by
    rw [Mirror.level, Mirror.level, List.filter_map, Mirror.drop, List.filter_filter,
      List.filter_filter]
    refine congrArg _ (List.filter_congr fun e _ => ?_)
    simp [Bool.and_comm]
  rw [hlevel, h.level, hR, List.filter_map, List.filter_filter, List.filter_filter]
  refine congrArg _ (List.filter_congr fun o _ => ?_)
  simp [Bool.and_comm]

/-- Changing the quantity of an id changes it in the lists. -/
theorem Mirrors.adjust (h : M.Mirrors R) (f : Qty → Qty) {R' : Spec.Book}
    (hR : ∀ s, R'.side s = (R.side s).map fun o =>
      if o.orderId = id then { o with qty := f o.qty } else o) :
    Mirrors (M.map fun e => if e.orderId = id then { e with qty := f e.qty } else e) R' := by
  refine ⟨?_, fun s p => ?_⟩
  · rw [List.map_map]
    have hids : (MirrorOrder.orderId ∘ fun e : MirrorOrder =>
        if e.orderId = id then { e with qty := f e.qty } else e) = MirrorOrder.orderId := by
      funext e
      simp only [Function.comp_apply]
      split <;> rfl
    rw [hids]
    exact h.nodup
  · have hadjust := congrArg
      (List.map fun iq : OrderId × Qty => if iq.1 = id then (iq.1, f iq.2) else iq) (h.level s p)
    rw [hR, List.filter_map, List.map_map]
    rw [Mirror.level, List.map_map, List.map_map] at hadjust
    rw [Mirror.level, List.filter_map, List.map_map]
    refine Eq.trans ?_ (hadjust.trans ?_)
    · have hkeep : ((fun e : MirrorOrder => decide (e.side = s ∧ e.price = p)) ∘
          fun e => if e.orderId = id then { e with qty := f e.qty } else e) =
          fun e => decide (e.side = s ∧ e.price = p) := by
        funext e
        simp only [Function.comp_apply]
        split <;> rfl
      rw [hkeep]
      refine List.map_congr_left fun e _ => ?_
      simp only [Function.comp_apply]
      split <;> rfl
    · have hkeep : ((fun o : Spec.Order => decide (o.price = p)) ∘
          fun o => if o.orderId = id then { o with qty := f o.qty } else o) =
          fun o => decide (o.price = p) := by
        funext o
        simp only [Function.comp_apply]
        split <;> rfl
      rw [hkeep]
      refine List.map_congr_left fun o _ => ?_
      simp only [Function.comp_apply]
      split <;> rfl

/-- The back of a level is where `insertBack` puts an order. -/
theorem filter_insertBack {s : Side} {o : Spec.Order} {os : List Spec.Order}
    (hsorted : os.Pairwise fun o o' => ¬ Better s o'.price o.price) (p : Price) :
    (Spec.insertBack s o os).filter (fun x => x.price = p) =
      os.filter (fun x => x.price = p) ++ if o.price = p then [o] else [] := by
  induction os with
  | nil =>
    rw [Spec.insertBack, List.filter_nil, List.nil_append, List.filter_singleton]
    simp
  | cons x xs ih =>
    have hx := List.pairwise_cons.mp hsorted
    rw [Spec.insertBack]
    split
    · next hbetter =>
      by_cases hp : o.price = p
      · -- every order behind `x` is worse than `o`, so none has its price
        have hnone : (x :: xs).filter (fun y => y.price = p) = [] := by
          rw [List.filter_eq_nil_iff]
          intro y hy heq
          have hyp : y.price = o.price := (of_decide_eq_true heq).trans hp.symm
          rcases List.mem_cons.mp hy with rfl | hy
          · rw [hyp] at hbetter
            exact irrefl_of (Better s) _ hbetter
          · have := hx.1 y hy
            rw [hyp] at this
            exact this hbetter
        rw [List.filter_cons_of_pos (by simpa using hp), hnone, if_pos hp]
        rfl
      · rw [List.filter_cons_of_neg (by simpa using hp), if_neg hp, List.append_nil]
    · rw [List.filter_cons, List.filter_cons, ih hx.2]
      split <;> rfl

/-- An accepted order goes to the back of its level. -/
theorem Mirrors.append (h : M.Mirrors R) {s : Side} {o : Spec.Order}
    (hnew : M.held o.orderId = none)
    (hsorted : (R.side s).Pairwise fun o o' => ¬ Better s o'.price o.price) :
    Mirrors (M ++ [⟨o.orderId, s, o.price, o.qty⟩]) (R.set s (Spec.insertBack s o (R.side s))) := by
  refine ⟨?_, fun s' p => ?_⟩
  · rw [List.map_append, List.nodup_append]
    refine ⟨h.nodup, List.nodup_singleton _, fun i hi j hj heq => ?_⟩
    obtain ⟨e, he, rfl⟩ := List.mem_map.mp hi
    rw [List.map_singleton, List.mem_singleton] at hj
    have := List.find?_eq_none.mp hnew e he
    exact this (decide_eq_true (heq.trans hj))
  · have hsplit : Mirror.level (M ++ [⟨o.orderId, s, o.price, o.qty⟩]) s' p =
        M.level s' p ++ if s = s' ∧ o.price = p then [(o.orderId, o.qty)] else [] := by
      rw [Mirror.level, List.filter_append, List.map_append]
      refine congrArg _ ?_
      by_cases hc : s = s' ∧ o.price = p
      · rw [if_pos hc, List.filter_cons_of_pos (by simpa using hc)]
        rfl
      · rw [if_neg hc, List.filter_cons_of_neg (by simpa using hc)]
        rfl
    rw [hsplit, h.level]
    rcases Spec.side_eq_or s s' with rfl | rfl
    · rw [Spec.Book.side_set, filter_insertBack hsorted, List.map_append]
      refine congrArg _ ?_
      by_cases hp : o.price = p <;> simp [hp]
    · rw [Spec.Book.side_set_opposite, if_neg fun hc => OrderBook.opposite_ne s hc.1.symm,
        List.append_nil]

/-- The fills of a sweep, event by event. -/
theorem Mirrors.fill (c : Command) (s : Side) (limit : Option Price) (tail : List Event)
    (htail : ∀ id, tail.head? = some (.closed id .filled) → id = c.orderId) :
    ∀ (os : List Spec.Order) (M : Mirror) (R : Spec.Book) (qty : Qty), M.Mirrors R →
      R.side (opposite s) = os → (os.map Spec.Order.orderId).Nodup →
      (∀ o ∈ R.side s, ∀ o' ∈ os, o.orderId ≠ o'.orderId) →
      (∀ o ∈ os, o.qty ≠ 0 ∧ o.orderId ≠ c.orderId) →
      ∃ M' : Mirror, M'.Mirrors (R.set (opposite s) (Spec.fill s limit c.orderId os qty).1) ∧
        M.follow c ((Spec.fill s limit c.orderId os qty).2.2 ++ tail) = M'.follow c tail ∧
        (M'.Exact c tail → M.Exact c ((Spec.fill s limit c.orderId os qty).2.2 ++ tail)) := by
  intro os
  induction os with
  | nil =>
    intro M R qty h hos _ _ _
    refine ⟨M, ?_, rfl, id⟩
    rw [Spec.fill, ← hos]
    cases s <;> exact h
  | cons x xs ih =>
    intro M R qty h hos hnd hapart hlive
    have hx : x ∈ R.side (opposite s) := by rw [hos]; exact List.mem_cons_self
    have hheld := h.held_of_mem hx
    obtain ⟨hxq, hxc⟩ := hlive x List.mem_cons_self
    have hnd' := List.nodup_cons.mp hnd
    have hother : ∀ o ∈ xs, o.orderId ≠ x.orderId := fun o ho heq =>
      hnd'.1 (heq ▸ List.mem_map_of_mem ho)
    rw [Spec.fill]
    by_cases hstop : qty = 0 ∨ Spec.admits s limit x.price = false
    · rw [if_pos hstop]
      refine ⟨M, ?_, rfl, id⟩
      rw [← hos]
      cases s <;> exact h
    rw [if_neg hstop]
    have hqty : qty ≠ 0 := fun h0 => hstop (Or.inl h0)
    by_cases hle : x.qty ≤ qty
    · -- the maker is filled and leaves
      rw [if_pos hle]
      -- taking its quantity off and then closing it is dropping it
      have hdrop : ((M.subtract x.orderId x.qty).drop x.orderId).Mirrors
          (R.set (opposite s) xs) := by
        have hsame : (M.subtract x.orderId x.qty).drop x.orderId = M.drop x.orderId := by
          rw [Mirror.drop, Mirror.subtract, List.filter_map, Mirror.drop]
          have hkeep : ((fun e : MirrorOrder => decide (e.orderId ≠ x.orderId)) ∘
              fun e => if e.orderId = x.orderId then { e with qty := e.qty - x.qty } else e) =
              fun e => decide (e.orderId ≠ x.orderId) := by
            funext e
            simp only [Function.comp_apply]
            split <;> rfl
          rw [hkeep]
          refine (List.map_congr_left fun e he => ?_).trans (List.map_id _)
          exact if_neg (of_decide_eq_true (List.mem_filter.mp he).2)
        rw [hsame]
        refine h.drop fun s' => ?_
        rcases Spec.side_eq_or s s' with rfl | rfl
        · rw [Spec.Book.side_opposite_set]
          exact (List.filter_eq_self.mpr fun o ho =>
            decide_eq_true (hapart o ho x List.mem_cons_self)).symm
        · rw [Spec.Book.side_set, hos, List.filter_cons_of_neg (by simp)]
          refine (List.filter_eq_self.mpr fun o ho => ?_).symm
          exact decide_eq_true (hother o ho)
      obtain ⟨M', hM', hfollow, hexact⟩ :=
        ih _ _ (qty - x.qty) hdrop (by rw [Spec.Book.side_set]) hnd'.2
        (fun o ho o' ho' => by
          rw [Spec.Book.side_opposite_set] at ho
          exact hapart o ho o' (List.mem_cons_of_mem _ ho'))
        (fun o ho => hlive o (List.mem_cons_of_mem _ ho))
      -- the trade is exact, then the closing, then what the induction says of the rest
      refine ⟨M', ?_, hfollow, fun htail' => ⟨⟨_, hheld, rfl, ?_, UInt64.le_rfl, ?_⟩,
        ⟨fun hc => (by cases hc), ?_⟩, hexact htail'⟩⟩
      · have hset : (R.set (opposite s) xs).set (opposite s)
            (Spec.fill s limit c.orderId xs (qty - x.qty)).1 =
            R.set (opposite s) (Spec.fill s limit c.orderId xs (qty - x.qty)).1 := by
          cases s <;> rfl
        rw [← hset]
        exact hM'
      · exact UInt64.pos_iff_ne_zero.mpr hxq
      · simp
      · intro _
        refine ⟨{ (⟨x.orderId, opposite s, x.price, x.qty⟩ : MirrorOrder)
          with qty := x.qty - x.qty }, ?_, UInt64.sub_self _⟩
        show (M.subtract x.orderId x.qty).held _ = _
        rw [held_subtract, hheld]
        rfl
    · -- the maker keeps a rest, and the taker is done
      rw [if_neg hle]
      have hlt : qty < x.qty := UInt64.not_le.mp hle
      refine ⟨M.subtract x.orderId qty, h.adjust (fun q => q - qty) fun s' => ?_, rfl, fun htail' =>
        ⟨⟨_, hheld, rfl, UInt64.pos_iff_ne_zero.mpr hqty, UInt64.le_of_lt hlt, ?_⟩, htail'⟩⟩
      · rcases Spec.side_eq_or s s' with rfl | rfl
        · rw [Spec.Book.side_opposite_set]
          refine ((List.map_congr_left fun o ho => ?_).trans (List.map_id _)).symm
          exact if_neg (hapart o ho x List.mem_cons_self)
        · rw [Spec.Book.side_set, hos, List.map_cons, if_pos rfl]
          refine congrArg _ ((List.map_congr_left fun o ho => ?_).trans (List.map_id _)).symm
          exact if_neg (hother o ho)
      · constructor
        · intro heq
          have heq' : x.qty = qty := heq
          rw [heq'] at hlt
          exact absurd hlt (UInt64.lt_irrefl _)
        · intro hclosed
          exact absurd (htail _ hclosed) hxc

/-! ## One command -/

section Step

variable {cfg : BookConfig} {available : Side → Price → List Spec.Order → Nat}

/-- A new order that passed its checks has an id of its own. -/
theorem checkNew_find {c : Command} (h : Spec.checkNew cfg available R c = none) :
    R.find c.orderId = none := by
  simp only [Spec.checkNew] at h
  split at h
  · cases h
  split at h
  · cases h
  split at h
  · cases h
  next hfree => exact Option.not_isSome_iff_eq_none.mp hfree

/-- The sweep of a command whose own order is not on the opposite side. -/
theorem Mirrors.sweep (h : M.Mirrors R) (hR : Spec.Sound R) {c : Command} {s : Side}
    (limit : Option Price) (qty : Qty) (hfree : ∀ o ∈ R.side (opposite s), o.orderId ≠ c.orderId)
    (tail : List Event) (htail : ∀ id, tail.head? = some (.closed id .filled) → id = c.orderId) :
    ∃ M' : Mirror, M'.Mirrors
      (R.set (opposite s) (Spec.fill s limit c.orderId (R.side (opposite s)) qty).1) ∧
      M.follow c ((Spec.fill s limit c.orderId (R.side (opposite s)) qty).2.2 ++ tail) =
        M'.follow c tail ∧ (M'.Exact c tail →
        M.Exact c ((Spec.fill s limit c.orderId (R.side (opposite s)) qty).2.2 ++ tail)) :=
  Mirrors.fill c s limit tail htail _ M R qty h rfl (hR.nodup _) (hR.apart_side _) fun o ho =>
    ⟨hR.live _ o ho, hfree o ho⟩

/-- An id that is not in the book is not in it after a sweep. -/
theorem fill_free (s : Side) (limit : Option Price) (taker : OrderId) (qty : Qty)
    (hfree : ∀ s, ∀ o ∈ R.side s, o.orderId ≠ id) : ∀ s', ∀ o ∈ (R.set (opposite s)
      (Spec.fill s limit taker (R.side (opposite s)) qty).1).side s', o.orderId ≠ id := by
  intro s' o ho
  rcases Spec.side_eq_or s s' with rfl | rfl
  · rw [Spec.Book.side_opposite_set] at ho
    exact hfree _ o ho
  · rw [Spec.Book.side_set] at ho
    obtain ⟨o', ho', hid, _⟩ := Spec.fill_sub _ _ o ho
    exact hid ▸ hfree _ o' ho'

/-- Dropping an id that is not in the book. -/
theorem Mirrors.drop_free (h : M.Mirrors R) (hfree : ∀ s, ∀ o ∈ R.side s, o.orderId ≠ id) :
    (M.drop id).Mirrors R :=
  h.drop fun s => (List.filter_eq_self.mpr fun o ho => decide_eq_true (hfree s o ho)).symm

theorem Mirrors.newOrder (h : M.Mirrors R) (hR : Spec.Sound R) (c : Command) :
    M.Exact c (Spec.newOrder cfg available R c).2 ∧
      (M.follow c (Spec.newOrder cfg available R c).2).Mirrors
        (Spec.newOrder cfg available R c).1 := by
  rw [Spec.newOrder]
  split
  · exact ⟨⟨trivial, trivial⟩, h⟩
  next hnone =>
  have hfree := Spec.find_eq_none.mp (checkNew_find hnone)
  generalize (if c.otype = .limit then some c.price else none) = limit
  have hsweep := h.sweep hR limit c.qty (hfree (opposite c.side))
  have hfree' := fill_free c.side limit c.orderId c.qty hfree
  dsimp only
  split
  · obtain ⟨M', hM', hfollow, hexact⟩ := hsweep [.closed c.orderId .filled] fun id hid => by
      cases hid; rfl
    refine ⟨hexact ⟨⟨fun hc => (by cases hc), fun hne => absurd rfl hne⟩, trivial⟩, ?_⟩
    rw [hfollow]
    exact hM'.drop_free hfree'
  split
  · generalize (Spec.fill c.side limit c.orderId (R.side (opposite c.side)) c.qty).2.1 = left
    obtain ⟨M', hM', hfollow, hexact⟩ := hsweep [.accepted c.orderId left] fun id hid => by
      cases hid
    have hnew := hM'.held_none hfree'
    refine ⟨hexact ⟨hnew, trivial⟩, ?_⟩
    rw [hfollow]
    refine hM'.append (o := ⟨c.orderId, c.price, left, c.tif⟩) hnew ?_
    rw [Spec.Book.side_opposite_set]
    exact hR.sorted _
  · obtain ⟨M', hM', hfollow, hexact⟩ := hsweep [.closed c.orderId .expired] fun id hid => by
      cases hid
    refine ⟨hexact ⟨⟨fun hc => (by cases hc), fun hne => absurd rfl hne⟩, trivial⟩, ?_⟩
    rw [hfollow]
    exact hM'.drop_free hfree'

theorem Mirrors.cancel (h : M.Mirrors R) (hR : Spec.Sound R) {c : Command} :
    M.Exact c (Spec.cancel R c.orderId).2 ∧
      (M.follow c (Spec.cancel R c.orderId).2).Mirrors (Spec.cancel R c.orderId).1 := by
  rw [Spec.cancel]
  split
  · exact ⟨⟨trivial, trivial⟩, h⟩
  next s o hfind =>
  obtain ⟨ho, hid⟩ := Spec.find_eq_some hfind
  have hheld := h.held_of_mem ho
  rw [hid] at hheld
  refine ⟨⟨⟨fun _ => Option.isSome_of_eq_some hheld, fun hne => absurd rfl hne⟩, trivial⟩, ?_⟩
  exact h.drop (hR.remove_side ho hid)

theorem Mirrors.replace (h : M.Mirrors R) (hR : Spec.Sound R)
    (hun : Spec.Uncrossed R) {c : Command} :
    M.Exact c (Spec.replace cfg R c.orderId c.price c.qty).2 ∧
      (M.follow c (Spec.replace cfg R c.orderId c.price c.qty).2).Mirrors
        (Spec.replace cfg R c.orderId c.price c.qty).1 := by
  rw [Spec.replace]
  split
  · exact ⟨⟨trivial, trivial⟩, h⟩
  next s o hfind =>
  obtain ⟨ho, hid⟩ := Spec.find_eq_some hfind
  have hheld := h.held_of_mem ho
  rw [hid] at hheld
  split
  · exact ⟨⟨trivial, trivial⟩, h⟩
  split
  · exact ⟨⟨trivial, trivial⟩, h⟩
  split
  · next hkeep =>
    refine ⟨⟨Option.isSome_of_eq_some hheld, trivial⟩, ?_⟩
    show (M.see c (.replaced c.orderId c.price c.qty)).Mirrors _
    simp only [see, hheld, if_pos hkeep]
    refine h.adjust (fun _ => c.qty) fun s' => ?_
    rcases Spec.side_eq_or s s' with rfl | rfl
    · rw [Spec.Book.side_set]
    · rw [Spec.Book.side_set_opposite]
      refine ((List.map_congr_left fun x hx => ?_).trans (List.map_id _)).symm
      exact if_neg fun heq => hR.apart_side s o ho x hx (hid.trans heq.symm)
  next hmove =>
  have hopp : (R.remove s c.orderId).side (opposite s) = R.side (opposite s) :=
    Spec.Book.side_remove_opposite ..
  have hfree : ∀ x ∈ R.side (opposite s), x.orderId ≠ c.orderId := fun x hx heq =>
    hR.apart_side s o ho x hx (hid.trans heq.symm)
  have hsweep := h.sweep hR (some c.price) c.qty hfree
  -- the mirror keeps the order until the last event takes it out
  have hdropped : ∀ (M' : Mirror) (opp : List Spec.Order), (∀ x ∈ opp, x.orderId ≠ c.orderId) →
      M'.Mirrors (R.set (opposite s) opp) →
      (M'.drop c.orderId).Mirrors ((R.remove s c.orderId).set (opposite s) opp) := by
    intro M' opp hopp hM'
    refine hM'.drop fun s' => ?_
    rcases Spec.side_eq_or s s' with rfl | rfl
    · rw [Spec.Book.side_opposite_set, Spec.Book.side_opposite_set, Spec.Book.side_remove]
    · rw [Spec.Book.side_set, Spec.Book.side_set]
      exact (List.filter_eq_self.mpr fun x hx => decide_eq_true (hopp x hx)).symm
  have hfree' : ∀ x ∈ (Spec.fill s (some c.price) c.orderId (R.side (opposite s)) c.qty).1,
      x.orderId ≠ c.orderId := by
    intro x hx
    obtain ⟨x', hx', hxid, _⟩ := Spec.fill_sub _ _ x hx
    exact hxid ▸ hfree x' hx'
  dsimp only
  rw [hopp]
  split
  · obtain ⟨M', hM', hfollow, hexact⟩ := hsweep [.closed c.orderId .filled] fun id hid => by
      cases hid; rfl
    refine ⟨hexact ⟨⟨fun hc => (by cases hc), fun hne => absurd rfl hne⟩, trivial⟩, ?_⟩
    rw [hfollow]
    exact hdropped M' _ hfree' hM'
  · next hleft =>
    obtain ⟨M', hM', hfollow, hexact⟩ := hsweep [.replaced c.orderId c.price
      (Spec.fill s (some c.price) c.orderId (R.side (opposite s)) c.qty).2.1] fun id hid => by
        cases hid
    have hheld' := hM'.held_of_mem (s := s) (o := o) (by rwa [Spec.Book.side_opposite_set])
    rw [hid] at hheld'
    refine ⟨hexact ⟨Option.isSome_of_eq_some hheld', trivial⟩, ?_⟩
    rw [hfollow]
    -- at its own price the order trades with nothing, so what is left is what was asked for
    have hback : ¬ (c.price = o.price ∧
        (Spec.fill s (some c.price) c.orderId (R.side (opposite s)) c.qty).2.1 ≤ o.qty) := by
      rintro ⟨hprice, hle⟩
      rw [hprice, Spec.fill_none ((Spec.uncrossed_iff s).mp hun o ho)] at hle
      exact hmove ⟨hprice, hle⟩
    generalize (Spec.fill s (some c.price) c.orderId (R.side (opposite s)) c.qty).2.1 =
      left at hback ⊢
    show (M'.see c (.replaced c.orderId c.price left)).Mirrors _
    simp only [see, hheld', if_neg hback]
    have hM'' := hdropped M' _ hfree' hM'
    refine hM''.append (o := ⟨c.orderId, c.price, left, o.tif⟩) ?_ ?_
    · refine hM''.held_none fun s' x hx => ?_
      rcases Spec.side_eq_or s s' with rfl | rfl
      · rw [Spec.Book.side_opposite_set, Spec.Book.side_remove] at hx
        exact of_decide_eq_true (List.mem_filter.mp hx).2
      · rw [Spec.Book.side_set] at hx
        exact hfree' x hx
    · rw [Spec.Book.side_opposite_set, Spec.Book.side_remove]
      exact (hR.sorted s).filter _

/-- One command: every event is exact, and the mirror stays equal to the lists. -/
theorem Mirrors.step (cfg : BookConfig) (available : Side → Price → List Spec.Order → Nat)
    (h : M.Mirrors R) (hR : Spec.Sound R) (hun : Spec.Uncrossed R) (c : Command) :
    M.Exact c (Spec.step cfg available R c).2 ∧
      (M.follow c (Spec.step cfg available R c).2).Mirrors (Spec.step cfg available R c).1 := by
  rw [Spec.step]
  split
  · exact h.newOrder hR c
  · exact h.cancel hR
  · exact h.replace hR hun

end Step

end Mirrors

end Mirror

/-! ## Whole runs -/

namespace OrderBook

section Runs

variable {b : OrderBook} {C : Content} {M : Mirror}

/-- The mirror's levels are the levels of the book. -/
theorem Shows.matches {R : Spec.Book} (h : b.Shows R) (hM : M.Mirrors R) :
    ∃ os, b.restingOrders = some os ∧ M.Matches os := by
  refine ⟨_, h.restingOrders, fun s p => ?_⟩
  rw [hM.level, Spec.Book.resting, List.filter_append, List.map_append]
  have hside : ∀ s',
      ((R.restingSide s').filter fun o => o.side = s ∧ o.price = p).map
        (fun o => (o.orderId, o.qty)) =
      if s' = s then ((R.side s).filter fun o => o.price = p).map fun o => (o.orderId, o.qty)
      else [] := by
    intro s'
    rw [Spec.Book.restingSide, List.filter_map, List.map_map]
    split
    · next hs =>
      subst hs
      refine congrArg _ (List.filter_congr fun o _ => decide_eq_decide.mpr ?_)
      exact ⟨And.right, fun hp => ⟨rfl, hp⟩⟩
    · next hs =>
      rw [List.map_eq_nil_iff, List.filter_eq_nil_iff]
      intro o _
      simp [Spec.Order.resting, hs]
  rw [hside, hside]
  cases s <;> simp

/-- The mirror follows a whole run. -/
theorem Rep.tracks (h : Rep none none b C) (hn : b.cfg.Narrow) (hC : Spec.Uncrossed C.spec)
    (hM : M.Mirrors C.spec) (cs : List Command) : b.Tracks M cs := by
  induction cs generalizing b C M with
  | nil => exact (h.shows hn).matches hM
  | cons c cs ih =>
    obtain ⟨b', C', out, hrun, hdone⟩ := h.apply hn c
    obtain ⟨hexact, hM'⟩ := hM.step b.cfg (Spec.summed b.cfg) h.sound hC c
    rw [← hdone.events] at hexact hM'
    rw [← hdone.spec] at hM'
    refine ⟨(h.shows hn).matches hM, b', out, hrun, hexact, ih hdone.rep (hdone.cfg ▸ hn) ?_ hM'⟩
    rw [hdone.spec]
    exact hC.step h.sorted_spec c

end Runs

end OrderBook

/-- After every command of any run from the empty book, a mirror that saw only the
commands and their events holds the same orders as the book, level by level in the
same order, and every event named what the mirror held. -/
theorem feed_is_complete {cfg : BookConfig} (hfits : cfg.Fits) {b0 : OrderBook}
    (hnew : OrderBook.new cfg = some b0) (cs : List Command) : b0.Tracks [] cs := by
  obtain ⟨hrep, _, hcfg⟩ := OrderBook.rep_of_new hfits.orders hnew
  have hempty : Mirror.Mirrors [] OrderBook.blank.spec :=
    ⟨List.nodup_nil, fun s p => by cases s <;> rfl⟩
  exact hrep.tracks (hcfg ▸ hfits.narrow) OrderBook.blank_uncrossed hempty cs

theorem feed_is_complete_small :
    ∃ b0, OrderBook.new smallBook = some b0 ∧ b0.Tracks [] smallRun := by
  obtain ⟨b0, hnew, _⟩ := OrderBook.new_rep smallBook smallBook_opens.orders smallBook_opens.builds
  exact ⟨b0, hnew, feed_is_complete smallBook_fits hnew smallRun⟩

/-- The crowd's order `i`, as the mirror holds it. -/
def MirrorOrder.crowd (i : Nat) : MirrorOrder :=
  ⟨UInt64.ofNat i, OrderBook.crowdSide i, OrderBook.crowdPrice i, 1⟩

/-- The mirror appends one order of the crowd after the other. -/
theorem OrderBook.Packed.mirror {n k : Nat} {b : OrderBook} {C : Content} {M : Mirror}
    (h : OrderBook.Packed n b C) (hk : n + k ≤ 2 ^ 29 + 1)
    (htracks : b.Tracks M (OrderBook.crowd n k)) :
    ∃ b' C' os, OrderBook.Packed (n + k) b' C' ∧ b'.restingOrders = some os ∧
      (M ++ (List.range' n k).map MirrorOrder.crowd).Matches os := by
  induction k generalizing n b C M with
  | zero =>
    obtain ⟨os, hos, hM⟩ := htracks
    exact ⟨b, C, os, h, hos, by simpa using hM⟩
  | succ k ih =>
    obtain ⟨b1, C1, out1, hrun1, hevs, h1⟩ := h.next (by omega)
    rw [OrderBook.crowd, List.range'_succ, List.map_cons] at htracks
    obtain ⟨_, b2, out2, hrun2, _, htracks⟩ := htracks
    cases hrun1.symm.trans hrun2
    obtain ⟨b', C', os, h', hos, hM⟩ := ih h1 (by omega) htracks
    refine ⟨b', C', os, by rwa [Nat.add_right_comm] at h', hos, ?_⟩
    rw [hevs] at hM
    rw [List.range'_succ, List.map_cons, List.append_cons]
    exact hM

/-- With room for more than 2^29 orders the mirror holds an order that the book no
longer lists. -/
theorem feed_misses_order : ∃ b0, OrderBook.new crowdedBook = some b0 ∧
    ¬ b0.Tracks [] (OrderBook.crowd 0 (2 ^ 29 + 1)) := by
  obtain ⟨b0, hnew, h0⟩ := OrderBook.new_packed
  refine ⟨b0, hnew, fun htracks => ?_⟩
  obtain ⟨b, C, os, h, hos, hM⟩ := h0.mirror (by omega) htracks
  rw [Nat.zero_add] at h
  have hmem : ((2 ^ 29 : OrderId), (1 : Qty)) ∈
      Mirror.level ([] ++ (List.range' 0 (2 ^ 29 + 1)).map MirrorOrder.crowd) .ask
        (OrderBook.crowdPrice (2 ^ 29)) := by
    refine List.mem_map.mpr ⟨MirrorOrder.crowd (2 ^ 29), List.mem_filter.mpr ⟨?_, ?_⟩, rfl⟩
    · rw [List.nil_append]
      exact List.mem_map_of_mem (List.mem_range'_1.mpr ⟨Nat.zero_le _, by omega⟩)
    · exact decide_eq_true ⟨rfl, rfl⟩
  rw [hM] at hmem
  obtain ⟨o, ho, heq⟩ := List.mem_map.mp hmem
  exact h.unlisted hos o (List.mem_filter.mp ho).1 (Prod.mk.inj heq).1

end Matcher
