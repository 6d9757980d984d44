import Matcher.Spec.Facts

/-!
# What a command does, in six cases

A command is refused, cancels an order, shrinks one in its place, or sends an order of
its own out to match: that one is filled, rests, or expires. A new order and one that a
replace takes out of its place set out alike, from lists they are not in.
-/

namespace Matcher.Spec

open Matcher

/-- The order of `c` sets out on the side `s` with this limit, from the lists `Q`. -/
inductive SetsOut (cfg : BookConfig) (R : Book) (c : Command) : Book → Side → Option Price → Tif →
    Prop where
  | new (hkind : c.kind = .new) (hqty : c.qty ≠ 0) (hfree : R.find c.orderId = none)
      (hprice : c.otype = .limit → validPrice cfg c.price = true) :
      SetsOut cfg R c R c.side (if c.otype = .limit then some c.price else none) c.tif
  | replace {s : Side} {o : Order} (hkind : c.kind = .replace) (hqty : c.qty ≠ 0)
      (hfind : R.find c.orderId = some (s, o)) (hprice : validPrice cfg c.price = true)
      (hlost : ¬ (c.price = o.price ∧ c.qty ≤ o.qty)) :
      SetsOut cfg R c (R.remove s c.orderId) s (some c.price) o.tif

/-- The event of an order that comes to rest with this quantity. -/
def restEvent (c : Command) (left : Qty) : Event :=
  match c.kind with
  | .replace => .replaced c.orderId c.price left
  | _ => .accepted c.orderId left

/-- What an order matches that sets out on the side `s` from the lists `Q`. -/
def sweep (c : Command) (Q : Book) (s : Side) (limit : Option Price) :
    List Order × Qty × List Event :=
  fill s limit c.orderId (Q.side (opposite s)) c.qty

inductive Course (cfg : BookConfig) (R : Book) (c : Command) : Book × List Event → Prop where
  | refused (r : RejectReason) : Course cfg R c (R, [.rejected c.orderId r])
  | cancelled {s : Side} {o : Order} (hkind : c.kind = .cancel)
      (hfind : R.find c.orderId = some (s, o)) :
      Course cfg R c (R.remove s c.orderId, [.closed c.orderId .cancelled])
  | shrunk {s : Side} {o : Order} (hkind : c.kind = .replace) (hqty : c.qty ≠ 0)
      (hfind : R.find c.orderId = some (s, o)) (hprice : c.price = o.price) (hle : c.qty ≤ o.qty) :
      Course cfg R c
        (R.set s ((R.side s).map fun x =>
            if x.orderId = c.orderId then { x with qty := c.qty } else x),
          [.replaced c.orderId c.price c.qty])
  | filled {Q : Book} {s : Side} {limit : Option Price} {t : Tif}
      (hout : SetsOut cfg R c Q s limit t) (hleft : (sweep c Q s limit).2.1 = 0) :
      Course cfg R c (Q.set (opposite s) (sweep c Q s limit).1,
        (sweep c Q s limit).2.2 ++ [.closed c.orderId .filled])
  | rested {Q : Book} {s : Side} {t : Tif} (hout : SetsOut cfg R c Q s (some c.price) t)
      (hleft : (sweep c Q s (some c.price)).2.1 ≠ 0) :
      Course cfg R c ((Q.set (opposite s) (sweep c Q s (some c.price)).1).set s
          (insertBack s ⟨c.orderId, c.price, (sweep c Q s (some c.price)).2.1, t⟩ (Q.side s)),
        (sweep c Q s (some c.price)).2.2 ++ [restEvent c (sweep c Q s (some c.price)).2.1])
  | expired {Q : Book} {s : Side} {limit : Option Price} {t : Tif}
      (hout : SetsOut cfg R c Q s limit t) (hleft : (sweep c Q s limit).2.1 ≠ 0)
      (hkind : c.kind = .new) :
      Course cfg R c (Q.set (opposite s) (sweep c Q s limit).1,
        (sweep c Q s limit).2.2 ++ [.closed c.orderId .expired])

section Course

variable {cfg : BookConfig} {available : Side → Price → List Order → Nat} {R Q : Book}
    {c : Command} {s : Side}
  {limit : Option Price} {t : Tif}

/-- What a new order that is not rejected has passed. -/
theorem checkNew_admits (h : checkNew cfg available R c = none) :
    c.qty ≠ 0 ∧ (c.otype = .limit → validPrice cfg c.price = true) ∧ R.find c.orderId = none := by
  unfold checkNew at h
  split at h
  · cases h
  next hqty =>
  split at h
  · cases h
  next hprice =>
  split at h
  · cases h
  next hfree =>
  refine ⟨hqty, fun hlimit => ?_, Option.not_isSome_iff_eq_none.mp hfree⟩
  rw [← Bool.not_eq_false]
  exact fun hinvalid => hprice ⟨hlimit, hinvalid⟩

theorem newOrder_course (hkind : c.kind = .new) : Course cfg R c (newOrder cfg available R c) := by
  unfold newOrder
  split
  · exact .refused _
  next hnone =>
  obtain ⟨hqty, hprice, hfree⟩ := checkNew_admits hnone
  have hout : SetsOut cfg R c R c.side (if c.otype = .limit then some c.price else none) c.tif :=
    .new hkind hqty hfree hprice
  have hlimit : c.otype = .limit → (if c.otype = .limit then some c.price else none) =
      some c.price := fun h => if_pos h
  generalize (if c.otype = .limit then some c.price else none) = limit at hout hlimit ⊢
  dsimp only
  split
  · next hleft => exact .filled hout hleft
  next hleft =>
  split
  · next hrests =>
    cases hlimit hrests.1
    have hrested := Course.rested hout hleft
    unfold restEvent at hrested
    rw [hkind] at hrested
    dsimp only at hrested
    rwa [Book.side_opposite_set]
  · exact .expired hout hleft hkind

theorem cancel_course (hkind : c.kind = .cancel) : Course cfg R c (cancel R c.orderId) := by
  unfold cancel
  split
  · exact .refused _
  · next hfind => exact .cancelled hkind hfind

theorem replace_course (hkind : c.kind = .replace) :
    Course cfg R c (replace cfg R c.orderId c.price c.qty) := by
  unfold replace
  split
  · exact .refused _
  next s o hfind =>
  split
  · exact .refused _
  next hqty =>
  split
  · exact .refused _
  next hprice =>
  rw [Bool.not_eq_false] at hprice
  split
  · next hkeep => exact .shrunk hkind hqty hfind hkeep.1 hkeep.2
  next hlost =>
  have hout : SetsOut cfg R c (R.remove s c.orderId) s (some c.price) o.tif :=
    .replace hkind hqty hfind hprice hlost
  dsimp only
  split
  · next hleft => exact .filled hout hleft
  · next hleft =>
    have hrested := Course.rested hout hleft
    unfold restEvent at hrested
    rw [hkind] at hrested
    dsimp only at hrested
    rwa [Book.side_opposite_set]

/-- Every command takes one of the six courses. -/
theorem step_course (cfg : BookConfig) (available : Side → Price → List Order → Nat)
    (R : Book) (c : Command) :
    Course cfg R c (step cfg available R c) := by
  unfold step
  split
  · next hkind => exact newOrder_course hkind
  · next hkind => exact cancel_course hkind
  · next hkind => exact replace_course hkind

theorem SetsOut.qty (h : SetsOut cfg R c Q s limit t) : c.qty ≠ 0 := by
  cases h with
  | new _ hqty => exact hqty
  | replace _ hqty => exact hqty

/-- An order sets out from the lists without it. -/
theorem SetsOut.lists (h : SetsOut cfg R c Q s limit t) (hR : Sound R) (s' : Side) :
    Q.side s' = (R.side s').filter fun o => o.orderId ≠ c.orderId := by
  cases h with
  | new _ _ hfree =>
    have hne := find_eq_none.mp hfree s'
    exact (List.filter_eq_self.mpr fun o ho => decide_eq_true (hne o ho)).symm
  | replace _ _ hfind =>
    obtain ⟨ho, hid⟩ := find_eq_some hfind
    exact hR.remove_side ho hid s'

theorem SetsOut.absent (h : SetsOut cfg R c Q s limit t) (hR : Sound R) (s' : Side) :
    ∀ o ∈ Q.side s', o.orderId ≠ c.orderId := by
  intro o ho
  rw [h.lists hR] at ho
  exact of_decide_eq_true (List.mem_filter.mp ho).2

/-- The lists without an order are as sound as those with it. -/
theorem SetsOut.sound (h : SetsOut cfg R c Q s limit t) (hR : Sound R) : Sound Q := by
  have hsub : ∀ s', (Q.side s').Sublist (R.side s') := by
    intro s'
    rw [h.lists hR]
    exact List.filter_sublist
  exact ⟨fun s' => (hR.sorted s').sublist (hsub s'), fun s' =>
    (hR.nodup s').sublist ((hsub s').map _),
    fun o ho o' ho' => hR.apart o ((hsub .bid).subset ho) o' ((hsub .ask).subset ho'),
    fun s' o ho => hR.live s' o ((hsub s').subset ho)⟩

end Course

end Matcher.Spec
