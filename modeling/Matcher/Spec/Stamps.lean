import Matcher.Spec.Facts
import Matcher.Spec.Queries

/-!
# Stamps

An order's stamp is the number of the event that gave it its place in the queue: the
Accepted event that rested it, or its latest Replaced event that changed its price or
raised its quantity. On every side the orders of one price stand in the order of their
stamps, because an order that gets a place gets the last one, and nothing else ever
changes the order of two orders.
-/

namespace Matcher

/-- The stamp of every order id. Only those of live orders mean anything. -/
abbrev Stamps := OrderId → UInt64

/-- The stamps after one numbered event; `order` tells the price and the quantity an
order has before it. -/
def stampAfter (order : OrderId → Option OrderInfo) (st : Stamps) (x : UInt64 × Event) : Stamps :=
  match x.2 with
  | .accepted id _ => Function.update st id x.1
  | .replaced id price qty =>
    match order id with
    | some o => if price = o.price ∧ qty ≤ o.qty then st else Function.update st id x.1
    | none => Function.update st id x.1
  | _ => st

/-- The stamps after the events of one command, `order` before it. -/
def stampsAfter (order : OrderId → Option OrderInfo) (st : Stamps) (xs : List (UInt64 × Event)) :
    Stamps :=
  xs.foldl (stampAfter order) st

/-- An event that gives no order a place. -/
def Event.Quiet (e : Event) : Prop := (∀ id q, e ≠ .accepted id q) ∧ ∀ id p q, e ≠ .replaced id p q

theorem stampAfter_quiet {e : Event} (h : e.Quiet) (order : OrderId → Option OrderInfo)
    (st : Stamps) (n : UInt64) :
    stampAfter order st (n, e) = st := by
  cases e with
  | accepted id q => exact absurd rfl (h.1 id q)
  | replaced id p q => exact absurd rfl (h.2 id p q)
  | rejected | trade | closed => rfl

theorem Event.quiet_trade (m t : OrderId) (p : Price) (q : Qty) : (Event.trade m t p q).Quiet :=
  ⟨fun _ _ => Event.noConfusion, fun _ _ _ => Event.noConfusion⟩

theorem Event.quiet_closed (id : OrderId) (r : CloseReason) : (Event.closed id r).Quiet :=
  ⟨fun _ _ => Event.noConfusion, fun _ _ _ => Event.noConfusion⟩

theorem Event.quiet_rejected (id : OrderId) (r : RejectReason) : (Event.rejected id r).Quiet :=
  ⟨fun _ _ => Event.noConfusion, fun _ _ _ => Event.noConfusion⟩

namespace Spec

variable {order : OrderId → Option OrderInfo} {st : Stamps}

theorem stampsAfter_quiet {xs : List (UInt64 × Event)} (h : ∀ x ∈ xs, x.2.Quiet) :
    stampsAfter order st xs = st := by
  induction xs with
  | nil => rfl
  | cons x xs ih =>
    rw [stampsAfter, List.foldl_cons, stampAfter_quiet (h x List.mem_cons_self)]
    exact ih fun y hy => h y (List.mem_cons_of_mem x hy)

theorem numbered_quiet {evs : List Event} (h : ∀ e ∈ evs, e.Quiet) (seq : UInt64) :
    ∀ x ∈ numbered seq evs, x.2.Quiet := by
  intro x hx
  refine h x.2 ?_
  rw [← numbered_snd seq evs]
  exact List.mem_map_of_mem hx

/-- After quiet events the last one decides. -/
theorem stampsAfter_last {evs : List Event} (h : ∀ e ∈ evs, e.Quiet) (seq : UInt64) (e : Event) :
    stampsAfter order st (numbered seq (evs ++ [e])) =
      stampAfter order st (seq + UInt64.ofNat evs.length + 1, e) := by
  have hquiet : stampsAfter order st (numbered seq evs) = st :=
    stampsAfter_quiet (numbered_quiet h seq)
  rw [numbered_append, stampsAfter, List.foldl_append]
  exact congrArg (stampAfter order · _) hquiet

/-! ## Orders in line -/

/-- What a stamp is about: an order and its price. -/
def Order.place (o : Order) : OrderId × Price := (o.orderId, o.price)

/-- On both sides the orders of a price stand in the order of their stamps, none of which
is above `n`. -/
structure InLine (R : Book) (st : Stamps) (n : Nat) : Prop where
  order : ∀ s, ((R.side s).map Order.place).Pairwise fun x y => x.2 = y.2 → st x.1 < st y.1
  past : ∀ s, ∀ x ∈ (R.side s).map Order.place, (st x.1).toNat ≤ n

section InLine

variable {R R' : Book} {n n' : Nat}

/-- What becomes of the quantities, and what leaves, changes no order's place. -/
theorem InLine.mono (h : InLine R st n)
    (hsub : ∀ s, ((R'.side s).map Order.place).Sublist ((R.side s).map Order.place)) (hn : n ≤ n') :
    InLine R' st n' :=
  ⟨fun s => (h.order s).sublist (hsub s), fun s x hx => (h.past s x ((hsub s).subset hx)).trans hn⟩

/-- An order that comes to rest gets the last place at its price. -/
theorem insertBack_order {s : Side} {o : Order} {os : List Order}
    (hsorted : os.Pairwise fun x y => ¬ Better s y.price x.price)
    (horder : os.Pairwise fun x y => x.price = y.price → st x.orderId < st y.orderId)
    (hlast : ∀ x ∈ os, st x.orderId < st o.orderId) :
    (insertBack s o os).Pairwise fun x y => x.price = y.price → st x.orderId < st y.orderId := by
  induction os with
  | nil => exact List.pairwise_singleton _ _
  | cons x xs ih =>
    rw [List.pairwise_cons] at hsorted
    rw [insertBack]
    split
    · next hbetter =>
      -- nothing from `x` on has the price of `o`
      have hself : ¬ Better s x.price x.price := by cases s <;> exact Int64.lt_irrefl
      refine List.pairwise_cons.mpr ⟨fun y hy heq => ?_, horder⟩
      rcases List.mem_cons.mp hy with rfl | hy
      · exact absurd (heq ▸ hbetter) hself
      · exact absurd (heq ▸ hbetter) (hsorted.1 y hy)
    · rw [List.pairwise_cons] at horder
      refine List.pairwise_cons.mpr ⟨fun y hy heq => ?_, ih hsorted.2 horder.2 fun y hy =>
        hlast y (List.mem_cons_of_mem x hy)⟩
      rcases mem_insertBack.mp hy with rfl | hy
      · exact hlast x List.mem_cons_self
      · exact horder.1 y hy heq

theorem InLine.insert (h : InLine R st n) {s : Side}
    (hsorted : (R.side s).Pairwise fun x y => ¬ Better s y.price x.price)
    {o : Order} (hnew : ∀ s', ∀ x ∈ R.side s', x.orderId ≠ o.orderId) {k : UInt64}
    (hk : n < k.toNat) :
    InLine (R.set s (insertBack s o (R.side s))) (Function.update st o.orderId k) k.toNat := by
  have hkeep : ∀ s', ∀ x ∈ R.side s', Function.update st o.orderId k x.orderId = st x.orderId :=
    fun s' x hx =>
    Function.update_of_ne (hnew s' x hx) _ _
  have hpast : ∀ s', ∀ x ∈ R.side s', (st x.orderId).toNat ≤ n := fun s' x hx =>
    h.past s' x.place (List.mem_map_of_mem hx)
  have horder : ∀ s', (R.side s').Pairwise fun x y => x.price = y.price →
      Function.update st o.orderId k x.orderId < Function.update st o.orderId k y.orderId := by
    intro s'
    refine (List.pairwise_map.mp (h.order s')).imp_of_mem fun {x y} hx hy hxy heq => ?_
    rw [hkeep s' x hx, hkeep s' y hy]
    exact hxy heq
  constructor
  · intro s'
    rw [List.pairwise_map]
    rcases side_eq_or s s' with rfl | rfl
    · rw [Book.side_set]
      refine insertBack_order hsorted (horder _) fun x hx => ?_
      rw [hkeep _ x hx, Function.update_self, UInt64.lt_iff_toNat_lt]
      exact Nat.lt_of_le_of_lt (hpast _ x hx) hk
    · rw [Book.side_set_opposite]
      exact horder _
  · intro s' y hy
    obtain ⟨x, hx, rfl⟩ := List.mem_map.mp hy
    have hold : ∀ s'', x ∈ R.side s'' → (Function.update st o.orderId k x.place.1).toNat ≤
        k.toNat := fun s'' hx' => by
      rw [show x.place.1 = x.orderId from rfl, hkeep s'' x hx']
      exact (hpast s'' x hx').trans (Nat.le_of_lt hk)
    rcases side_eq_or s s' with rfl | rfl
    · rw [Book.side_set, mem_insertBack] at hx
      rcases hx with rfl | hx
      · rw [show x.place.1 = x.orderId from rfl, Function.update_self]
      · exact hold _ hx
    · rw [Book.side_set_opposite] at hx
      exact hold _ hx

theorem fill_places (s : Side) (limit : Option Price) (taker : OrderId)
    (os : List Order) (qty : Qty) :
    ((fill s limit taker os qty).1.map Order.place).Sublist (os.map Order.place) := by
  obtain ⟨pre, post, rfl, ⟨hrest, _⟩ | ⟨x, post', q, rfl, hrest, _⟩⟩ :=
    fill_rest s limit taker os qty
  · rw [hrest]
    exact (List.sublist_append_right pre post).map _
  · rw [hrest]
    exact (List.sublist_append_right pre (x :: post')).map Order.place

/-- The opposite side was matched. -/
theorem InLine.fill (h : InLine R st n) (s : Side) (limit : Option Price)
    (taker : OrderId) (qty : Qty) :
    InLine (R.set (opposite s) (Spec.fill s limit taker (R.side (opposite s)) qty).1) st n := by
  refine h.mono (fun s' => ?_) (Nat.le_refl n)
  rcases side_eq_or s s' with rfl | rfl
  · rw [Book.side_opposite_set]
  · rw [Book.side_set]
    exact fill_places _ _ _ _ _

theorem InLine.remove (h : InLine R st n) (s : Side) (id : OrderId) :
    InLine (R.remove s id) st n := by
  refine h.mono (fun s' => ?_) (Nat.le_refl n)
  rcases side_eq_or s s' with rfl | rfl
  · rw [Book.side_remove]
    exact List.filter_sublist.map _
  · rw [Book.side_remove_opposite]

/-- The opposite side was matched, and what is left of the order comes to rest. -/
theorem InLine.rest (h : InLine R st n) {s : Side}
    (hsorted : (R.side s).Pairwise fun x y => ¬ Better s y.price x.price)
    {o : Order} (hnew : ∀ s', ∀ x ∈ R.side s', x.orderId ≠ o.orderId) (limit : Option Price)
      (taker : OrderId) (qty : Qty)
    {k : UInt64} (hk : n < k.toNat) :
    let R' := R.set (opposite s) (Spec.fill s limit taker (R.side (opposite s)) qty).1
    InLine (R'.set s (insertBack s o (R'.side s))) (Function.update st o.orderId k) k.toNat := by
  refine (h.fill s limit taker qty).insert ?_ (fun s' x hx => ?_) hk
  · rw [Book.side_opposite_set]
    exact hsorted
  · rcases side_eq_or s s' with rfl | rfl
    · rw [Book.side_opposite_set] at hx
      exact hnew _ x hx
    · rw [Book.side_set] at hx
      obtain ⟨y, hy, hid, _⟩ := fill_sub _ _ x hx
      exact hid ▸ hnew _ y hy

theorem InLine.later (h : InLine R st n) (hn : n ≤ n') : InLine R st n' :=
  h.mono (fun _ => List.Sublist.refl _) hn

end InLine

end Spec

end Matcher
