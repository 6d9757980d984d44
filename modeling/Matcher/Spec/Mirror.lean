import Matcher.Book

/-!
# A mirror of the book that sees only the feed

The mirror knows each command and the events it emitted, nothing else. It keeps
its orders in one list, in order of arrival; a level is the part of that list
with its side and price.
-/

namespace Matcher

/-- One mirrored order. -/
structure MirrorOrder where
  orderId : OrderId
  side : Side
  price : Price
  qty : Qty
deriving DecidableEq, Repr, Inhabited

abbrev Mirror := List MirrorOrder

namespace Mirror

/-- The mirror's order with this id. -/
def held (M : Mirror) (id : OrderId) : Option MirrorOrder := M.find? (·.orderId = id)

def subtract (M : Mirror) (id : OrderId) (q : Qty) : Mirror :=
  M.map fun e => if e.orderId = id then { e with qty := e.qty - q } else e

def requantify (M : Mirror) (id : OrderId) (q : Qty) : Mirror :=
  M.map fun e => if e.orderId = id then { e with qty := q } else e

def drop (M : Mirror) (id : OrderId) : Mirror := M.filter (·.orderId ≠ id)

/-- One event of the command `c`. -/
def see (c : Command) (M : Mirror) : Event → Mirror
  | .accepted id leaves => M ++ [⟨id, c.side, c.price, leaves⟩]
  | .rejected _ _ => M
  | .trade maker _ _ q => M.subtract maker q
  | .closed id _ => M.drop id
  | .replaced id price q =>
    match M.held id with
    | none => M
    | some e =>
      if price = e.price ∧ q ≤ e.qty then M.requantify id q
      else M.drop id ++ [⟨id, e.side, price, q⟩]

/-- All events of the command `c`. -/
def follow (c : Command) (M : Mirror) (evs : List Event) : Mirror := evs.foldl (see c) M

/-- The orders of one level, in order. -/
def level (M : Mirror) (s : Side) (p : Price) : List (OrderId × Qty) :=
  (M.filter fun e => e.side = s ∧ e.price = p).map fun e => (e.orderId, e.qty)

/-- The mirror holds the same orders, level by level in the same order. -/
def Matches (M : Mirror) (os : List RestingOrder) : Prop :=
  ∀ s p, M.level s p = (os.filter fun o => o.side = s ∧ o.price = p).map fun o => (o.orderId, o.qty)

/-- What the feed of the command `c` promises at each event: a trade names a held
maker and takes part of its quantity, and the maker is closed next just when
nothing is left of it; whatever else is closed is the command's own order; a
cancelled, shrunk or moved order is held; an accepted one is not. -/
def Exact (c : Command) : Mirror → List Event → Prop
  | _, [] => True
  | M, ev :: evs =>
    (match ev with
      | .accepted id _ => M.held id = none
      | .rejected _ _ => True
      | .trade maker _ p q => ∃ e, M.held maker = some e ∧ e.price = p ∧ 0 < q ∧ q ≤ e.qty ∧
          (e.qty = q ↔ evs.head? = some (.closed maker .filled))
      | .closed id reason => (reason = .cancelled → (M.held id).isSome) ∧
          (id ≠ c.orderId → ∃ e, M.held id = some e ∧ e.qty = 0)
      | .replaced id _ _ => (M.held id).isSome) ∧
    Exact c (M.see c ev) evs

end Mirror

namespace OrderBook

/-- Along the run `cs` from the book `b`, the mirror `M` equals the book before
and after every command, and every event is exact. -/
def Tracks (b : OrderBook) (M : Mirror) : List Command → Prop
  | [] => ∃ os, b.restingOrders = some os ∧ M.Matches os
  | c :: cs => (∃ os, b.restingOrders = some os ∧ M.Matches os) ∧
      ∃ b' out, b.apply c = some (b', out) ∧ M.Exact c (out.map Emission.ev) ∧
        Tracks b' (M.follow c (out.map Emission.ev)) cs

end OrderBook

end Matcher
