import Matcher.Types

/-!
# The naive price-time book (SPEC sections 3-5)

Per side, one list of orders, best price first and by arrival within a price.
Commands are checked, matched against the head of the opposite list, and rest
behind everything of equal or better price. This is what the book is for: there
are no chunks, no map and no index here.

`available` is a parameter: what a fill-or-kill order compares its quantity
with. The specification's own value is `offered`, the exact sum; the program
adds up in 64 bits and, in tree mode, over a bounded price range.
-/

namespace Matcher.Spec

open Matcher

/-- A resting order. Its side is the list it is in. -/
structure Order where
  orderId : OrderId
  price : Price
  qty : Qty
  tif : Tif
deriving DecidableEq, Repr, Inhabited

structure Book where
  bids : List Order := []
  asks : List Order := []
deriving DecidableEq, Repr, Inhabited

namespace Book

def side (R : Book) : Side → List Order
  | .bid => R.bids
  | .ask => R.asks

def set (R : Book) (s : Side) (os : List Order) : Book :=
  match s with
  | .bid => { R with bids := os }
  | .ask => { R with asks := os }

@[simp] theorem side_set (R : Book) (s : Side) (os : List Order) : (R.set s os).side s = os := by
  cases s <;> rfl

@[simp] theorem side_set_opposite (R : Book) (s : Side) (os : List Order) :
    (R.set s os).side (opposite s) = R.side (opposite s) := by cases s <;> rfl

@[simp] theorem side_opposite_set (R : Book) (s : Side) (os : List Order) :
    (R.set (opposite s) os).side s = R.side s := by cases s <;> rfl

/-- The number of live orders. -/
def live (R : Book) : Nat := R.bids.length + R.asks.length

/-- The live order with this id, and its side. -/
def find (R : Book) (id : OrderId) : Option (Side × Order) :=
  match R.bids.find? (·.orderId = id) with
  | some o => some (.bid, o)
  | none => (R.asks.find? (·.orderId = id)).map fun o => (.ask, o)

/-- Take the order with this id out of side `s`. -/
def remove (R : Book) (s : Side) (id : OrderId) : Book :=
  R.set s ((R.side s).filter (·.orderId ≠ id))

@[simp] theorem side_remove (R : Book) (s : Side) (id : OrderId) :
    (R.remove s id).side s = (R.side s).filter (·.orderId ≠ id) := side_set ..

@[simp] theorem side_remove_opposite (R : Book) (s : Side) (id : OrderId) :
    (R.remove s id).side (opposite s) = R.side (opposite s) := side_set_opposite ..

end Book

/-- May an order on side `s` with this limit trade at price `p`? -/
def admits (s : Side) (limit : Option Price) (p : Price) : Bool :=
  match s, limit with
  | _, none => true
  | .bid, some l => p ≤ l
  | .ask, some l => l ≤ p

/-- Match the opposite list from its head. -/
def fill (s : Side) (limit : Option Price) (taker : OrderId) :
    List Order → Qty → List Order × Qty × List Event
  | [], qty => ([], qty, [])
  | o :: os, qty =>
    if qty = 0 ∨ admits s limit o.price = false then (o :: os, qty, [])
    else if o.qty ≤ qty then
      let (rest, left, evs) := fill s limit taker os (qty - o.qty)
      (rest, left, .trade o.orderId taker o.price o.qty :: .closed o.orderId .filled :: evs)
    else ({ o with qty := o.qty - qty } :: os, 0, [.trade o.orderId taker o.price qty])

/-- Rest an order behind everything of equal or better price. -/
def insertBack (s : Side) (o : Order) : List Order → List Order
  | [] => [o]
  | x :: xs => if Better s o.price x.price then o :: x :: xs else x :: insertBack s o xs

/-- What the opposite list offers within a limit. -/
def offered (s : Side) (limit : Price) (opp : List Order) : Nat :=
  ((opp.filter fun o => admits s (some limit) o.price).map fun o => o.qty.toNat).sum

/-- The configuration's price check for limit prices. -/
def validPrice (cfg : BookConfig) (p : Price) : Bool :=
  match cfg.index with
  | .ladder => cfg.priceMin ≤ p && p ≤ cfg.priceMax
  | .tree => 0 < p

/-- Would an order on side `s` at this price trade at once? -/
def crosses (s : Side) (price : Price) (opp : List Order) : Bool :=
  match opp.head? with
  | some o => admits s (some price) o.price
  | none => false

section Commands

variable (cfg : BookConfig) (available : Side → Price → List Order → Nat)

/-- The checks on a new order, in SPEC 4.3 precedence. -/
def checkNew (R : Book) (c : Command) : Option RejectReason :=
  if c.qty = 0 then some .invalidQty
  else if c.otype = .limit ∧ validPrice cfg c.price = false then some .invalidPrice
  else if (R.find c.orderId).isSome then some .duplicateOrderId
  else if cfg.maxOrders.toNat ≤ R.live then some .bookFull
  else if c.otype = .limit ∧ c.tif = .postOnly ∧
      crosses c.side c.price (R.side (opposite c.side)) then
    some .postOnlyWouldCross
  else if c.otype = .limit ∧ c.tif = .fok ∧
      available c.side c.price (R.side (opposite c.side)) < c.qty.toNat then
    some .fokCannotFill
  else none

def newOrder (R : Book) (c : Command) : Book × List Event :=
  match checkNew cfg available R c with
  | some r => (R, [.rejected c.orderId r])
  | none =>
    let limit := if c.otype = .limit then some c.price else none
    let (opp, left, evs) := fill c.side limit c.orderId (R.side (opposite c.side)) c.qty
    let R := R.set (opposite c.side) opp
    if left = 0 then (R, evs ++ [.closed c.orderId .filled])
    else if c.otype = .limit ∧ (c.tif = .gtc ∨ c.tif = .postOnly) then
      (R.set c.side (insertBack c.side ⟨c.orderId, c.price, left, c.tif⟩ (R.side c.side)),
        evs ++ [.accepted c.orderId left])
    else (R, evs ++ [.closed c.orderId .expired])

def cancel (R : Book) (id : OrderId) : Book × List Event :=
  match R.find id with
  | none => (R, [.rejected id .unknownOrderId])
  | some (s, _) => (R.remove s id, [.closed id .cancelled])

def replace (R : Book) (id : OrderId) (price : Price) (qty : Qty) : Book × List Event :=
  match R.find id with
  | none => (R, [.rejected id .unknownOrderId])
  | some (s, o) =>
    if qty = 0 then (R, [.rejected id .invalidQty])
    else if validPrice cfg price = false then (R, [.rejected id .invalidPrice])
    else if price = o.price ∧ qty ≤ o.qty then
      (R.set s ((R.side s).map fun x => if x.orderId = id then { x with qty } else x),
        [.replaced id price qty])
    else
      let R := R.remove s id
      let (opp, left, evs) := fill s (some price) id (R.side (opposite s)) qty
      let R := R.set (opposite s) opp
      if left = 0 then (R, evs ++ [.closed id .filled])
      else (R.set s (insertBack s ⟨id, price, left, o.tif⟩ (R.side s)),
        evs ++ [.replaced id price left])

def step (R : Book) (c : Command) : Book × List Event :=
  match c.kind with
  | .new => newOrder cfg available R c
  | .cancel => cancel R c.orderId
  | .replace => replace cfg R c.orderId c.price c.qty

/-- A run of commands: the final book and all events. -/
def run : Book → List Command → Book × List Event
  | R, [] => (R, [])
  | R, c :: cs =>
    let (R, evs) := step cfg available R c
    let (R, rest) := run R cs
    (R, evs ++ rest)

theorem run_cons (R : Book) (c : Command) (cs : List Command) :
    run cfg available R (c :: cs) = ((run cfg available (step cfg available R c).1 cs).1,
      (step cfg available R c).2 ++ (run cfg available (step cfg available R c).1 cs).2) := rfl

end Commands

/-- Events with consecutive sequence numbers, the first one after `seq`. -/
def numbered (seq : UInt64) : List Event → List (UInt64 × Event)
  | [] => []
  | e :: es => (seq + 1, e) :: numbered (seq + 1) es

theorem numbered_snd (seq : UInt64) (evs : List Event) : (numbered seq evs).map Prod.snd = evs := by
  induction evs generalizing seq with
  | nil => rfl
  | cons e es ih => rw [numbered, List.map_cons, ih]

theorem numbered_append (n : UInt64) (xs ys : List Event) :
    numbered n (xs ++ ys) = numbered n xs ++ numbered (n + UInt64.ofNat xs.length) ys := by
  induction xs generalizing n with
  | nil => simp [numbered]
  | cons x xs ih =>
    simp only [List.cons_append, numbered, ih, List.length_cons]
    have hn : n + 1 + UInt64.ofNat xs.length = n + UInt64.ofNat (xs.length + 1) := by
      rw [UInt64.ofNat_add]
      grind
    rw [hn]

end Matcher.Spec
