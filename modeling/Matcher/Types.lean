import Mathlib

/-!
# Core types (`include/matcher/types.hpp`)

The integer types are the source's own: order ids, quantities and sequence
numbers are 64-bit unsigned, prices 64-bit signed, symbols 32-bit unsigned, so
every wrap-around of the source happens here too. The flattened `Event` record
of the source (whose `kind` selects the fields that count) is an inductive
type: an event cannot carry a field its kind does not have.
-/

namespace Matcher

abbrev OrderId := UInt64
abbrev Symbol := UInt32
abbrev Price := Int64
abbrev Qty := UInt64

inductive Side where
  | bid
  | ask
deriving DecidableEq, Repr, Inhabited

def opposite : Side → Side
  | .bid => .ask
  | .ask => .bid

inductive OType where
  | limit
  | market
deriving DecidableEq, Repr, Inhabited

inductive Tif where
  | gtc
  | ioc
  | fok
  | postOnly
deriving DecidableEq, Repr, Inhabited

/-- `Command::Kind`. -/
inductive CommandKind where
  | new
  | cancel
  | replace
deriving DecidableEq, Repr, Inhabited

/-- One command, flat as in the source: every kind carries every field, and
the fields a kind does not use keep their defaults. -/
structure Command where
  kind : CommandKind
  orderId : OrderId := 0
  side : Side := .bid
  otype : OType := .limit
  price : Price := 0
  qty : Qty := 0
  tif : Tif := .gtc
deriving DecidableEq, Repr, Inhabited

def Command.newLimit (id : OrderId) (s : Side) (p : Price) (q : Qty) (t : Tif) : Command :=
  { kind := .new, orderId := id, side := s, otype := .limit, price := p, qty := q, tif := t }

def Command.newMarket (id : OrderId) (s : Side) (q : Qty) : Command :=
  { kind := .new, orderId := id, side := s, otype := .market, qty := q, tif := .ioc }

def Command.cancel (id : OrderId) : Command :=
  { kind := .cancel, orderId := id }

def Command.replace (id : OrderId) (p : Price) (q : Qty) : Command :=
  { kind := .replace, orderId := id, price := p, qty := q }

inductive RejectReason where
  | invalidQty
  | invalidPrice
  | duplicateOrderId
  | unknownOrderId
  | postOnlyWouldCross
  | fokCannotFill
  | bookFull
deriving DecidableEq, Repr, Inhabited

inductive CloseReason where
  | filled
  | cancelled
  | expired
deriving DecidableEq, Repr, Inhabited

inductive Event where
  | accepted (orderId : OrderId) (leavesQty : Qty)
  | rejected (orderId : OrderId) (reason : RejectReason)
  | trade (maker taker : OrderId) (price : Price) (qty : Qty)
  | closed (orderId : OrderId) (reason : CloseReason)
  | replaced (orderId : OrderId) (price : Price) (qty : Qty)
deriving DecidableEq, Repr, Inhabited

inductive IndexKind where
  | ladder
  | tree
deriving DecidableEq, Repr, Inhabited

structure BookConfig where
  priceMin : Price := 0
  priceMax : Price := 1000000
  maxOrders : UInt64 := 65536
  index : IndexKind := .ladder
deriving DecidableEq, Repr, Inhabited

/-! ## Price priority

`Better s p q`: on side `s`, price `p` is matched strictly before price `q`.
The order is the one both price indexes list their levels in. -/

def Better : Side → Price → Price → Prop
  | .bid, p, q => q < p
  | .ask, p, q => p < q

instance decidableBetter : (s : Side) → (p q : Price) → Decidable (Better s p q)
  | .bid, p, q => inferInstanceAs (Decidable (q < p))
  | .ask, p, q => inferInstanceAs (Decidable (p < q))

end Matcher
