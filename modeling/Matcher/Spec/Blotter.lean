import Matcher.Kit.Watch
import Matcher.Spec.Course

/-!
# The blotter

The blotter keeps an account of every order that was let in: how much was ordered and how
much of it is executed. It sees each command and the events it emitted, nothing else. A
new order opens an account; a replace orders anew what is not executed; a trade is booked
to both its orders; a closed order's account is closed.
-/

namespace Matcher

/-- The account of one order. -/
structure Account where
  ordered : Nat
  executed : Nat
deriving DecidableEq, Repr, Inhabited

abbrev Blotter := OrderId → Option Account

/-- Was the command rejected? -/
def refused : List Event → Bool
  | .rejected _ _ :: _ => true
  | _ => false

namespace Blotter

def execute (B : Blotter) (id : OrderId) (q : Qty) : Blotter :=
  Function.update B id ((B id).map fun a => { a with executed := a.executed + q.toNat })

/-- A command that is let in, before its events. -/
def enter (B : Blotter) (c : Command) (evs : List Event) : Blotter :=
  if refused evs then B
  else match c.kind with
    | .new => Function.update B c.orderId (some ⟨c.qty.toNat, 0⟩)
    | .cancel => B
    | .replace =>
      Function.update B c.orderId ((B c.orderId).map fun a =>
        { a with ordered := a.executed + c.qty.toNat })

/-- One event. -/
def see (B : Blotter) : Event → Blotter
  | .trade maker taker _ q => (B.execute maker q).execute taker q
  | .closed id _ => Function.update B id none
  | .accepted _ _ | .rejected _ _ | .replaced _ _ _ => B

/-- A command and its events. -/
def book (B : Blotter) (c : Command) (evs : List Event) : Blotter := evs.foldl see (B.enter c evs)

/-- The quantity `q` is what is left of the order `id`. -/
def Leaves (B : Blotter) (id : OrderId) (q : Qty) : Prop :=
  ∃ a, B id = some a ∧ a.executed + q.toNat = a.ordered

/-- At least `q` is left of the order `id`. -/
def Covers (B : Blotter) (id : OrderId) (q : Qty) : Prop :=
  ∃ a, B id = some a ∧ a.executed + q.toNat ≤ a.ordered

/-- What an event must say to agree with the accounts: an order that rests, or rests anew,
does so with what is left of it; a trade is between two orders and takes what both have
left; a filled order has nothing left, one cancelled or expired has something. -/
def Balanced (B : Blotter) : Event → Prop
  | .accepted id q => B.Leaves id q
  | .replaced id _ q => B.Leaves id q
  | .trade maker taker _ q => maker ≠ taker ∧ q ≠ 0 ∧ B.Covers maker q ∧ B.Covers taker q
  | .closed id .filled => B.Leaves id 0
  | .closed id _ => ∃ q, q ≠ 0 ∧ B.Leaves id q
  | .rejected _ _ => True

/-- All events of a command agree with the accounts, one after the other. -/
def Audited (B : Blotter) (c : Command) (evs : List Event) : Prop :=
  Kit.Audit see Balanced (B.enter c evs) evs

end Blotter

end Matcher
