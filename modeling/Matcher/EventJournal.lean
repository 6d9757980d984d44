import Matcher.Text

/-!
# The event journal (`write_canonical` in `include/matcher/types.hpp`, and `journal.hpp`)

The canonical line of an event. Numbers are written by the source's own digit loop, into
a buffer of 20 characters; `none` is a write outside the buffer.
-/

namespace Matcher

def RejectReason.text : RejectReason → Text
  | .invalidQty => "invalid_qty".toList
  | .invalidPrice => "invalid_price".toList
  | .duplicateOrderId => "duplicate_order_id".toList
  | .unknownOrderId => "unknown_order_id".toList
  | .postOnlyWouldCross => "post_only_would_cross".toList
  | .fokCannotFill => "fok_cannot_fill".toList
  | .bookFull => "book_full".toList

def CloseReason.text : CloseReason → Text
  | .filled => "filled".toList
  | .cancelled => "cancelled".toList
  | .expired => "expired".toList

namespace Journal

/-- The loop of `append_u`. The digits `tmp` are written, from the back, and `i` places
are left before them. -/
def writeDigits : Nat → UInt64 → Text → Option Text
  | 0, _, _ => none
  | i + 1, v, tmp =>
    let tmp := Char.ofNat ('0'.toNat + (v % 10).toNat) :: tmp
    if v / 10 = 0 then some tmp else writeDigits i (v / 10) tmp

def appendU (s : Text) (v : UInt64) : Option Text := do
  return s ++ (← writeDigits 20 v [])

/-- A negative number is negated after adding 1, so that the smallest has no overflow. -/
def appendI (s : Text) (v : Int64) : Option Text :=
  if v < 0 then appendU (s ++ ['-']) ((-(v + 1)).toUInt64 + 1) else appendU s v.toUInt64

/-- The `switch` of `write_canonical_impl`. -/
def writeKind (symField : Text) (out : Text) : Event → Option Text
  | .accepted orderId leavesQty => do
    let out ← appendU (out ++ ",\"ev\":\"accepted\"".toList ++ symField ++
      ",\"order_id\":".toList) orderId
    appendU (out ++ ",\"leaves_qty\":".toList) leavesQty
  | .rejected orderId reason => do
    let out ← appendU (out ++ ",\"ev\":\"rejected\"".toList ++ symField ++
      ",\"order_id\":".toList) orderId
    return out ++ ",\"reason\":\"".toList ++ reason.text ++ ['"']
  | .trade maker taker price qty => do
    let out ← appendU (out ++ ",\"ev\":\"trade\"".toList ++ symField ++ ",\"maker\":".toList) maker
    let out ← appendU (out ++ ",\"taker\":".toList) taker
    let out ← appendI (out ++ ",\"price\":".toList) price
    appendU (out ++ ",\"qty\":".toList) qty
  | .closed orderId reason => do
    let out ← appendU (out ++ ",\"ev\":\"closed\"".toList ++ symField ++
      ",\"order_id\":".toList) orderId
    return out ++ ",\"reason\":\"".toList ++ reason.text ++ ['"']
  | .replaced orderId price qty => do
    let out ← appendU (out ++ ",\"ev\":\"replaced\"".toList ++ symField ++
      ",\"order_id\":".toList) orderId
    let out ← appendI (out ++ ",\"price\":".toList) price
    appendU (out ++ ",\"qty\":".toList) qty

def writeCanonicalImpl (seq : UInt64) (symField : Text) (e : Event) (out : Text) : Option Text := do
  let out ← appendU (out ++ "\x7b\"seq\":".toList) seq
  let out ← writeKind symField out e
  return out ++ ['\x7d']

/-- The canonical line, no line break. -/
def writeCanonical (seq : UInt64) (e : Event) (out : Text) : Option Text :=
  writeCanonicalImpl seq [] e out

/-- The line with the symbol after the event's name. -/
def writeCanonicalSym (seq : UInt64) (sym : Symbol) (e : Event) (out : Text) : Option Text := do
  let sf ← appendU ",\"symbol\":".toList sym.toUInt64
  writeCanonicalImpl seq sf e out

/-- What `EvtJournal::on_event` gives its writer. -/
def onEvent (seq : UInt64) (e : Event) : Option Text := do
  return (← writeCanonical seq e []) ++ ['\n']

/-- What `journal_event` gives its writer. -/
def journalEvent (sym : Symbol) (seq : UInt64) (e : Event) : Option Text := do
  return (← writeCanonicalSym seq sym e []) ++ ['\n']

/-- The journal of a book: one line after the other. -/
def bookJournal (es : List (UInt64 × Event)) : Option Text := do
  return (← es.mapM fun x => onEvent x.1 x.2).flatten

/-- The journal of an engine, every line with its symbol. -/
def engineJournal (es : List (UInt64 × Symbol × Event)) : Option Text := do
  return (← es.mapM fun x => journalEvent x.2.1 x.1 x.2.2).flatten

end Journal

end Matcher
