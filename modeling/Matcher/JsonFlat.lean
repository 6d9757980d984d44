import Matcher.Kit.Fields
import Matcher.Text

/-!
# The flat JSON reader (`include/matcher/jsonflat.hpp`)

A field is found by searching the line for its name; missing fields and fields that are
not numbers read as nothing.
-/

namespace Matcher

open Kit

namespace JsonFlat

/-- The text of a field: between its quotes, or up to the next `,` or closing brace.
Empty when the field is missing or its quote is not closed. -/
def getStr (line key : Text) : Text :=
  match after (pattern key) line with
  | none => []
  | some ('"' :: rest) => if '"' ∈ rest then rest.takeWhile (· ≠ '"') else []
  | some rest => rest.takeWhile fun c => c ≠ ',' ∧ c ≠ '\x7d'

/-- The digit loop of `get_i64`; the source's signed arithmetic modulo 2^64. -/
def readI64 (v : Int64) : Text → Option Int64
  | [] => some v
  | c :: s =>
    if c < '0' ∨ c > '9' then none else readI64 (v * 10 + Int64.ofNat (c.toNat - '0'.toNat)) s

/-- The digit loop of `get_u64`. -/
def readU64 (v : UInt64) : Text → Option UInt64
  | [] => some v
  | c :: s =>
    if c < '0' ∨ c > '9' then none else readU64 (v * 10 + UInt64.ofNat (c.toNat - '0'.toNat)) s

def getI64 (line key : Text) : Option Int64 :=
  match getStr line key with
  | [] => none
  | '-' :: s => (readI64 0 s).map (· * -1)
  | s => (readI64 0 s).map (· * 1)

def getU64 (line key : Text) : Option UInt64 :=
  match getStr line key with
  | [] => none
  | s => readU64 0 s

/-- `t == "ioc" ? ... : Tif::Gtc` -/
def tifOf (t : Text) : Tif :=
  if t = "ioc".toList then .ioc
  else if t = "fok".toList then .fok
  else if t = "post_only".toList then .postOnly
  else .gtc

def sideOf (t : Text) : Side := if t = "ask".toList then .ask else .bid

def indexOf (t : Text) : IndexKind := if t = "tree".toList then .tree else .ladder

/-- The line's symbol and command; `none` where the source returns false. -/
def parseCommand (line : Text) : Option (Symbol × Command) :=
  let sym : Symbol := ((getU64 line "symbol".toList).getD 0).toUInt32
  let cmd := getStr line "cmd".toList
  if cmd = "new".toList then
    some (sym, {
      kind := .new
      orderId := (getU64 line "order_id".toList).getD 0
      side := sideOf (getStr line "side".toList)
      otype := if getStr line "otype".toList = "market".toList then .market else .limit
      tif := tifOf (getStr line "tif".toList)
      price := (getI64 line "price".toList).getD 0
      qty := (getU64 line "qty".toList).getD 0 })
  else if cmd = "cancel".toList then
    some (sym, Command.cancel ((getU64 line "order_id".toList).getD 0))
  else if cmd = "replace".toList then
    some (sym, Command.replace ((getU64 line "order_id".toList).getD 0)
      ((getI64 line "price".toList).getD 0)
      ((getU64 line "qty".toList).getD 0))
  else none

/-- The first line of a command file. -/
structure Header where
  pmin : Price := 0
  pmax : Price := 1000000
  maxOrders : UInt64 := 65536
  index : IndexKind := .ladder
  indexRaw : Text := "ladder".toList
  engine : Bool := false
deriving DecidableEq, Repr, Inhabited

def parseHeader (line : Text) : Header :=
  let ir := getStr line "index".toList
  let indexRaw := if ir = [] then "ladder".toList else ir
  { pmin := (getI64 line "pmin".toList).getD 0
    pmax := (getI64 line "pmax".toList).getD 1000000
    maxOrders := (getU64 line "max_orders".toList).getD 65536
    index := indexOf indexRaw
    indexRaw
    engine := getStr line "engine".toList = "true".toList }

end JsonFlat

end Matcher
