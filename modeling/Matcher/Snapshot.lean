import Matcher.Engine
import Matcher.Journal
import Matcher.JsonFlat

/-!
# Snapshots (`include/matcher/snapshot.hpp`)

A snapshot is a header line with the engine's default configuration, and for every
book a line with its symbol and sequence number and one line for each resting order.
-/

namespace Matcher

open Kit JsonFlat

namespace Snapshot

def bookLine (sym : Symbol) (seq : UInt64) : Text :=
  "\x7b\"rec\":\"book\",\"symbol\":".toList ++ digits sym.toNat ++ ",\"seq\":".toList ++
    digits seq.toNat ++ "\x7d\n".toList

def orderLine (o : RestingOrder) : Text :=
  "\x7b\"rec\":\"order\",\"order_id\":".toList ++ digits o.orderId.toNat ++
    ",\"side\":\"".toList ++ o.side.text ++
    "\",\"otype\":\"limit\",\"tif\":\"".toList ++ o.tif.text ++
    "\",\"price\":".toList ++ Price.text o.price ++
    ",\"qty\":".toList ++ digits o.qty.toNat ++ "\x7d\n".toList

def writeBook (b : OrderBook) (sym : Symbol) : Option Text := do
  let orders ← b.restingOrders
  return bookLine sym b.seq ++ orders.flatMap orderLine

def headerLine (c : BookConfig) : Text :=
  "\x7b\"format\":\"matcher-snap/1\",\"pmin\":".toList ++ Price.text c.priceMin ++
    ",\"pmax\":".toList ++ Price.text c.priceMax ++
    ",\"max_orders\":".toList ++ digits c.maxOrders.toNat ++
    ",\"index\":\"".toList ++ c.index.text ++ "\"\x7d\n".toList

/-- The source dereferences `e.book(s)` unchecked. -/
def writeEngine (e : Engine) : Option Text := do
  let books ← e.symbols.mapM fun s => do writeBook (← e.book s) s
  return headerLine e.defaultCfg ++ books.flatten

/-! ## Reading -/

structure SnapBook where
  symbol : Symbol := 0
  seq : UInt64 := 0
  orders : List RestingOrder := []
deriving DecidableEq, Repr, Inhabited

structure Snap where
  cfg : BookConfig := {}
  books : List SnapBook := []
deriving DecidableEq, Repr, Inhabited

/-- `line.find(pat) != npos` -/
def has (line pat : Text) : Bool := (after pat line).isSome

def parseOrder (line : Text) : RestingOrder where
  orderId := (getU64 line "order_id".toList).getD 0
  side := sideOf (getStr line "side".toList)
  tif := tifOf (getStr line "tif".toList)
  price := (getI64 line "price".toList).getD 0
  qty := (getU64 line "qty".toList).getD 0

def parseBook (line : Text) : SnapBook where
  symbol := ((getU64 line "symbol".toList).getD 0).toUInt32
  seq := (getU64 line "seq".toList).getD 0

def parseHeader (line : Text) : BookConfig where
  priceMin := (getI64 line "pmin".toList).getD 0
  priceMax := (getI64 line "pmax".toList).getD 0
  maxOrders := (getU64 line "max_orders".toList).getD 0
  index := indexOf (getStr line "index".toList)

/-- `cur->orders.push_back(o)`. `cur` points to the last book, and is null without one. -/
def addOrder (books : List SnapBook) (o : RestingOrder) : List SnapBook :=
  match books.getLast? with
  | none => books
  | some cur => books.dropLast ++ [{ cur with orders := cur.orders ++ [o] }]

/-- One round of `parse`'s loop. -/
def parseLine (s : Snap) (line : Text) : Snap :=
  if line = [] then s
  else if has line "\"rec\":\"order\"".toList then
    { s with books := addOrder s.books (parseOrder line) }
  else if has line "\"rec\":\"book\"".toList then { s with books := s.books ++ [parseBook line] }
  else { s with cfg := parseHeader line }

/-- Parse the flat record format written by `writeEngine`. The loop cuts the text into
the lines that `Journal.lines` cuts it into. -/
def parse (text : Text) : Snap := (Journal.lines text).foldl parseLine {}

def restoreBooks (cfg : BookConfig) : Engine → List SnapBook → Option Engine
  | e, [] => some e
  | e, b :: bs => do
    let book ← OrderBook.restore cfg b.seq b.orders
    restoreBooks cfg (e.addBook b.symbol book) bs

/-- Rebuild an engine from a parsed snapshot. -/
def restoreEngine (s : Snap) : Option Engine := restoreBooks s.cfg { defaultCfg := s.cfg } s.books

end Snapshot

end Matcher
