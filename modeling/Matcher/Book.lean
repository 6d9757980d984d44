import Matcher.Detail.OrderMap
import Matcher.Detail.PriceIndex

/-!
# The order book (`include/matcher/book.hpp`)

Commands, matching core and queries, statement by statement. A book operation
returns `none` only when the source indexes outside an array or never returns;
otherwise it returns the new book and what it emitted.

A sink is called synchronously, so it sees the book as it stands at that very
moment. `Emission` records that: the event, its `seq`, and the book at the call.
-/

namespace Matcher

open Kit

structure OrderInfo where
  orderId : OrderId
  side : Side
  price : Price
  qty : Qty
deriving DecidableEq, Repr, Inhabited

/-- One live order, for snapshot serialization. -/
structure RestingOrder where
  orderId : OrderId
  side : Side
  price : Price
  qty : Qty
  tif : Tif
deriving DecidableEq, Repr, Inhabited

structure OrderBook where
  store : Store
  map : OrderMap
  bids : PriceIndex
  asks : PriceIndex
  seq : UInt64 := 0
  prefetchMinLive : Nat := 1 <<< 16
  cfg : BookConfig

/-- One `sink.on_event(seq, ev)`, and the book the sink would see. -/
structure Emission where
  seq : UInt64
  ev : Event
  book : OrderBook

namespace OrderBook

/-- `none` where the constructor of a member throws, or never ends. -/
def new (cfg : BookConfig) : Option OrderBook := do
  let store ← Store.new cfg.maxOrders.toNat
  let map ← OrderMap.new cfg.maxOrders.toNat
  let bids ← PriceIndex.new cfg.index .bid cfg.priceMin cfg.priceMax
  let asks ← PriceIndex.new cfg.index .ask cfg.priceMin cfg.priceMax
  return { store, map, bids, asks, cfg }

def prefault (b : OrderBook) : OrderBook := { b with store := b.store.prefault }

def ownIndex (b : OrderBook) : Side → PriceIndex
  | .bid => b.bids
  | .ask => b.asks

def setIndex (b : OrderBook) (s : Side) (ix : PriceIndex) : OrderBook :=
  match s with
  | .bid => { b with bids := ix }
  | .ask => { b with asks := ix }

/-- Read through a level pointer of side `s`. -/
def readLevel (b : OrderBook) (s : Side) (p : Price) : Option Level := (b.ownIndex s).read p

/-- Write through a level pointer of side `s`. -/
def writeLevel (b : OrderBook) (s : Side) (p : Price) (l : Level) : Option OrderBook :=
  ((b.ownIndex s).write p l).map (b.setIndex s)

def unlinkLevel (b : OrderBook) (s : Side) (p : Price) : Option OrderBook :=
  ((b.ownIndex s).unlinkLevel p).map (b.setIndex s)

def levelInsert (b : OrderBook) (s : Side) (p : Price) : Option OrderBook :=
  ((b.ownIndex s).levelInsert p).map (b.setIndex s)

def emit (b : OrderBook) (e : Event) : OrderBook × List Emission :=
  let b := { b with seq := b.seq + 1 }
  (b, [⟨b.seq, e, b⟩])

def reject (b : OrderBook) (oid : OrderId) (r : RejectReason) : OrderBook × List Emission :=
  b.emit (.rejected oid r)

/-! ## Checks that read only -/

def priceOk (b : OrderBook) (p : Price) : Bool :=
  if b.cfg.index = .tree then p > 0 else p ≥ b.cfg.priceMin && p ≤ b.cfg.priceMax

def wouldCross (b : OrderBook) : Side → Price → Bool
  | .bid, price => match b.asks.bestPrice with
    | some bp => price ≥ bp
    | none => false
  | .ask, price => match b.bids.bestPrice with
    | some bp => price ≤ bp
    | none => false

/-- The lowest price `fillable` sums from: `INT64_MIN / 2` in tree mode. -/
def fillLo (cfg : BookConfig) : Price :=
  if cfg.index = .tree then Int64.minValue / 2 else cfg.priceMin

/-- The highest price `fillable` sums to: `INT64_MAX / 2` in tree mode. -/
def fillHi (cfg : BookConfig) : Price :=
  if cfg.index = .tree then Int64.maxValue / 2 else cfg.priceMax

def fillable (b : OrderBook) : Side → Price → Option Qty
  | .bid, price => b.asks.sumRange (fillLo b.cfg) price
  | .ask, price => b.bids.sumRange price (fillHi b.cfg)

/-! ## Matching core -/

/-- One round of the inner loop of `cross`: fill against the front order of the
level at `bp` on side `opp`. -/
def fillFront (b : OrderBook) (opp : Side) (bp : Price) (taker : OrderId) (qty : Qty) :
    Option (OrderBook × Qty × List Emission) := do
  let lv ← b.readLevel opp bp
  let (store, loc) ← b.store.front lv
  let b := { b with store }
  let ch ← b.store.chunk loc
  let m ← ch.s[locSlot loc]?
  let q := if qty < m.qty then qty else m.qty
  let b := { b with seq := b.seq + 1 }
  let trade : Emission := ⟨b.seq, .trade m.id taker bp q, b⟩
  let b ← b.writeLevel opp bp { lv with total := lv.total - q }
  let b := { b with store := ← b.store.setQty loc (m.qty - q) }
  if m.qty = q then
    -- m.qty == 0: the slot is now dead
    let lv ← b.readLevel opp bp
    let (store, lv) ← b.store.retire lv loc
    let b ← { b with store }.writeLevel opp bp lv
    let b := { b with map := ← b.map.remove m.id, seq := b.seq + 1 }
    return (b, qty - q, [trade, ⟨b.seq, .closed m.id .filled, b⟩])
  else return (b, qty - q, [trade])

/-- The inner loop of `cross`: until the level is empty or the quantity is gone. -/
def fillLevel (opp : Side) (bp : Price) (taker : OrderId) :
    Nat → OrderBook → Qty → Option (OrderBook × Qty × List Emission)
  | 0, _, _ => none
  | fuel + 1, b, qty => do
    let lv ← b.readLevel opp bp
    if lv.empty then return (b, qty, [])
    let (b, qty, out) ← b.fillFront opp bp taker qty
    if qty = 0 then return (b, qty, out)
    let (b, qty, rest) ← fillLevel opp bp taker fuel b qty
    return (b, qty, out ++ rest)

/-- Is `bp` beyond the taker's limit? Market orders have no bound. -/
def beyond (side : Side) (bound : Option Price) (bp : Price) : Bool :=
  match side, bound with
  | _, none => false
  | .bid, some bound => bp > bound
  | .ask, some bound => bp < bound

/-- While no two orders share a location, every round of `cross`'s loops kills a slot or
ends the loop, so one more than the number of slots is fuel enough for both. Where
locations alias, with room for more than 2^29 orders, a round may trade nothing; a loop
that needs more rounds than this is `none`. -/
def slotBudget (st : Store) : Nat := CHUNK_SLOTS * st.chunks.size + 1

/-- The level at `bp` is swept, and leaves the index when nothing is left of it. -/
def sweepLevel (opp : Side) (bp : Price) (taker : OrderId) (b : OrderBook) (qty : Qty) :
    Option (OrderBook × Qty × List Emission) := do
  let (b, qty, out) ← fillLevel opp bp taker (slotBudget b.store) b qty
  let lv ← b.readLevel opp bp
  if lv.empty then return (← b.unlinkLevel opp bp, qty, out)
  return (b, qty, out)

/-- The outer loop of `cross`. -/
def crossFrom (side : Side) (bound : Option Price) (taker : OrderId) :
    Nat → OrderBook → Qty → Option (OrderBook × Qty × List Emission)
  | 0, _, _ => none
  | fuel + 1, b, qty => do
    let opp := opposite side
    let some bp := (b.ownIndex opp).bestPrice | return (b, qty, [])
    if beyond side bound bp then return (b, qty, [])
    let some _ := (b.ownIndex opp).levelMut bp | return (b, qty, [])
    let (b, qty, out) ← sweepLevel opp bp taker b qty
    if qty = 0 then return (b, qty, out)
    let (b, qty, rest) ← crossFrom side bound taker fuel b qty
    return (b, qty, out ++ rest)

def cross (b : OrderBook) (side : Side) (bound : Option Price) (taker : OrderId) (qty : Qty) :
    Option (OrderBook × Qty × List Emission) :=
  crossFrom side bound taker (slotBudget b.store) b qty

/-! ## Commands -/

/-- `store_.push(*own.level_insert(price), ...)`. -/
def pushLevel (b : OrderBook) (side : Side) (price : Price) (oid : OrderId)
    (qty : Qty) (tif : Tif) :
    Option (OrderBook × Nat) := do
  let b ← b.levelInsert side price
  let lv ← b.readLevel side price
  let (store, lv, loc) ← b.store.push lv side price oid qty tif
  let b ← { b with store }.writeLevel side price lv
  return (b, loc)

def rest (b : OrderBook) (oid : OrderId) (side : Side) (price : Price) (qty : Qty) (tif : Tif) :
    Option OrderBook := do
  let (b, loc) ← b.pushLevel side price oid qty tif
  return { b with map := ← b.map.insert oid loc }

/-- `if (Level* lv = own.level_mut(price)) store_.unlink(*lv, loc); own.unlink_level(price);` -/
def unlinkOrder (b : OrderBook) (side : Side) (price : Price) (loc : Nat) : Option OrderBook := do
  let b ← match (b.ownIndex side).levelMut price with
    | some lv => do
      let (store, lv) ← b.store.unlink lv loc
      { b with store }.writeLevel side price lv
    | none => pure b
  b.unlinkLevel side price

/-- The validation of `new_order`, in SPEC 4.3 precedence: the reason to reject
with, if any. -/
def checkNew (b : OrderBook) (c : Command) : Option (Option RejectReason) := do
  if c.qty = 0 then return some .invalidQty
  if c.otype = .limit && !b.priceOk c.price then return some .invalidPrice
  if ← b.map.contains c.orderId then return some .duplicateOrderId
  if b.store.live ≥ b.cfg.maxOrders.toNat then return some .bookFull
  if c.otype = .limit then
    if c.tif = .postOnly && b.wouldCross c.side c.price then return some .postOnlyWouldCross
    if c.tif = .fok then
      if (← b.fillable c.side c.price) < c.qty then return some .fokCannotFill
  return none

def newOrder (b : OrderBook) (c : Command) : Option (OrderBook × List Emission) := do
  if let some r := ← b.checkNew c then return b.reject c.orderId r
  let bound := if c.otype = .limit then some c.price else none
  let (b, remaining, out) ← b.cross c.side bound c.orderId c.qty
  if remaining = 0 then
    let (b, last) := b.emit (.closed c.orderId .filled)
    return (b, out ++ last)
  else if c.otype = .limit ∧ (c.tif = .gtc ∨ c.tif = .postOnly) then
    let b ← b.rest c.orderId c.side c.price remaining c.tif
    let (b, last) := b.emit (.accepted c.orderId remaining)
    return (b, out ++ last)
  else
    let (b, last) := b.emit (.closed c.orderId .expired)
    return (b, out ++ last)

def cancel (b : OrderBook) (oid : OrderId) : Option (OrderBook × List Emission) := do
  let some ploc := ← b.map.get oid | return b.reject oid .unknownOrderId
  let loc ← b.map.readVal ploc
  let ch ← b.store.chunk loc
  let b ← b.unlinkOrder ch.side ch.price loc
  let b := { b with map := ← b.map.remove oid }
  return b.emit (.closed oid .cancelled)

/-- The replace that keeps its place: same price, quantity not raised. -/
def replaceInPlace (b : OrderBook) (oid : OrderId) (side : Side) (price : Price) (loc : Nat)
    (oldQty qty : Qty) : Option (OrderBook × List Emission) := do
  let b ← match (b.ownIndex side).levelMut price with
    | some lv => b.writeLevel side price { lv with total := lv.total - (oldQty - qty) }
    | none => pure b
  let b := { b with store := ← b.store.setQty loc qty }
  return b.emit (.replaced oid price qty)

/-- The replace that leaves the book, crosses at its new price and rests its
remainder at the back. `ploc` was obtained before the sweep. -/
def replaceCross (b : OrderBook) (oid : OrderId) (side : Side) (oldPrice price : Price) (qty : Qty)
    (tif : Tif) (ploc loc : Nat) : Option (OrderBook × List Emission) := do
  let b ← b.unlinkOrder side oldPrice loc
  let removes := b.map.removes
  let (b, remaining, out) ← b.cross side (some price) oid qty
  if remaining = 0 then
    let b := { b with map := ← b.map.remove oid }
    let (b, last) := b.emit (.closed oid .filled)
    return (b, out ++ last)
  else
    let (b, nloc) ← b.pushLevel side price oid remaining tif
    let map ←
      -- no entry moved: skip the re-probe
      if b.map.removes = removes then b.map.writeVal ploc nloc else b.map.insert oid nloc
    let (b, last) := { b with map }.emit (.replaced oid price remaining)
    return (b, out ++ last)

def replace (b : OrderBook) (oid : OrderId) (price : Price) (qty : Qty) :
    Option (OrderBook × List Emission) := do
  let some ploc := ← b.map.get oid | return b.reject oid .unknownOrderId
  let loc ← b.map.readVal ploc
  if qty = 0 then return b.reject oid .invalidQty
  if !b.priceOk price then return b.reject oid .invalidPrice
  let ch ← b.store.chunk loc
  let o ← ch.s[locSlot loc]?
  let tif ← ch.tif[locSlot loc]?
  if price = ch.price ∧ qty ≤ o.qty then b.replaceInPlace oid ch.side price loc o.qty qty
  else b.replaceCross oid ch.side ch.price price qty tif ploc loc

def apply (b : OrderBook) (cmd : Command) : Option (OrderBook × List Emission) :=
  match cmd.kind with
  | .new => b.newOrder cmd
  | .cancel => b.cancel cmd.orderId
  | .replace => b.replace cmd.orderId cmd.price cmd.qty

/-- Apply a run of commands, one by one. -/
def applyAll : OrderBook → List Command → Option (OrderBook × List Emission)
  | b, [] => some (b, [])
  | b, c :: cs => do
    let (b, out) ← b.apply c
    let (b, rest) ← b.applyAll cs
    return (b, out ++ rest)

/-! ## Query API -/

def bestBid (b : OrderBook) : Option Price := b.bids.bestPrice
def bestAsk (b : OrderBook) : Option Price := b.asks.bestPrice
def orderCount (b : OrderBook) : Nat := b.store.live
def levelCount (b : OrderBook) (s : Side) : Nat := (b.ownIndex s).len

/-- Total resting quantity at exactly `p` on side `s` (0 if no level). -/
def levelTotal (b : OrderBook) (s : Side) (p : Price) : Qty :=
  match (b.ownIndex s).levelMut p with
  | some lv => lv.total
  | none => 0

def depth (b : OrderBook) (s : Side) (n : Nat) : Option (List LevelDepth) := (b.ownIndex s).depth n

def order (b : OrderBook) (oid : OrderId) : Option (Option OrderInfo) := do
  let some ploc := ← b.map.get oid | return none
  let loc ← b.map.readVal ploc
  let ch ← b.store.chunk loc
  let o ← ch.s[locSlot loc]?
  return some ⟨o.id, ch.side, ch.price, o.qty⟩

/-- The record `resting_orders` builds for the order at `loc` of side `s`. -/
def restingAt (b : OrderBook) (s : Side) (loc : Nat) : Option RestingOrder := do
  let ch ← b.store.chunk loc
  let o ← ch.s[locSlot loc]?
  let tif ← ch.tif[locSlot loc]?
  return ⟨o.id, s, ch.price, o.qty, tif⟩

/-- The orders of one level; the source dereferences `level_mut` unchecked. -/
def restingLevel (b : OrderBook) (s : Side) (d : LevelDepth) : Option (List RestingOrder) := do
  let lv ← (b.ownIndex s).levelMut d.price
  let locs ← b.store.forEach lv
  locs.mapM (b.restingAt s)

def restingSide (b : OrderBook) (s : Side) : Option (List RestingOrder) := do
  let levels ← b.depth s (2 ^ 64 - 1)
  let orders ← levels.mapM (b.restingLevel s)
  return orders.flatten

/-- All live orders in book order: bids best to worst, then asks best to worst,
FIFO within each level. -/
def restingOrders (b : OrderBook) : Option (List RestingOrder) := do
  return (← b.restingSide .bid) ++ (← b.restingSide .ask)

/-- Insert snapshot orders as resting until the book is full. -/
def restoreFrom : OrderBook → List RestingOrder → Option OrderBook
  | b, [] => some b
  | b, o :: os => do
    if b.store.live ≥ b.cfg.maxOrders.toNat then return b
    let b ← b.rest o.orderId o.side o.price o.qty o.tif
    b.restoreFrom os

/-- Rebuild a book from a snapshot: same config, explicit seq, resting orders
replayed in snapshot order. -/
def restore (cfg : BookConfig) (seq : UInt64) (orders : List RestingOrder) : Option OrderBook := do
  let b ← new cfg
  { b with seq }.restoreFrom orders

end OrderBook

end Matcher
