import Matcher.Book

/-!
# A run of commands with look-ahead (`include/matcher/book.hpp`: `apply_batch`)

A prefetch reads nothing and has no effect; what can go wrong is the address it is
given. So each one is modelled by the reads that make up its address, and its result
is `none` when one of them, or the element it ends at, is outside its array.
-/

namespace Matcher

namespace LadderIndex

def prefetch (lad : LadderIndex) (p : Price) : Option Unit :=
  if lad.idx p < lad.levels.size then (lad.levels[lad.idx p]?).map fun _ => () else some ()

end LadderIndex

namespace PriceIndex

def prefetch (ix : PriceIndex) (p : Price) : Option Unit :=
  match ix.kind with
  | .ladder => ix.lad.prefetch p
  | .tree => some ()

/-- The level at `p`, empty or not; `none` is the null pointer. -/
def peek (ix : PriceIndex) (p : Price) : Option Level :=
  match ix.kind with
  | .ladder => ix.lad.peek p
  | .tree => none

end PriceIndex

namespace OrderMap

def prefetch (m : OrderMap) (k : OrderId) : Option Unit := do
  let _ ← m.tags[m.home k]?
  let _ ← m.entries[m.home k]?
  return ()

end OrderMap

namespace OrderBook

def D_MAP : Nat := 16
def D_CHUNK : Nat := 8
def D_LEVEL : Nat := 4

def setPrefetchThreshold (b : OrderBook) (live : Nat) : OrderBook :=
  { b with prefetchMinLive := live }

def prefetchChunk (b : OrderBook) (c : Command) : Option Unit := do
  match c.kind with
  | .new => if c.otype = .limit then (b.ownIndex c.side).prefetch c.price else return ()
  | _ =>
    let some ploc := ← b.map.get c.orderId | return ()
    let loc ← b.map.readVal ploc
    let _ ← b.store.chunk loc
    return ()

def prefetchLevel (b : OrderBook) (c : Command) : Option Unit := do
  match c.kind with
  | .new =>
    -- a resting order appends to the level's tail chunk
    if c.otype = .limit then
      match (b.ownIndex c.side).peek c.price with
      | some lv => if lv.tail ≠ NIL then let _ ← b.store.chunks[lv.tail]?
      | none => return ()
  | _ =>
    let some ploc := ← b.map.get c.orderId | return ()
    let loc ← b.map.readVal ploc
    let ch ← b.store.chunk loc
    (b.ownIndex ch.side).prefetch ch.price
    if c.kind = .replace ∧ c.price ≠ ch.price then (b.ownIndex ch.side).prefetch c.price

/-- `if (i + d < n) touch(cmds[i + d]);` where `cmds` are the commands from the
`i`-th on. -/
def lookAhead (touch : Command → Option Unit) (cmds : List Command) (d : Nat) : Option Unit :=
  match cmds[d]? with
  | some c => touch c
  | none => some ()

/-- The loop of `apply_batch` that looks ahead. -/
def applyAhead : OrderBook → List Command → Option (OrderBook × List Emission)
  | b, [] => some (b, [])
  | b, c :: cs => do
    lookAhead (fun a => b.map.prefetch a.orderId) (c :: cs) D_MAP
    lookAhead b.prefetchChunk (c :: cs) D_CHUNK
    lookAhead b.prefetchLevel (c :: cs) D_LEVEL
    let (b, out) ← b.apply c
    let (b, rest) ← b.applyAhead cs
    return (b, out ++ rest)

def applyBatch (b : OrderBook) (cmds : List Command) : Option (OrderBook × List Emission) :=
  if b.store.live < b.prefetchMinLive then b.applyAll cmds else b.applyAhead cmds

end OrderBook

end Matcher
