import Matcher.Types
import Matcher.Kit.Memory

/-!
# The order store (`detail/internals.hpp`: `Chunk`, `Level`, `Store`)

Resting orders live inline in their level's queue: an unrolled doubly linked
list of chunks of up to six `{id, qty}` slots. A slot with quantity 0 is dead.
An order's location packs its chunk index and slot into 32 bits.

Chunk indices, cursors and counters are naturals with the source's width made
explicit where the code counts (`incr`, `decr`) or packs (`mkLoc`). A result of
`none` is an access outside an array, which the source does not check.
-/

namespace Matcher

open Kit

/-- `UINT32_MAX`, the null chunk index and the null ladder cursor. -/
def NIL : Nat := 2 ^ 32 - 1

def CHUNK_SLOTS : Nat := 6

structure Slot where
  id : OrderId := 0
  qty : Qty := 0
deriving DecidableEq, Repr, Inhabited

/-- A value-initialised chunk is all zeros. -/
structure Chunk where
  price : Price := 0
  prev : Nat := 0
  next : Nat := 0
  head : Nat := 0
  tail : Nat := 0
  live : Nat := 0
  side : Side := .bid
  s : Vector Slot CHUNK_SLOTS := Vector.replicate CHUNK_SLOTS {}
  tif : Vector Tif 8 := Vector.replicate 8 .gtc
deriving DecidableEq, Repr

instance : Inhabited Chunk := ⟨{}⟩

namespace Chunk

/-- Write slot `slot`; no result beyond the slot array. -/
def setSlot (ch : Chunk) (slot : Nat) (v : Slot) : Option Chunk :=
  if h : slot < CHUNK_SLOTS then some { ch with s := ch.s.set slot v h } else none

def setTif (ch : Chunk) (slot : Nat) (t : Tif) : Option Chunk :=
  if h : slot < 8 then some { ch with tif := ch.tif.set slot t h } else none

/-- `while (s[head].qty == 0) ++head`: the cursor's stopping place. It leaves
the slot array after at most `CHUNK_SLOTS` steps, so the fuel never decides. -/
def skipDead (ch : Chunk) : Nat → Nat → Option Nat
  | 0, _ => none
  | fuel + 1, head => do
    let s ← ch.s[head]?
    if s.qty = 0 then ch.skipDead fuel (incr 8 head) else return head

/-- The live slots among the `n` slots from `i` on. -/
def visit (ch : Chunk) (i : Nat) : Nat → Option (List Nat)
  | 0 => some []
  | n + 1 => do
    let s ← ch.s[i]?
    let rest ← ch.visit (i + 1) n
    return if s.qty ≠ 0 then i :: rest else rest

end Chunk

/-- `c << 3 | slot` in 32 bits. -/
def mkLoc (c slot : Nat) : Nat := (c <<< 3) % 2 ^ 32 ||| slot

def locChunk (loc : Nat) : Nat := loc >>> 3
def locSlot (loc : Nat) : Nat := loc &&& 7

structure Level where
  head : Nat := NIL
  tail : Nat := NIL
  total : Qty := 0
deriving DecidableEq, Repr, Inhabited

def Level.empty (l : Level) : Bool := l.head == NIL

/-- `capacity` is what `chunks.reserve` asked for at construction; `chunks`
holds the elements constructed so far. -/
structure Store where
  chunks : Array Chunk := #[]
  capacity : Nat := 0
  used : Nat := 0
  freeChunk : Nat := NIL
  live : Nat := 0
deriving DecidableEq, Repr

namespace Store

/-- The longest `std::vector<Chunk>`: `PTRDIFF_MAX` bytes, 128 a chunk. -/
def maxChunks : Nat := 2 ^ 56 - 1

/-- A store with room for so many chunks, none of them constructed yet. -/
def blank (capacity : Nat) : Store := { capacity }

/-- `chunks.reserve(max_orders)`, which throws beyond the longest vector. -/
def new (maxOrders : Nat) : Option Store :=
  if maxOrders > maxChunks then none else some (blank maxOrders)

/-- `chunks.resize(chunks.capacity())`. -/
def prefault (st : Store) : Store :=
  { st with chunks := st.chunks ++ Array.replicate (st.capacity - st.chunks.size) {} }

/-- The chunk a location points into. -/
def chunk (st : Store) (loc : Nat) : Option Chunk := st.chunks[locChunk loc]?

/-- Update chunk `c` in place. -/
def updChunk (st : Store) (c : Nat) (f : Chunk → Chunk) : Option Store :=
  (modify? st.chunks c f).map fun chunks => { st with chunks }

/-- The index of the chunk handed out: a recycled one first, else a fresh one. -/
def takeChunk (st : Store) : Option (Store × Nat) :=
  if st.freeChunk ≠ NIL then do
    let ch ← st.chunks[st.freeChunk]?
    return ({ st with freeChunk := ch.next }, st.freeChunk)
  else
    let c := st.used
    let chunks := if c = st.chunks.size then st.chunks.push {} else st.chunks
    return ({ st with used := incr 32 st.used, chunks }, c)

def allocChunk (st : Store) (side : Side) (price : Price) : Option (Store × Nat) := do
  let (st, c) ← st.takeChunk
  let st ← st.updChunk c fun ch =>
    { ch with price, prev := NIL, next := NIL, head := 0, tail := 0, live := 0, side }
  return (st, c)

/-- `next` follows `prev`; a level without `prev` starts with it. -/
def linkNext (st : Store) (l : Level) (prev next : Nat) : Option (Store × Level) :=
  if prev ≠ NIL then (st.updChunk prev fun p => { p with next }).map (·, l)
  else some (st, { l with head := next })

/-- `prev` precedes `next`; a level without `next` ends with it. -/
def linkPrev (st : Store) (l : Level) (prev next : Nat) : Option (Store × Level) :=
  if next ≠ NIL then (st.updChunk next fun n => { n with prev }).map (·, l)
  else some (st, { l with tail := prev })

def dropChunk (st : Store) (l : Level) (c : Nat) : Option (Store × Level) := do
  let ch ← st.chunks[c]?
  let (st, l) ← st.linkNext l ch.prev ch.next
  let (st, l) ← st.linkPrev l ch.prev ch.next
  let st ← st.updChunk c fun ch => { ch with next := st.freeChunk }
  return ({ st with freeChunk := c }, l)

/-- `c == NIL || chunks[c].tail == CHUNK_SLOTS` -/
def usedUp (st : Store) (c : Nat) : Option Bool :=
  if c = NIL then some true else (st.chunks[c]?).map (·.tail == CHUNK_SLOTS)

/-- The chunk `push` appends to: the level's tail chunk, or a new one linked
behind it when the level has none or its tail chunk is used up. -/
def tailChunk (st : Store) (l : Level) (side : Side) (price : Price) :
    Option (Store × Level × Nat) := do
  if ← st.usedUp l.tail then
    let (st, n) ← st.allocChunk side price
    let st ← st.updChunk n fun ch => { ch with prev := l.tail }
    let (st, l) ← st.linkNext l l.tail n
    return (st, { l with tail := n }, n)
  else return (st, l, l.tail)

/-- Append an order to a level's queue; the result is its location. -/
def push (st : Store) (l : Level) (side : Side) (price : Price) (id : OrderId) (qty : Qty)
    (tif : Tif) : Option (Store × Level × Nat) := do
  let (st, l, c) ← st.tailChunk l side price
  let ch ← st.chunks[c]?
  let slot := ch.tail
  let ch ← ch.setSlot slot ⟨id, qty⟩
  let ch ← ch.setTif slot tif
  let st ← st.updChunk c fun _ => { ch with tail := incr 8 slot, live := incr 8 ch.live }
  return ({ st with live := incr 64 st.live }, { l with total := l.total + qty }, mkLoc c slot)

/-- Write the quantity of the slot at a location. -/
def setQty (st : Store) (loc : Nat) (qty : Qty) : Option Store := do
  let ch ← st.chunk loc
  let s ← ch.s[locSlot loc]?
  let ch ← ch.setSlot (locSlot loc) { s with qty }
  st.updChunk (locChunk loc) fun _ => ch

/-- A slot died: count it out of the store and out of its chunk, and release
the chunk with its last live slot. The tail of `Store::unlink`, and the same
statements inside `OrderBook::cross`. -/
def retire (st : Store) (l : Level) (loc : Nat) : Option (Store × Level) := do
  let st := { st with live := decr 64 st.live }
  let st ← st.updChunk (locChunk loc) fun ch => { ch with live := decr 8 ch.live }
  let ch ← st.chunk loc
  if ch.live = 0 then st.dropChunk l (locChunk loc) else return (st, l)

/-- Remove a live order from its level. -/
def unlink (st : Store) (l : Level) (loc : Nat) : Option (Store × Level) := do
  let ch ← st.chunk loc
  let s ← ch.s[locSlot loc]?
  let l := { l with total := l.total - s.qty }
  let st ← st.setQty loc 0
  st.retire l loc

/-- First live order of a non-empty level; the head chunk's cursor moves past
the dead slots before it. -/
def front (st : Store) (l : Level) : Option (Store × Nat) := do
  let ch ← st.chunks[l.head]?
  let head ← ch.skipDead (CHUNK_SLOTS + 1) ch.head
  let st ← st.updChunk l.head fun ch => { ch with head }
  return (st, mkLoc l.head head)

/-- `for_each` from chunk `c` on: the locations visited, in order. The fuel is
one more than the number of chunks, so it runs out on a cyclic list only. -/
def forEachFrom (st : Store) : Nat → Nat → Option (List Nat)
  | 0, _ => none
  | fuel + 1, c =>
    if c = NIL then some []
    else do
      let ch ← st.chunks[c]?
      let here ← ch.visit ch.head (ch.tail - ch.head)
      let rest ← st.forEachFrom fuel ch.next
      return here.map (mkLoc c) ++ rest

/-- Visit a level's live orders in FIFO order. -/
def forEach (st : Store) (l : Level) : Option (List Nat) :=
  st.forEachFrom (st.chunks.size + 1) l.head

end Store

end Matcher
