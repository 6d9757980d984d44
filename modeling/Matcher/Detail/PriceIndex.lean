import Matcher.Detail.Store
import Matcher.Kit.Words

/-!
# The price indexes (`detail/internals.hpp`: `LadderIndex`, `TreeIndex`, `PriceIndex`)

A `Level*` is the price it was obtained for: `read` and `write` go through it,
`levelMut` is the lookup that may return a null pointer. In the ladder, words
are 64-bit vectors and the cursor `best` is a 32-bit index, `NIL` when there is
no level.
-/

namespace Matcher

open Kit

structure LevelDepth where
  price : Price
  qty : Qty
deriving DecidableEq, Repr, Inhabited

/-! ## The ladder -/

structure LadderIndex where
  base : Price
  side : Side
  levels : Array Level
  bits : Array Word
  summary : Array Word
  count : Nat := 0
  best : Nat := NIL
deriving DecidableEq, Repr

namespace LadderIndex

/-- `std::size_t(pmax - pmin) + 1` -/
def span (pmin pmax : Price) : Nat := ((pmax - pmin).toUInt64 + 1).toNat

/-- `levels.max_size()`: a level takes sixteen bytes of the signed word that counts them. -/
def maxLevels : Nat := 2 ^ 59 - 1

/-- The ladder that the constructor leaves behind. -/
def blank (side : Side) (pmin pmax : Price) : LadderIndex :=
  let words := (span pmin pmax + 63) % 2 ^ 64 / 64
  { base := pmin, side
    levels := Array.replicate (span pmin pmax) {}
    bits := Array.replicate words 0
    summary := Array.replicate ((words + 63) / 64) 0 }

/-- `levels.assign(span, Level{})` throws when the span is above `max_size()`. -/
def new (side : Side) (pmin pmax : Price) : Option LadderIndex :=
  if span pmin pmax > maxLevels then none else some (blank side pmin pmax)

/-- `std::size_t(p - base)` -/
def idx (lad : LadderIndex) (p : Price) : Nat := (p - lad.base).toUInt64.toNat

def peek (lad : LadderIndex) (p : Price) : Option Level := lad.levels[lad.idx p]?

/-- `base + i`, for a 32-bit or `size_t` index. -/
def priceAt (lad : LadderIndex) (i : Nat) : Price := lad.base + Int64.ofNat i

def bestPrice (lad : LadderIndex) : Option Price :=
  if lad.best = NIL then none else some (lad.priceAt lad.best)

def levelMut (lad : LadderIndex) (p : Price) : Option Level := do
  let l ← lad.levels[lad.idx p]?
  if l.empty then none else return l

def read (lad : LadderIndex) (p : Price) : Option Level := lad.levels[lad.idx p]?

def write (lad : LadderIndex) (p : Price) (l : Level) : Option LadderIndex := do
  let levels ← set? lad.levels (lad.idx p) l
  return { lad with levels }

def levelInsert (lad : LadderIndex) (p : Price) : Option LadderIndex := do
  let i := lad.idx p
  let l ← lad.levels[i]?
  if l.empty then
    let bits ← modify? lad.bits (i / 64) (· ||| (1 : Word) <<< (i % 64))
    let summary ← modify? lad.summary (i / 4096) (· ||| (1 : Word) <<< (i / 64 % 64))
    let i32 := i % 2 ^ 32
    let best :=
      if lad.best = NIL ∨ lad.side = .bid ∧ i32 > lad.best ∨ lad.side = .ask ∧ i32 < lad.best
      then i32 else lad.best
    return { lad with bits, summary, count := incr 32 lad.count, best }
  else return lad

/-- `rescan`'s summary loop for asks, from word `s` upwards. -/
def rescanUp (lad : LadderIndex) : Nat → Nat → Option Nat
  | 0, _ => none
  | fuel + 1, s =>
    if s < lad.bits.size then do
      let sw := s / 64
      let sword := (← lad.summary[sw]?) &&& maskFrom (s % 64)
      if sword ≠ 0 then
        let nw := sw * 64 + ctz sword
        let word ← lad.bits[nw]?
        return (nw * 64 + ctz word) % 2 ^ 32
      else lad.rescanUp fuel (sw * 64 + 64)
    else return NIL

/-- `rescan`'s summary loop for bids: `n` is the source's signed `s` plus one,
so the word looked at is `n - 1` and the loop ends at `n = 0`. -/
def rescanDown (lad : LadderIndex) : Nat → Nat → Option Nat
  | 0, _ => none
  | _ + 1, 0 => return NIL
  | fuel + 1, s + 1 => do
    let sw := s / 64
    let sword := (← lad.summary[sw]?) &&& maskUpTo (s % 64)
    if sword ≠ 0 then
      let nw := sw * 64 + topBit sword
      let word ← lad.bits[nw]?
      return (nw * 64 + topBit word) % 2 ^ 32
    else lad.rescanDown fuel (sw * 64)

/-- Next occupied index moving inward from `from` (inclusive): higher for asks,
lower for bids. -/
def rescan (lad : LadderIndex) (start : Nat) : Option Nat := do
  let w := start / 64
  let here ← lad.bits[w]?
  match lad.side with
  | .ask =>
    let word := here &&& maskFrom (start % 64)
    if word ≠ 0 then return (w * 64 + ctz word) % 2 ^ 32
    lad.rescanUp (lad.bits.size + 1) (w + 1)
  | .bid =>
    let word := here &&& maskUpTo (start % 64)
    if word ≠ 0 then return (w * 64 + topBit word) % 2 ^ 32
    lad.rescanDown (lad.bits.size + 1) w

/-- Clear bit `i`, and with its word's last bit the word's summary bit. -/
def clearBit (lad : LadderIndex) (i : Nat) : Option LadderIndex := do
  let w := i / 64
  let bits ← modify? lad.bits w (· &&& ~~~((1 : Word) <<< (i % 64)))
  let word ← bits[w]?
  if word = 0 then
    let summary ← modify? lad.summary (w / 64) (· &&& ~~~((1 : Word) <<< (w % 64)))
    return { lad with bits, summary }
  else return { lad with bits }

def unlinkLevel (lad : LadderIndex) (p : Price) : Option LadderIndex := do
  let i := lad.idx p
  let l ← lad.levels[i]?
  if !l.empty then return lad
  let lad ← lad.clearBit i
  let count := decr 32 lad.count
  if count = 0 then return { lad with count, best := NIL }
  if i % 2 ^ 32 = lad.best then return { lad with count, best := ← lad.rescan i }
  return { lad with count }

/-- A `size_t` read as a signed `long`. -/
def toLong (n : Nat) : Int := if n < 2 ^ 63 then n else (n : Int) - 2 ^ 64

/-- The total of the listed levels with index in `[i, hiI]`. Each round ends a
word, so one round per word of the bitmap is enough. -/
def sumFrom (lad : LadderIndex) (hiI : Nat) : Nat → Nat → Option Qty
  | 0, _ => none
  | fuel + 1, i =>
    if i ≤ hiI then do
      let w := i / 64
      let hiBit := min (w * 64 + 63) hiI
      let word := (← lad.bits[w]?) &&& maskFrom (i % 64) &&& maskUpTo (hiBit % 64)
      let totals ← (scanUp 64 word).mapM fun b => (lad.levels[w * 64 + b]?).map Level.total
      return totals.sum + (← lad.sumFrom hiI fuel (w * 64 + 64))
    else return 0

def sumRange (lad : LadderIndex) (lo hi : Price) : Option Qty :=
  let loI := if toLong (lad.idx lo) < 0 then 0 else toLong (lad.idx lo)
  let last := toLong lad.levels.size - 1
  let hiI := if toLong (lad.idx hi) > last then last else toLong (lad.idx hi)
  if loI > hiI then some 0
  else lad.sumFrom hiI.toNat (lad.bits.size + 1) loI.toNat

def len (lad : LadderIndex) : Nat := lad.count

/-- The level at index `i` as `depth` reports it. -/
def depthAt (lad : LadderIndex) (i : Nat) : Option LevelDepth :=
  (lad.levels[i]?).map fun l => ⟨lad.priceAt i, l.total⟩

/-- `depth`'s word loop upwards from word `w`, `n` words still to go and `room`
levels still wanted. -/
def depthUp (lad : LadderIndex) : Nat → Nat → Nat → Option (List LevelDepth)
  | 0, _, _ => some []
  | n + 1, w, room =>
    if room = 0 then some []
    else do
      let word ← lad.bits[w]?
      let here ← ((scanUp 64 word).take room).mapM fun b => lad.depthAt (w * 64 + b)
      return here ++ (← lad.depthUp n (w + 1) (room - here.length))

/-- `depth`'s word loop downwards, from word `n - 1`. -/
def depthDown (lad : LadderIndex) : Nat → Nat → Option (List LevelDepth)
  | 0, _ => some []
  | w + 1, room =>
    if room = 0 then some []
    else do
      let word ← lad.bits[w]?
      let here ← ((scanDown 64 word).take room).mapM fun b => lad.depthAt (w * 64 + b)
      return here ++ (← lad.depthDown w (room - here.length))

/-- The first `n` levels from the best price inward. -/
def depth (lad : LadderIndex) (n : Nat) : Option (List LevelDepth) :=
  match lad.side with
  | .ask => lad.depthUp lad.bits.size 0 n
  | .bid => lad.depthDown lad.bits.size n

end LadderIndex

/-! ## The tree -/

/-- `std::map<Price, Level>` is the standard library's ordered map. -/
structure TreeIndex where
  side : Side
  map : Std.TreeMap Price Level := ∅

namespace TreeIndex

def bestPrice (t : TreeIndex) : Option Price :=
  match t.side with
  | .bid => t.map.maxKey?
  | .ask => t.map.minKey?

def levelMut (t : TreeIndex) (p : Price) : Option Level := do
  let l ← t.map[p]?
  if l.empty then none else return l

def read (t : TreeIndex) (p : Price) : Option Level := t.map[p]?

/-- Write through a pointer to a mapped value. -/
def write (t : TreeIndex) (p : Price) (l : Level) : Option TreeIndex :=
  if p ∈ t.map then some { t with map := t.map.insert p l } else none

/-- `&map[p]`: a default level is inserted when the key is absent. -/
def levelInsert (t : TreeIndex) (p : Price) : TreeIndex :=
  { t with map := t.map.insertIfNew p {} }

def unlinkLevel (t : TreeIndex) (p : Price) : TreeIndex :=
  match t.map[p]? with
  | some l => if l.empty then { t with map := t.map.erase p } else t
  | none => t

/-- From `lower_bound(lo)` on, while the key is at most `hi`. -/
def sumRange (t : TreeIndex) (lo hi : Price) : Qty :=
  let range := (t.map.toList.dropWhile (·.1 < lo)).takeWhile (·.1 ≤ hi)
  (range.map (·.2.total)).sum

def len (t : TreeIndex) : Nat := t.map.size

def depth (t : TreeIndex) (n : Nat) : List LevelDepth :=
  let all := match t.side with
    | .ask => t.map.toList
    | .bid => t.map.toList.reverse
  (all.take n).map fun e => ⟨e.1, e.2.total⟩

end TreeIndex

/-! ## The dispatched union -/

structure PriceIndex where
  kind : IndexKind
  lad : LadderIndex
  tree : TreeIndex

namespace PriceIndex

/-- The ladder is built for a tree, too. -/
def new (kind : IndexKind) (side : Side) (pmin pmax : Price) : Option PriceIndex := do
  let lad ← LadderIndex.new side pmin pmax
  return { kind, lad, tree := { side } }

def bestPrice (ix : PriceIndex) : Option Price :=
  match ix.kind with
  | .ladder => ix.lad.bestPrice
  | .tree => ix.tree.bestPrice

def levelMut (ix : PriceIndex) (p : Price) : Option Level :=
  match ix.kind with
  | .ladder => ix.lad.levelMut p
  | .tree => ix.tree.levelMut p

/-- Read through the `Level*` for price `p`. -/
def read (ix : PriceIndex) (p : Price) : Option Level :=
  match ix.kind with
  | .ladder => ix.lad.read p
  | .tree => ix.tree.read p

/-- Write through the `Level*` for price `p`. -/
def write (ix : PriceIndex) (p : Price) (l : Level) : Option PriceIndex :=
  match ix.kind with
  | .ladder => (ix.lad.write p l).map fun lad => { ix with lad }
  | .tree => (ix.tree.write p l).map fun tree => { ix with tree }

def levelInsert (ix : PriceIndex) (p : Price) : Option PriceIndex :=
  match ix.kind with
  | .ladder => (ix.lad.levelInsert p).map fun lad => { ix with lad }
  | .tree => some { ix with tree := ix.tree.levelInsert p }

def unlinkLevel (ix : PriceIndex) (p : Price) : Option PriceIndex :=
  match ix.kind with
  | .ladder => (ix.lad.unlinkLevel p).map fun lad => { ix with lad }
  | .tree => some { ix with tree := ix.tree.unlinkLevel p }

def sumRange (ix : PriceIndex) (lo hi : Price) : Option Qty :=
  match ix.kind with
  | .ladder => ix.lad.sumRange lo hi
  | .tree => some (ix.tree.sumRange lo hi)

def len (ix : PriceIndex) : Nat :=
  match ix.kind with
  | .ladder => ix.lad.len
  | .tree => ix.tree.len

def depth (ix : PriceIndex) (n : Nat) : Option (List LevelDepth) :=
  match ix.kind with
  | .ladder => ix.lad.depth n
  | .tree => some (ix.tree.depth n)

end PriceIndex

end Matcher
