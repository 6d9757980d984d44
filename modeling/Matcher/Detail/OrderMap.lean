import Matcher.Types
import Matcher.Kit.Memory
import Matcher.Kit.Probe

/-!
# The order map (`detail/internals.hpp`: `OrderMap`)

Open addressing over two arrays: a tag byte per slot (0 = empty, else seven
hash bits and `0x80`) and the `{key, val}` entries. `remove` closes the gap by
backward shift, so there are no tombstones.

`get`, `insert` and `remove` run the same probe loop; it is `probe` here, and
stops at the key's slot (`hit`) or at the first empty one (`miss`). The value
pointer that `get` returns is the index of its slot.
-/

namespace Matcher

open Kit
open Kit.Probe (Stop)

structure Entry where
  key : OrderId := 0
  val : Nat := 0
deriving DecidableEq, Repr, Inhabited

structure OrderMap where
  tags : Array UInt8
  entries : Array Entry
  mask : Nat
  len : Nat := 0
  removes : Nat := 0
deriving DecidableEq, Repr

namespace OrderMap

/-- `while (cap < live_max * 2) cap <<= 1`, all in `size_t`: the shift reaches
0 after 64 rounds, and from there the loop never ends. -/
def capFor (want : Nat) : Nat → Nat → Option Nat
  | 0, _ => none
  | fuel + 1, cap => if cap < want then capFor want fuel (cap <<< 1 % 2 ^ 64) else some cap

/-- An empty table of `cap` slots. -/
def blank (cap : Nat) : OrderMap :=
  { tags := Array.replicate cap 0, entries := Array.replicate cap {}, mask := cap - 1 }

def new (liveMax : Nat) : Option OrderMap :=
  (capFor (liveMax * 2 % 2 ^ 64) 65 16).map blank

def mix (k : OrderId) : UInt64 :=
  let h := k * 0x9E3779B97F4A7C15
  h ^^^ (h >>> 32)

/-- Slot from the low bits, tag from the top seven. -/
def tagOf (h : UInt64) : UInt8 := ((h >>> 57) ||| 0x80).toUInt8

/-- The slot a key's probe chain starts at. -/
def home (m : OrderMap) (k : OrderId) : Nat := (mix k).toNat &&& m.mask

def next (m : OrderMap) (i : Nat) : Nat := (i + 1) &&& m.mask

/-- The probe loop from slot `i`. A chain that comes round to its start has
seen every slot and goes on for ever, so fuel for one round decides. -/
def probeFrom (m : OrderMap) (k : OrderId) : Nat → Nat → Option Stop
  | 0, _ => none
  | fuel + 1, i => do
    let ti ← m.tags[i]?
    if ti = 0 then return .miss i
    if ti = tagOf (mix k) then
      let e ← m.entries[i]?
      if e.key = k then return .hit i
    m.probeFrom k fuel (m.next i)

def probe (m : OrderMap) (k : OrderId) : Option Stop :=
  m.probeFrom k m.tags.size (m.home k)

/-- `get`: the slot whose value the returned pointer designates, `none` inside
for the null pointer. -/
def get (m : OrderMap) (k : OrderId) : Option (Option Nat) := do
  match ← m.probe k with
  | .hit i => return some i
  | .miss _ => return none

/-- Read through a value pointer. -/
def readVal (m : OrderMap) (i : Nat) : Option Nat := (m.entries[i]?).map Entry.val

/-- Write through a value pointer. -/
def writeVal (m : OrderMap) (i v : Nat) : Option OrderMap := do
  let entries ← modify? m.entries i fun e => { e with val := v }
  return { m with entries }

def contains (m : OrderMap) (k : OrderId) : Option Bool := do
  return (← m.get k).isSome

def insert (m : OrderMap) (k : OrderId) (v : Nat) : Option OrderMap := do
  match ← m.probe k with
  | .hit i => m.writeVal i v
  | .miss i =>
    let tags ← set? m.tags i (tagOf (mix k))
    let entries ← set? m.entries i ⟨k, v⟩
    return { m with tags, entries, len := incr 64 m.len }

/-- Does the probe chain of an entry at `j` with the given home start behind
the hole, so that the entry must stay? -/
def inInterval (hole j home : Nat) : Bool :=
  if hole < j then hole < home && home ≤ j else hole < home || home ≤ j

/-- Backward-shift deletion: scan forward from the hole, move back every entry
whose probe chain crosses it. The scan meets an empty slot within two rounds. -/
def shift (m : OrderMap) : Nat → Nat → Nat → Option OrderMap
  | 0, _, _ => none
  | fuel + 1, hole, j => do
    let j := m.next j
    let tj ← m.tags[j]?
    if tj = 0 then return m
    let ej ← m.entries[j]?
    if inInterval hole j (m.home ej.key) then m.shift fuel hole j
    else
      let tags ← set? m.tags hole tj
      let entries ← set? m.entries hole ej
      let tags ← set? tags j 0
      shift { m with tags, entries } fuel j j

def remove (m : OrderMap) (k : OrderId) : Option OrderMap := do
  match ← m.probe k with
  | .miss _ => return m
  | .hit i =>
    let tags ← set? m.tags i 0
    let m := { m with tags, len := decr 64 m.len, removes := incr 64 m.removes }
    m.shift (2 * m.tags.size) i i

end OrderMap

end Matcher
