import Matcher.Kit.Machine
import Matcher.Text

/-!
# The corpus generator (`tools/vectorgen/src/types.rs`, `main.rs`)

It writes two command files for the benchmarks: a book to begin with, and the commands
that are timed. Its words are 64 bits; `none` is a panic, or the exit on a workload it
does not know.
-/

namespace Matcher

open Kit

def OType.text : OType → Text
  | .limit => "limit".toList
  | .market => "market".toList

namespace Vectorgen

/-- The generator's own commands: only the fields a kind uses. -/
inductive Command where
  | new (orderId : OrderId) (side : Side) (otype : OType) (price : Price) (qty : Qty) (tif : Tif)
  | cancel (orderId : OrderId)
  | replace (orderId : OrderId) (price : Price) (qty : Qty)
deriving DecidableEq, Repr, Inhabited

/-- `Command::new`. -/
def Command.limit (orderId : OrderId) (side : Side) (price : Price) (qty : Qty)
    (tif : Tif) : Command :=
  .new orderId side .limit price qty tif

def Command.market (orderId : OrderId) (side : Side) (qty : Qty) : Command :=
  .new orderId side .market 0 qty .ioc

/-- The line of a command. Unlike a journal line, a market order's has a price. -/
def Command.writeCanonical : Command → Text
  | .new orderId side otype price qty tif =>
    "\x7b\"cmd\":\"new\",\"order_id\":".toList ++ digits orderId.toNat ++
      ",\"side\":\"".toList ++ side.text ++ "\",\"otype\":\"".toList ++ otype.text ++
      "\",\"price\":".toList ++ Price.text price ++ ",\"qty\":".toList ++ digits qty.toNat ++
      ",\"tif\":\"".toList ++ tif.text ++ "\"\x7d".toList
  | .cancel orderId =>
    "\x7b\"cmd\":\"cancel\",\"order_id\":".toList ++ digits orderId.toNat ++ "\x7d".toList
  | .replace orderId price qty =>
    "\x7b\"cmd\":\"replace\",\"order_id\":".toList ++ digits orderId.toNat ++
      ",\"price\":".toList ++ Price.text price ++ ",\"qty\":".toList ++ digits qty.toNat ++
      "\x7d".toList

def MID : Price := 500000
def PMIN : Price := 0
def PMAX : Price := 1000000

/-- A limit beyond the middle, by `x` ticks. -/
def through (side : Side) (x : Price) : Price :=
  match side with
  | .bid => MID + x
  | .ask => MID - x

/-! ## Drawing numbers -/

/-- xorshift64*. -/
structure Rng where
  state : UInt64
deriving DecidableEq, Repr, Inhabited

namespace Rng

def next (r : Rng) : Rng × UInt64 :=
  let x := r.state
  let x := x ^^^ (x >>> 12)
  let x := x ^^^ (x <<< 25)
  let x := x ^^^ (x >>> 27)
  (⟨x⟩, x * 0x2545F4914F6CDD1D)

/-- `self.next() % n`, which panics for 0. -/
def below (r : Rng) (n : UInt64) : Option (Rng × UInt64) :=
  if n = 0 then none else some (r.next.1, r.next.2 % n)

def range (r : Rng) (lo hi : Price) : Option (Rng × Price) := do
  let (r, x) ← r.below (hi - lo).toUInt64
  return (r, lo + x.toInt64)

def randSide (r : Rng) : Option (Rng × Side) := do
  let (r, x) ← r.below 2
  return (r, if x = 0 then .bid else .ask)

/-- The price of a replace, for a side that was drawn. -/
def quote (r : Rng) : Side → Option (Rng × Price)
  | .bid => r.range (MID - 5000) (MID - 1)
  | .ask => r.range (MID + 1) (MID + 5000)

end Rng

/-! ## Writing commands -/

/-- `live` are the ids of the orders that the generator takes to be resting. -/
structure Gen where
  rng : Rng
  nextId : UInt64 := 1
  live : List OrderId := []
  out : Text := []
deriving DecidableEq, Repr, Inhabited

namespace Gen

def emit (g : Gen) (cmd : Command) : Gen := { g with out := cmd.writeCanonical ++ ['\n'] }

def add (g : Gen) (side : Side) (lo hi : Price) (qmax : UInt64) : Option (Gen × Text) := do
  let id := g.nextId
  let g := { g with nextId := g.nextId + 1 }
  let (rng, price) ← g.rng.range lo hi
  let (rng, q) ← rng.below qmax
  let g := { g with rng }.emit (.limit id side price (q + 1) .gtc)
  return ({ g with live := g.live ++ [id] }, g.out)

/-- `add_cmd`: bids below the middle, asks above it. -/
def addCmd (g : Gen) (side : Side) (spreadLo spreadHi : Price) (qmax : UInt64) :
    Option (Gen × Text) :=
  match side with
  | .bid => g.add side (MID - spreadHi) (MID - spreadLo) qmax
  | .ask => g.add side (MID + spreadLo) (MID + spreadHi) qmax

def pickLive (g : Gen) : Option (Gen × OrderId) := do
  let (rng, i) ← g.rng.below (UInt64.ofNat g.live.length)
  return ({ g with rng }, ← g.live[i.toNat]?)

/-- `swap_remove`: the last one takes the place of the one that goes. -/
def killLive (g : Gen) : Option (Gen × OrderId) := do
  let (rng, i) ← g.rng.below (UInt64.ofNat g.live.length)
  let id ← g.live[i.toNat]?
  let last ← g.live.getLast?
  return ({ g with rng, live := (g.live.set i.toNat last).dropLast }, id)

/-- A new order on some side, as all workloads add it. -/
def build (g : Gen) : Option (Gen × Text) := do
  let (rng, side) ← g.rng.randSide
  { g with rng }.addCmd side 1 5000 100

/-- A cancel of an order that goes off the list. -/
def kill (g : Gen) : Option (Gen × Text) := do
  let (g, id) ← g.killLive
  let g := g.emit (.cancel id)
  return (g, g.out)

/-- A replace, priced for a side that is drawn again. -/
def churn (g : Gen) : Option (Gen × Text) := do
  let (g, id) ← g.pickLive
  let (rng, side) ← g.rng.randSide
  let (rng, price) ← rng.quote side
  let (rng, q) ← rng.below 100
  let g := { g with rng }.emit (.replace id price (q + 1))
  return (g, g.out)

/-! ## The workloads -/

/-- Market orders, and limits that reach through the middle. -/
def w2 (g : Gen) : Option (Gen × Text) := do
  let id := g.nextId
  let g := { g with nextId := g.nextId + 1 }
  let (rng, side) ← g.rng.randSide
  let (rng, q) ← rng.below 50
  let (rng, r) ← rng.below 10
  if r < 3 then
    let g := { g with rng }.emit (.market id side (q + 1))
    return (g, g.out)
  else
    let (rng, x) ← rng.range 1 200
    let g := { g with rng }.emit (.new id side .limit (through side x) (q + 1) .ioc)
    return (g, g.out)

/-- Mostly cancels and replaces. -/
def w3 (g : Gen) : Option (Gen × Text) := do
  let (rng, r) ← g.rng.below 100
  let g := { g with rng }
  if r < 40 ∧ g.live ≠ [] then g.kill
  else if r < 80 ∧ g.live ≠ [] then g.churn
  else g.build

/-- The immediate-or-cancel orders of the mix. -/
def take (g : Gen) : Option (Gen × Text) := do
  let id := g.nextId
  let g := { g with nextId := g.nextId + 1 }
  let (rng, side) ← g.rng.randSide
  let (rng, q) ← rng.below 50
  let (rng, x) ← rng.range 1 100
  let g := { g with rng }.emit (.new id side .limit (through side x) (q + 1) .ioc)
  return (g, g.out)

/-- The mix of an exchange. -/
def w4 (g : Gen) : Option (Gen × Text) := do
  let (rng, r) ← g.rng.below 100
  let g := { g with rng }
  if r < 82 ∧ g.live ≠ [] then g.churn
  else if r < 88 ∧ g.live ≠ [] then g.kill
  else if r < 91 then g.take
  else g.build

/-- One round of the run phase. -/
def round (workload : Text) (g : Gen) : Option (Gen × Text) :=
  if workload = "w1".toList then g.build
  else if workload = "w2".toList then g.w2
  else if workload = "w3".toList then g.w3
  else if workload = "w4".toList ∨ workload = "w5".toList then g.w4
  else none

end Gen

/-! ## The files -/

def header (workload : Text) (seed : UInt64) (maxOrders : UInt64) : Text :=
  "\x7b\"format\":\"matcher-vector/1\",\"name\":\"".toList ++ workload ++
    "\",\"pmin\":".toList ++ Price.text PMIN ++ ",\"pmax\":".toList ++ Price.text PMAX ++
    ",\"max_orders\":".toList ++ digits maxOrders.toNat ++
    ",\"index\":\"ladder\",\"workload\":\"".toList ++ workload ++
    "\",\"seed\":".toList ++ digits seed.toNat ++ "\x7d\n".toList

/-- What the command line says; the prefix of the file names is left out. -/
structure Args where
  workload : Text := "w1".toList
  seed : UInt64 := 42
  n : UInt64 := 1000000
  setupN : UInt64 := 0
deriving DecidableEq, Repr, Inhabited

/-- The number of orders to begin with, the workload's own when none is given. -/
def Args.setup (a : Args) : UInt64 :=
  if a.setupN = 0 then
    if a.workload = "w1".toList then 0
    else if a.workload = "w2".toList then 200000
    else 100000
  else a.setupN

def Args.maxOrders (a : Args) : UInt64 := a.setup + a.n + 16

/-- `isize::MAX`, the most bytes that can be reserved. -/
def maxBytes : Nat := 2 ^ 63 - 1

/-- `with_capacity` for `n` values of `size` bytes: a panic when they are too many. -/
def withCapacity (size : Nat) (n : UInt64) : Option Unit :=
  if size * n.toNat > maxBytes then none else some ()

/-- `for _ in 0..n`, each round's text pushed behind the last one's. -/
def rounds (step : Gen → Option (Gen × Text)) (n : UInt64) (g : Gen) : Option (Gen × Text) :=
  runAll (fun g _ => step g) g (List.range n.toNat)

/-- What is left of the generator after each phase, and the texts of the two. -/
structure Corpus where
  atSetup : Gen
  setup : Text
  atEnd : Gen
  run : Text
deriving DecidableEq, Repr, Inhabited

/-- The two phases, once there is room for the live ids and for both texts. A product that
is too large wraps, as it does in a release build. -/
def generate (a : Args) : Option Corpus := do
  withCapacity 8 (a.setup + a.n / 4 + 16)
  withCapacity 1 (a.setup * 80)
  withCapacity 1 (a.n * 80)
  let (g, setup) ← rounds Gen.build a.setup { rng := ⟨a.seed ||| 1⟩ }
  let (g', run) ← rounds (Gen.round a.workload) a.n g
  return ⟨g, setup, g', run⟩

/-- The files `<out>.setup.cmd.jsonl` and `<out>.run.cmd.jsonl`. -/
def vectorgen (a : Args) : Option (Text × Text) := do
  let c ← generate a
  let head := header a.workload a.seed a.maxOrders
  return (head ++ c.setup, head ++ c.run)

end Vectorgen

end Matcher
