import Matcher.Book
import Matcher.Spec.Book

/-!
# What the queries of a book should answer

The queries of the naive book, in the program's result types, and `Shows`: every
query on a program's book answers as on the specification's lists.
-/

namespace Matcher

namespace Spec

/-- A resting order of side `s` as `resting_orders` reports it. -/
def Order.resting (s : Side) (o : Order) : RestingOrder := ⟨o.orderId, s, o.price, o.qty, o.tif⟩

namespace Book

def best (R : Book) (s : Side) : Option Price := (R.side s).head?.map Order.price

/-- The prices with orders, each once. -/
def prices (R : Book) (s : Side) : List Price := ((R.side s).map Order.price).dedup

/-- The resting quantity at a price, modulo 2^64. -/
def total (R : Book) (s : Side) (p : Price) : Qty :=
  (((R.side s).filter fun o => o.price = p).map Order.qty).sum

def depth (R : Book) (s : Side) (n : Nat) : List LevelDepth :=
  ((R.prices s).take n).map fun p => ⟨p, R.total s p⟩

def info (R : Book) (id : OrderId) : Option OrderInfo :=
  (R.find id).map fun so => ⟨so.2.orderId, so.1, so.2.price, so.2.qty⟩

def restingSide (R : Book) (s : Side) : List RestingOrder := (R.side s).map (Order.resting s)

def resting (R : Book) : List RestingOrder := R.restingSide .bid ++ R.restingSide .ask

theorem mem_resting {R : Book} {o : RestingOrder} :
    o ∈ R.resting ↔ ∃ s, ∃ x ∈ R.side s, x.resting s = o := by
  rw [resting, List.mem_append, restingSide, restingSide, List.mem_map, List.mem_map]
  constructor
  · rintro (h | h)
    · exact ⟨.bid, h⟩
    · exact ⟨.ask, h⟩
  · rintro ⟨_ | _, h⟩
    · exact Or.inl h
    · exact Or.inr h

theorem length_resting (R : Book) : R.resting.length = R.live := by
  rw [resting, List.length_append, restingSide, restingSide, List.length_map, List.length_map]
  rfl

/-- The first orders of a book's list are the first ones of its bids and of its asks. -/
theorem resting_take (R : Book) (n : Nat) :
    R.resting.take n = resting ⟨R.bids.take n, R.asks.take (n - R.bids.length)⟩ := by
  rw [resting, List.take_append, restingSide, restingSide, ← List.map_take, ← List.map_take,
    List.length_map]
  rfl

end Book

end Spec

namespace OrderBook

/-- Every query on `b` answers as on the lists `R`. -/
structure Shows (b : OrderBook) (R : Spec.Book) : Prop where
  bestBid : b.bestBid = R.best .bid
  bestAsk : b.bestAsk = R.best .ask
  orderCount : b.orderCount = R.live
  levelCount : ∀ s, b.levelCount s = (R.prices s).length
  levelTotal : ∀ s p, b.levelTotal s p = R.total s p
  depth : ∀ s n, b.depth s n = some (R.depth s n)
  order : ∀ id, b.order id = some (R.info id)
  restingSide : ∀ s, b.restingSide s = some (R.restingSide s)
  restingOrders : b.restingOrders = some R.resting

/-- No query tells the two books apart. -/
structure Agree (b b' : OrderBook) : Prop where
  bestBid : b.bestBid = b'.bestBid
  bestAsk : b.bestAsk = b'.bestAsk
  orderCount : b.orderCount = b'.orderCount
  levelCount : ∀ s, b.levelCount s = b'.levelCount s
  levelTotal : ∀ s p, b.levelTotal s p = b'.levelTotal s p
  depth : ∀ s n, b.depth s n = b'.depth s n
  order : ∀ id, b.order id = b'.order id
  restingOrders : b.restingOrders = b'.restingOrders

theorem Shows.agree {b b' : OrderBook} {R : Spec.Book} (h : b.Shows R) (h' : b'.Shows R) :
    b.Agree b' where
  bestBid := h.bestBid.trans h'.bestBid.symm
  bestAsk := h.bestAsk.trans h'.bestAsk.symm
  orderCount := h.orderCount.trans h'.orderCount.symm
  levelCount s := (h.levelCount s).trans (h'.levelCount s).symm
  levelTotal s p := (h.levelTotal s p).trans (h'.levelTotal s p).symm
  depth s n := (h.depth s n).trans (h'.depth s n).symm
  order id := (h.order id).trans (h'.order id).symm
  restingOrders := h.restingOrders.trans h'.restingOrders.symm

end OrderBook

end Matcher
