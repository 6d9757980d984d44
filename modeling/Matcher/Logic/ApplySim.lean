import Matcher.Logic.RestSim

/-!
# Every command does what the specification says

`Rep.apply`: on a book that represents a content, `apply` returns, the new book
represents what `Spec.step` makes of that content, and the events are those of
the specification, numbered on from the book's sequence number. The one point
where the program is not `Spec.offered` is the sum a fill-or-kill order is
checked against; `summed` is what the program adds up.
-/

namespace Matcher

open Kit

namespace Spec

/-- The sum `fillable` computes: in 64 bits, and in tree mode between half the
smallest and half the largest price. -/
def summed (cfg : BookConfig) (s : Side) (price : Price) (opp : List Order) : Nat :=
  let inRange := fun p : Price => match s with
    | .bid => decide (OrderBook.fillLo cfg ≤ p ∧ p ≤ price)
    | .ask => decide (price ≤ p ∧ p ≤ OrderBook.fillHi cfg)
  ((opp.filter fun o => inRange o.price).map Order.qty).sum.toNat

/-- What an admitted command has passed. -/
theorem checkNew_eq_none {cfg : BookConfig} {available : Side → Price → List Order → Nat} {R : Book}
    {c : Command} (h : checkNew cfg available R c = none) :
    c.qty ≠ 0 ∧ (c.otype = .limit → validPrice cfg c.price = true) ∧ R.find c.orderId = none ∧
      R.live < cfg.maxOrders.toNat ∧
      (c.otype = .limit → c.tif = .postOnly →
        crosses c.side c.price (R.side (opposite c.side)) = false) := by
  unfold checkNew at h
  split at h
  · cases h
  next hqty =>
  split at h
  · cases h
  next hprice =>
  split at h
  · cases h
  next hdup =>
  split at h
  · cases h
  next hfull =>
  split at h
  · cases h
  next hpost =>
  refine ⟨hqty, fun hl => ?_, by simpa using hdup, Nat.lt_of_not_le hfull, fun hl ht => ?_⟩
  · simpa [hl] using hprice
  · simpa [hl, ht] using hpost

end Spec

/-- Numbered events, without their numbers. -/
theorem Emission.events_of_numbered {n : UInt64} {evs : List Event} {out : List Emission}
    (h : out.map Emission.record = Spec.numbered n evs) : out.map Emission.ev = evs := by
  have hevents := congrArg (List.map Prod.snd) h
  rw [List.map_map, Spec.numbered_snd] at hevents
  exact hevents

namespace OrderBook

/-! ## What a command reads -/

section Checks

variable {b : OrderBook} {C : Content}

/-- A location in the map is a queued order, and the specification finds it. -/
theorem Rep.find_some (h : Rep none none b C) {id : OrderId} {loc : Nat}
    (hloc : C.locs.lookup id = some loc) :
    ∃ s p x, x ∈ C.queue (s, p) ∧ x.id = id ∧ x.loc = loc ∧
      C.spec.find id = some (s, x.order p) := by
  obtain ⟨⟨s, p⟩, x, hx, rfl, rfl⟩ := (h.ids.found id loc (by simp)).mp hloc
  have hmem : x.order p ∈ C.orders s := Content.mem_orders.mpr ⟨p, h.listed_of_mem hx, x, hx, rfl⟩
  refine ⟨s, p, x, hx, rfl, rfl, Spec.find_of_mem (R := C.spec) (o := x.order p) ?_ ?_ ?_⟩
  · rwa [Content.spec_side]
  · rw [Content.spec_side]
    exact h.nodup_orders s
  · rintro rfl o' ho'
    exact h.disjoint_orders ho' hmem

/-- An id the map does not hold is not in the book. -/
theorem Rep.find_none (h : Rep none none b C) {id : OrderId} (hloc : C.locs.lookup id = none) :
    C.spec.find id = none := by
  refine Spec.find_eq_none.mpr fun s o ho heq => ?_
  rw [Content.spec_side] at ho
  obtain ⟨p, _, x, hx, rfl⟩ := Content.mem_orders.mp ho
  have hlook := h.ids.lookup hx
  rw [show x.id = id from heq, hloc] at hlook
  cases hlook

theorem Rep.find_isSome (h : Rep none none b C) (id : OrderId) :
    (C.spec.find id).isSome = (C.locs.lookup id).isSome := by
  cases hloc : C.locs.lookup id with
  | none =>
    rw [h.find_none hloc]
    rfl
  | some loc =>
    obtain ⟨s, p, x, _, _, _, hfind⟩ := h.find_some hloc
    rw [hfind]
    rfl

theorem Rep.unfound (h : Rep none none b C) {id : OrderId} (hid : C.spec.find id = none) :
    C.locs.lookup id = none := by
  rw [← Option.not_isSome_iff_eq_none, ← h.find_isSome, hid]
  exact Bool.false_ne_true

theorem validPrice_iff {cfg : BookConfig} {p : Price} : Spec.validPrice cfg p = true ↔
    cfg.Valid p := by
  unfold Spec.validPrice BookConfig.Valid
  cases cfg.index <;> simp

theorem priceOk_eq (b : OrderBook) (p : Price) : b.priceOk p = Spec.validPrice b.cfg p := by
  unfold priceOk Spec.validPrice
  cases b.cfg.index
  · rw [if_neg (by simp)]
  · rw [if_pos rfl]

/-- No valid price is below the range that `fillable` sums over, -/
theorem fillLo_le {cfg : BookConfig} {p : Price} (h : cfg.Valid p) : fillLo cfg ≤ p := by
  unfold BookConfig.Valid at h
  unfold fillLo
  cases hk : cfg.index with
  | ladder =>
    rw [hk] at h
    exact h.1
  | tree =>
    rw [hk] at h
    rw [if_pos rfl]
    exact Int64.le_trans (by decide) (Int64.le_of_lt h)

/-- and above it are prices of a tree only. -/
theorem le_fillHi {cfg : BookConfig} {p : Price} (h : cfg.Valid p)
    (htree : cfg.index = .tree → p ≤ Int64.maxValue / 2) : p ≤ fillHi cfg := by
  unfold BookConfig.Valid at h
  unfold fillHi
  cases hk : cfg.index with
  | ladder =>
    rw [hk] at h
    exact h.2
  | tree => exact htree hk

/-- The best order has the best price. -/
theorem Rep.head_orders (h : Rep none none b C) (s : Side) :
    (C.orders s).head?.map Spec.Order.price = (C.prices s).head? := by
  rcases hp : C.prices s with _ | ⟨p, ps⟩
  · rw [Content.orders, hp]
    rfl
  · obtain ⟨x, xs, hq⟩ : ∃ x xs, C.queue (s, p) = x :: xs :=
      List.exists_cons_of_ne_nil ((h.listed (s, p) (by simp)).mp (by simp [hp]))
    rw [Content.orders_cons hp, hq]
    rfl

theorem Rep.bestPrice (h : Rep none none b C) (hn : b.cfg.Narrow) (s : Side) :
    (b.ownIndex s).bestPrice = (C.orders s).head?.map Spec.Order.price := by
  rw [h.head_orders, (h.index s).bestPrice hn]

theorem Rep.wouldCross_eq (h : Rep none none b C) (hn : b.cfg.Narrow) (s : Side) (p : Price) :
    b.wouldCross s p = Spec.crosses s p (C.orders (opposite s)) := by
  cases s with
  | bid =>
    have hbest : b.asks.bestPrice = _ := h.bestPrice hn .ask
    rw [wouldCross, hbest, Spec.crosses, opposite]
    cases (C.orders .ask).head? <;> rfl
  | ask =>
    have hbest : b.bids.bestPrice = _ := h.bestPrice hn .bid
    rw [wouldCross, hbest, Spec.crosses, opposite]
    cases (C.orders .bid).head? <;> rfl

/-- The totals of some levels add up the quantities of their orders. -/
theorem Rep.sum_totals (h : Rep none none b C) (s : Side) (f : Price → Bool) :
    (((C.prices s).filter f).map fun p => (C.level (s, p)).total).sum =
      (((C.orders s).filter fun o => f o.price).map Spec.Order.qty).sum := by
  unfold Content.orders
  induction C.prices s with
  | nil => rfl
  | cons p ps ih =>
    rw [List.flatMap_cons, List.filter_append, List.map_append, List.sum_append, ← ih]
    have hall : ∀ o ∈ (C.queue (s, p)).map (Cell.order p), f o.price = f p := by
      intro o ho
      obtain ⟨x, _, rfl⟩ := List.mem_map.mp ho
      rfl
    cases hf : f p with
    | true =>
      rw [List.filter_cons_of_pos hf, List.map_cons, List.sum_cons, h.store.total (s, p),
        List.filter_eq_self.mpr fun o ho => (hall o ho).trans hf, List.map_map]
      rfl
    | false =>
      have hnone : ((C.queue (s, p)).map (Cell.order p)).filter (fun o => f o.price) = [] :=
        List.filter_eq_nil_iff.mpr fun o ho => by simp [hall o ho, hf]
      rw [List.filter_cons_of_neg (by simp [hf]), hnone]
      simp

theorem Rep.fillable_eq (h : Rep none none b C) (hn : b.cfg.Short) {s : Side} {price : Price}
    (hprice : b.cfg.Valid price) :
    ∃ q, b.fillable s price = some q ∧
      q.toNat = Spec.summed b.cfg s price (C.orders (opposite s)) := by
  have hladder : b.cfg.index = .ladder →
      b.cfg.Valid (fillLo b.cfg) ∧ b.cfg.Valid (fillHi b.cfg) := by
    intro hk
    have hp := (PriceIndex.valid_ladder hk price).mp hprice
    rw [PriceIndex.valid_ladder hk, PriceIndex.valid_ladder hk, fillLo, fillHi, hk]
    exact ⟨⟨Int64.le_refl _, Int64.le_trans hp.1 hp.2⟩, ⟨Int64.le_trans hp.1 hp.2, Int64.le_refl _⟩⟩
  cases s with
  | bid =>
    have hsum := (h.index .ask).sumRange hn (fillLo b.cfg) price fun hk => ⟨(hladder hk).1, hprice⟩
    rw [h.sum_totals .ask] at hsum
    exact ⟨_, hsum, rfl⟩
  | ask =>
    have hsum := (h.index .bid).sumRange hn price (fillHi b.cfg) fun hk => ⟨hprice, (hladder hk).2⟩
    rw [h.sum_totals .bid] at hsum
    exact ⟨_, hsum, rfl⟩

theorem Rep.spec_live (h : Rep none none b C) : C.spec.live = b.store.live := h.live_eq.symm

/-- The checks on a new order are the specification's. -/
theorem Rep.checkNew_eq (h : Rep none none b C) (hn : b.cfg.Narrow) (c : Command) :
    b.checkNew c = some (Spec.checkNew b.cfg (Spec.summed b.cfg) C.spec c) := by
  have hcontains := h.ids.models.contains_eq h.ids.room c.orderId
  rw [← h.find_isSome] at hcontains
  have hcross := h.wouldCross_eq hn c.side c.price
  unfold checkNew Spec.checkNew
  by_cases hqty : c.qty = 0
  · rw [if_pos hqty, if_pos hqty]
    rfl
  by_cases hprice : c.otype = .limit ∧ Spec.validPrice b.cfg c.price = false
  · simp [hqty, hprice, priceOk_eq]
  have hprice' : (decide (c.otype = .limit) && !Spec.validPrice b.cfg c.price) = false := by
    simpa using hprice
  simp only [if_neg hqty, priceOk_eq, hprice', if_neg hprice, hcontains, Option.bind_eq_bind,
    Option.bind_some, Bool.false_eq_true, if_false]
  by_cases hdup : (C.spec.find c.orderId).isSome = true
  · rw [if_pos hdup, if_pos hdup]
    rfl
  rw [if_neg hdup, if_neg hdup, h.spec_live]
  by_cases hfull : b.cfg.maxOrders.toNat ≤ b.store.live
  · rw [if_pos hfull, if_pos hfull]
    rfl
  rw [if_neg hfull, if_neg hfull, hcross, Content.spec_side]
  by_cases hlimit : c.otype = .limit
  · obtain ⟨q, hq, hsum⟩ :=
      h.fillable_eq hn.short (s := c.side) (validPrice_iff.mp (by simpa [hlimit] using hprice))
    have hlt : q < c.qty ↔
        Spec.summed b.cfg c.side c.price (C.orders (opposite c.side)) < c.qty.toNat := by
      rw [UInt64.lt_iff_toNat_lt, hsum]
    simp only [hlimit, if_true, true_and, hq, Option.bind_some, hlt, Bool.and_eq_true,
      decide_eq_true_eq]
    split
    · rfl
    · split
      · next hfok =>
        simp only [hfok, true_and]
        split <;> rfl
      · next hfok =>
        simp only [hfok, false_and, if_false]
        rfl
  · simp only [hlimit, if_false, false_and]
    rfl

end Checks

/-! ## Commands -/

/-- The limit a command matches within. -/
def takerLimit (c : Command) : Option Price :=
  if c.kind = .new ∧ c.otype = .market then none else some c.price

/-- A trade `c` makes on the book of content `C`: see `TradeAt`. -/
def TradeFor (C : Content) (c : Command) (e : Emission) : Prop :=
  ∃ hold own mine, List.Sublist mine (C.orders own) ∧
    TradeAt hold own (takerLimit c) c.orderId mine (C.orders (opposite own)) e

/-- From `b` to `b'` the sink got `out`, that is the events `evs`. -/
structure Emitted (trade : Emission → Prop) (b b' : OrderBook) (out : List Emission)
    (evs : List Event) :
    Prop where
  cfg : b'.cfg = b.cfg
  seq : b'.seq = b.seq + UInt64.ofNat evs.length
  record : out.map Emission.record = Spec.numbered b.seq evs
  trades : ∀ e ∈ out, trade e

/-- The events alone. -/
theorem Emitted.events {trade : Emission → Prop} {b b' : OrderBook} {out : List Emission}
    {evs : List Event} (h : Emitted trade b b' out evs) : out.map Emission.ev = evs :=
  Emission.events_of_numbered h.record

/-- One command is done: `r` is what the specification makes of it. -/
structure Done (b : OrderBook) (trade : Emission → Prop) (r : Spec.Book × List Event)
    (b' : OrderBook) (C' : Content) (out : List Emission) :
    Prop extends Emitted trade b b' out r.2 where
  rep : Rep none none b' C'
  spec : C'.spec = r.1

section Commands

variable {b : OrderBook} {C : Content} {trade : Emission → Prop}

theorem Swept.emitted {own : Side} {b' : OrderBook} {C' : Content} {out : List Emission}
    {evs : List Event} (h : Swept own trade b C b' C' out evs) : Emitted trade b b' out evs :=
  ⟨h.cfg, h.seq, h.record, h.trades⟩

/-- The last event of a command. -/
theorem Done.emit {b1 b2 : OrderBook} {C2 : Content} {out : List Emission}
    {evs : List Event} {R : Spec.Book} (hemitted : Emitted trade b b1 out evs)
    (hrep : Rep none none b2 C2) (hcfg : b2.cfg = b1.cfg) (hseq : b2.seq = b1.seq)
    (hspec : C2.spec = R) {ev : Event} (hev : ∀ n b', trade ⟨n, ev, b'⟩) :
    Done b trade (R, evs ++ [ev]) (b2.emit ev).1 C2 (out ++ (b2.emit ev).2) := by
  refine { rep := hrep.set_seq _, cfg := hcfg.trans hemitted.cfg, seq := ?_, record := ?_,
           spec := hspec, trades := fun e he => ?_ }
  · show b2.seq + 1 = _
    rw [hseq, hemitted.seq, List.length_append, List.length_singleton, UInt64.ofNat_add]
    grind
  · rw [List.map_append, hemitted.record, Spec.numbered_append, ← hemitted.seq, ← hseq]
    rfl
  · rcases List.mem_append.mp he with he | he
    · exact hemitted.trades e he
    · rw [List.mem_singleton.mp he]
      exact hev _ _

/-- A command that emits one event. -/
theorem Done.only {b1 : OrderBook} {C1 : Content} {R : Spec.Book} (hrep : Rep none none b1 C1)
    (hcfg : b1.cfg = b.cfg) (hseq : b1.seq = b.seq) (hspec : C1.spec = R) {ev : Event}
    (hev : ∀ n b', trade ⟨n, ev, b'⟩) :
    Done b trade (R, [ev]) (b1.emit ev).1 C1 (b1.emit ev).2 :=
  Done.emit (Swept.refl : Swept .bid trade b C1 b C1 [] []).emitted hrep hcfg hseq hspec hev

/-- Only trades are trades. -/
theorem tradeFor_of_not {C : Content} {c : Command} {ev : Event}
    (hev : ∀ m t p q, ev ≠ .trade m t p q) (n : UInt64) (b' : OrderBook) :
    TradeFor C c ⟨n, ev, b'⟩ :=
  ⟨none, .bid, C.orders .bid, List.Sublist.refl _, fun m t p q heq => absurd heq (hev m t p q)⟩

/-- The specification's book after a sweep. -/
theorem Swept.spec_eq {own : Side} {b' : OrderBook} {C' : Content} {out : List Emission}
    {evs : List Event} (h : Swept own trade b C b' C' out evs) :
    C'.spec = C.spec.set (opposite own) (C'.orders (opposite own)) := by
  have hmine := h.mine
  cases own
  · simp only [Content.spec, hmine]
    rfl
  · simp only [Content.spec, hmine]
    rfl

theorem Rep.newOrder (h : Rep none none b C) (hn : b.cfg.Narrow) {c : Command}
    (hkind : c.kind = .new) :
    ∃ b' C' out, b.newOrder c = some (b', out) ∧
      Done b (TradeFor C c) (Spec.newOrder b.cfg (Spec.summed b.cfg) C.spec c) b' C' out := by
  have hcheck := h.checkNew_eq hn c
  cases hr : Spec.checkNew b.cfg (Spec.summed b.cfg) C.spec c with
  | some r =>
    rw [hr] at hcheck
    rw [Spec.newOrder, hr]
    refine ⟨_, C, _, ?_, Done.only h rfl rfl rfl (tradeFor_of_not (by simp))⟩
    simp only [OrderBook.newOrder, hcheck, Option.bind_eq_bind, Option.bind_some]
    rfl
  | none =>
    rw [hr] at hcheck
    obtain ⟨hqty, hprice, hnew, hroom, _⟩ := Spec.checkNew_eq_none hr
    have hlimit : (if c.otype = .limit then some c.price else none) = takerLimit c := by
      rw [takerLimit]
      cases ho : c.otype <;> simp [hkind]
    -- accepted by the checks, so the sweep comes first
    obtain ⟨b1, C1, left, out, evs, hrun, hrep, hswept, hfill⟩ := cross_spec c.side
      (takerLimit c) c.orderId h hn hqty
    have hswept' : Swept c.side (TradeFor C c) b C b1 C1 out evs :=
      { hswept with trades := fun e he =>
        ⟨none, c.side, _, List.Sublist.refl _, hswept.trades e he⟩ }
    have hspec := hswept.spec_eq
    have hstep : Spec.newOrder b.cfg (Spec.summed b.cfg) C.spec c =
        if left = 0 then (C1.spec, evs ++ [.closed c.orderId .filled])
        else if c.otype = .limit ∧ (c.tif = .gtc ∨ c.tif = .postOnly) then
          (C1.spec.set c.side (Spec.insertBack c.side ⟨c.orderId, c.price, left,
            c.tif⟩ (C1.spec.side c.side)), evs ++ [.accepted c.orderId left])
        else (C1.spec, evs ++ [.closed c.orderId .expired]) := by
      simp only [Spec.newOrder, hr, hlimit, Content.spec_side, hfill, ← hspec]
    rw [hstep]
    by_cases hleft : left = 0
    · rw [if_pos hleft]
      refine ⟨_, C1, _, ?_, Done.emit hswept'.emitted hrep rfl rfl rfl (tradeFor_of_not (by simp))⟩
      simp only [OrderBook.newOrder, hcheck, hlimit, hrun, hleft, Option.bind_eq_bind,
        Option.bind_some, if_true]
      rfl
    rw [if_neg hleft]
    -- what is left rests or expires
    by_cases hrest : c.otype = .limit ∧ (c.tif = .gtc ∨ c.tif = .postOnly)
    · rw [if_pos hrest]
      have hvalid : b1.cfg.Valid c.price := hswept.cfg ▸ validPrice_iff.mp (hprice hrest.1)
      have hfree : C1.locs.lookup c.orderId = none := hswept.fresh _ (h.unfound hnew)
      -- the sweep only frees slots, so the room found by the checks is still there
      obtain ⟨n, hlive, _⟩ := hswept.removed
      rw [h.spec_live] at hroom
      obtain ⟨b2, C2, hrun2, hrep2, hseq2, hcfg2, hspec2⟩ := hrep.rest c.side hvalid
        (hrep.room (hswept.cfg ▸ hn.short) hvalid) hfree
        (by rw [hswept.cfg]; omega) hleft c.tif
      refine ⟨_, C2, _, ?_, Done.emit hswept'.emitted hrep2 hcfg2 hseq2 hspec2
        (tradeFor_of_not (by simp))⟩
      simp only [OrderBook.newOrder, hcheck, hlimit, hrun, hleft, if_false, if_pos hrest, hrun2,
        Option.bind_eq_bind, Option.bind_some]
      rfl
    · rw [if_neg hrest]
      refine ⟨_, C1, _, ?_, Done.emit hswept'.emitted hrep rfl rfl rfl (tradeFor_of_not (by simp))⟩
      simp only [OrderBook.newOrder, hcheck, hlimit, hrun, hleft, if_false, if_neg hrest,
        Option.bind_eq_bind, Option.bind_some]
      rfl

theorem Rep.cancel (h : Rep none none b C) (c : Command) :
    ∃ b' C' out, b.cancel c.orderId = some (b', out) ∧
      Done b (TradeFor C c) (Spec.cancel C.spec c.orderId) b' C' out := by
  cases hloc : C.locs.lookup c.orderId with
  | none =>
    have hget := h.ids.models.get_none h.ids.room hloc
    rw [Spec.cancel, h.find_none hloc]
    refine ⟨_, C, _, ?_, Done.only h rfl rfl rfl (tradeFor_of_not (by simp))⟩
    simp only [OrderBook.cancel, hget, Option.bind_eq_bind, Option.bind_some]
    rfl
  | some loc =>
    obtain ⟨ploc, hget, hval, _⟩ := h.ids.models.get_some hloc
    obtain ⟨s, p, x, hx, hid, rfl, hfind⟩ := h.find_some hloc
    obtain ⟨ch, hch, hside, hprice, _⟩ := (h.store.reads hx).read
    obtain ⟨b1, C1, hrun, hrep, hmap, hseq, hcfg, hlocs, _, hspec⟩ := h.unlinkOrder hx
    rw [hid] at hrep hspec
    -- out of its level first, then out of the id map
    obtain ⟨map', hremove, hids⟩ := hrep.ids.release
    have hrep' : Rep none none { b1 with map := map' } { C1
        with locs := C1.locs.erase c.orderId } :=
      { hrep with ids := hids }
    rw [Spec.cancel, hfind]
    refine ⟨_, _, _, ?_, Done.only hrep' hcfg hseq hspec (tradeFor_of_not (by simp))⟩
    simp only [OrderBook.cancel, hget, hval, hch, show ch.side = s from hside, show ch.price =
      p from hprice, hrun, hremove, Option.bind_eq_bind, Option.bind_some]
    rfl

/-- The replace that keeps its place. -/
theorem Rep.replaceInPlace (h : Rep none none b C) (trade : Emission → Prop) {s : Side} {p : Price}
    {x : Cell} (hx : x ∈ C.queue (s, p)) {qty : Qty} (hqty : qty ≠ 0)
    (hev : ∀ n b', trade ⟨n, .replaced x.id p qty, b'⟩) :
    ∃ b' C' out, b.replaceInPlace x.id s p x.loc x.qty qty = some (b', out) ∧
      Done b trade
        (C.spec.set s ((C.spec.side s).map fun o => if o.orderId = x.id then { o with qty } else o),
          [.replaced x.id p qty]) b' C' out := by
  have hmem : p ∈ C.prices s := h.listed_of_mem hx
  obtain ⟨l, r, hsplit⟩ := List.append_of_mem hx
  have hlevel := (h.index s).levelMut p
  rw [if_neg (by rw [(h.store.level_empty (s, p)).1, hsplit]; simp)] at hlevel
  -- the total moves by what the quantity does
  obtain ⟨b1, hwrite, hframe, hindex⟩ := h.index.write hmem
    { C.level (s, p) with total := (C.level (s, p)).total - (x.qty - qty) }
  obtain ⟨st, hset, hlive, hstore⟩ := h.store.setQty hsplit hqty
    (t := (C.level (s, p)).total - (x.qty - qty)) (by grind)
  have hrep := h.requeue (s, p) (l ++ { x with qty } :: r) C.locs none { b1 with store := st }
    (Or.inl rfl) hmem hframe.cfg hindex hstore (by
      rw [show st.live = b.store.live from hlive,
        show ({ b1 with store := st } : OrderBook).map = b.map from hframe.map]
      exact h.ids.requantify hsplit qty)
  rw [if_neg (by simp)] at hrep
  refine ⟨_, _, _, ?_, Done.only hrep hframe.cfg hframe.seq ?_ hev⟩
  · simp only [OrderBook.replaceInPlace, hlevel, hwrite, hframe.store, hset, Option.bind_eq_bind,
      Option.bind_some]
    rfl
  -- the same lists, with the quantity of `x` changed where it stands
  have horders : ∀ C' : Content, C'.prices = C.prices →
      C'.queue = Function.update C.queue (s, p) (l ++ { x with qty } :: r) →
      C'.orders s = (C.orders s).map (fun o => if o.orderId = x.id then { o with qty } else o) ∧
        ∀ s', s' ≠ s → C'.orders s' = C.orders s' := by
    intro C' hprices hqueue
    constructor
    · rw [Content.orders, hprices, Content.orders, List.map_flatMap]
      refine List.flatMap_congr fun q hq => ?_
      rw [List.map_map]
      by_cases hqp : q = p
      · have hne := h.id_ne_of_split hsplit
        have hkeep : ∀ ys : List Cell, (∀ y ∈ ys, y ∈ l ++ r) → ys.map (Cell.order p) =
            ys.map ((fun o => if o.orderId = x.id then { o with qty } else o) ∘ Cell.order p) := by
          intro ys hys
          refine List.map_congr_left fun y hy => ?_
          exact (if_neg (hne y (hys y hy))).symm
        rw [hqp, hqueue, Function.update_self, hsplit, List.map_append, List.map_append,
          List.map_cons, List.map_cons, hkeep l fun y hy => List.mem_append_left _ hy,
          hkeep r fun y hy => List.mem_append_right _ hy]
        simp [Cell.order]
      · rw [hqueue, Function.update_of_ne fun heq => hqp (Prod.mk.inj heq).2]
        refine List.map_congr_left fun y hy => ?_
        exact (if_neg (h.id_ne_of_price hx hqp y hy)).symm
    · intro s' hs
      refine Content.orders_congr (by rw [hprices]) fun q _ => ?_
      rw [hqueue, Function.update_of_ne fun heq => hs (Prod.mk.inj heq).1]
  obtain ⟨hself, hother⟩ := horders { C with
    queue := Function.update C.queue (s, p) (l ++ { x with qty } :: r)
    level := Function.update C.level (s, p) { C.level (s, p) with
      total := (C.level (s, p)).total - (x.qty - qty) } } rfl rfl
  cases s
  · rw [Content.spec, hself, hother .ask (by simp)]
    rfl
  · rw [Content.spec, hself, hother .bid (by simp)]
    rfl

/-- The map after the replaced order came to rest again: one way or the other it
now holds the new location. -/
theorem Rep.relocate {b1 b2 : OrderBook} {C1 C2 : Content} {own : Side} {out : List Emission}
    {evs : List Event} {id : OrderId} (hrep : Rep (some id) none b2 C2)
    (hswept : Swept own trade b1 C1 b2 C2 out evs) (hlive : b1.store.live < 2 ^ 64) {ploc loc : Nat}
    (hview : b1.map.view ploc = some (id, loc)) (nloc : Nat) :
    ∃ map,
      (if b2.map.removes = b1.map.removes then b2.map.writeVal ploc nloc
        else b2.map.insert id nloc) = some map ∧
      map.Models (C2.locs.insert id nloc) ∧ map.tags.size = b2.map.tags.size := by
  obtain ⟨n, hn, hremoves, hsame⟩ := hswept.removed
  split
  · next heq =>
    -- fewer than 2^64 removals, so none, and no entry moved
    have hzero : n = 0 := by
      rw [heq] at hremoves
      omega
    rw [← (hsame hzero).1] at hview
    obtain ⟨map, hrun, hmodels, htags, _⟩ := hrep.ids.models.writeVal hview nloc
    exact ⟨map, hrun, hmodels, by rw [htags]⟩
  · obtain ⟨map, hrun, hmodels, htags, _⟩ := hrep.ids.models.insert hrep.ids.room id nloc
    exact ⟨map, hrun, hmodels, htags⟩

/-- The replace that matches again and queues up at the back. -/
theorem Rep.replaceCross (h : Rep none none b C) (hn : b.cfg.Narrow) {s : Side} {p : Price}
    {x : Cell} (hx : x ∈ C.queue (s, p)) {c : Command} (hid : x.id = c.orderId)
    (hkind : c.kind = .replace) (hqty : c.qty ≠ 0) (hvalid : b.cfg.Valid c.price) {ploc : Nat}
    (hview : b.map.view ploc = some (c.orderId, x.loc)) :
    ∃ b' C' out, b.replaceCross c.orderId s p c.price c.qty x.tif ploc x.loc = some (b', out) ∧
      Done b (TradeFor C c) (
        let R := C.spec.remove s c.orderId
        let (opp, left, evs) := Spec.fill s (some c.price) c.orderId (R.side (opposite s)) c.qty
        let R := R.set (opposite s) opp
        if left = 0 then (R, evs ++ [.closed c.orderId .filled])
        else (R.set s (Spec.insertBack s ⟨c.orderId, c.price, left, x.tif⟩ (R.side s)),
          evs ++ [.replaced c.orderId c.price left])) b' C' out := by
  -- the order leaves its level, but its id stays in the map during the sweep
  obtain ⟨b1, C1, hrun1, hrep1, hmap1, hseq1, hcfg1, _, hlive1, hspec1⟩ := h.unlinkOrder hx
  rw [hid] at hrep1 hspec1
  have hlimit : takerLimit c = some c.price := by simp [takerLimit, hkind]
  obtain ⟨b2, C2, left, out, evs, hrun2, hrep2, hswept, hfill⟩ := cross_spec s
    (some c.price) c.orderId hrep1 (hcfg1 ▸ hn) hqty
  have hopp1 : C1.orders (opposite s) = C.orders (opposite s) := by
    rw [← Content.spec_side, hspec1, ← Content.spec_side]
    cases s <;> rfl
  have hown1 : (C1.orders s).Sublist (C.orders s) := by
    rw [← Content.spec_side, hspec1, ← Content.spec_side]
    cases s <;> exact List.filter_sublist
  have hemitted : Emitted (TradeFor C c) b b2 out evs :=
    { cfg := hswept.cfg.trans hcfg1
      seq := hseq1 ▸ hswept.seq
      record := hseq1 ▸ hswept.record
      trades := fun e he => ⟨_, s, _, hown1, by rw [hlimit, ← hopp1]; exact hswept.trades e he⟩ }
  rw [← hspec1]
  simp only [Content.spec_side, hfill, ← hswept.spec_eq]
  by_cases hleft : left = 0
  · rw [if_pos hleft]
    -- nothing is left: now the id goes too
    obtain ⟨map', hremove, hids⟩ := hrep2.ids.release
    have hrep' : Rep none none { b2 with map := map' } { C2
        with locs := C2.locs.erase c.orderId } :=
      { hrep2 with ids := hids }
    refine ⟨_, _, _, ?_, Done.emit hemitted hrep' rfl rfl rfl (tradeFor_of_not (by simp))⟩
    simp only [OrderBook.replaceCross, hrun1, hrun2, if_pos hleft, hremove, Option.bind_eq_bind,
      Option.bind_some]
    rfl
  rw [if_neg hleft]
  obtain ⟨n, hcount, _⟩ := hswept.removed
  have hsmall := h.live_le
  -- the rest queues up at the new price, and the id gets the new location
  obtain ⟨b3, y, l, hrun3, hyid, hyqty, hytif, hp⟩ := hrep2.pushLevel s
    (show b2.cfg.Valid c.price by rw [hemitted.cfg]; exact hvalid) (by
      rw [hemitted.cfg]; exact h.room hn.short hvalid) (by omega) c.orderId
    hleft x.tif
  obtain ⟨map', hrelocate, hmodels, htags⟩ :=
    Rep.relocate hrep2 hswept (by omega) (hmap1 ▸ hview) y.loc
  rw [← hyid] at hmodels hrep2
  have hrep' := hp.rep hrep2 (hrep2.ids.reput (s, c.price) hmodels htags)
  refine ⟨_, _, _, ?_, Done.emit hemitted hrep' hp.cfg hp.seq ?_ (tradeFor_of_not (by simp))⟩
  · simp only [OrderBook.replaceCross, hrun1, hrun2, if_neg hleft, hrun3, hp.map,
      Option.bind_eq_bind, Option.bind_some]
    by_cases hsame : b2.map.removes = b1.map.removes
    · rw [if_pos hsame] at hrelocate ⊢
      rw [hrelocate]
      rfl
    · rw [if_neg hsame] at hrelocate ⊢
      rw [hrelocate]
      rfl
  · rw [Content.push_spec (hrep2.sorted s) hrep2.unlisted, Content.spec_side, Cell.order, hyid,
      hyqty, hytif]

theorem Rep.replace (h : Rep none none b C) (hn : b.cfg.Narrow) {c : Command}
    (hkind : c.kind = .replace) :
    ∃ b' C' out, b.replace c.orderId c.price c.qty = some (b', out) ∧
      Done b (TradeFor C c) (Spec.replace b.cfg C.spec c.orderId c.price c.qty) b' C' out := by
  cases hloc : C.locs.lookup c.orderId with
  | none =>
    have hget := h.ids.models.get_none h.ids.room hloc
    rw [Spec.replace, h.find_none hloc]
    refine ⟨_, C, _, ?_, Done.only h rfl rfl rfl (tradeFor_of_not (by simp))⟩
    simp only [OrderBook.replace, hget, Option.bind_eq_bind, Option.bind_some]
    rfl
  | some loc =>
    obtain ⟨ploc, hget, hval, hview⟩ := h.ids.models.get_some hloc
    obtain ⟨s, p, x, hx, hid, rfl, hfind⟩ := h.find_some hloc
    obtain ⟨ch, hch, hside, hprice, hs, htif⟩ := (h.store.reads hx).read
    simp only [OrderBook.replace, Spec.replace, hget, hval, hfind, Option.bind_eq_bind,
      Option.bind_some]
    by_cases hqty : c.qty = 0
    · rw [if_pos hqty, if_pos hqty]
      exact ⟨_, C, _, rfl, Done.only h rfl rfl rfl (tradeFor_of_not (by simp))⟩
    rw [if_neg hqty, if_neg hqty, priceOk_eq]
    by_cases hvalid : Spec.validPrice b.cfg c.price = false
    · rw [if_pos hvalid, hvalid, if_pos (by simp)]
      exact ⟨_, C, _, rfl, Done.only h rfl rfl rfl (tradeFor_of_not (by simp))⟩
    rw [if_neg hvalid, if_neg (by simpa using hvalid)]
    simp only [hch, hs, htif, show ch.side = s from hside, show ch.price = p from hprice,
      Option.bind_some]
    by_cases hsame : c.price = p ∧ c.qty ≤ x.qty
    · rw [if_pos hsame, if_pos (show c.price = (x.order p).price ∧
        c.qty ≤ (x.order p).qty from hsame), hsame.1, ← hid]
      exact h.replaceInPlace _ hx hqty (tradeFor_of_not (by simp))
    · rw [if_neg hsame,
        if_neg (show ¬ (c.price = (x.order p).price ∧ c.qty ≤ (x.order p).qty) from hsame)]
      exact h.replaceCross hn hx hid hkind hqty (validPrice_iff.mp (by simpa using hvalid))
        (hid ▸ hview)

/-- `apply` returns, and does what the specification says. -/
theorem Rep.apply (h : Rep none none b C) (hn : b.cfg.Narrow) (c : Command) :
    ∃ b' C' out, b.apply c = some (b', out) ∧
      Done b (TradeFor C c) (Spec.step b.cfg (Spec.summed b.cfg) C.spec c) b' C' out := by
  unfold OrderBook.apply Spec.step
  cases hkind : c.kind with
  | new => exact h.newOrder hn hkind
  | cancel => exact h.cancel c
  | replace => exact h.replace hn hkind

end Commands

end OrderBook

end Matcher
