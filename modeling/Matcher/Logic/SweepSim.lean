import Matcher.Logic.BookRep

/-!
# The sweep fills the opposite list from its head

`fillFront`, `fillLevel`, `sweepLevel` and `crossFrom` against `Spec.fill`: one
round, one level, one level with its removal, the whole sweep. The lemmas carry,
beside the new content, what the sink saw: the numbered events, and for every
trade the book at that moment (`TradeAt`).
-/

namespace Matcher

open Kit

namespace Spec

/-- What `fill` leaves, produced by some more fills before it. -/
def afterFills (os : List Order) (evs : List Event) (r : List Order × Qty × List Event) :
    List Order × Qty × List Event := (os ++ r.1, r.2.1, evs ++ r.2.2)

theorem fill_zero (s : Side) (limit : Option Price) (taker : OrderId) (os : List Order) :
    fill s limit taker os 0 = (os, 0, []) := by
  cases os <;> simp [fill]

section Fill

variable {s : Side} {limit : Option Price} {o : Order} {qty : Qty}

theorem fill_full (taker : OrderId) (os : List Order) (hqty : qty ≠ 0)
    (hadmits : admits s limit o.price = true) (hle : o.qty ≤ qty) :
    fill s limit taker (o :: os) qty = afterFills []
      [.trade o.orderId taker o.price o.qty, .closed o.orderId .filled]
      (fill s limit taker os (qty - o.qty)) := by
  rw [fill, if_neg (by simp [hqty, hadmits]), if_pos hle]
  rfl

theorem fill_partial (taker : OrderId) (os : List Order) (hqty : qty ≠ 0)
    (hadmits : admits s limit o.price = true) (hlt : qty < o.qty) :
    fill s limit taker (o :: os) qty =
      ({ o with qty := o.qty - qty } :: os, 0, [.trade o.orderId taker o.price qty]) := by
  rw [fill, if_neg (by simp [hqty, hadmits]), if_neg (UInt64.not_le.mpr hlt)]

theorem fill_beyond (taker : OrderId) (os : List Order) (hadmits : admits s limit o.price = false) :
    fill s limit taker (o :: os) qty = (o :: os, qty, []) := by
  rw [fill, if_pos (Or.inr hadmits)]

theorem afterFills_trans (xs ys : List Order) (es fs : List Event)
    (r : List Order × Qty × List Event) :
    afterFills xs es (afterFills ys fs r) = afterFills (xs ++ ys) (es ++ fs) r := by
  simp [afterFills]

end Fill

end Spec

/-- An emission without the book. -/
def Emission.record (e : Emission) : UInt64 × Event := (e.seq, e.ev)

namespace OrderBook

/-- At a trade the maker heads what is left of the opposite list `theirs`, in the
book the sink sees; the taker's own side is `mine`. -/
def TradeAt (hold : Option OrderId) (own : Side) (limit : Option Price) (taker : OrderId)
    (mine theirs : List Spec.Order) (e : Emission) : Prop :=
  ∀ m t p q, e.ev = .trade m t p q → ∃ C o rest pre, Rep hold none e.book C ∧ C.orders own = mine ∧
    C.orders (opposite own) = o :: rest ∧ theirs = pre ++ o :: rest ∧ o.orderId = m ∧ o.price = p ∧
    t = taker ∧ Spec.admits own limit p = true ∧ q ≠ 0 ∧ q ≤ o.qty

/-- A stretch of the sweep against side `opp`: from book `b` to `b'` it emitted
`out`, that is the events `evs`. -/
structure Swept (own : Side) (trade : Emission → Prop) (b : OrderBook) (C : Content)
    (b' : OrderBook) (C' : Content) (out : List Emission) (evs : List Event) : Prop where
  cfg : b'.cfg = b.cfg
  seq : b'.seq = b.seq + UInt64.ofNat evs.length
  record : out.map Emission.record = Spec.numbered b.seq evs
  mine : C'.orders own = C.orders own
  removed : ∃ n, n + b'.store.live = b.store.live ∧
    b'.map.removes % 2 ^ 64 = (b.map.removes + n) % 2 ^ 64 ∧
    (n = 0 → b'.map = b.map ∧ C'.locs = C.locs)
  fresh : ∀ id : OrderId, C.locs.lookup id = none → C'.locs.lookup id = none
  trades : ∀ e ∈ out, trade e

section Swept

variable {own : Side} {trade : Emission → Prop} {b b1 b2 : OrderBook} {C C1 C2 : Content}
  {out1 out2 : List Emission} {evs1 evs2 : List Event}

theorem Swept.refl : Swept own trade b C b C [] [] :=
  ⟨rfl, by simp, rfl, rfl, ⟨0, Nat.zero_add _, rfl, fun _ => ⟨rfl, rfl⟩⟩, fun _ h => h,
    fun _ h => absurd h List.not_mem_nil⟩

theorem Swept.trans (h1 : Swept own trade b C b1 C1 out1 evs1)
    (h2 : Swept own trade b1 C1 b2 C2 out2 evs2) :
    Swept own trade b C b2 C2 (out1 ++ out2) (evs1 ++ evs2) := by
  obtain ⟨n1, hlive1, hrem1, hmap1⟩ := h1.removed
  obtain ⟨n2, hlive2, hrem2, hmap2⟩ := h2.removed
  refine ⟨h2.cfg.trans h1.cfg, ?_, ?_, h2.mine.trans h1.mine, ⟨n1 + n2, by omega, by omega,
    fun h0 => ?_⟩, fun id hid => h2.fresh id (h1.fresh id hid), fun e he =>
      (List.mem_append.mp he).elim (h1.trades e) (h2.trades e)⟩
  · rw [h2.seq, h1.seq, List.length_append, UInt64.ofNat_add]
    grind
  · rw [List.map_append, h1.record, h2.record, h1.seq, Spec.numbered_append]
  · obtain ⟨hm1, hl1⟩ := hmap1 (by omega)
    obtain ⟨hm2, hl2⟩ := hmap2 (by omega)
    exact ⟨hm2.trans hm1, hl2.trans hl1⟩

end Swept

theorem opposite_ne (s : Side) : opposite s ≠ s := by cases s <;> simp [opposite]

/-- `P` holds of every content while the level at `bp` is swept, and `trade` of
everything the sink gets meanwhile. -/
structure Vouches (hold : Option OrderId) (own : Side) (taker : OrderId) (bp : Price)
    (trade : Emission → Prop) (P : Content → Prop) : Prop where
  atTrade : ∀ (C : Content) (x : Cell) (xs : List Cell) (n : UInt64) (b : OrderBook) (q : Qty),
    P C →
    C.queue (opposite own, bp) = x :: xs → Rep hold none b C → q ≠ 0 → q ≤ x.qty →
    trade ⟨n, .trade x.id taker bp q, b⟩
  atOther : ∀ (n : UInt64) (ev : Event) (b : OrderBook), (∀ m t p q, ev ≠ .trade m t p q) →
    trade ⟨n, ev, b⟩
  next : ∀ (C C' : Content) (x : Cell) (xs : List Cell), P C → C.queue (opposite own, bp) =
    x :: xs →
    C'.prices = C.prices → C'.queue = Function.update C.queue (opposite own, bp) xs → P C'

/-- Nothing is asked of the trades. -/
theorem vouches_any (hold : Option OrderId) (own : Side) (taker : OrderId) (bp : Price) :
    Vouches hold own taker bp (fun _ => True) fun _ => True :=
  ⟨fun _ _ _ _ _ _ _ _ _ _ _ => trivial, fun _ _ _ _ => trivial, fun _ _ _ _ _ _ _ _ => trivial⟩

section Front

variable {hold : Option OrderId} {b : OrderBook} {C : Content} {own : Side}
    {taker : OrderId} {bp : Price}
  {x : Cell} {xs : List Cell} {trade : Emission → Prop} {P : Content → Prop}

/-- One round that leaves the maker with a rest: it is the last one. -/
theorem fillFront_partial (hv : Vouches hold own taker bp trade P)
    (h : Rep hold none b C) (hP : P C) (hmem : bp ∈ C.prices (opposite own))
    (hq : C.queue (opposite own, bp) = x :: xs) {qty : Qty} (hqty : qty ≠ 0) (hlt : qty < x.qty) :
    ∃ b' C' out, b.fillFront (opposite own) bp taker qty = some (b', 0, out) ∧ Rep hold none b' C' ∧
      C'.prices = C.prices ∧
      C'.queue = Function.update C.queue (opposite own, bp) ({ x with qty := x.qty - qty } :: xs) ∧
      Swept own trade b C b' C' out [.trade x.id taker bp qty] := by
  obtain ⟨st1, hfront, hstore1, hlive1⟩ := h.store.front hq
  obtain ⟨ch, hch, _, _, hs, _⟩ :=
    (hstore1.reads (k := (opposite own, bp)) (x := x) (by simp [hq])).read
  obtain ⟨b1, hb1⟩ : ∃ b1 : OrderBook, b1 = { b with store := st1, seq := b.seq + 1 } := ⟨_, rfl⟩
  have hrep1 : Rep hold none b1 C := by
    rw [hb1]
    exact { h with store := hstore1, ids := hlive1.symm ▸ h.ids }
  obtain ⟨b2, hwrite, hframe, hindex⟩ := hrep1.index.write hmem
    { C.level (opposite own, bp) with total := (C.level (opposite own, bp)).total - qty }
  -- `qty < x.qty`: the slot stays live
  have hne : x.qty - qty ≠ 0 := by
    intro h0
    have : x.qty = qty := by grind
    rw [this] at hlt
    exact absurd hlt (UInt64.lt_irrefl _)
  obtain ⟨st2, hset, hlive2, hstore2⟩ := hstore1.setQty (l := []) hq hne
    (t := (C.level (opposite own, bp)).total - qty) (by grind)
  have hmapb : b1.map = b.map := by rw [hb1]
  have hcfgb : b1.cfg = b.cfg := by rw [hb1]
  obtain ⟨b', hb'⟩ : ∃ b' : OrderBook, b' = { b2 with store := st2 } := ⟨_, rfl⟩
  have hlive' : b'.store.live = b.store.live := by
    rw [hb']
    exact hlive2.trans hlive1
  have hrep' := h.requeue (opposite own, bp) ({ x with qty := x.qty - qty } :: xs) C.locs hold b'
    (Or.inl rfl) hmem (by rw [hb']; exact hframe.cfg.trans hcfgb) (by rw [hb']; exact hindex)
    (by rw [hb']; exact hstore2) (by
      rw [hlive', show b'.map = b.map by rw [hb']; exact hframe.map.trans hmapb]
      exact h.ids.requantify (l := []) hq _)
  refine ⟨b', _, [⟨b.seq + 1, .trade x.id taker bp qty, b1⟩], ?_, hrep', rfl, rfl, ?_⟩
  · have hstb : b2.store = st1 := by rw [hframe.store, hb1]
    have hne' : ¬ x.qty = qty := fun heq => hne (by rw [heq]; grind)
    simp only [fillFront, h.index.read hmem, Option.bind_eq_bind, Option.bind_some, hfront, hch, hs,
      if_pos hlt, ← hb1, hwrite, hstb, hset, if_neg hne', ← hb']
    have : qty - qty = 0 := by grind
    rw [this]
    rfl
  · refine ⟨by rw [hb']; exact hframe.cfg.trans hcfgb, ?_, rfl, ?_, ⟨0, by omega, ?_, fun _ =>
      ⟨?_, rfl⟩⟩,
      fun _ h => h, ?_⟩
    · rw [hb']
      show b2.seq = _
      rw [hframe.seq, hb1]
      rfl
    · refine Content.orders_congr rfl fun p _ => Function.update_of_ne ?_ _ _
      exact fun heq => opposite_ne own (Prod.mk.inj heq).1.symm
    · rw [hb']
      show b2.map.removes % _ = _
      rw [hframe.map, hmapb, Nat.add_zero]
    · rw [hb']
      exact hframe.map.trans hmapb
    · intro e he
      rw [List.mem_singleton.mp he]
      exact hv.atTrade C x xs _ b1 qty hP hq hrep1 hqty (UInt64.le_of_lt hlt)

/-- One round that fills the maker. -/
theorem fillFront_full (hv : Vouches hold own taker bp trade P) (h : Rep hold none b C) (hP : P C)
    (hmem : bp ∈ C.prices (opposite own)) (hq : C.queue (opposite own, bp) = x :: xs) {qty : Qty}
    (hle : x.qty ≤ qty) :
    ∃ b' C' out, b.fillFront (opposite own) bp taker qty = some (b', qty - x.qty, out) ∧
      Rep hold (if xs = [] then some (opposite own, bp) else none) b' C' ∧ C'.prices = C.prices ∧
      C'.queue = Function.update C.queue (opposite own, bp) xs ∧
      Swept own trade b C b' C' out [.trade x.id taker bp x.qty, .closed x.id .filled] := by
  have hx : x ∈ C.queue (opposite own, bp) := by simp [hq]
  obtain ⟨st1, hfront, hstore1, hlive1⟩ := h.store.front hq
  obtain ⟨ch, hch, _, _, hs, _⟩ := (hstore1.reads hx).read
  obtain ⟨b1, hb1⟩ : ∃ b1 : OrderBook, b1 = { b with store := st1, seq := b.seq + 1 } := ⟨_, rfl⟩
  have hrep1 : Rep hold none b1 C := by
    rw [hb1]
    exact { h with store := hstore1, ids := hlive1.symm ▸ h.ids }
  obtain ⟨lv, hlv⟩ : ∃ lv, lv = C.level (opposite own, bp) := ⟨_, rfl⟩
  -- the total is written before the slot dies, and the level again when its chunks are known
  obtain ⟨b2, hwrite, hframe, hindex⟩ :=
    hrep1.index.write hmem { lv with total := lv.total - x.qty }
  have hsmall := h.live_le
  obtain ⟨st2, st3, l3, hset, hretire, hlive3, hstore3⟩ := hstore1.kill (l := []) hq
    (t := lv.total - x.qty) (by grind) (by omega)
  rw [← hlv] at hretire
  have hmapb : b1.map = b.map := by rw [hb1]
  have hcfgb : b1.cfg = b.cfg := by rw [hb1]
  have hstb : b2.store = st1 := by rw [hframe.store, hb1]
  have hindex3 : ({ b2 with store := st3 } : OrderBook).Indexed C.prices
      (Function.update C.level (opposite own, bp) { lv with total := lv.total - x.qty }) := hindex
  obtain ⟨b4, hwrite4, hframe4, hindex4⟩ := hindex3.write hmem l3
  rw [Function.update_idem] at hindex4
  -- the maker's id leaves the map last
  obtain ⟨map', hremove, hremoves, hids⟩ := h.ids.erase h.loc_inj (l := []) hq (h.store.nodup _)
    (show st3.live + 1 = b.store.live by omega)
  obtain ⟨b', hb'⟩ : ∃ b' : OrderBook, b' = { b4 with map := map', seq := b4.seq + 1 } := ⟨_, rfl⟩
  have hstore4 : b'.store = st3 := by
    rw [hb']
    exact hframe4.store
  have hcfg4 : b'.cfg = b.cfg := by
    rw [hb']
    exact hframe4.cfg.trans (hframe.cfg.trans hcfgb)
  have hseq4 : b4.seq = b.seq + 1 := by
    rw [hframe4.seq]
    show b2.seq = _
    rw [hframe.seq, hb1]
  have hmap4 : b4.map = b.map := by
    rw [hframe4.map]
    show b2.map = _
    rw [hframe.map, hmapb]
  have hrep' := h.requeue (opposite own, bp) xs (C.locs.erase x.id) hold b' (Or.inl rfl) hmem hcfg4
    (by rw [hb']; exact hindex4) (by rw [hstore4]; exact hstore3) (by
      rw [hstore4, show b'.map = map' by rw [hb']]
      exact hids)
  refine ⟨b', _, [⟨b.seq + 1, .trade x.id taker bp x.qty, b1⟩, ⟨b'.seq, .closed x.id .filled, b'⟩],
    ?_, hrep', rfl, rfl, ?_⟩
  · have hnlt : ¬ qty < x.qty := UInt64.not_lt.mpr hle
    have hzero : x.qty - x.qty = 0 := by grind
    have hread3 := (show ({ b2 with store := st2 } : OrderBook).Indexed C.prices _ from hindex).read
      hmem
    rw [Function.update_self] at hread3
    simp only [fillFront, h.index.read hmem, ← hlv, Option.bind_eq_bind, Option.bind_some,
      hlv ▸ hfront, hch, hs, if_neg hnlt, ← hb1, hwrite, hstb, hzero, hset, if_true, hread3,
      hretire, hwrite4, hmap4, hremove]
    rw [hb']
    rfl
  · refine ⟨hcfg4, ?_, ?_, ?_, ⟨1, ?_, ?_, fun h0 => absurd h0 (by decide)⟩, fun id hid => ?_, ?_⟩
    · rw [hb']
      show b4.seq + 1 = _
      rw [hseq4]
      show b.seq + 1 + 1 = b.seq + 2
      grind
    · rw [hb']
      show [_, (b4.seq + 1, _)] = _
      rw [hseq4]
      rfl
    · refine Content.orders_congr rfl fun p _ => Function.update_of_ne ?_ _ _
      exact fun heq => opposite_ne own (Prod.mk.inj heq).1.symm
    · rw [hstore4]
      omega
    · rw [hb']
      show map'.removes % _ = _
      rw [hremoves, incr]
      omega
    · show (C.locs.erase x.id).lookup id = none
      by_cases hix : id = x.id
      · rw [hix, Finmap.lookup_erase]
      · rwa [Finmap.lookup_erase_ne hix]
    · intro e he
      rcases List.mem_cons.mp he with rfl | he
      · exact hv.atTrade C x xs _ b1 x.qty hP hq hrep1 (h.store.qty_ne_zero hx) UInt64.le_rfl
      · rw [List.mem_singleton.mp he]
        exact hv.atOther _ _ _ (by simp)

end Front

/-! ## One level -/

section Level

variable {hold : Option OrderId} {own : Side} {limit : Option Price} {taker : OrderId} {bp : Price}
  {trade : Emission → Prop} {P : Content → Prop}

/-- One round of the inner loop. -/
theorem fillLevel_succ {fuel : Nat} {b b1 : OrderBook} {opp : Side} {qty q1 : Qty} {lv : Level}
    {out1 : List Emission} (hread : b.readLevel opp bp = some lv) (hempty : lv.empty = false)
    (hrun : b.fillFront opp bp taker qty = some (b1, q1, out1)) :
    fillLevel opp bp taker (fuel + 1) b qty = if q1 = 0 then some (b1, q1, out1) else
      (fillLevel opp bp taker fuel b1 q1).map fun r => (r.1, r.2.1, out1 ++ r.2.2) := by
  simp only [fillLevel, hread, hempty, hrun, Option.bind_eq_bind, Option.bind_some,
    Bool.false_eq_true, if_false]
  split
  · rfl
  · rw [Option.map_eq_bind]
    rfl

/-- The inner loop: the level is swept until it is empty or the quantity is gone. -/
theorem fillLevel_spec (hv : Vouches hold own taker bp trade P)
    (hadmits : Spec.admits own limit bp = true) :
    ∀ (fuel : Nat) (x : Cell) (xs : List Cell) (b : OrderBook) (C : Content) (qty : Qty),
      Rep hold none b C → P C → bp ∈ C.prices (opposite own) → C.queue (opposite own, bp) =
        x :: xs →
      qty ≠ 0 → xs.length + 1 < fuel →
      ∃ b' C' left out evs xs', fillLevel (opposite own) bp taker fuel b qty =
        some (b', left, out) ∧
        Rep hold (if xs' = [] then some (opposite own, bp) else none) b' C' ∧ C'.prices = C.prices ∧
        C'.queue = Function.update C.queue (opposite own, bp) xs' ∧
        Swept own trade b C b' C' out evs ∧ (left = 0 ∨ xs' = []) ∧
        ∀ rest, Spec.fill own limit taker ((x :: xs).map (Cell.order bp) ++ rest) qty =
          Spec.afterFills (xs'.map (Cell.order bp)) evs (Spec.fill own limit taker rest left) := by
  intro fuel
  induction fuel with
  | zero => exact fun _ _ _ _ _ _ _ _ _ _ hfuel => absurd hfuel (Nat.not_lt_zero _)
  | succ fuel ih =>
    intro x xs b C qty h hP hmem hq hqty hfuel
    have hread := h.index.read hmem
    have hempty : (C.level (opposite own, bp)).empty = false := by
      have := (h.store.level_empty (opposite own, bp)).1
      rw [hq] at this
      simpa using this
    rcases UInt64.lt_or_le qty x.qty with hlt | hle
    · -- the maker outlasts the taker
      obtain ⟨b', C', out, hrun, hrep, hp, hqueue, hswept⟩ :=
        fillFront_partial hv h hP hmem hq hqty hlt
      refine ⟨b', C', 0, out, _, _, by rw [fillLevel_succ hread hempty hrun, if_pos rfl],
        ?_, hp, hqueue, hswept, Or.inl rfl, fun rest => ?_⟩
      · rwa [if_neg (List.cons_ne_nil _ _)]
      · rw [List.map_cons, List.cons_append,
          Spec.fill_partial (o := x.order bp) taker _ hqty hadmits hlt, Spec.fill_zero]
        rfl
    obtain ⟨b1, C1, out1, hrun1, hrep1, hp1, hqueue1, hswept1⟩ := fillFront_full hv h hP hmem hq hle
    have hfill : ∀ rest, Spec.fill own limit taker ((x :: xs).map (Cell.order bp) ++ rest) qty =
        Spec.afterFills [] [.trade x.id taker bp x.qty, .closed x.id .filled]
          (Spec.fill own limit taker (xs.map (Cell.order bp) ++ rest) (qty - x.qty)) := fun rest =>
      Spec.fill_full (o := x.order bp) taker _ hqty hadmits hle
    by_cases hzero : qty - x.qty = 0
    · refine ⟨b1, C1, 0, out1, _,
        xs, by rw [fillLevel_succ hread hempty hrun1, if_pos hzero, hzero], hrep1, hp1, hqueue1,
        hswept1, Or.inl rfl, fun rest => ?_⟩
      rw [hfill, hzero, Spec.fill_zero, Spec.fill_zero]
      simp [Spec.afterFills]
    have hmem1 : bp ∈ C1.prices (opposite own) := by rwa [hp1]
    cases xs with
    | nil =>
      -- the level is empty: the next round ends the loop
      obtain ⟨f, rfl⟩ : ∃ f, fuel = f + 1 := Nat.exists_eq_succ_of_ne_zero (by simp at hfuel; omega)
      have hempty1 : (C1.level (opposite own, bp)).empty = true :=
        (hrep1.store.level_empty (opposite own, bp)).1.mpr (by rw [hqueue1, Function.update_self])
      have hstop : fillLevel (opposite own) bp taker (f + 1) b1 (qty - x.qty) =
          some (b1, qty - x.qty, []) := by
        simp only [fillLevel, hrep1.index.read hmem1, hempty1, Option.bind_eq_bind,
          Option.bind_some, if_true]
        rfl
      refine ⟨b1, C1, qty - x.qty, out1, _, [], ?_, hrep1, hp1, hqueue1, hswept1, Or.inr rfl,
        fun rest => ?_⟩
      · rw [fillLevel_succ hread hempty hrun1, if_neg hzero, hstop, Option.map_some,
          List.append_nil]
      · rw [hfill]
        rfl
    | cons y ys =>
      obtain ⟨b', C', left, out, evs, xs', hrun, hrep, hp, hqueue, hswept, hleft, hfill'⟩ :=
        ih y ys b1 C1 (qty - x.qty) (by rwa [if_neg (List.cons_ne_nil _ _)] at hrep1)
          (hv.next C C1 x (y :: ys) hP hq hp1 hqueue1) hmem1 (by
            rw [hqueue1, Function.update_self]) hzero
          (by simp at hfuel ⊢; omega)
      refine ⟨b', C', left, out1 ++ out, _, xs', ?_, hrep, hp.trans hp1, ?_, hswept1.trans hswept,
        hleft, fun rest => ?_⟩
      · rw [fillLevel_succ hread hempty hrun1, if_neg hzero, hrun, Option.map_some]
      · rw [hqueue, hqueue1, Function.update_idem]
      · rw [hfill, hfill', Spec.afterFills_trans]
        rfl

/-- The inner loop has a round for every order of a level. -/
theorem Rep.queue_lt_budget {ex : Option Key} {b : OrderBook} {C : Content} (h : Rep hold ex b C)
    {k : Key} {x : Cell} {xs : List Cell} (hq : C.queue k = x :: xs) :
    xs.length + 1 < slotBudget b.store := by
  have h1 := h.length_queue_le k
  have h2 := h.store.live_le
  rw [hq, List.length_cons] at h1
  unfold slotBudget
  omega

/-- One level is swept, and removed when nothing is left of it. -/
theorem sweepLevel_spec (hv : Vouches hold own taker bp trade P)
    (hadmits : Spec.admits own limit bp = true) {b : OrderBook} {C : Content} {qty : Qty}
    (h : Rep hold none b C) (hP : P C) (hmem : bp ∈ C.prices (opposite own)) (hqty : qty ≠ 0) :
    ∃ b' C' left out evs xs', sweepLevel (opposite own) bp taker b qty = some (b', left, out) ∧
      Rep hold none b' C' ∧
      C'.prices = Function.update C.prices (opposite own)
        (if xs' = [] then (C.prices (opposite own)).erase bp else C.prices (opposite own)) ∧
      C'.queue = Function.update C.queue (opposite own, bp) xs' ∧
      Swept own trade b C b' C' out evs ∧ (left = 0 ∨ xs' = []) ∧
      ∀ rest, Spec.fill own limit taker ((C.queue (opposite own, bp)).map (Cell.order bp) ++
        rest) qty =
        Spec.afterFills (xs'.map (Cell.order bp)) evs (Spec.fill own limit taker rest left) := by
  obtain ⟨x, xs, hq⟩ : ∃ x xs, C.queue (opposite own, bp) = x :: xs :=
    List.exists_cons_of_ne_nil ((h.listed (opposite own, bp) (by simp)).mp hmem)
  have hfuel := h.queue_lt_budget hq
  obtain ⟨b1, C1, left, out, evs, xs', hrun, hrep, hpc, hqueue, hswept, hleft, hfill⟩ :=
    fillLevel_spec hv hadmits _ x xs b C qty h hP hmem hq hqty hfuel
  rw [← hq] at hfill
  have hqk : C1.queue (opposite own, bp) = xs' := by rw [hqueue, Function.update_self]
  have hmem1 : bp ∈ C1.prices (opposite own) := by rwa [hpc]
  by_cases hnil : xs' = []
  · obtain ⟨b', hunlink, hframe, hrep'⟩ := Rep.unlinkLevel (k := (opposite own, bp))
      (by rw [hqk]; exact hrep) hmem1
    rw [hqk, if_pos hnil, hpc] at hrep'
    have hempty1 : (C1.level (opposite own, bp)).empty = true :=
      (hrep.store.level_empty (opposite own, bp)).1.mpr (hqk.trans hnil)
    refine ⟨b', _, left, out, evs, xs', ?_, hrep', by rw [if_pos hnil], hqueue, ?_, hleft, hfill⟩
    · simp only [sweepLevel, hrun, Option.bind_eq_bind, Option.bind_some, hrep.index.read hmem1,
        hempty1, if_true, hunlink]
      rfl
    · obtain ⟨n, hlive, hrem, hmap⟩ := hswept.removed
      refine ⟨hframe.cfg.trans hswept.cfg, hframe.seq.trans hswept.seq, hswept.record, ?_,
        ⟨n, by rw [hframe.store]; exact hlive, by rw [hframe.map]; exact hrem, fun h0 => ?_⟩,
        hswept.fresh, hswept.trades⟩
      · rw [← hswept.mine]
        refine Content.orders_congr ?_ fun p _ => rfl
        rw [hpc]
        exact Function.update_of_ne (opposite_ne own).symm _ _
      · rw [hframe.map]
        exact hmap h0
  · have hempty1 : (C1.level (opposite own, bp)).empty = false := by
      have := (hrep.store.level_empty (opposite own, bp)).1
      rw [hqk] at this
      simpa [hnil] using this
    refine ⟨b1, C1, left, out, evs, xs', ?_, by rwa [if_neg hnil] at hrep, ?_, hqueue, hswept,
      hleft, hfill⟩
    · simp only [sweepLevel, hrun, Option.bind_eq_bind, Option.bind_some, hrep.index.read hmem1,
        hempty1, Bool.false_eq_true, if_false]
      rfl
    · rw [if_neg hnil, Function.update_eq_self, hpc]

end Level

/-! ## The whole sweep -/

section Cross

variable {hold : Option OrderId} {own : Side} {limit : Option Price} {taker : OrderId}
  {mine theirs : List Spec.Order}

theorem beyond_eq (s : Side) (bound : Option Price) (p : Price) :
    beyond s bound p = !Spec.admits s bound p := by
  cases s <;> cases bound <;> simp [beyond, Spec.admits, ← Int64.not_le]

/-- The orders of the levels behind the one being swept stay as they are. -/
theorem flatMap_behind {C C' : Content} {s : Side} {bp : Price} {ps : List Price} {xs : List Cell}
    (hnd : (bp :: ps).Nodup) (hqueue : C'.queue = Function.update C.queue (s, bp) xs) :
    (ps.flatMap fun p => (C'.queue (s, p)).map (Cell.order p)) =
      ps.flatMap fun p => (C.queue (s, p)).map (Cell.order p) := by
  refine List.flatMap_congr fun p hp => ?_
  have hne : p ≠ bp := by
    rintro rfl
    exact (List.nodup_cons.mp hnd).1 hp
  rw [hqueue, Function.update_of_ne fun heq => hne (Prod.mk.inj heq).2]

/-- At the best level every trade is against the head of the opposite list. -/
theorem vouches_best {ps : List Price} {bp : Price} (hnd : (bp :: ps).Nodup)
    (hadmits : Spec.admits own limit bp = true) :
    Vouches hold own taker bp (TradeAt hold own limit taker mine theirs) fun C =>
      C.prices (opposite own) = bp :: ps ∧ C.orders own = mine ∧
        ∃ pre, theirs = pre ++ C.orders (opposite own) where
  atTrade := by
    rintro C x xs n b q ⟨hprices, hmine, pre, hpre⟩ hq h hq0 hqx m t p q' hev
    cases hev
    have hhead := Content.orders_cons hprices
    rw [hq, List.map_cons, List.cons_append] at hhead
    exact ⟨C, _, _, pre, h, hmine, hhead, by rw [hpre, hhead], rfl, rfl, rfl, hadmits, hq0, hqx⟩
  atOther := fun n ev b hev m t p q heq => absurd heq (hev m t p q)
  next := by
    rintro C C' x xs ⟨hprices, hmine, pre, hpre⟩ hq hp hqueue
    refine ⟨by rw [hp, hprices], ?_, pre ++ [x.order bp], ?_⟩
    · rw [← hmine]
      refine Content.orders_congr (by rw [hp]) fun p _ => ?_
      rw [hqueue, Function.update_of_ne fun heq => opposite_ne own (Prod.mk.inj heq).1.symm]
    · rw [hpre, Content.orders_cons hprices, Content.orders_cons (show C'.prices _ = _ by
        rw [hp, hprices]), flatMap_behind hnd hqueue, hq, hqueue, Function.update_self]
      simp

theorem crossFrom_spec : ∀ (ps : List Price) (fuel : Nat) (b : OrderBook) (C : Content) (qty : Qty),
    Rep hold none b C → b.cfg.Narrow → C.prices (opposite own) = ps → qty ≠ 0 → ps.length < fuel →
      C.orders own = mine → (∃ pre, theirs = pre ++ C.orders (opposite own)) →
      ∃ b' C' left out evs, crossFrom own limit taker fuel b qty = some (b', left, out) ∧
        Rep hold none b' C' ∧
        Swept own (TradeAt hold own limit taker mine theirs) b C b' C' out evs ∧
        Spec.fill own limit taker (C.orders (opposite own)) qty = (C'.orders (opposite own),
          left, evs) := by
  -- on the listed prices: a level that is swept to the end goes off the list
  intro ps
  induction ps with
  | nil =>
    intro fuel b C qty h hn hprices _ hfuel _ _
    obtain ⟨f, rfl⟩ := Nat.exists_eq_succ_of_ne_zero (Nat.ne_of_gt hfuel)
    have hbest := (h.index (opposite own)).bestPrice hn
    rw [hprices, List.head?_nil] at hbest
    refine ⟨b, C, qty, [], [], ?_, h, Swept.refl, ?_⟩
    · simp only [crossFrom, hbest]
      rfl
    · rw [Content.orders, hprices]
      rfl
  | cons bp ps ih =>
    intro fuel b C qty h hn hprices hqty hfuel hmine htheirs
    obtain ⟨f, rfl⟩ := Nat.exists_eq_succ_of_ne_zero (Nat.ne_of_gt (Nat.zero_lt_of_lt hfuel))
    have hmem : bp ∈ C.prices (opposite own) := by simp [hprices]
    have hbest := (h.index (opposite own)).bestPrice hn
    rw [hprices, List.head?_cons] at hbest
    by_cases hadmits : Spec.admits own limit bp = true
    -- the best level is within the limit
    · have hnd := (h.index (opposite own)).nodup
      rw [hprices] at hnd
      have hlevel := (h.index (opposite own)).levelMut bp
      rw [if_neg (by
        rw [(h.store.level_empty (opposite own, bp)).1]
        exact (h.listed (opposite own, bp) (by simp)).mp hmem)] at hlevel
      obtain ⟨b1, C1, left1, out1, evs1, xs1, hrun1, hrep1, hp1, hqueue1, hswept1, hleft1,
        hfill1⟩ := sweepLevel_spec (vouches_best hnd hadmits : Vouches _ _ taker _ _ _) hadmits h
          ⟨hprices, hmine, htheirs⟩ hmem hqty
      have hstep : crossFrom own limit taker (f + 1) b qty =
          if left1 = 0 then some (b1, left1, out1)
          else (crossFrom own limit taker f b1 left1).map fun r =>
            (r.1, r.2.1, out1 ++ r.2.2) := by
        simp only [crossFrom, hbest, beyond_eq, hadmits, hlevel, hrun1, Option.bind_eq_bind,
          Option.bind_some, Bool.not_true, Bool.false_eq_true, if_false]
        split
        · rfl
        · rw [Option.map_eq_bind]
          rfl
      have hbehind := @flatMap_behind C C1 _ _ _ _ hnd hqueue1
      have hp1' : C1.prices (opposite own) = if xs1 = [] then ps else bp :: ps := by
        rw [hp1, Function.update_self, hprices, List.erase_cons_head]
      have hqk1 : C1.queue (opposite own, bp) = xs1 := by rw [hqueue1, Function.update_self]
      have horders1 : C1.orders (opposite own) = xs1.map (Cell.order bp) ++
          ps.flatMap fun p => (C.queue (opposite own, p)).map (Cell.order p) := by
        rw [← hbehind]
        by_cases hnil : xs1 = []
        · rw [Content.orders, hp1', if_pos hnil, hnil]
          rfl
        · rw [Content.orders_cons (by rw [hp1', if_neg hnil]), hqk1]
      rw [Content.orders_cons hprices, hfill1]
      by_cases hzero : left1 = 0
      · refine ⟨b1, C1, left1, out1, evs1, by rw [hstep, if_pos hzero], hrep1, hswept1, ?_⟩
        rw [hzero, Spec.fill_zero, horders1]
        simp [Spec.afterFills]
      · have hnil := hleft1.resolve_left hzero
        rw [hnil] at horders1 ⊢
        rw [if_pos hnil] at hp1'
        obtain ⟨b', C', left, out, evs, hrun, hrep, hswept, hfill⟩ :=
          ih f b1 C1 left1 hrep1 (hswept1.cfg ▸ hn) hp1' hzero (Nat.lt_of_succ_lt_succ hfuel)
            (hswept1.mine.trans hmine) (by
              obtain ⟨pre, hpre⟩ := htheirs
              refine ⟨pre ++ (C.queue (opposite own, bp)).map (Cell.order bp), ?_⟩
              rw [hpre, Content.orders_cons hprices, horders1]
              simp)
        refine ⟨b', C', left, out1 ++ out, evs1 ++ evs, by
          rw [hstep, if_neg hzero, hrun, Option.map_some],
          hrep, hswept1.trans hswept, ?_⟩
        rw [List.map_nil, List.nil_append] at horders1
        rw [← horders1, hfill]
        rfl
    -- the best price is beyond the limit: nothing is matched
    · rw [Bool.not_eq_true] at hadmits
      refine ⟨b, C, qty, [], [], ?_, h, Swept.refl, ?_⟩
      · simp only [crossFrom, hbest, beyond_eq, hadmits, Option.bind_eq_bind, Bool.not_false,
          if_true]
        rfl
      · obtain ⟨x, xs, hq⟩ : ∃ x xs, C.queue (opposite own, bp) = x :: xs :=
          List.exists_cons_of_ne_nil ((h.listed (opposite own, bp) (by simp)).mp hmem)
        rw [Content.orders_cons hprices, hq, List.map_cons, List.cons_append]
        exact Spec.fill_beyond (o := x.order bp) taker _ hadmits

/-- `cross` fills the opposite list from its head. -/
theorem cross_spec (own : Side) (limit : Option Price) (taker : OrderId)
    {b : OrderBook} {C : Content} {qty : Qty} (h : Rep hold none b C) (hn : b.cfg.Narrow)
    (hqty : qty ≠ 0) :
    ∃ b' C' left out evs, b.cross own limit taker qty = some (b', left, out) ∧ Rep hold none b' C' ∧
      Swept own (TradeAt hold own limit taker (C.orders own) (C.orders (opposite own))) b
        C b' C' out evs ∧
      Spec.fill own limit taker (C.orders (opposite own)) qty = (C'.orders (opposite own),
        left, evs) := by
  refine crossFrom_spec _ _ b C qty h hn rfl hqty ?_ rfl ⟨[], rfl⟩
  have h1 := h.length_prices_le (opposite own)
  have h2 := h.store.live_le
  unfold slotBudget
  omega

/-- Whatever level the cursor points at, a sweep that returns leaves a book in
order. -/
theorem crossFrom_keeps : ∀ (fuel : Nat) (b : OrderBook) (C : Content) (qty : Qty) (b' : OrderBook)
    (left : Qty) (out : List Emission), Rep hold none b C → qty ≠ 0 →
      crossFrom own limit taker fuel b qty = some (b', left, out) →
      ∃ C' evs, Rep hold none b' C' ∧ Swept own (fun _ => True) b C b' C' out evs := by
  intro fuel
  induction fuel with
  | zero =>
    intro b C qty b' left out _ _ hrun
    cases hrun
  | succ fuel ih =>
    intro b C qty b' left out h hqty hrun
    have hstop : some (b, qty, ([] : List Emission)) = some (b', left, out) →
        ∃ C' evs, Rep hold none b' C' ∧ Swept own (fun _ => True) b C b' C' out evs := by
      intro heq
      cases heq
      exact ⟨C, [], h, Swept.refl⟩
    rw [crossFrom] at hrun
    cases hbest : (b.ownIndex (opposite own)).bestPrice with
    | none =>
      rw [hbest] at hrun
      exact hstop hrun
    | some bp =>
      simp only [hbest, beyond_eq] at hrun
      by_cases hadmits : Spec.admits own limit bp = true
      · have hlevel := (h.index (opposite own)).levelMut bp
        by_cases hlisted : bp ∈ C.prices (opposite own)
        · rw [if_neg (by
            rw [(h.store.level_empty (opposite own, bp)).1]
            exact (h.listed (opposite own, bp) (by simp)).mp hlisted)] at hlevel
          obtain ⟨b1, C1, left1, out1, evs1, _, hrun1, hrep1, _, _, hswept1, _, _⟩ :=
            sweepLevel_spec (vouches_any hold own taker bp) hadmits h trivial hlisted hqty
          simp only [hadmits, hlevel, hrun1, Option.bind_eq_bind, Option.bind_some, Bool.not_true,
            Bool.false_eq_true, if_false] at hrun
          split at hrun
          · cases hrun
            exact ⟨C1, evs1, hrep1, hswept1⟩
          · next hzero =>
            obtain ⟨⟨b2, left2, out2⟩, hrun2, hout⟩ := Option.bind_eq_some_iff.mp hrun
            cases hout
            obtain ⟨C2, evs2, hrep2, hswept2⟩ := ih b1 C1 left1 b2 left2 out2 hrep1 hzero hrun2
            exact ⟨C2, _, hrep2, hswept1.trans hswept2⟩
        -- the cursor points at an empty level, and the loop ends
        · rw [(h.index (opposite own)).default bp hlisted] at hlevel
          simp only [hadmits, hlevel, Bool.not_true, Bool.false_eq_true, if_false] at hrun
          exact hstop hrun
      · rw [Bool.not_eq_true] at hadmits
        simp only [hadmits, Bool.not_false, if_true] at hrun
        exact hstop hrun

end Cross

end OrderBook

end Matcher
