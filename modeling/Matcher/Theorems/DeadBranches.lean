import Matcher.Theorems.CrossStructure
import Matcher.Theorems.QueueFamily
import Matcher.Logic.Wide

/-!
# Null checks that never fire

`Site` are the places in a command at which the code relies on what it does not check:
`level_mut` finds a level, `unlink_level` drops one that was listed, `front` finds an
order. `Visits` says in which states a command comes to them, also in the middle of the
sweep. In a reachable book each of these states is as the code expects, and the command
returns: an index outside an array is a run without result.
-/

namespace Matcher

open Kit

inductive Site where
  /-- `best_price` of side `s` has returned `p` to the sweep. -/
  | best (s : Side) (p : Price)
  /-- `level_mut(p)` for the stored price of an order. -/
  | stored (s : Side) (p : Price)
  | unlinkLevel (s : Side) (p : Price)
  | front (s : Side) (p : Price)

namespace OrderBook

/-! ## The states of a command -/

/-- The map finds `oid` at the location `loc`, in the chunk `ch`. -/
structure Found (b : OrderBook) (oid : OrderId) (loc : Nat) (ch : Chunk) : Prop where
  entry : ∃ ploc, b.map.get oid = some (some ploc) ∧ b.map.readVal ploc = some loc
  chunk : b.store.chunk loc = some ch

/-- A replace past its checks, of the order `o`. -/
structure Replaces (b : OrderBook) (c : Command) (loc : Nat) (ch : Chunk) (o : Slot) : Prop where
  kind : c.kind = .replace
  found : b.Found c.orderId loc ch
  qty : c.qty ≠ 0
  price : b.priceOk c.price = true
  slot : ch.s[locSlot loc]? = some o

/-- The command takes the order at `loc` off its level. -/
inductive Leaves (b : OrderBook) (c : Command) (loc : Nat) (ch : Chunk) : Prop
  | cancel : c.kind = .cancel → b.Found c.orderId loc ch → Leaves b c loc ch
  | replace {o : Slot} : Replaces b c loc ch o → ¬ (c.price = ch.price ∧ c.qty ≤ o.qty) →
      Leaves b c loc ch

/-- The command calls `cross`, in the book `b0`. -/
inductive Enters (b : OrderBook) (c : Command) : OrderBook → Side → Option Price → Prop
  | new : c.kind = .new → b.checkNew c = some none →
      Enters b c b c.side (if c.otype = .limit then some c.price else none)
  | replace {loc : Nat} {ch : Chunk} {o : Slot} {b0 : OrderBook} : Replaces b c loc ch o →
      ¬ (c.price = ch.price ∧ c.qty ≤ o.qty) → b.unlinkOrder ch.side ch.price loc = some b0 →
      Enters b c b0 ch.side (some c.price)

/-- The outer loop of `cross`, called in `b0` with `q0`, starts a round in `b1` with `q1`. -/
inductive SweepAt (side : Side) (bound : Option Price) (taker : OrderId)
    (b0 : OrderBook) (q0 : Qty) :
    OrderBook → Qty → Prop
  | start : SweepAt side bound taker b0 q0 b0 q0
  | next {b1 b2 : OrderBook} {q1 q2 : Qty} {bp : Price} {out : List Emission} :
      SweepAt side bound taker b0 q0 b1 q1 → (b1.ownIndex (opposite side)).bestPrice = some bp →
      beyond side bound bp = false → ((b1.ownIndex (opposite side)).levelMut bp).isSome →
      sweepLevel (opposite side) bp taker b1 q1 = some (b2, q2, out) → q2 ≠ 0 →
      SweepAt side bound taker b0 q0 b2 q2

/-- The inner loop, entered in `b1` with `q1`, starts a round in `b2` with `q2`. -/
inductive FillAt (opp : Side) (bp : Price) (taker : OrderId) (b1 : OrderBook) (q1 : Qty) :
    OrderBook → Qty → Prop
  | start : FillAt opp bp taker b1 q1 b1 q1
  | next {b2 b3 : OrderBook} {q2 q3 : Qty} {lv : Level} {out : List Emission} :
      FillAt opp bp taker b1 q1 b2 q2 →
      b2.readLevel opp bp = some lv → lv.empty = false → b2.fillFront opp bp taker q2 =
        some (b3, q3, out) →
      q3 ≠ 0 → FillAt opp bp taker b1 q1 b3 q3

/-- The sweep of the command turns to the level at `bp`, in `b1` with `q1`. -/
inductive Turns (b : OrderBook) (c : Command) : Side → Price → OrderBook → Qty → Prop
  | mk {b0 b1 : OrderBook} {side : Side} {bound : Option Price} {q1 : Qty} {bp : Price} :
      Enters b c b0 side bound →
      SweepAt side bound c.orderId b0 c.qty b1 q1 → (b1.ownIndex (opposite side)).bestPrice =
        some bp →
      beyond side bound bp = false → ((b1.ownIndex (opposite side)).levelMut bp).isSome →
      Turns b c (opposite side) bp b1 q1

/-- While `c` runs from `b` it comes to the site in the book `b'`. -/
inductive Visits (b : OrderBook) (c : Command) : OrderBook → Site → Prop
  | amend {loc : Nat} {ch : Chunk} {o : Slot} : Replaces b c loc ch o → c.price = ch.price →
      c.qty ≤ o.qty →
      Visits b c b (.stored ch.side c.price)
  | leave {loc : Nat} {ch : Chunk} : Leaves b c loc ch → Visits b c b (.stored ch.side ch.price)
  | left {loc : Nat} {ch : Chunk} {lv lv' : Level} {st : Store} {b' : OrderBook} :
      Leaves b c loc ch →
      (b.ownIndex ch.side).levelMut ch.price = some lv → b.store.unlink lv loc = some (st, lv') →
      { b with store := st }.writeLevel ch.side ch.price lv' = some b' →
      Visits b c b' (.unlinkLevel ch.side ch.price)
  | stayed {loc : Nat} {ch : Chunk} : Leaves b c loc ch → (b.ownIndex ch.side).levelMut ch.price =
      none →
      Visits b c b (.unlinkLevel ch.side ch.price)
  | best {b0 b1 : OrderBook} {side : Side} {bound : Option Price} {q1 : Qty} {bp : Price} :
      Enters b c b0 side bound →
      SweepAt side bound c.orderId b0 c.qty b1 q1 → (b1.ownIndex (opposite side)).bestPrice =
        some bp →
      Visits b c b1 (.best (opposite side) bp)
  | front {b1 b2 : OrderBook} {opp : Side} {bp : Price} {q1 q2 : Qty} {lv : Level} :
      Turns b c opp bp b1 q1 →
      FillAt opp bp c.orderId b1 q1 b2 q2 → b2.readLevel opp bp = some lv → lv.empty = false →
      Visits b c b2 (.front opp bp)
  | swept {b1 b2 : OrderBook} {opp : Side} {bp : Price} {q1 q2 : Qty} {lv : Level}
      {out : List Emission} :
      Turns b c opp bp b1 q1 → fillLevel opp bp c.orderId (slotBudget b1.store) b1 q1 =
        some (b2, q2, out) →
      b2.readLevel opp bp = some lv → lv.empty = true → Visits b c b2 (.unlinkLevel opp bp)

/-- What the code expects at a site, in a command on `b` that has got to `b'`. -/
def Expects (b b' : OrderBook) : Site → Prop
  | .best s p => ∃ lv, (b'.ownIndex s).levelMut p = some lv
  | .stored s p => ∃ lv, (b'.ownIndex s).levelMut p = some lv
  | .unlinkLevel s p => (b.ownIndex s).Marks p ∧ 1 ≤ (b'.ownIndex s).len
  | .front s p => ∃ lv st loc ch x, b'.readLevel s p = some lv ∧
      b'.store.front lv = some (st, loc) ∧
      st.chunk loc = some ch ∧ ch.head = locSlot loc ∧ locSlot loc < ch.tail ∧
      ch.s[locSlot loc]? = some x ∧ x.qty ≠ 0

/-! ## The sites of the sweep -/

section Sweep

variable {hold : Option OrderId} {b b0 b1 b2 : OrderBook} {C C0 C1 : Content} {side : Side}
    {bound : Option Price}
  {taker : OrderId} {bp : Price} {q0 q1 q2 : Qty}

theorem Rep.mem_prices (h : Rep hold none b C) {s : Side} {p : Price} :
    p ∈ C.prices s ↔ ∃ o ∈ C.orders s, o.price = p := by
  constructor
  · intro hp
    obtain ⟨x, hx⟩ := List.exists_mem_of_ne_nil _ ((h.listed (s, p) (by simp)).mp hp)
    exact ⟨x.order p, Content.mem_orders.mpr ⟨p, hp, x, hx, rfl⟩, rfl⟩
  · rintro ⟨o, ho, rfl⟩
    obtain ⟨q, hq, x, _, rfl⟩ := Content.mem_orders.mp ho
    exact hq

theorem Rep.queue_ne_nil {ex : Option Key} (h : Rep hold ex b C) {k : Key}
    (hempty : (C.level k).empty = false) :
    C.queue k ≠ [] := by
  intro hnil
  rw [(h.store.level_empty k).1.mpr hnil] at hempty
  cases hempty

/-- Every round of the outer loop starts in a book in order, with levels that were there
before. -/
theorem SweepAt.rep (h : Rep hold none b0 C0) (hn : b0.cfg.Narrow) (hq : q0 ≠ 0)
    (hat : SweepAt side bound taker b0 q0 b1 q1) :
    ∃ C1, Rep hold none b1 C1 ∧ b1.cfg = b0.cfg ∧ q1 ≠ 0 ∧
      C1.prices (opposite side) ⊆ C0.prices (opposite side) := by
  induction hat with
  | start => exact ⟨C0, h, rfl, hq, List.Subset.refl _⟩
  | @next b1 b2 q1 q2 bp out _ hbest hbound _ hsweep hleft ih =>
    obtain ⟨C1, hrep1, hcfg1, hq1, hsub1⟩ := ih
    have hhead := (hrep1.index (opposite side)).bestPrice (hcfg1 ▸ hn)
    rw [hbest] at hhead
    have hmem : bp ∈ C1.prices (opposite side) := List.mem_of_mem_head? hhead.symm
    have hadmits : Spec.admits side bound bp = true := by
      rw [beyond_eq] at hbound
      simpa using hbound
    obtain ⟨b', C', left, out', evs, xs', hrun, hrep', hprices, _, hswept, _⟩ :=
      sweepLevel_spec (vouches_any hold side taker bp) hadmits hrep1 trivial hmem hq1
    cases hsweep.symm.trans hrun
    refine ⟨C', hrep', hswept.cfg.trans hcfg1, hleft, fun p hp => hsub1 ?_⟩
    rw [hprices, Function.update_self] at hp
    split at hp
    · exact List.mem_of_mem_erase hp
    · exact hp

/-- Every round of the inner loop starts in a book in order, but for the level itself
when nothing is left of it. -/
theorem FillAt.rep (h : Rep hold none b1 C1) (hmem : bp ∈ C1.prices (opposite side)) (hq : q1 ≠ 0)
    (hat : FillAt (opposite side) bp taker b1 q1 b2 q2) :
    ∃ C2,
      Rep hold (if C2.queue (opposite side, bp) = [] then some (opposite side, bp) else none) b2
        C2 ∧ C2.prices = C1.prices ∧ q2 ≠ 0 := by
  induction hat with
  | start =>
    refine ⟨C1, ?_, rfl, hq⟩
    rwa [if_neg ((h.listed (opposite side, bp) (by simp)).mp hmem)]
  | @next b2 b3 q2 q3 lv out _ hread hempty hfill hleft ih =>
    obtain ⟨C2, hrep2, hprices2, hq2⟩ := ih
    have hmem2 : bp ∈ C2.prices (opposite side) := by rwa [hprices2]
    cases hread.symm.trans (hrep2.index.read hmem2)
    have hne := hrep2.queue_ne_nil hempty
    rw [if_neg hne] at hrep2
    obtain ⟨x, xs, hxs⟩ := List.exists_cons_of_ne_nil hne
    rcases UInt64.lt_or_le q2 x.qty with hlt | hle
    · -- a maker with a rest ends the loop
      obtain ⟨b', C', out', hrun, _⟩ :=
        fillFront_partial (vouches_any hold side taker bp) hrep2 trivial hmem2 hxs hq2 hlt
      cases hfill.symm.trans hrun
      exact absurd rfl hleft
    · obtain ⟨b', C', out', hrun, hrep', hprices', hqueue', _⟩ :=
        fillFront_full (vouches_any hold side taker bp) hrep2 trivial hmem2 hxs hle
      cases hfill.symm.trans hrun
      refine ⟨C', ?_, hprices'.trans hprices2, hleft⟩
      rwa [hqueue', Function.update_self]

/-- The level left empty is still counted. -/
theorem fillLevel_counted (h : Rep hold none b1 C1) (hmem : bp ∈ C1.prices (opposite side))
    (hq : q1 ≠ 0) (hadmits : Spec.admits side bound bp = true) {out : List Emission}
    (hrun : fillLevel (opposite side) bp taker (slotBudget b1.store) b1 q1 = some (b2, q2, out)) :
    1 ≤ (b2.ownIndex (opposite side)).len := by
  obtain ⟨x, xs, hxs⟩ :=
    List.exists_cons_of_ne_nil ((h.listed (opposite side, bp) (by simp)).mp hmem)
  obtain ⟨b', C', left, out', evs, xs', hrun', hrep', hprices', _⟩ :=
    fillLevel_spec (vouches_any hold side taker bp) hadmits _ x xs b1 C1 q1 h trivial hmem hxs hq
      (h.queue_lt_budget hxs)
  cases hrun.symm.trans hrun'
  have hmem' : bp ∈ C'.prices (opposite side) := by rwa [hprices']
  rw [(hrep'.index (opposite side)).len]
  exact List.length_pos_of_mem hmem'

/-- In a level with orders `front` stops at the first one. -/
theorem Rep.expectsFront {ex : Option Key} (h : Rep hold ex b1 C1)
    (hmem : bp ∈ C1.prices side) {lv : Level} (hread : b1.readLevel side bp = some lv)
    (hempty : lv.empty = false) : Expects b b1 (.front side bp) := by
  cases hread.symm.trans (h.index.read hmem)
  have hne := h.queue_ne_nil hempty
  obtain ⟨x, xs, hxs⟩ := List.exists_cons_of_ne_nil hne
  obtain ⟨st, hrun, hstore, _⟩ := h.store.front hxs
  obtain ⟨ch, hch, hhead⟩ := h.store.front_cursor hne hrun
  have hx : x ∈ C1.queue (side, bp) := by simp [hxs]
  obtain ⟨ch', hch', hs, _, _, htail⟩ := hstore.cursorOk hx
  cases hch.symm.trans hch'
  exact ⟨_, st, x.loc, ch, _, hread, hrun, hch, hhead, htail, hs, h.store.qty_ne_zero hx⟩

end Sweep

/-! ## The sites of a command -/

section Command

variable {hold : Option OrderId} {b b0 b' : OrderBook} {C : Content} {c : Command} {side : Side}
    {bound : Option Price}
  {loc : Nat} {ch : Chunk} {site : Site}

/-- What the map finds is an order of a listed level. -/
theorem Rep.found (h : Rep none none b C) {oid : OrderId} (hfound : b.Found oid loc ch) :
    ∃ x ∈ C.queue (ch.side, ch.price), x.loc = loc := by
  obtain ⟨⟨ploc, hget, hval⟩, hch⟩ := hfound
  cases hlookup : C.locs.lookup oid with
  | none =>
    rw [h.ids.models.get_none h.ids.room hlookup] at hget
    cases hget
  | some loc' =>
    obtain ⟨ploc', hget', hval', _⟩ := h.ids.models.get_some hlookup
    cases hget.symm.trans hget'
    cases hval.symm.trans hval'
    obtain ⟨s, p, x, hx, _, hloc, _⟩ := h.find_some hlookup
    obtain ⟨ch', hch', hside, hprice, _⟩ := (h.store.reads hx).read
    rw [hloc] at hch'
    cases hch.symm.trans hch'
    have hs : ch.side = s := hside
    have hp : ch.price = p := hprice
    exact ⟨x, by rw [hs, hp]; exact hx, hloc⟩

theorem Leaves.found (h : b.Leaves c loc ch) : b.Found c.orderId loc ch := by
  cases h with
  | cancel _ hfound => exact hfound
  | replace hreplaces _ => exact hreplaces.found

/-- A listed price has a level, which is not empty. -/
theorem Rep.levelMut_listed (h : Rep hold none b C) {s : Side} {p : Price} (hp : p ∈ C.prices s) :
    (b.ownIndex s).levelMut p = some (C.level (s, p)) := by
  rw [(h.index s).levelMut p, if_neg]
  rw [(h.store.level_empty (s, p)).1]
  exact (h.listed (s, p) (by simp)).mp hp

/-- The sweep starts in a book in order, with the levels the opposite side had. -/
theorem Enters.rep (h : Rep none none b C) (henters : b.Enters c b0 side bound) :
    ∃ hold C0, Rep hold none b0 C0 ∧ b0.cfg = b.cfg ∧ c.qty ≠ 0 ∧
      C0.prices (opposite side) ⊆ C.prices (opposite side) := by
  cases henters with
  | new _ hcheck => exact ⟨none, C, h, rfl, (checkNew_passed hcheck).1, List.Subset.refl _⟩
  | replace hreplaces _ hunlink =>
    obtain ⟨x, hx, hloc⟩ := h.found hreplaces.found
    obtain ⟨b1, C1, hrun, hrep, _, _, hcfg, _, _, hspec⟩ := h.unlinkOrder hx
    rw [hloc] at hrun
    cases hunlink.symm.trans hrun
    refine ⟨_, C1, hrep, hcfg, hreplaces.qty, fun p hp => ?_⟩
    obtain ⟨o, ho, hprice⟩ := hrep.mem_prices.mp hp
    refine h.mem_prices.mpr ⟨o, ?_, hprice⟩
    rw [← Content.spec_side, hspec, Spec.Book.side_remove_opposite, Content.spec_side] at ho
    exact ho

theorem Turns.rep {opp : Side} {bp : Price} {b1 : OrderBook} {q1 : Qty} (h : Rep none none b C)
    (hn : b.cfg.Narrow) (hturns : b.Turns c opp bp b1 q1) :
    ∃ side bound hold C1, opp = opposite side ∧ Rep hold none b1 C1 ∧ q1 ≠ 0 ∧
      bp ∈ C1.prices (opposite side) ∧
      bp ∈ C.prices (opposite side) ∧ Spec.admits side bound bp = true := by
  cases hturns with
  | @mk b0 _ side bound _ _ henters hat hbest hbound _ =>
    obtain ⟨hold, C0, hrep0, hcfg0, hqty, hsub0⟩ := henters.rep h
    obtain ⟨C1, hrep1, hcfg1, hq1, hsub1⟩ := hat.rep hrep0 (hcfg0 ▸ hn) hqty
    have hhead := (hrep1.index (opposite side)).bestPrice (hcfg1 ▸ hcfg0 ▸ hn)
    rw [hbest] at hhead
    have hmem : bp ∈ C1.prices (opposite side) := List.mem_of_mem_head? hhead.symm
    refine ⟨side, bound, hold, C1, rfl, hrep1, hq1, hmem, hsub0 (hsub1 hmem), ?_⟩
    rw [beyond_eq] at hbound
    simpa using hbound

/-- At every site the book is as the code expects it. -/
theorem Visits.expects (h : Rep none none b C) (hn : b.cfg.Narrow) (hvisits : b.Visits c b' site) :
    Expects b b' site := by
  cases hvisits with
  | amend hreplaces hprice _ =>
    obtain ⟨x, hx, _⟩ := h.found hreplaces.found
    exact ⟨_, hprice ▸ h.levelMut_listed (h.listed_of_mem hx)⟩
  | leave hleaves =>
    obtain ⟨x, hx, _⟩ := h.found hleaves.found
    exact ⟨_, h.levelMut_listed (h.listed_of_mem hx)⟩
  | @left loc ch lv lv' st _ hleaves hlevel hunlink hwrite =>
    obtain ⟨x, hx, hloc⟩ := h.found hleaves.found
    obtain ⟨l, r, st1, lv1, b1, _, hlevel1, hunlink1, hwrite1, _, _, _, _, hrep1⟩ := h.unlinkCell hx
    have hmem : ch.price ∈ C.prices ch.side := h.listed_of_mem hx
    rw [hloc] at hunlink1
    cases hlevel.symm.trans hlevel1
    cases hunlink.symm.trans hunlink1
    cases hwrite.symm.trans hwrite1
    refine ⟨(h.index ch.side).marks_iff.mpr hmem, ?_⟩
    rw [(hrep1.index ch.side).len]
    exact List.length_pos_of_mem hmem
  | stayed hleaves hlevel =>
    obtain ⟨x, hx, _⟩ := h.found hleaves.found
    rw [h.levelMut_listed (h.listed_of_mem hx)] at hlevel
    cases hlevel
  | @best b0 _ side bound q1 bp henters hat hbest =>
    obtain ⟨hold, C0, hrep0, hcfg0, hqty, _⟩ := henters.rep h
    obtain ⟨C1, hrep1, hcfg1, _⟩ := hat.rep hrep0 (hcfg0 ▸ hn) hqty
    have hhead := (hrep1.index (opposite side)).bestPrice (hcfg1 ▸ hcfg0 ▸ hn)
    rw [hbest] at hhead
    exact ⟨_, hrep1.levelMut_listed (List.mem_of_mem_head? hhead.symm)⟩
  | front hturns hat hread hempty =>
    obtain ⟨side, bound, hold, C1, rfl, hrep1, hq1, hmem, _⟩ := hturns.rep h hn
    obtain ⟨C2, hrep2, hprices, _⟩ := hat.rep hrep1 hmem hq1
    exact hrep2.expectsFront (hprices ▸ hmem) hread hempty
  | swept hturns hfill _ _ =>
    obtain ⟨side, bound, hold, C1, rfl, hrep1, hq1, hmem, hmem0, hadmits⟩ := hturns.rep h hn
    exact ⟨(h.index (opposite side)).marks_iff.mpr hmem0,
      fillLevel_counted hrep1 hmem hq1 hadmits hfill⟩

end Command

end OrderBook

/-- Every command returns, and no null check of the matching core ever fires: at each
site that it comes to, the code finds what it expects. -/
theorem sites_expected {cfg : BookConfig} (hfits : cfg.Fits) {b : OrderBook}
    (h : OrderBook.Reaches cfg b) (c : Command) :
    (∃ b' out, b.apply c = some (b', out)) ∧
    ∀ b' site, b.Visits c b' site → OrderBook.Expects b b' site := by
  obtain ⟨C, hrep, hcfg⟩ := h.rep hfits
  have hn : b.cfg.Narrow := hcfg ▸ hfits.narrow
  obtain ⟨b', _, out, hrun, _⟩ := hrep.apply hn c
  exact ⟨⟨b', out, hrun⟩, fun b' site hvisits => hvisits.expects hrep hn⟩

theorem sites_expected_small : ∃ b, OrderBook.Reaches smallBook b ∧
    (∃ b' out, b.apply (.newMarket 3 .ask 1) = some (b', out)) ∧
    ∀ b' site, b.Visits (.newMarket 3 .ask 1) b' site → OrderBook.Expects b b' site := by
  obtain ⟨b, h⟩ := OrderBook.exists_reaches smallBook_opens smallRun
  exact ⟨b, h, sites_expected smallBook_fits h _⟩

end Matcher
