import Matcher.Kit.Trace
import Matcher.Vectorgen

/-!
# What the corpus generator can draw

Whatever the seed, a round does one of four things: it builds the book with a new order
that no other can meet, takes with one that will not rest, cancels, or replaces. No draw
can go wrong, and a new order's id is one that was never used.
-/

namespace Matcher

open Kit

namespace Vectorgen

/-! ## Draws -/

theorem Rng.below_spec (r : Rng) (n : UInt64) (hn : n ≠ 0) : ∃ r' x, r.below n = some (r', x) ∧
    x < n := by
  refine ⟨r.next.1, r.next.2 % n, if_neg hn, UInt64.mod_lt _ ?_⟩
  exact UInt64.pos_iff_ne_zero.mpr hn

theorem Rng.range_spec (r : Rng) (lo hi : Price) (hlo : 0 ≤ lo) (hlt : lo < hi) :
    ∃ r' p, r.range lo hi = some (r', p) ∧ lo ≤ p ∧ p < hi := by
  have hlo' := Int64.le_iff_toInt_le.mp hlo
  have hlt' := Int64.lt_iff_toInt_lt.mp hlt
  have h0 : (0 : Int64).toInt = 0 := rfl
  have hhi := Int64.toInt_lt hi
  have hwidth := Int64.toInt_sub_of_le hi lo hlo (Int64.le_of_lt hlt)
  have hnat : (hi - lo).toUInt64.toNat = (hi.toInt - lo.toInt).toNat := by
    rw [Int64.toNat_toUInt64_of_le (Int64.le_iff_toInt_le.mpr (by omega)), Int64.toNatClampNeg,
      hwidth]
  have hne : (hi - lo).toUInt64 ≠ 0 := by
    intro h
    rw [h, UInt64.toNat_zero] at hnat
    omega
  obtain ⟨r', x, hbelow, hx⟩ := r.below_spec _ hne
  have hxlt := UInt64.lt_iff_toNat_lt.mp hx
  have hxint : x.toInt64.toInt = x.toNat := by
    rw [← UInt64.ofNat_toNat (x := x), UInt64.toInt64_ofNat', Int64.toInt_ofNat_of_lt (by omega),
      UInt64.ofNat_toNat]
  have hsum : (lo + x.toInt64).toInt = lo.toInt + x.toNat := by
    rw [Int64.toInt_add, hxint, Int.bmod_eq_of_le (by omega) (by omega)]
  refine ⟨r', lo + x.toInt64, ?_, ?_, ?_⟩
  · unfold Rng.range
    rw [hbelow]
    rfl
  · rw [Int64.le_iff_toInt_le]
    omega
  · rw [Int64.lt_iff_toInt_lt]
    omega

theorem Rng.randSide_spec (r : Rng) : ∃ r' s, r.randSide = some (r', s) := by
  obtain ⟨r', x, hbelow, _⟩ := r.below_spec 2 (by decide)
  refine ⟨r', if x = 0 then .bid else .ask, ?_⟩
  unfold Rng.randSide
  rw [hbelow]
  rfl

theorem succ_ne_zero {q n : UInt64} (h : q < n) : q + 1 ≠ 0 := by
  have hlt := UInt64.lt_iff_toNat_lt.mp h
  have hn := n.toNat_lt
  intro hzero
  have hsum := congrArg UInt64.toNat hzero
  rw [UInt64.toNat_add, UInt64.toNat_one, UInt64.toNat_zero, Nat.mod_eq_of_lt (by omega)] at hsum
  omega

/-! ## Rounds -/

/-- A price of the header's range. -/
def InRange (p : Price) : Prop := PMIN ≤ p ∧ p ≤ PMAX

/-- A price on its own side of the middle. -/
def Apart : Side → Price → Prop
  | .bid, p => PMIN ≤ p ∧ p < MID
  | .ask, p => MID < p ∧ p ≤ PMAX

theorem Apart.inRange {s : Side} {p : Price} (h : Apart s p) : InRange p := by
  cases s with
  | bid => exact ⟨h.1, Int64.le_of_lt (Int64.lt_trans h.2 (by decide))⟩
  | ask => exact ⟨Int64.le_of_lt (Int64.lt_trans (by decide) h.1), h.2⟩

/-- A quote never leaves its side of the middle. -/
theorem Rng.quote_spec (r : Rng) (s : Side) : ∃ r' p, r.quote s = some (r', p) ∧ Apart s p := by
  cases s with
  | bid =>
    obtain ⟨r', p, hrange, hge, hlt⟩ := r.range_spec (MID - 5000) (MID - 1) (by decide) (by decide)
    exact ⟨r', p, hrange, Int64.le_trans (by decide) hge, Int64.lt_trans hlt (by decide)⟩
  | ask =>
    obtain ⟨r', p, hrange, hge, hlt⟩ := r.range_spec (MID + 1) (MID + 5000) (by decide) (by decide)
    exact ⟨r', p, hrange, Int64.lt_of_lt_of_le (by decide) hge,
      Int64.le_of_lt (Int64.lt_trans hlt (by decide))⟩

/-- What a taker pays at most lies in the range too. -/
theorem inRange_through {x : Price} (h1 : 1 ≤ x) (h2 : x < 200) (s : Side) :
    InRange (through s x) := by
  have h1' := Int64.le_iff_toInt_le.mp h1
  have h2' := Int64.lt_iff_toInt_lt.mp h2
  have hone : (1 : Int64).toInt = 1 := rfl
  have htop : (200 : Int64).toInt = 200 := rfl
  have hmid : MID.toInt = 500000 := rfl
  have hmin : PMIN.toInt = 0 := rfl
  have hmax : PMAX.toInt = 1000000 := rfl
  unfold InRange through
  rw [Int64.le_iff_toInt_le, Int64.le_iff_toInt_le]
  cases s with
  | bid =>
    have hsum : (MID + x).toInt = MID.toInt + x.toInt := by
      rw [Int64.toInt_add, Int.bmod_eq_of_le (by omega) (by omega)]
    dsimp only
    omega
  | ask =>
    have hdiff : (MID - x).toInt = MID.toInt - x.toInt := by
      rw [Int64.toInt_sub, Int.bmod_eq_of_le (by omega) (by omega)]
    dsimp only
    omega

/-- The line of a command, with its line break. -/
def Command.line (c : Command) : Text := c.writeCanonical ++ ['\n']

/-- Is it an order that stays in the book? -/
def Command.Builds (c : Command) : Prop := ∃ id side price qty, c = .limit id side price qty .gtc

/-- Is it an order of its own, not a change to another one? -/
def Command.IsNew (c : Command) : Prop :=
  ∃ id side otype price qty tif, c = .new id side otype price qty tif

theorem Command.Builds.isNew {c : Command} (h : c.Builds) : c.IsNew := by
  obtain ⟨id, side, price, qty, rfl⟩ := h
  exact ⟨id, side, .limit, price, qty, .gtc, rfl⟩

theorem length_digits {n k : Nat} (hk : 0 < k) (h : n < 10 ^ k) : (digits n).length ≤ k :=
  (Nat.length_toDigits_le_iff (by decide) hk).mpr h

theorem length_price (p : Price) : (Price.text p).length ≤ 20 := by
  have hlow := p.le_toInt
  have hhigh := p.toInt_lt
  have habs : (digits p.toInt.natAbs).length ≤ 19 := length_digits (by decide) (by omega)
  unfold Price.text
  split
  · rw [List.length_cons]
    omega
  · omega

/-- A line has at most twice the eighty bytes that are reserved for it. -/
theorem Command.length_line (c : Command) : c.line.length ≤ 160 := by
  have hdigits : ∀ n : UInt64, (digits n.toNat).length ≤ 20 := by
    intro n
    have hlt := n.toNat_lt
    exact length_digits (by decide) (by omega)
  have hside : ∀ s : Side, s.text.length = 3 := by
    intro s
    cases s <;> rfl
  have hotype : ∀ t : OType, t.text.length ≤ 6 := by
    intro t
    cases t <;> decide
  have htif : ∀ t : Tif, t.text.length ≤ 9 := by
    intro t
    cases t <;> decide
  cases c with
  | new id side otype price qty tif =>
    have hid := hdigits id
    have hqty := hdigits qty
    have hprice := length_price price
    have hside := hside side
    have hotype := hotype otype
    have htif := htif tif
    dsimp only [Command.line, Command.writeCanonical]
    generalize digits id.toNat = idText at hid ⊢
    generalize digits qty.toNat = qtyText at hqty ⊢
    generalize Price.text price = priceText at hprice ⊢
    generalize side.text = sideText at hside ⊢
    generalize otype.text = otypeText at hotype ⊢
    generalize tif.text = tifText at htif ⊢
    simp
    omega
  | cancel id =>
    have hid := hdigits id
    dsimp only [Command.line, Command.writeCanonical]
    generalize digits id.toNat = idText at hid ⊢
    simp
    omega
  | replace id price qty =>
    have hid := hdigits id
    have hqty := hdigits qty
    have hprice := length_price price
    dsimp only [Command.line, Command.writeCanonical]
    generalize digits id.toNat = idText at hid ⊢
    generalize digits qty.toNat = qtyText at hqty ⊢
    generalize Price.text price = priceText at hprice ⊢
    simp
    omega

theorem emit_out (g : Gen) (c : Command) : (g.emit c).out = c.line := rfl

/-- What a round does. No id it gives out is above `K`. -/
inductive Deals (K : Nat) (g : Gen) : Command → Gen → Prop where
  | build {side : Side} {price : Price} {qty : Qty} {g' : Gen} (hroom : g.nextId.toNat ≤ K)
      (hprice : Apart side price) (hqty : qty ≠ 0) (hnext : g'.nextId.toNat = g.nextId.toNat + 1)
        (hlive : g'.live = g.live ++ [g.nextId]) :
      Deals K g (.limit g.nextId side price qty .gtc) g'
  | take {side : Side} {otype : OType} {price : Price} {qty : Qty} {g' : Gen}
      (hroom : g.nextId.toNat ≤ K) (hprice : InRange price) (hqty : qty ≠ 0) (hnext :
        g'.nextId.toNat = g.nextId.toNat + 1) (hlive : g'.live = g.live) :
      Deals K g (.new g.nextId side otype price qty .ioc) g'
  | kill {id : OrderId} {g' : Gen} (hnext : g'.nextId = g.nextId)
      (hlive : g'.live.length < g.live.length) :
      Deals K g (.cancel id) g'
  | churn {id : OrderId} {price : Price} {qty : Qty} {g' : Gen} (hprice : InRange price)
      (hqty : qty ≠ 0) (hnext : g'.nextId = g.nextId) (hlive : g'.live = g.live) :
      Deals K g (.replace id price qty) g'

/-- Room for `n` more rounds. -/
structure Room (K n : Nat) (g : Gen) : Prop where
  live : g.live.length < g.nextId.toNat
  next : g.nextId.toNat + n ≤ K + 1

section Rounds

variable {K n : Nat} {g g' : Gen} {c : Command}

theorem Deals.room (hd : Deals K g c g') (h : Room K (n + 1) g) : Room K n g' := by
  obtain ⟨hlive, hnext⟩ := h
  cases hd with
  | build _ _ _ hnext' hlive' =>
    refine ⟨?_, by omega⟩
    rw [hlive', List.length_append, List.length_singleton]
    omega
  | take _ _ _ hnext' hlive' =>
    refine ⟨?_, by omega⟩
    rw [hlive']
    omega
  | kill hnext' hlive' =>
    rw [← hnext'] at hlive hnext
    exact ⟨by omega, by omega⟩
  | churn _ _ hnext' hlive' =>
    rw [← hnext'] at hlive hnext
    rw [← hlive'] at hlive
    exact ⟨hlive, by omega⟩

/-- The id that follows. -/
theorem Room.succ (hK : K + 1 < 2 ^ 64) (h : Room K (n + 1) g) :
    (g.nextId + 1).toNat = g.nextId.toNat + 1 := by
  have hnext := h.next
  rw [UInt64.toNat_add, UInt64.toNat_one, Nat.mod_eq_of_lt (by omega)]

theorem add_eq {r1 r2 : Rng} {s : Side} {lo hi price : Price} {qmax q : UInt64}
    (hrange : g.rng.range lo hi = some (r1, price)) (hqty : r1.below qmax = some (r2, q)) :
    g.add s lo hi qmax =
      some (⟨r2, g.nextId + 1, g.live ++ [g.nextId],
        (Command.limit g.nextId s price (q + 1) .gtc).line⟩,
          (Command.limit g.nextId s price (q + 1) .gtc).line) := by
  unfold Gen.add
  simp only [hrange, hqty, Option.bind_eq_bind, Option.bind_some]
  rfl

theorem build_spec (hK : K + 1 < 2 ^ 64) (h : Room K (n + 1) g) :
    ∃ c g', g.build = some (g', c.line) ∧ Deals K g c g' ∧ c.Builds := by
  have hnext := h.next
  obtain ⟨r1, s, hside⟩ := g.rng.randSide_spec
  obtain ⟨r2, price, hquote, hprice⟩ := r1.quote_spec s
  obtain ⟨r3, q, hqty, hq⟩ := r2.below_spec 100 (by decide)
  have hbuild : g.build = Gen.addCmd { g with rng := r1 } s 1 5000 100 := by
    unfold Gen.build
    simp only [hside, Option.bind_eq_bind, Option.bind_some]
  -- an order is priced as a replace is: a quote draws from the same ticks
  have hadd : Gen.addCmd { g with rng := r1 } s 1 5000 100 =
      some (⟨r3, g.nextId + 1, g.live ++ [g.nextId],
        (Command.limit g.nextId s price (q + 1) .gtc).line⟩,
          (Command.limit g.nextId s price (q + 1) .gtc).line) := by
    cases s with
    | bid => exact add_eq hquote hqty
    | ask => exact add_eq hquote hqty
  refine ⟨_, _, hbuild.trans hadd, .build ?_ hprice (succ_ne_zero hq) (h.succ hK) rfl, _, _, _, _,
    rfl⟩
  omega

/-- An index that is drawn is one of the list. -/
theorem drawn_spec (hK : K + 1 < 2 ^ 64) (h : Room K (n + 1) g) (hne : g.live ≠ []) :
    ∃ r i id, g.rng.below (UInt64.ofNat g.live.length) = some (r, i) ∧ i.toNat < g.live.length ∧
      g.live[i.toNat]? = some id := by
  have hlive := h.live
  have hnext := h.next
  have hpos := List.length_pos_iff.mpr hne
  -- the length is a 64-bit number: there is an id for each of the list
  have hlen : (UInt64.ofNat g.live.length).toNat = g.live.length := UInt64.toNat_ofNat_of_lt' (by
    show g.live.length < 2 ^ 64
    omega)
  have hne' : UInt64.ofNat g.live.length ≠ 0 := by
    intro hzero
    rw [hzero, UInt64.toNat_zero] at hlen
    omega
  obtain ⟨r, i, hbelow, hi⟩ := g.rng.below_spec _ hne'
  have hi' := UInt64.lt_iff_toNat_lt.mp hi
  rw [hlen] at hi'
  exact ⟨r, i, g.live[i.toNat], hbelow, hi', List.getElem?_eq_getElem hi'⟩

theorem kill_spec (hK : K + 1 < 2 ^ 64) (h : Room K (n + 1) g) (hne : g.live ≠ []) :
    ∃ c g', g.kill = some (g', c.line) ∧ Deals K g c g' := by
  obtain ⟨r, i, id, hbelow, hi, hid⟩ := drawn_spec hK h hne
  unfold Gen.kill Gen.killLive
  simp only [hbelow, hid, List.getLast?_eq_getLast_of_ne_nil hne, Option.bind_eq_bind,
    Option.bind_some, Option.pure_def, emit_out]
  refine ⟨.cancel id, _, rfl, .kill rfl ?_⟩
  simp only [Gen.emit, List.length_dropLast, List.length_set]
  omega

theorem churn_spec (hK : K + 1 < 2 ^ 64) (h : Room K (n + 1) g) (hne : g.live ≠ []) :
    ∃ c g', g.churn = some (g', c.line) ∧ Deals K g c g' := by
  obtain ⟨r1, i, id, hbelow, hi, hid⟩ := drawn_spec hK h hne
  obtain ⟨r2, s, hside⟩ := r1.randSide_spec
  obtain ⟨r3, price, hquote, hprice⟩ := r2.quote_spec s
  obtain ⟨r4, q, hqty, hq⟩ := r3.below_spec 100 (by decide)
  have hpick : g.pickLive = some ({ g with rng := r1 }, id) := by
    unfold Gen.pickLive
    simp only [hbelow, hid, Option.bind_eq_bind, Option.bind_some, Option.pure_def]
  unfold Gen.churn
  rw [hpick, Option.bind_eq_bind, Option.bind_some]
  dsimp only
  rw [hside, Option.bind_eq_bind, Option.bind_some]
  dsimp only
  rw [hquote, Option.bind_eq_bind, Option.bind_some]
  dsimp only
  rw [hqty, Option.bind_eq_bind, Option.bind_some]
  exact ⟨.replace id price (q + 1), _, rfl, .churn hprice.inRange (succ_ne_zero hq) rfl rfl⟩

theorem take_spec (hK : K + 1 < 2 ^ 64) (h : Room K (n + 1) g) :
    ∃ c g', g.take = some (g', c.line) ∧ Deals K g c g' := by
  have hnext := h.next
  obtain ⟨r1, s, hside⟩ := g.rng.randSide_spec
  obtain ⟨r2, q, hqty, hq⟩ := r1.below_spec 50 (by decide)
  obtain ⟨r3, x, hrange, hge, hlt⟩ := r2.range_spec 1 100 (by decide) (by decide)
  unfold Gen.take
  simp only [hside, hqty, hrange, Option.bind_eq_bind, Option.bind_some, Option.pure_def, emit_out]
  refine ⟨.new g.nextId s .limit (through s x) (q + 1) .ioc, _, rfl,
    .take (by omega) ?_ (succ_ne_zero hq) (h.succ hK) rfl⟩
  exact inRange_through hge (Int64.lt_trans hlt (by decide)) s

theorem w2_spec (hK : K + 1 < 2 ^ 64) (h : Room K (n + 1) g) :
    ∃ c g', g.w2 = some (g', c.line) ∧ Deals K g c g' ∧ c.IsNew := by
  have hnext := h.next
  obtain ⟨r1, s, hside⟩ := g.rng.randSide_spec
  obtain ⟨r2, q, hqty, hq⟩ := r1.below_spec 50 (by decide)
  obtain ⟨r3, r, hkind, _⟩ := r2.below_spec 10 (by decide)
  unfold Gen.w2
  dsimp only
  rw [hside, Option.bind_eq_bind, Option.bind_some]
  dsimp only
  rw [hqty, Option.bind_eq_bind, Option.bind_some]
  dsimp only
  rw [hkind, Option.bind_eq_bind, Option.bind_some]
  dsimp only
  split
  · refine ⟨.market g.nextId s (q + 1), _, rfl, ?_, ?_⟩
    · exact .take (by omega) ⟨by decide, by decide⟩ (succ_ne_zero hq) (h.succ hK) rfl
    exact ⟨_, _, _, _, _, _, rfl⟩
  · obtain ⟨r4, x, hrange, hge, hlt⟩ := r3.range_spec 1 200 (by decide) (by decide)
    rw [hrange, Option.bind_some]
    refine ⟨.new g.nextId s .limit (through s x) (q + 1) .ioc, _, rfl, ?_, ?_⟩
    · exact .take (by omega) (inRange_through hge hlt s) (succ_ne_zero hq) (h.succ hK) rfl
    exact ⟨_, _, _, _, _, _, rfl⟩

/-- A draw changes nothing that a round depends on. -/
theorem Room.redraw (h : Room K n g) (r : Rng) : Room K n { g with rng := r } := ⟨h.live, h.next⟩

theorem Deals.redraw {r : Rng} (h : Deals K { g with rng := r } c g') : Deals K g c g' := by
  cases h with
  | build hroom hprice hqty hnext hlive => exact .build hroom hprice hqty hnext hlive
  | take hroom hprice hqty hnext hlive => exact .take hroom hprice hqty hnext hlive
  | kill hnext hlive => exact .kill hnext hlive
  | churn hprice hqty hnext hlive => exact .churn hprice hqty hnext hlive

theorem w3_spec (hK : K + 1 < 2 ^ 64) (h : Room K (n + 1) g) : ∃ c g', g.w3 = some (g', c.line) ∧
    Deals K g c g' := by
  obtain ⟨r, x, hdraw, _⟩ := g.rng.below_spec 100 (by decide)
  have hroom := h.redraw r
  unfold Gen.w3
  rw [hdraw, Option.bind_eq_bind, Option.bind_some]
  dsimp only
  split
  · next hkill =>
    obtain ⟨c, g', hrun, hdeal⟩ := kill_spec hK hroom hkill.2
    exact ⟨c, g', hrun, hdeal.redraw⟩
  split
  · next hchurn =>
    obtain ⟨c, g', hrun, hdeal⟩ := churn_spec hK hroom hchurn.2
    exact ⟨c, g', hrun, hdeal.redraw⟩
  · obtain ⟨c, g', hrun, hdeal, _⟩ := build_spec hK hroom
    exact ⟨c, g', hrun, hdeal.redraw⟩

theorem w4_spec (hK : K + 1 < 2 ^ 64) (h : Room K (n + 1) g) : ∃ c g', g.w4 = some (g', c.line) ∧
    Deals K g c g' := by
  obtain ⟨r, x, hdraw, _⟩ := g.rng.below_spec 100 (by decide)
  have hroom := h.redraw r
  unfold Gen.w4
  rw [hdraw, Option.bind_eq_bind, Option.bind_some]
  dsimp only
  split
  · next hchurn =>
    obtain ⟨c, g', hrun, hdeal⟩ := churn_spec hK hroom hchurn.2
    exact ⟨c, g', hrun, hdeal.redraw⟩
  split
  · next hkill =>
    obtain ⟨c, g', hrun, hdeal⟩ := kill_spec hK hroom hkill.2
    exact ⟨c, g', hrun, hdeal.redraw⟩
  split
  · obtain ⟨c, g', hrun, hdeal⟩ := take_spec hK hroom
    exact ⟨c, g', hrun, hdeal.redraw⟩
  · obtain ⟨c, g', hrun, hdeal, _⟩ := build_spec hK hroom
    exact ⟨c, g', hrun, hdeal.redraw⟩

/-- What a round of this workload does. -/
structure Plays (workload : Text) (K : Nat) (g : Gen) (c : Command) (g' : Gen) : Prop where
  deals : Deals K g c g'
  builds : workload = "w1".toList → c.Builds
  isNew : workload = "w1".toList ∨ workload = "w2".toList → c.IsNew

/-- The workloads there are. -/
def workloads : List Text := ["w1".toList, "w2".toList, "w3".toList, "w4".toList, "w5".toList]

theorem round_spec {w : Text} (hw : w ∈ workloads) (hK : K + 1 < 2 ^ 64) (h : Room K (n + 1) g) :
    ∃ c g', g.round w = some (g', c.line) ∧ Plays w K g c g' := by
  unfold Gen.round
  split
  · obtain ⟨c, g', hrun, hdeal, hbuilds⟩ := build_spec hK h
    exact ⟨c, g', hrun, hdeal, fun _ => hbuilds, fun _ => hbuilds.isNew⟩
  next h1 =>
  split
  · obtain ⟨c, g', hrun, hdeal, hnew⟩ := w2_spec hK h
    exact ⟨c, g', hrun, hdeal, fun hw1 => absurd hw1 h1, fun _ => hnew⟩
  next h2 =>
  have hother : ¬ (w = "w1".toList ∨ w = "w2".toList) := not_or.mpr ⟨h1, h2⟩
  split
  · obtain ⟨c, g', hrun, hdeal⟩ := w3_spec hK h
    exact ⟨c, g', hrun, hdeal, fun hw1 => absurd hw1 h1, fun hnew => absurd hnew hother⟩
  next h3 =>
  have h45 : w = "w4".toList ∨ w = "w5".toList := by
    simpa only [workloads, List.mem_cons, List.not_mem_nil, or_false, h1, h2, h3, false_or] using hw
  rw [if_pos h45]
  obtain ⟨c, g', hrun, hdeal⟩ := w4_spec hK h
  exact ⟨c, g', hrun, hdeal, fun hw1 => absurd hw1 h1, fun hnew => absurd hnew hother⟩

end Rounds

theorem withCapacity_eq {size : Nat} {n : UInt64} (h : size * n.toNat ≤ maxBytes) :
    withCapacity size n = some () := if_neg (Nat.not_lt.mpr h)

/-- The room for the live ids and for the texts is there. -/
theorem reserves {a : Args} (hsize : a.setup.toNat + a.n.toNat + 16 ≤ 2 ^ 55) :
    withCapacity 8 (a.setup + a.n / 4 + 16) = some () ∧ withCapacity 1 (a.setup * 80) = some () ∧
      withCapacity 1 (a.n * 80) = some () := by
  have h4 : (4 : UInt64).toNat = 4 := rfl
  have h16 : (16 : UInt64).toNat = 16 := rfl
  have h80 : (80 : UInt64).toNat = 80 := rfl
  refine ⟨withCapacity_eq ?_, withCapacity_eq ?_, withCapacity_eq ?_⟩
  · rw [UInt64.toNat_add, UInt64.toNat_add, UInt64.toNat_div, h4, h16, maxBytes]
    omega
  · rw [UInt64.toNat_mul, h80, Nat.mod_eq_of_lt (by omega), maxBytes]
    omega
  · rw [UInt64.toNat_mul, h80, Nat.mod_eq_of_lt (by omega), maxBytes]
    omega

/-- The two phases never go wrong, and write the lines of what they did. -/
theorem generate_spec {a : Args} (hw : a.workload ∈ workloads)
    (hsize : a.setup.toNat + a.n.toNat + 16 ≤ 2 ^ 55) :
    ∃ corpus setup run, generate a = some corpus ∧ corpus.setup = setup.flatMap Command.line ∧
      corpus.run = run.flatMap Command.line ∧ setup.length = a.setup.toNat ∧
      run.length = a.n.toNat ∧
      Trace (Plays "w1".toList (a.setup.toNat + a.n.toNat)) { rng := ⟨a.seed ||| 1⟩ } setup
        corpus.atSetup ∧
      Trace (Plays a.workload (a.setup.toNat + a.n.toNat)) corpus.atSetup run corpus.atEnd := by
  have hK : a.setup.toNat + a.n.toNat + 1 < 2 ^ 64 := by omega
  have hroom : Room (a.setup.toNat + a.n.toNat) ((List.range a.setup.toNat).length + a.n.toNat)
      { rng := ⟨a.seed ||| 1⟩ } := by
    rw [List.length_range]
    exact ⟨Nat.one_pos, Nat.le_of_eq (Nat.add_comm _ _)⟩
  have hbuild : ∀ n g (_ : Nat), Room (a.setup.toNat + a.n.toNat) (n + 1) g →
      ∃ c g', g.build = some (g', c.line) ∧ Plays "w1".toList (a.setup.toNat + a.n.toNat) g c g' ∧
      Room (a.setup.toNat + a.n.toNat) n g' := by
    intro n g _ hg
    obtain ⟨c, g', hrun, hdeal, hbuilds⟩ := build_spec hK hg
    exact ⟨c, g', hrun, ⟨hdeal, fun _ => hbuilds, fun _ => hbuilds.isNew⟩, hdeal.room hg⟩
  have hround : ∀ n g (_ : Nat), Room (a.setup.toNat + a.n.toNat) (n + 1) g →
      ∃ c g', g.round a.workload = some (g', c.line) ∧
        Plays a.workload (a.setup.toNat + a.n.toNat) g c g' ∧
        Room (a.setup.toNat + a.n.toNat) n g' := by
    intro n g _ hg
    obtain ⟨c, g', hrun, hplays⟩ := round_spec hw hK hg
    exact ⟨c, g', hrun, hplays, hplays.deals.room hg⟩
  obtain ⟨setup, g, hsetup, htrace, hlength, hroom'⟩ := runAll_trace hbuild _ hroom
  have hroom'' : Room (a.setup.toNat + a.n.toNat) ((List.range a.n.toNat).length + 0) g := by
    rwa [List.length_range]
  obtain ⟨run, g', hrun, htrace', hlength', _⟩ := runAll_trace hround _ hroom''
  rw [List.length_range] at hlength hlength'
  refine ⟨⟨g, setup.flatMap Command.line, g', run.flatMap Command.line⟩, setup, run, ?_, rfl, rfl,
    hlength, hlength', htrace, htrace'⟩
  obtain ⟨hlive, hsetupText, hrunText⟩ := reserves hsize
  unfold generate rounds
  rw [hlive, hsetupText, hrunText, hsetup, Option.bind_eq_bind, Option.bind_some, Option.bind_some,
    Option.bind_some, Option.bind_eq_bind, Option.bind_some]
  dsimp only
  rw [hrun, Option.bind_some]
  rfl

end Vectorgen

end Matcher
