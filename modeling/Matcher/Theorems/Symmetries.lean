import Matcher.Logic.MarketSim
import Matcher.Theorems.CrossStructure
import Matcher.Theorems.DerivedOrders

/-!
# What the book cannot know

Ids are names, prices are places in an order, and the sides are alike. So to rename the
orders, to move the prices, or to exchange buying and selling with the order of the prices
turned round gives the same run under other names, whatever hash table, bitmap or tree the
orders are kept in.
-/

namespace Matcher

open Kit

/-- Does `fillable` count an order at the price `q`, for an order with the limit `p`? -/
def Spec.Counted (cfg : BookConfig) (s : Side) (p q : Price) : Prop :=
  match s with
  | .bid => OrderBook.fillLo cfg ≤ q ∧ q ≤ p
  | .ask => p ≤ q ∧ q ≤ OrderBook.fillHi cfg

instance decidableCounted (cfg : BookConfig) : (s : Side) → (p q : Price) →
    Decidable (Spec.Counted cfg s p q)
  | .bid, p, q => inferInstanceAs (Decidable (OrderBook.fillLo cfg ≤ q ∧ q ≤ p))
  | .ask, p, q => inferInstanceAs (Decidable (p ≤ q ∧ q ≤ OrderBook.fillHi cfg))

/-- Another way to write the same orders down, for a book with another configuration. -/
structure Symmetry (cfg cfg' : BookConfig) where
  id : OrderId → OrderId
  side : Side → Side
  price : Price → Price
  id_inj : Function.Injective id
  side_opposite : ∀ s, side (opposite s) = opposite (side s)
  valid : ∀ p, Spec.validPrice cfg' (price p) = Spec.validPrice cfg p
  better : ∀ s p q, Spec.validPrice cfg p = true → Spec.validPrice cfg q = true →
    (Better (side s) (price p) (price q) ↔ Better s p q)
  /-- `fillable` counts the same. -/
  counted : ∀ s p q, Spec.validPrice cfg p = true → Spec.validPrice cfg q = true →
    (Spec.Counted cfg' (side s) (price p) (price q) ↔ Spec.Counted cfg s p q)
  orders : cfg'.maxOrders = cfg.maxOrders

namespace Symmetry

variable {cfg cfg' : BookConfig}

def order (g : Symmetry cfg cfg') (o : Spec.Order) : Spec.Order :=
  { o with orderId := g.id o.orderId, price := g.price o.price }

def command (g : Symmetry cfg cfg') (c : Command) : Command :=
  { c with orderId := g.id c.orderId, side := g.side c.side, price := g.price c.price }

def event (g : Symmetry cfg cfg') : Event → Event
  | .accepted id leaves => .accepted (g.id id) leaves
  | .rejected id r => .rejected (g.id id) r
  | .trade maker taker p q => .trade (g.id maker) (g.id taker) (g.price p) q
  | .closed id r => .closed (g.id id) r
  | .replaced id p q => .replaced (g.id id) (g.price p) q

/-- The lists `R'` are the lists `R` written down the other way. -/
def Images (g : Symmetry cfg cfg') (R R' : Spec.Book) : Prop :=
  ∀ s, R'.side (g.side s) = (R.side s).map g.order

section Step

variable (g : Symmetry cfg cfg') {R R' : Spec.Book} {s : Side} {os : List Spec.Order} {l p : Price}

theorem side_inj {s s' : Side} : g.side s = g.side s' ↔ s = s' := by
  constructor
  · intro h
    rcases Spec.side_eq_or s s' with rfl | rfl
    · rfl
    · rw [g.side_opposite] at h
      exact absurd h.symm (OrderBook.opposite_ne _)
  · intro h
    rw [h]

theorem exists_side (s' : Side) : ∃ s, g.side s = s' := by
  rcases Spec.side_eq_or (g.side .bid) s' with rfl | rfl
  · exact ⟨.bid, rfl⟩
  · exact ⟨.ask, g.side_opposite .bid⟩

/-- Two prices that are valid are not written down alike. -/
theorem price_inj {p q : Price} (hp : Spec.validPrice cfg p = true)
    (hq : Spec.validPrice cfg q = true) :
    g.price p = g.price q ↔ p = q := by
  constructor
  · intro h
    rcases trichotomous_of (Better .bid) p q with hlt | heq | hlt
    · have himage := (g.better .bid p q hp hq).mpr hlt
      rw [h] at himage
      exact absurd himage (irrefl_of (Better (g.side .bid)) _)
    · exact heq
    · have himage := (g.better .bid q p hq hp).mpr hlt
      rw [h] at himage
      exact absurd himage (irrefl_of (Better (g.side .bid)) _)
  · intro h
    rw [h]

theorem admits (hl : Spec.validPrice cfg l = true) (hp : Spec.validPrice cfg p = true) :
    Spec.admits (g.side s) (some (g.price l)) (g.price p) = Spec.admits s (some l) p := by
  have hiff : ∀ (s : Side) (l p : Price), Spec.admits s (some l) p = decide (¬ Better s p l) := by
    intro s l p
    cases s with
    | bid => exact decide_eq_decide.mpr Int64.not_lt.symm
    | ask => exact decide_eq_decide.mpr Int64.not_lt.symm
  rw [hiff, hiff]
  exact decide_eq_decide.mpr (not_congr (g.better s p l hp hl))

theorem fill {limit : Option Price} (hlimit : ∀ l ∈ limit, Spec.validPrice cfg l = true)
    (hos : ∀ o ∈ os, Spec.validPrice cfg o.price = true) (taker : OrderId) (qty : Qty) :
    Spec.fill (g.side s) (limit.map g.price) (g.id taker) (os.map g.order) qty =
      ((Spec.fill s limit taker os qty).1.map g.order, (Spec.fill s limit taker os qty).2.1,
        (Spec.fill s limit taker os qty).2.2.map g.event) := by
  induction os generalizing qty with
  | nil => rfl
  | cons o os ih =>
    have hfirst : Spec.admits (g.side s) (limit.map g.price) (g.order o).price =
        Spec.admits s limit o.price := by
      cases limit with
      | none => cases s <;> cases g.side _ <;> rfl
      | some l => exact g.admits (hlimit l rfl) (hos o List.mem_cons_self)
    have hqty : (g.order o).qty = o.qty := rfl
    rw [List.map_cons]
    unfold Spec.fill
    rw [hfirst, hqty, ih fun o' ho' => hos o' (List.mem_cons_of_mem o ho')]
    split
    · rfl
    split <;> rfl

theorem insertBack {o : Spec.Order} (ho : Spec.validPrice cfg o.price = true)
    (hos : ∀ o ∈ os, Spec.validPrice cfg o.price = true) :
    Spec.insertBack (g.side s) (g.order o) (os.map g.order) =
      (Spec.insertBack s o os).map g.order := by
  induction os with
  | nil => rfl
  | cons x xs ih =>
    have hbetter : Better (g.side s) (g.order o).price (g.order x).price ↔
        Better s o.price x.price :=
      g.better s o.price x.price ho (hos x List.mem_cons_self)
    rw [List.map_cons]
    unfold Spec.insertBack
    by_cases h : Better s o.price x.price
    · rw [if_pos h, if_pos (hbetter.mpr h)]
      rfl
    · rw [if_neg h, if_neg (mt hbetter.mp h), ih fun y hy => hos y (List.mem_cons_of_mem x hy)]
      rfl

theorem crosses (hp : Spec.validPrice cfg p = true)
    (hos : ∀ o ∈ os, Spec.validPrice cfg o.price = true) :
    Spec.crosses (g.side s) (g.price p) (os.map g.order) = Spec.crosses s p os := by
  cases os with
  | nil => rfl
  | cons o os => exact g.admits hp (hos o List.mem_cons_self)

variable {g}

theorem Images.set (h : g.Images R R') (s : Side) (os : List Spec.Order) :
    g.Images (R.set s os) (R'.set (g.side s) (os.map g.order)) := by
  intro s'
  rcases Spec.side_eq_or s s' with rfl | rfl
  · rw [Spec.Book.side_set, Spec.Book.side_set]
  · rw [g.side_opposite, Spec.Book.side_set_opposite, Spec.Book.side_set_opposite,
      ← g.side_opposite]
    exact h _

theorem Images.remove (h : g.Images R R') (s : Side) (id : OrderId) :
    g.Images (R.remove s id) (R'.remove (g.side s) (g.id id)) := by
  unfold Spec.Book.remove
  have hkeep : (R'.side (g.side s)).filter (fun o => o.orderId ≠ g.id id) =
      ((R.side s).filter fun o => o.orderId ≠ id).map g.order := by
    rw [h s, List.filter_map]
    congr 1
    refine List.filter_congr fun o _ => ?_
    exact decide_eq_decide.mpr (not_congr g.id_inj.eq_iff)
  rw [hkeep]
  exact h.set s _

theorem Images.live (h : g.Images R R') : R'.live = R.live := by
  rw [Spec.live_eq R' (g.side .bid), Spec.live_eq R .bid, ← g.side_opposite, h, h, List.length_map,
    List.length_map]

theorem Images.find (h : g.Images R R') (hR' : Spec.Sound R') (id : OrderId) :
    R'.find (g.id id) = (R.find id).map fun so => (g.side so.1, g.order so.2) := by
  cases hfind : R.find id with
  | none =>
    refine Spec.find_eq_none.mpr fun s' o' ho' heq => ?_
    obtain ⟨s, rfl⟩ := g.exists_side s'
    rw [h s] at ho'
    obtain ⟨o, ho, rfl⟩ := List.mem_map.mp ho'
    exact Spec.find_eq_none.mp hfind s o ho (g.id_inj heq)
  | some so =>
    obtain ⟨s, o⟩ := so
    obtain ⟨ho, hid⟩ := Spec.find_eq_some hfind
    have ho' : g.order o ∈ R'.side (g.side s) := by
      rw [h s]
      exact List.mem_map_of_mem ho
    have hfound := hR'.find_of_mem ho'
    rw [← hid]
    exact hfound

/-- The orders of a side against which the image of an order of the side `s` is matched. -/
theorem Images.against (h : g.Images R R') (s : Side) :
    R'.side (opposite (g.side s)) = (R.side (opposite s)).map g.order := by
  rw [← g.side_opposite]
  exact h _

/-- What an order matches. -/
theorem Images.fill (h : g.Images R R')
    (hpriced : ∀ s, ∀ o ∈ R.side s, Spec.validPrice cfg o.price = true) {limit : Option Price}
    (hlimit : ∀ l ∈ limit, Spec.validPrice cfg l = true) (s : Side) (taker : OrderId) (qty : Qty) :
    Spec.fill (g.side s) (limit.map g.price) (g.id taker) (R'.side (opposite (g.side s))) qty =
      ((Spec.fill s limit taker (R.side (opposite s)) qty).1.map g.order,
        (Spec.fill s limit taker (R.side (opposite s)) qty).2.1,
        (Spec.fill s limit taker (R.side (opposite s)) qty).2.2.map g.event) := by
  rw [h.against]
  exact g.fill hlimit (hpriced _) taker qty

theorem Images.setOpposite (h : g.Images R R') (s : Side) (os : List Spec.Order) :
    g.Images (R.set (opposite s) os) (R'.set (opposite (g.side s)) (os.map g.order)) := by
  rw [← g.side_opposite]
  exact h.set _ os

/-- An order comes to rest. -/
theorem Images.rest (h : g.Images R R') {o : Spec.Order} (ho : Spec.validPrice cfg o.price = true)
    (hos : ∀ x ∈ R.side s, Spec.validPrice cfg x.price = true) :
    g.Images (R.set s (Spec.insertBack s o (R.side s)))
      (R'.set (g.side s) (Spec.insertBack (g.side s) (g.order o) (R'.side (g.side s)))) := by
  rw [h s, g.insertBack ho hos]
  exact h.set s _

variable {available available' : Side → Price → List Spec.Order → Nat}

/-- Both add up the same orders for a fill-or-kill order with a valid price. -/
def Adds (g : Symmetry cfg cfg') (available available' : Side → Price → List Spec.Order → Nat)
    (R R' : Spec.Book) : Prop :=
  ∀ s p, Spec.validPrice cfg p = true →
    available' (g.side s) (g.price p) (R'.side (opposite (g.side s))) =
      available s p (R.side (opposite s))

theorem Images.checkNew (h : g.Images R R') (hR' : Spec.Sound R')
    (hpriced : ∀ s, ∀ o ∈ R.side s, Spec.validPrice cfg o.price = true)
    (hadds : g.Adds available available' R R') (c : Command) :
    Spec.checkNew cfg' available' R' (g.command c) = Spec.checkNew cfg available R c := by
  have hfind := h.find hR' c.orderId
  unfold Spec.checkNew command
  dsimp only
  rw [hfind, g.valid, h.live, g.orders, Option.isSome_map]
  by_cases hlimit : c.otype = .limit
  · cases hvalid : Spec.validPrice cfg c.price with
    | false => simp only [hlimit, true_and, if_true]
    | true => rw [hadds c.side c.price hvalid, h.against, g.crosses hvalid (hpriced _)]
  · simp only [hlimit, false_and, if_false]

theorem Images.newOrder (h : g.Images R R') (hR' : Spec.Sound R')
    (hpriced : ∀ s, ∀ o ∈ R.side s, Spec.validPrice cfg o.price = true)
    (hadds : g.Adds available available' R R') (c : Command) :
    g.Images (Spec.newOrder cfg available R c).1 (Spec.newOrder cfg' available' R'
      (g.command c)).1 ∧ (Spec.newOrder cfg' available' R' (g.command c)).2 =
        (Spec.newOrder cfg available R c).2.map g.event := by
  have hcheck := h.checkNew hR' hpriced hadds c
  unfold Spec.newOrder
  rw [hcheck]
  cases hnone : Spec.checkNew cfg available R c with
  | some r => exact ⟨h, rfl⟩
  | none =>
    obtain ⟨_, hprice, _⟩ := Spec.checkNew_admits hnone
    -- prices are compared within the valid range only
    have hadmit : ∀ l ∈ (if c.otype = .limit then some c.price else none), Spec.validPrice cfg l =
        true := by
      intro l hl
      split at hl
      · next hlimit =>
        cases hl
        exact hprice hlimit
      · cases hl
    have hlimit : (if c.otype = .limit then some (g.price c.price) else none) =
        (if c.otype = .limit then some c.price else none).map g.price := by
      split <;> rfl
    have hfill := h.fill hpriced hadmit c.side c.orderId c.qty
    rw [← hlimit] at hfill
    unfold command
    dsimp only
    rw [hfill]
    generalize Spec.fill c.side (if c.otype = .limit then some c.price else none) c.orderId
      (R.side (opposite c.side)) c.qty = r
    obtain ⟨opp, left, evs⟩ := r
    dsimp only
    have hset := h.setOpposite c.side opp
    by_cases hleft : left = 0
    · rw [if_pos hleft, if_pos hleft]
      exact ⟨hset, by simp [event]⟩
    rw [if_neg hleft, if_neg hleft]
    by_cases hrests : c.otype = .limit ∧ (c.tif = .gtc ∨ c.tif = .postOnly)
    · rw [if_pos hrests, if_pos hrests]
      refine ⟨hset.rest (o := ⟨c.orderId, c.price, left, c.tif⟩) (hprice hrests.1) ?_, by
        simp [event]⟩
      rw [Spec.Book.side_opposite_set]
      exact hpriced c.side
    · rw [if_neg hrests, if_neg hrests]
      exact ⟨hset, by simp [event]⟩

theorem Images.cancel (h : g.Images R R') (hR' : Spec.Sound R') (id : OrderId) :
    g.Images (Spec.cancel R id).1 (Spec.cancel R' (g.id id)).1 ∧
      (Spec.cancel R' (g.id id)).2 = (Spec.cancel R id).2.map g.event := by
  unfold Spec.cancel
  rw [h.find hR']
  cases R.find id with
  | none => exact ⟨h, rfl⟩
  | some so => exact ⟨h.remove so.1 id, rfl⟩

theorem Images.replace (h : g.Images R R') (hR' : Spec.Sound R')
    (hpriced : ∀ s, ∀ o ∈ R.side s, Spec.validPrice cfg o.price = true) (id : OrderId)
    (p : Price) (q : Qty) :
    g.Images (Spec.replace cfg R id p q).1 (Spec.replace cfg' R' (g.id id) (g.price p) q).1 ∧
      (Spec.replace cfg' R' (g.id id) (g.price p) q).2 =
        (Spec.replace cfg R id p q).2.map g.event := by
  unfold Spec.replace
  rw [h.find hR']
  cases hfind : R.find id with
  | none => exact ⟨h, rfl⟩
  | some so =>
    obtain ⟨s, o⟩ := so
    obtain ⟨ho, _⟩ := Spec.find_eq_some hfind
    have hqty : (g.order o).qty = o.qty := rfl
    have htif : (g.order o).tif = o.tif := rfl
    dsimp only [Option.map_some]
    rw [g.valid, hqty, htif]
    by_cases hzero : q = 0
    · rw [if_pos hzero, if_pos hzero]
      exact ⟨h, rfl⟩
    rw [if_neg hzero, if_neg hzero]
    cases hvalid : Spec.validPrice cfg p with
    | false => exact ⟨h, rfl⟩
    | true =>
      have hprice : g.price p = (g.order o).price ↔ p = o.price :=
        g.price_inj hvalid (hpriced s o ho)
      simp only [reduceCtorEq, if_false, hprice]
      by_cases hkeep : p = o.price ∧ q ≤ o.qty
      · -- in its place: the same list with one quantity changed
        rw [if_pos hkeep, if_pos hkeep]
        refine ⟨?_, rfl⟩
        have hmap : (R'.side (g.side s)).map
              (fun x => if x.orderId = g.id id then { x with qty := q } else x) =
            ((R.side s).map fun x =>
              if x.orderId = id then { x with qty := q } else x).map g.order := by
          rw [h s, List.map_map, List.map_map]
          refine List.map_congr_left fun x _ => ?_
          have hid : (g.order x).orderId = g.id id ↔ x.orderId = id := g.id_inj.eq_iff
          simp only [Function.comp_apply, hid]
          split <;> rfl
        rw [hmap]
        exact h.set s _
      · -- taken out, it sets out again like a new order
        rw [if_neg hkeep, if_neg hkeep]
        have hremove := h.remove s id
        have hsub : ∀ s', ∀ x ∈ (R.remove s id).side s', Spec.validPrice cfg x.price = true := by
          intro s' x hx
          rcases Spec.side_eq_or s s' with rfl | rfl
          · rw [Spec.Book.side_remove] at hx
            exact hpriced _ x (List.mem_filter.mp hx).1
          · rw [Spec.Book.side_remove_opposite] at hx
            exact hpriced _ x hx
        generalize R.remove s id = Q at hremove hsub ⊢
        generalize R'.remove (g.side s) (g.id id) = Q' at hremove ⊢
        have hfill := hremove.fill hsub (fun l hl => Option.mem_some.mp hl ▸ hvalid) s id q
        rw [Option.map_some] at hfill
        rw [hfill]
        generalize Spec.fill s (some p) id (Q.side (opposite s)) q = r
        obtain ⟨opp, left, evs⟩ := r
        dsimp only
        have hset := hremove.setOpposite s opp
        -- what is left comes to rest at the image of its price
        by_cases hleft : left = 0
        · rw [if_pos hleft, if_pos hleft]
          exact ⟨hset, by simp [event]⟩
        · rw [if_neg hleft, if_neg hleft]
          refine ⟨hset.rest (o := ⟨id, p, left, o.tif⟩) hvalid ?_, by simp [event]⟩
          rw [Spec.Book.side_opposite_set]
          exact hsub s

/-- The image of a command does to the image of the lists what the command does. -/
theorem Images.step (h : g.Images R R') (hR' : Spec.Sound R')
    (hpriced : ∀ s, ∀ o ∈ R.side s, Spec.validPrice cfg o.price = true)
    (hadds : g.Adds available available' R R') (c : Command) :
    g.Images (Spec.step cfg available R c).1 (Spec.step cfg' available' R' (g.command c)).1 ∧
      (Spec.step cfg' available' R' (g.command c)).2 =
        (Spec.step cfg available R c).2.map g.event := by
  have hkind : (g.command c).kind = c.kind := rfl
  unfold Spec.step
  rw [hkind]
  cases c.kind with
  | new => exact h.newOrder hR' hpriced hadds c
  | cancel => exact h.cancel hR' c.orderId
  | replace => exact h.replace hR' hpriced c.orderId c.price c.qty

theorem Images.adds (h : g.Images R R')
    (hpriced : ∀ s, ∀ o ∈ R.side s, Spec.validPrice cfg o.price = true) :
    g.Adds (Spec.summed cfg) (Spec.summed cfg') R R' := by
  intro s p hp
  have hsummed : ∀ (cfg : BookConfig) (s : Side) (p : Price) (os : List Spec.Order),
      Spec.summed cfg s p os =
      ((os.filter fun o => Spec.Counted cfg s p o.price).map Spec.Order.qty).sum.toNat := by
    intro cfg s p os
    cases s <;> rfl
  rw [h.against, hsummed, hsummed, List.filter_map, List.map_map]
  have hsame : (R.side (opposite s)).filter ((fun o =>
      decide (Spec.Counted cfg' (g.side s) (g.price p) o.price)) ∘ g.order) =
      (R.side (opposite s)).filter fun o => Spec.Counted cfg s p o.price := by
    refine List.filter_congr fun o ho => ?_
    exact decide_eq_decide.mpr (g.counted s p o.price hp (hpriced _ o ho))
  rw [hsame]
  rfl

end Step

/-- Only the least integer has no opposite. -/
theorem toInt_opposite {p : Int64} (hp : Int64.minValue < p) : (-p).toInt = -p.toInt := by
  have hlow := p.le_toInt
  have hhigh := p.toInt_lt
  have hmin := Int64.lt_iff_toInt_lt.mp hp
  rw [Int64.toInt_minValue] at hmin
  rw [Int64.toInt_neg]
  exact Int.bmod_eq_of_le (by omega) (by omega)

theorem opposite_le_iff {p q : Int64} (hp : Int64.minValue < p) (hq : Int64.minValue < q) :
    -p ≤ -q ↔ q ≤ p := by
  rw [Int64.le_iff_toInt_le, Int64.le_iff_toInt_le, toInt_opposite hp, toInt_opposite hq]
  omega

theorem opposite_lt_iff {p q : Int64} (hp : Int64.minValue < p) (hq : Int64.minValue < q) :
    -p < -q ↔ q < p := by
  rw [← Int64.not_le, ← Int64.not_le, opposite_le_iff hq hp]

/-- A bid is an ask at the opposite price: the sides of a ladder exchanged, with any new
names for the orders. -/
def mirror (lo hi : Price) (maxOrders : UInt64) (hlo : Int64.minValue < lo) (hle : lo ≤ hi)
    (f : OrderId → OrderId) (hf : Function.Injective f) :
    Symmetry ⟨lo, hi, maxOrders, .ladder⟩ ⟨-hi, -lo, maxOrders, .ladder⟩ where
  id := f
  side := opposite
  price p := -p
  id_inj := hf
  side_opposite s := rfl
  valid p := by
    have hhi := Int64.lt_of_lt_of_le hlo hle
    unfold Spec.validPrice
    dsimp only
    by_cases hp : Int64.minValue < p
    · simp only [opposite_le_iff hhi hp, opposite_le_iff hp hlo, Bool.and_comm]
    · -- the least price is its own opposite, and in neither range
      have hmin : p = Int64.minValue := Int64.le_antisymm (Int64.not_lt.mp hp) (Int64.minValue_le p)
      have hself : -Int64.minValue = Int64.minValue := by decide
      have hbelow : ¬ lo ≤ Int64.minValue := Int64.not_le.mpr hlo
      have hbelow' : ¬ -hi ≤ Int64.minValue := by
        have hlt := hi.toInt_lt
        rw [Int64.le_iff_toInt_le, toInt_opposite hhi, Int64.toInt_minValue]
        omega
      rw [hmin, hself, decide_eq_false hbelow, decide_eq_false hbelow', Bool.false_and,
        Bool.false_and]
  better s p q hp hq := by
    have hp' := Int64.lt_of_lt_of_le hlo (of_decide_eq_true (Bool.and_eq_true_iff.mp hp).1)
    have hq' := Int64.lt_of_lt_of_le hlo (of_decide_eq_true (Bool.and_eq_true_iff.mp hq).1)
    cases s with
    | bid => exact opposite_lt_iff hp' hq'
    | ask => exact opposite_lt_iff hq' hp'
  counted s p q hp hq := by
    have hhi := Int64.lt_of_lt_of_le hlo hle
    have hp' := Int64.lt_of_lt_of_le hlo (of_decide_eq_true (Bool.and_eq_true_iff.mp hp).1)
    have hq' := Int64.lt_of_lt_of_le hlo (of_decide_eq_true (Bool.and_eq_true_iff.mp hq).1)
    cases s with
    | bid => exact (and_congr (opposite_le_iff hp' hq') (opposite_le_iff hq' hlo)).trans and_comm
    | ask => exact (and_congr (opposite_le_iff hhi hq') (opposite_le_iff hq' hp')).trans and_comm
  orders := rfl

end Symmetry

namespace OrderBook

variable {cfg cfg' : BookConfig} {b b' : OrderBook} {a a' : Spec.Sheet}

/-- Events keep their numbers. -/
theorem numbered_map (f : Event → Event) (n : UInt64) (evs : List Event) :
    Spec.numbered n (evs.map f) = (Spec.numbered n evs).map fun x => (x.1, f x.2) := by
  induction evs generalizing n with
  | nil => rfl
  | cons e evs ih =>
    rw [List.map_cons]
    unfold Spec.numbered
    rw [ih]
    rfl

/-- Two books whose lists are images of each other stay so. -/
theorem Denotes.image (hn : cfg.Narrow) (hn' : cfg'.Narrow) (g : Symmetry cfg cfg')
    (h : b.Denotes cfg a) (h' : b'.Denotes cfg' a') (himage : g.Images a.1 a'.1) (hseq : a'.2 = a.2)
    (cs : List Command) :
    ∃ b1 out b1' out' R R', runAll OrderBook.apply b cs = some (b1, out) ∧
      runAll OrderBook.apply b' (cs.map g.command) = some (b1', out') ∧
      out'.map Emission.record = (out.map Emission.record).map (fun x => (x.1, g.event x.2)) ∧
      b1.Shows R ∧ b1'.Shows R' ∧ g.Images R R' := by
  induction cs generalizing b b' a a' with
  | nil => exact ⟨b, [], b', [], a.1, a'.1, rfl, rfl, rfl, h.shows hn, h'.shows hn', himage⟩
  | cons c cs ih =>
    obtain ⟨b1, out1, hrun1, hout1, hden1⟩ := h.apply hn c
    obtain ⟨b1', out1', hrun1', hout1', hden1'⟩ := h'.apply hn' (g.command c)
    obtain ⟨himage1, hevents⟩ := himage.step h'.sound h.valid (himage.adds h.valid) c
    unfold Spec.serve at hout1 hout1' hden1 hden1'
    dsimp only at hout1 hout1' hden1 hden1'
    rw [hevents, hseq] at hout1' hden1'
    obtain ⟨b2, out2, b2', out2', R, R', hrun2, hrun2', hout2, hrest⟩ :=
      ih hden1 hden1' himage1 (by rw [List.length_map])
    refine ⟨b2, out1 ++ out2, b2', out1' ++ out2', R, R', runAll_cons hrun1 hrun2,
      runAll_cons hrun1' hrun2', ?_, hrest⟩
    rw [List.map_append, List.map_append, List.map_append, hout2, hout1, hout1', numbered_map]

end OrderBook

/-- Under any symmetry, the run of the images of the commands gives the images of the
events, with the same numbers, and leaves the images of the lists. -/
theorem symmetries_respected {cfg cfg' : BookConfig} (hopens : cfg.Opens) (hopens' : cfg'.Opens)
    (g : Symmetry cfg cfg') (cs : List Command) :
    ∃ b0 b out b0' b' out' R R', OrderBook.new cfg = some b0 ∧ b0.applyAll cs = some (b, out) ∧
      OrderBook.new cfg' = some b0' ∧ b0'.applyAll (cs.map g.command) = some (b', out') ∧
      out'.map Emission.record = (out.map Emission.record).map (fun x => (x.1, g.event x.2)) ∧
      b.Shows R ∧ b'.Shows R' ∧ g.Images R R' := by
  obtain ⟨b0, hnew, hden⟩ := OrderBook.denotes_new hopens
  obtain ⟨b0', hnew', hden'⟩ := OrderBook.denotes_new hopens'
  have hempty : g.Images {} {} := by
    intro s
    cases s <;> cases g.side _ <;> rfl
  obtain ⟨b, out, b', out', R, R', hrun, hrun', hrest⟩ :=
    hden.image hopens.narrow hopens'.narrow g hden' hempty rfl cs
  rw [← OrderBook.applyAll_eq_runAll] at hrun hrun'
  exact ⟨b0, b, out, b0', b', out', R, R', hnew, hrun, hnew', hrun', hrest⟩

/-- Buying and selling exchanged on the small book, the orders numbered from 1 instead of 0. -/
def smallMirror : Symmetry smallBook ⟨-8, -1, 4, .ladder⟩ :=
  Symmetry.mirror 1 8 4 (by decide) (by decide) (· + 1) (add_left_injective 1)

theorem symmetries_respected_small :
    ∃ b0 b out b0' b' out' R R', OrderBook.new smallBook = some b0 ∧
      b0.applyAll smallRun = some (b, out) ∧ OrderBook.new ⟨-8, -1, 4, .ladder⟩ = some b0' ∧
      b0'.applyAll (smallRun.map smallMirror.command) = some (b', out') ∧
      out'.map Emission.record =
        (out.map Emission.record).map (fun x => (x.1, smallMirror.event x.2)) ∧
      b.Shows R ∧ b'.Shows R' ∧ smallMirror.Images R R' :=
  symmetries_respected smallBook_opens ⟨⟨by decide, fun _ _ => by decide⟩, by decide, by decide⟩
    smallMirror smallRun

end Matcher
