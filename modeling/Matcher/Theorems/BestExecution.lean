import Matcher.Kit.Greedy
import Matcher.Logic.MarketSim
import Matcher.Spec.Course
import Matcher.Spec.Sweep

/-!
# Best execution

A command's order gets the best total price there is: to trade the same quantity against
the same resting orders in any other way would cost a buyer no less, and bring a seller
no more. The sweep takes from the front of a list sorted by price, so this is the general
fact about taking from the front.
-/

namespace Matcher

open Kit

/-- The amount of money a trade moves. -/
def Event.worth : Event → Int
  | .trade _ _ p q => q.toNat * p.toInt
  | _ => 0

/-- Is paying, or getting, `m` as good for an order on the side `s` as `m'`? -/
def Side.Prefers : Side → Int → Int → Prop
  | .bid, m, m' => m ≤ m'
  | .ask, m, m' => m' ≤ m

namespace Spec

/-- What an order on the side `s` pays for one share at the price `p`; a seller pays less
than nothing. -/
def pays : Side → Price → Int
  | .bid, p => p.toInt
  | .ask, p => -p.toInt

section Fill

variable {s : Side} {limit : Option Price} {taker : OrderId} {os : List Order} {qty : Qty}

theorem pays_mono (hsorted : os.Pairwise fun o o' => ¬ Better (opposite s) o'.price o.price) :
    os.Pairwise fun o o' => pays s o.price ≤ pays s o'.price := by
  refine hsorted.imp fun {o o'} hworse => ?_
  unfold pays
  cases s
  · exact Int64.le_iff_toInt_le.mp (Int64.not_lt.mp hworse)
  · exact Int.neg_le_neg (Int64.le_iff_toInt_le.mp (Int64.not_lt.mp hworse))

/-- What a trade costs an order on the side `s`. -/
def cost (s : Side) : Event → Int
  | .trade _ _ p q => q.toNat * pays s p
  | _ => 0

/-- What a list of events costs an order on the side `s`. -/
def paid (s : Side) (evs : List Event) : Int := (evs.map (cost s)).sum

/-- A sweep pays what taking from the front costs. -/
theorem fill_paid (s : Side) (limit : Option Price) (taker : OrderId)
    (os : List Order) (qty : Qty) :
    paid s (fill s limit taker os qty).2.2 =
      frontCost (fun o => pays s o.price)
      (fun o : Order => o.qty.toNat) os ((fill s limit taker os qty).2.2.map traded).sum := by
  unfold paid
  induction os generalizing qty with
  | nil => rfl
  | cons o os ih =>
    unfold fill
    split
    · exact (frontCost_zero _).symm
    split
    · have hrest := ih (qty - o.qty)
      generalize fill s limit taker os (qty - o.qty) = r at hrest ⊢
      obtain ⟨rest, left, evs⟩ := r
      dsimp only at hrest ⊢
      simp only [List.map_cons, List.sum_cons, traded, cost, Nat.zero_add, Int.zero_add]
      unfold frontCost
      rw [Nat.min_eq_left (Nat.le_add_right _ _), Nat.add_sub_cancel_left, hrest]
    · next hmore =>
      have hlt := UInt64.lt_iff_toNat_lt.mp (UInt64.not_le.mp hmore)
      simp only [List.map_cons, List.map_nil, List.sum_cons, List.sum_nil, traded, cost,
        Nat.add_zero]
      unfold frontCost
      rw [Nat.min_eq_right hlt.le, Nat.sub_eq_zero_of_le hlt.le, frontCost_zero]

end Fill

section Course

variable {cfg : BookConfig} {R Q : Book} {c : Command} {s : Side} {limit : Option Price} {t : Tif}

/-- The side a command's order is on, as far as it can trade. -/
def TradesOn (R : Book) (c : Command) (s : Side) : Prop :=
  (c.kind = .new → s = c.side) ∧ (c.kind = .replace → ∀ o, R.find c.orderId = some o → s = o.1)

theorem SetsOut.side (h : SetsOut cfg R c Q s limit t) {s' : Side} (hs : TradesOn R c s') : s' =
    s := by
  cases h with
  | new hkind => exact hs.1 hkind
  | replace hkind _ hfind => exact hs.2 hkind _ hfind

/-- What an order meets is what rests on the other side. -/
theorem SetsOut.side_opposite (h : SetsOut cfg R c Q s limit t) :
    Q.side (opposite s) = R.side (opposite s) := by
  cases h with
  | new => rfl
  | replace => exact Book.side_remove_opposite ..

/-- What a command pays is what taking its traded quantity from the front costs. -/
theorem Course.paid {r : Book × List Event} (h : Course cfg R c r) (hs : TradesOn R c s) :
    paid s r.2 = frontCost (fun o => pays s o.price)
    (fun o : Order => o.qty.toNat) (R.side (opposite s))
      (r.2.map traded).sum := by
  -- the last event of a sweep trades nothing, so what was paid was paid in the sweep
  have hlast : ∀ {Q : Book} {s' : Side} {limit : Option Price} {t : Tif} (e : Event),
      SetsOut cfg R c Q s' limit t →
      traded e = 0 → cost s e = 0 → Spec.paid s ((sweep c Q s' limit).2.2 ++ [e]) =
        frontCost (fun o => pays s o.price) (fun o : Order => o.qty.toNat) (R.side (opposite s))
          (((sweep c Q s' limit).2.2 ++ [e]).map traded).sum := by
    intro Q s' limit t e hout htraded hcost
    cases hout.side hs
    have hfill := fill_paid s limit c.orderId (Q.side (opposite s)) c.qty
    unfold Spec.paid at hfill ⊢
    simp only [List.map_append, List.sum_append, List.map_singleton, List.sum_singleton, htraded,
      hcost, Int.add_zero, Nat.add_zero]
    rw [← hout.side_opposite]
    exact hfill
  cases h with
  | refused reason => exact (frontCost_zero _).symm
  | cancelled => exact (frontCost_zero _).symm
  | shrunk => exact (frontCost_zero _).symm
  | filled hout => exact hlast _ hout rfl rfl
  | rested hout =>
    refine hlast _ hout ?_ ?_
    · unfold restEvent
      split <;> rfl
    · unfold restEvent
      split <;> rfl
  | expired hout => exact hlast _ hout rfl rfl

end Course

end Spec

/-- One command on a reachable book: whatever way `x` of taking the quantity it traded
from the orders of the other side, none of them beyond its quantity, moves money no more
to the liking of the command's order than its trades did. -/
theorem best_execution {cfg : BookConfig} (hfits : cfg.Fits) {b : OrderBook}
    (hreach : OrderBook.Reaches cfg b) (c : Command) :
    ∃ b' out, b.apply c = some (b', out) ∧ ∀ s, (c.kind = .new → s = c.side) →
      (c.kind = .replace → ∀ i, b.order c.orderId = some (some i) → s = i.side) →
      ∃ os, b.restingSide (opposite s) = some os ∧
        ∀ x : RestingOrder → Nat, (∀ o ∈ os, x o ≤ o.qty.toNat) →
          (os.map x).sum = (out.map fun e => Spec.traded e.ev).sum →
          s.Prefers (out.map fun e => e.ev.worth).sum
            (os.map fun o => (x o : Int) * o.price.toInt).sum := by
  have hn := hfits.narrow
  obtain ⟨a, hden⟩ := hreach.denotes hfits
  obtain ⟨b', out, hrun, hout, _⟩ := hden.apply hn c
  refine ⟨b', out, hrun, fun s hnew hreplace => ⟨_, (hden.shows hn).restingSide _, fun x hx hsum =>
    ?_⟩⟩
  have hs : Spec.TradesOn a.1 c s := by
    refine ⟨hnew, fun hkind o hfind => hreplace hkind ⟨o.2.orderId, o.1, o.2.price, o.2.qty⟩ ?_⟩
    rw [(hden.shows hn).order]
    unfold Spec.Book.info
    rw [hfind]
    rfl
  have hevents := Emission.events_of_serve hout
  have hpaid := (Spec.step_course cfg (Spec.summed cfg) a.1 c).paid hs
  rw [← hevents, List.map_map] at hpaid
  unfold Spec.Book.restingSide at hx hsum ⊢
  rw [List.map_map] at hsum ⊢
  have hsorted := Spec.pays_mono (hden.sound.sorted (opposite s))
  have hroom : ∀ o ∈ a.1.side (opposite s), x (o.resting (opposite s)) ≤ o.qty.toNat := fun o ho =>
    hx _ (List.mem_map_of_mem ho)
  -- the front of a sorted list costs the least
  have hle := frontCost_le hsorted hroom hsum
  have hsame : (out.map fun e => Spec.traded e.ev).sum =
      (out.map (Spec.traded ∘ Emission.ev)).sum := rfl
  rw [hsame, ← hpaid] at hle
  unfold Spec.paid spend at hle
  rw [List.map_map] at hle
  unfold Side.Prefers
  cases s with
  | bid =>
    have hcost : (Spec.cost .bid : Event → Int) = Event.worth := by
      funext e
      cases e <;> rfl
    rw [hcost] at hle
    exact hle
  | ask =>
    have hneg : ∀ {β : Type} (l : List β) (f g : β → Int), (∀ y, g y = -f y) →
        (l.map g).sum = -(l.map f).sum := by
      intro β l f g hfg
      rw [List.sum_neg, List.map_map]
      exact congrArg List.sum (List.map_congr_left fun y _ => hfg y)
    have hcost : ∀ e : Emission, (Spec.cost .ask ∘ Emission.ev) e = -e.ev.worth := by
      intro e
      unfold Function.comp
      cases e.ev with
      | trade => exact Int.mul_neg _ _
      | accepted | rejected | closed | replaced => rfl
    have hpays : ∀ o : Spec.Order, (x (o.resting (opposite .ask)) : Int) * Spec.pays .ask o.price =
        -((x (o.resting (opposite .ask)) : Int) * o.price.toInt) := fun o => Int.mul_neg _ _
    rw [hneg _ (fun e => e.ev.worth) _ hcost, hneg _ _ _ hpays] at hle
    exact Int.neg_le_neg_iff.mp hle

theorem best_execution_small : ∃ b, OrderBook.Reaches smallBook b ∧
    ∃ b' out, b.apply (.newMarket 3 .ask 2) = some (b', out) ∧ ∀ s,
      (CommandKind.new = .new → s = .ask) →
      (CommandKind.new = .replace → ∀ i, b.order 3 = some (some i) → s = i.side) →
      ∃ os, b.restingSide (opposite s) = some os ∧
        ∀ x : RestingOrder → Nat, (∀ o ∈ os, x o ≤ o.qty.toNat) →
          (os.map x).sum = (out.map fun e => Spec.traded e.ev).sum →
          s.Prefers (out.map fun e => e.ev.worth).sum
            (os.map fun o => (x o : Int) * o.price.toInt).sum := by
  obtain ⟨b, hreach⟩ := OrderBook.exists_reaches smallBook_opens smallRun
  exact ⟨b, hreach, best_execution smallBook_fits hreach (.newMarket 3 .ask 2)⟩

end Matcher
