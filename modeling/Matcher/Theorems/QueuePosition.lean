import Matcher.Kit.Thin
import Matcher.Logic.MarketSim
import Matcher.Spec.Course
import Matcher.Spec.Stamps
import Matcher.Theorems.EventLog

/-!
# An order's place in the queue only gets better

Whatever commands follow, the queue of a price consists of what is left of it, in the old
order and with no quantity raised, and behind that of orders those commands brought. So
an order that no command names has never more orders before it than it had, nor more of
any of them.
-/

namespace Matcher

open Kit

/-- The same order, with no more of it. -/
def Dwindles (x y : OrderId × Qty) : Prop := x.1 = y.1 ∧ x.2 ≤ y.2

instance : Std.Refl Dwindles := ⟨fun _ => ⟨rfl, UInt64.le_rfl⟩⟩

instance : IsTrans (OrderId × Qty) Dwindles :=
  ⟨fun _ _ _ h h' => ⟨h.1.trans h'.1, UInt64.le_trans h.2 h'.2⟩⟩

namespace Spec

/-- The queue of one price. -/
def queue (os : List Order) (p : Price) : List (OrderId × Qty) :=
  (os.filter fun o => o.price = p).map fun o => (o.orderId, o.qty)

section Queue

variable {os os' : List Order} {p : Price}

theorem queue_sublist (h : os.Sublist os') :
    List.SublistForall₂ Dwindles (queue os p) (queue os' p) :=
  ((h.filter _).map _).sublistForall₂

/-- Some quantities were lowered. -/
theorem queue_map {f : Order → Order} (hf : ∀ o ∈ os, (f o).place = o.place ∧ (f o).qty ≤ o.qty) :
    List.SublistForall₂ Dwindles (queue (os.map f) p) (queue os p) := by
  induction os with
  | nil => exact .nil
  | cons o os ih =>
    have hrest := ih fun x hx => hf x (List.mem_cons_of_mem o hx)
    obtain ⟨hplace, hle⟩ := hf o List.mem_cons_self
    have hid : (f o).orderId = o.orderId := congrArg Prod.fst hplace
    have hprice : (f o).price = o.price := congrArg Prod.snd hplace
    unfold queue at hrest ⊢
    rw [List.map_cons, List.filter_cons, List.filter_cons, hprice]
    split
    · exact .cons ⟨hid, hle⟩ hrest
    · exact hrest

/-- A sweep takes orders from the front, and from one a part. -/
theorem queue_fill (s : Side) (limit : Option Price) (taker : OrderId)
    (os : List Order) (qty : Qty) :
    List.SublistForall₂ Dwindles (queue (fill s limit taker os qty).1 p) (queue os p) := by
  induction os generalizing qty with
  | nil => exact .nil
  | cons o os ih =>
    unfold fill
    split
    · exact refl_of (List.SublistForall₂ Dwindles) _
    split
    · exact trans_of (List.SublistForall₂ Dwindles) (ih (qty - o.qty))
        (queue_sublist (List.sublist_cons_self o os))
    · next hmore =>
      have hle : o.qty - qty ≤ o.qty := by
        rw [UInt64.le_iff_toNat_le,
          UInt64.toNat_sub_of_le _ _ (UInt64.le_of_lt (UInt64.not_le.mp hmore))]
        exact Nat.sub_le _ _
      unfold queue
      rw [List.filter_cons, List.filter_cons]
      dsimp only
      split
      · exact .cons ⟨rfl, hle⟩ (refl_of (List.SublistForall₂ Dwindles) _)
      · exact refl_of (List.SublistForall₂ Dwindles) _

end Queue

section Course

variable {cfg : BookConfig} {R Q : Book} {c : Command} {s : Side} {limit : Option Price} {t : Tif}

/-- May the command bring the order `x` to the price `p`? -/
def Brings (c : Command) (p : Price) (x : OrderId × Qty) : Prop :=
  c.orderId = x.1 ∧ c.price = p ∧ c.kind ≠ .cancel

/-- The queues of the lists an order sets out from, after its sweep. -/
theorem SetsOut.advances (h : SetsOut cfg R c Q s limit t) (hR : Sound R) (s' : Side) (p : Price) :
    List.SublistForall₂ Dwindles (queue ((Q.set (opposite s) (sweep c Q s limit).1).side s') p)
      (queue (R.side s') p) := by
  have hsub : (Q.side s').Sublist (R.side s') := by
    rw [h.lists hR]
    exact List.filter_sublist
  refine trans_of (List.SublistForall₂ Dwindles) ?_ (queue_sublist hsub)
  rcases side_eq_or s s' with rfl | rfl
  · rw [Book.side_opposite_set]
    exact refl_of (List.SublistForall₂ Dwindles) _
  · rw [Book.side_set]
    exact queue_fill s limit c.orderId _ c.qty

theorem SetsOut.kind (h : SetsOut cfg R c Q s limit t) : c.kind ≠ .cancel := by
  cases h with
  | new hkind =>
    rw [hkind]
    exact CommandKind.noConfusion
  | replace hkind =>
    rw [hkind]
    exact CommandKind.noConfusion

/-- What one command does to the queue of a price. -/
theorem Course.advances {r : Book × List Event} (h : Course cfg R c r) (hR : Sound R)
    (s' : Side) (p : Price) :
    Advances Dwindles (Brings c p) (queue (R.side s') p) (queue (r.1.side s') p) := by
  cases h with
  | refused reason => exact Advances.refl _ _
  | @cancelled s o hkind hfind =>
    obtain ⟨ho, hid⟩ := find_eq_some hfind
    dsimp only
    rw [hR.remove_side ho hid]
    exact .of_thin (queue_sublist List.filter_sublist)
  | @shrunk s o hkind _ hfind _ hle =>
    obtain ⟨ho, hid⟩ := find_eq_some hfind
    dsimp only
    rcases side_eq_or s s' with rfl | rfl
    · rw [Book.side_set]
      refine .of_thin (queue_map fun x hx => ?_)
      split
      · next hxid =>
        -- ids are not repeated: this is the order that was found
        have heq : x = o := List.inj_on_of_nodup_map (hR.nodup _) hx ho (hxid.trans hid.symm)
        exact ⟨rfl, heq ▸ hle⟩
      · exact ⟨rfl, UInt64.le_rfl⟩
    · rw [Book.side_set_opposite]
      exact Advances.refl _ _
  | filled hout => exact .of_thin (hout.advances hR s' p)
  | @rested Q s t hout hleft =>
    have hthin := hout.advances hR s' p
    dsimp only
    rcases side_eq_or s s' with rfl | rfl
    · -- on its own side the order goes behind everything of its price
      rw [Book.side_opposite_set] at hthin
      rw [Book.side_set]
      refine ⟨queue (Q.side s') p,
        if c.price = p then [(c.orderId, (sweep c Q s' (some c.price)).2.1)] else [], ?_, hthin,
        fun x hx => ?_⟩
      · unfold queue
        rw [Mirror.filter_insertBack ((hout.sound hR).sorted s'), List.map_append]
        split <;> rfl
      · split at hx
        · next hprice =>
          rw [List.mem_singleton.mp hx]
          exact ⟨rfl, hprice, hout.kind⟩
        · exact absurd hx List.not_mem_nil
    · rw [Book.side_set_opposite]
      exact .of_thin hthin
  | expired hout => exact .of_thin (hout.advances hR s' p)

end Course

end Spec

namespace OrderBook

/-- The queue of a price as `resting_orders` reports it. -/
def queueAt (b : OrderBook) (s : Side) (p : Price) : Option (List (OrderId × Qty)) := do
  let os ← b.restingSide s
  return (os.filter fun o => o.price = p).map fun o => (o.orderId, o.qty)

theorem Denotes.queueAt {cfg : BookConfig} {b : OrderBook} {a : Spec.Sheet} (hn : cfg.Narrow)
    (h : b.Denotes cfg a) (s : Side) (p : Price) :
    b.queueAt s p = some (Spec.queue (a.1.side s) p) := by
  unfold OrderBook.queueAt Spec.queue
  rw [(h.shows hn).restingSide s]
  unfold Spec.Book.restingSide
  simp only [Option.bind_eq_bind, Option.bind_some, List.filter_map, List.map_map]
  rfl

end OrderBook

/-- From any reachable book on, a run leaves of every queue a part, in the old order and
with no quantity raised, and behind it orders that its commands brought to that price.
So an order that no command names has before it what is left of those it had before it. -/
theorem queue_position_improves {cfg : BookConfig} (hfits : cfg.Fits) {b : OrderBook}
    (hreach : OrderBook.Reaches cfg b) (cs : List Command) :
    ∃ b' out, b.applyAll cs = some (b', out) ∧ ∀ s p, ∃ l l',
      b.queueAt s p = some l ∧ b'.queueAt s p = some l' ∧
      Advances Dwindles (fun x => ∃ c ∈ cs, Spec.Brings c p x) l l' ∧
      ∀ ahead' x behind', l' = ahead' ++ x :: behind' → (∀ c ∈ cs, c.orderId ≠ x.1) →
        ∃ ahead y behind, l = ahead ++ y :: behind ∧ List.SublistForall₂ Dwindles ahead' ahead ∧
          Dwindles x y := by
  have hn := hfits.narrow
  obtain ⟨a, hden⟩ := hreach.denotes hfits
  obtain ⟨b', out, hrun, _, hden'⟩ := hden.applyAll hn cs
  refine ⟨b', out, hrun, fun s p => ⟨_, _, hden.queueAt hn s p, hden'.queueAt hn s p, ?_⟩⟩
  have hadvances : Advances Dwindles (fun x => ∃ c ∈ cs, Spec.Brings c p x)
      (Spec.queue (a.1.side s) p)
      (Spec.queue ((answer (Spec.serve cfg (Spec.summed cfg)) a cs).1.1.side s) p) := by
    refine (OrderBook.apply_implements hn).induction
      (P := fun a cs => Advances Dwindles (fun x => ∃ c ∈ cs, Spec.Brings c p x)
        (Spec.queue (a.1.side s) p)
        (Spec.queue ((answer (Spec.serve cfg (Spec.summed cfg)) a cs).1.1.side s) p))
      (fun a => Advances.refl _ _) (fun b a c cs hb hrest => ?_) hden cs
    have hfirst := (Spec.step_course cfg (Spec.summed cfg) a.1 c).advances hb.sound s p
    -- an order that a later command brings may have dwindled since; its id tells them apart
    refine Advances.trans (fun x y hxy hy => ?_) (hfirst.mono fun x hx =>
      ⟨c, List.mem_cons_self, hx⟩)
      (hrest.mono fun x hx => ?_)
    · obtain ⟨d, hd, hid, hbrings⟩ := hy
      exact ⟨d, hd, hid.trans hxy.1.symm, hbrings⟩
    · obtain ⟨d, hd, hbrings⟩ := hx
      exact ⟨d, List.mem_cons_of_mem c hd, hbrings⟩
  refine ⟨hadvances, fun ahead' x behind' heq hnot => ?_⟩
  rw [heq] at hadvances
  refine hadvances.ahead fun hbrings => ?_
  obtain ⟨c, hc, hid, _⟩ := hbrings
  exact hnot c hc hid

theorem queue_position_improves_small : ∃ b, OrderBook.Reaches smallBook b ∧
    ∃ b' out, b.applyAll [.newMarket 3 .ask 2] = some (b', out) ∧ ∀ s p, ∃ l l',
      b.queueAt s p = some l ∧ b'.queueAt s p = some l' ∧
      Advances Dwindles (fun x => ∃ c ∈ [Command.newMarket 3 .ask 2], Spec.Brings c p x) l l' ∧
      ∀ ahead' x behind', l' = ahead' ++ x :: behind' →
        (∀ c ∈ [Command.newMarket 3 .ask 2], c.orderId ≠ x.1) →
        ∃ ahead y behind, l = ahead ++ y :: behind ∧ List.SublistForall₂ Dwindles ahead' ahead ∧
          Dwindles x y := by
  obtain ⟨b, hreach⟩ := OrderBook.exists_reaches smallBook_opens smallRun
  exact ⟨b, hreach, queue_position_improves smallBook_fits hreach [.newMarket 3 .ask 2]⟩

end Matcher
