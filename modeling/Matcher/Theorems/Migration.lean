import Matcher.Theorems.DerivedOrders
import Matcher.Theorems.Loading

/-!
# Moving a book to another configuration

A configuration shows in a run only where it makes the book refuse an order, for its price
or for want of room. So a book may be saved and restored under any configuration that takes
as much, on a wider ladder, on a tree, with more room, as often as one likes: nobody can
tell, as long as nothing was refused for these two reasons.
-/

namespace Matcher

open Kit

/-- Every price that is valid for `cfg` is valid for `wide`, and `fillable` adds it up. -/
def BookConfig.TakesPrices (wide cfg : BookConfig) : Prop :=
  match cfg.index, wide.index with
  | .ladder, .ladder => wide.priceMin ≤ cfg.priceMin ∧ cfg.priceMax ≤ wide.priceMax
  | .ladder, .tree => 1 ≤ cfg.priceMin ∧ cfg.priceMax ≤ Int64.maxValue / 2
  | .tree, .tree => True
  | .tree, .ladder => False

/-- `wide` takes what `cfg` takes. -/
structure BookConfig.Covers (wide cfg : BookConfig) : Prop where
  orders : cfg.maxOrders.toNat ≤ wide.maxOrders.toNat
  prices : wide.TakesPrices cfg

/-- Is an order refused for its price or for want of room? -/
def Event.refusedByConfig : Event → Bool
  | .rejected _ .invalidPrice => true
  | .rejected _ .bookFull => true
  | _ => false

section Covers

variable {wide cfg : BookConfig} {R : Spec.Book} {c : Command} {p : Price}

theorem BookConfig.Covers.refl (cfg : BookConfig) : cfg.Covers cfg := by
  refine ⟨Nat.le_refl _, ?_⟩
  unfold TakesPrices
  cases cfg.index with
  | ladder => exact ⟨Int64.le_refl _, Int64.le_refl _⟩
  | tree => trivial

theorem BookConfig.Covers.validPrice (h : wide.Covers cfg) (hp : Spec.validPrice cfg p = true) :
    Spec.validPrice wide p = true := by
  have hprices := h.prices
  unfold TakesPrices at hprices
  unfold Spec.validPrice at hp ⊢
  cases hcfg : cfg.index <;> cases hwide : wide.index <;> rw [hcfg, hwide] at hprices <;>
    rw [hcfg] at hp <;>
    simp only [Bool.and_eq_true, decide_eq_true_eq] at hp hprices ⊢
  · exact ⟨Int64.le_trans hprices.1 hp.1, Int64.le_trans hp.2 hprices.2⟩
  · exact Int64.lt_of_lt_of_le (by decide : (0 : Int64) < 1) (Int64.le_trans hprices.1 hp.1)
  · exact hp

/-- `fillable` leaves out the same prices on both. -/
theorem BookConfig.Covers.range (h : wide.Covers cfg) (hp : Spec.validPrice cfg p = true) :
    (OrderBook.fillLo wide ≤ p ↔ OrderBook.fillLo cfg ≤ p) ∧ (p ≤ OrderBook.fillHi wide ↔
      p ≤ OrderBook.fillHi cfg) := by
  have hprices := h.prices
  unfold TakesPrices at hprices
  unfold Spec.validPrice at hp
  unfold OrderBook.fillLo OrderBook.fillHi
  cases hcfg : cfg.index <;> cases hwide : wide.index <;> rw [hcfg, hwide] at hprices <;>
    rw [hcfg] at hp <;>
    simp only [Bool.and_eq_true, decide_eq_true_eq] at hp hprices
  · simp [hp, Int64.le_trans hprices.1 hp.1, Int64.le_trans hp.2 hprices.2]
  · have hlow : Int64.minValue / 2 ≤ p := Int64.le_trans (by decide) (Int64.le_trans hprices.1 hp.1)
    simp [hp, hlow, Int64.le_trans hp.2 hprices.2]
  · simp

theorem BookConfig.Covers.summed_eq (h : wide.Covers cfg) {s : Side} {os : List Spec.Order}
    (hos : ∀ o ∈ os, Spec.validPrice cfg o.price = true) (p : Price) :
    Spec.summed wide s p os = Spec.summed cfg s p os := by
  unfold Spec.summed
  dsimp only
  congr 3
  refine List.filter_congr fun o ho => ?_
  obtain ⟨hlo, hhi⟩ := h.range (hos o ho)
  cases s
  · simp only [hlo]
  · simp only [hhi]

/-- A check that is not about the limits of `cfg` comes out as under `cfg`. -/
theorem BookConfig.Covers.checkNew_eq (h : wide.Covers cfg)
    (hR : ∀ s, ∀ o ∈ R.side s, Spec.validPrice cfg o.price = true)
    (hprice : Spec.checkNew cfg (Spec.summed cfg) R c ≠ some .invalidPrice)
    (hfull : Spec.checkNew cfg (Spec.summed cfg) R c ≠ some .bookFull) :
    Spec.checkNew wide (Spec.summed wide) R c = Spec.checkNew cfg (Spec.summed cfg) R c := by
  unfold Spec.checkNew at hprice hfull ⊢
  rw [h.summed_eq (hR (opposite c.side))]
  by_cases hqty : c.qty = 0
  · rw [if_pos hqty, if_pos hqty]
  rw [if_neg hqty] at hprice hfull ⊢
  by_cases hinvalid : c.otype = .limit ∧ Spec.validPrice cfg c.price = false
  · rw [if_pos hinvalid] at hprice
    exact absurd rfl hprice
  have hvalid : ¬ (c.otype = .limit ∧ Spec.validPrice wide c.price = false) := by
    intro hwide
    refine hinvalid ⟨hwide.1, ?_⟩
    rw [← Bool.not_eq_true]
    intro hcfg
    rw [h.validPrice hcfg] at hwide
    exact Bool.noConfusion hwide.2
  rw [if_neg hinvalid] at hfull ⊢
  rw [if_neg hqty, if_neg hvalid]
  by_cases hdup : (R.find c.orderId).isSome = true
  · rw [if_pos hdup, if_pos hdup]
  rw [if_neg hdup] at hfull ⊢
  rw [if_neg hdup]
  by_cases hroom : cfg.maxOrders.toNat ≤ R.live
  · rw [if_pos hroom] at hfull
    exact absurd rfl hfull
  have horders := h.orders
  rw [if_neg hroom, if_neg (by omega)]

/-- So does a command. -/
theorem BookConfig.Covers.step_eq (h : wide.Covers cfg)
    (hR : ∀ s, ∀ o ∈ R.side s, Spec.validPrice cfg o.price = true)
    (hlet : ∀ e ∈ (Spec.step cfg (Spec.summed cfg) R c).2, e.refusedByConfig = false) :
    Spec.step wide (Spec.summed wide) R c = Spec.step cfg (Spec.summed cfg) R c := by
  unfold Spec.step at hlet ⊢
  cases hkind : c.kind with
  | new =>
    rw [hkind] at hlet
    dsimp only at hlet ⊢
    have hcheck : Spec.checkNew wide (Spec.summed wide) R c =
        Spec.checkNew cfg (Spec.summed cfg) R c := by
      have hreject : ∀ r, Spec.checkNew cfg (Spec.summed cfg) R c = some r →
          (Event.rejected c.orderId r).refusedByConfig = false := by
        intro r hr
        refine hlet _ ?_
        unfold Spec.newOrder
        rw [hr]
        exact List.mem_singleton.mpr rfl
      refine h.checkNew_eq hR ?_ ?_
      · intro hr
        exact Bool.noConfusion (hreject _ hr)
      · intro hr
        exact Bool.noConfusion (hreject _ hr)
    unfold Spec.newOrder
    rw [hcheck]
  | cancel => rfl
  | replace =>
    rw [hkind] at hlet
    dsimp only at hlet ⊢
    unfold Spec.replace at hlet ⊢
    cases hfind : R.find c.orderId with
    | none => rfl
    | some so =>
      rw [hfind] at hlet
      dsimp only at hlet ⊢
      by_cases hqty : c.qty = 0
      · rw [if_pos hqty, if_pos hqty]
      rw [if_neg hqty] at hlet ⊢
      rw [if_neg hqty]
      cases hvalid : Spec.validPrice cfg c.price with
      | false =>
        -- the narrower book would have refused the price, and `hlet` says that it refused none
        rw [if_pos hvalid] at hlet
        exact Bool.noConfusion (hlet _ (List.mem_singleton.mpr rfl))
      | true => rw [h.validPrice hvalid]

end Covers

/-- What happens to a book that is moved about. -/
inductive MoveOp where
  | apply (c : Command)
  | migrate (cfg : BookConfig)
deriving DecidableEq, Repr, Inhabited

/-- The commands an operation applies. -/
def MoveOp.commands : MoveOp → List Command
  | .apply c => [c]
  | .migrate _ => []

namespace OrderBook

/-- `restore(cfg, b.seq(), b.resting_orders())` -/
def migrate (b : OrderBook) (cfg : BookConfig) : Option OrderBook := do
  OrderBook.restore cfg b.seq (← b.restingOrders)

def move (b : OrderBook) : MoveOp → Option (OrderBook × List Emission)
  | .apply c => b.apply c
  | .migrate cfg => (b.migrate cfg).map fun b => (b, [])

section Move

variable {cfg wide : BookConfig} {b b' : OrderBook} {a : Spec.Sheet}

/-- The orders of a book, under a configuration that takes their prices. -/
theorem Denotes.loadable (h : b.Denotes cfg a) (hcovers : wide.Covers cfg) :
    Loadable wide a.1.resting := by
  refine ⟨?_, ?_, nodup_resting h.sound⟩
  · intro o ho
    obtain ⟨s, x, hx, rfl⟩ := Spec.Book.mem_resting.mp ho
    exact hcovers.validPrice (h.valid s x hx)
  · intro o ho
    obtain ⟨s, x, hx, rfl⟩ := Spec.Book.mem_resting.mp ho
    exact h.sound.live s x hx

theorem Denotes.live_le (h : b.Denotes cfg a) : a.1.live ≤ cfg.maxOrders.toNat := by
  obtain ⟨hlive, hcfg⟩ := h.live
  obtain ⟨C, hrep, _, _, _⟩ := h
  have hcard := hrep.ids.card
  have hfull := hrep.ids.full
  rw [← hlive, ← hcfg]
  omega

/-- `b` keeps to the limits of `cfg`; whatever stands for the same can be moved to `wide`. -/
theorem Denotes.migrate (hopens : wide.Opens) (hcovers : wide.Covers cfg) (h : b.Denotes cfg a)
    {other : BookConfig} (h' : b'.Denotes other a) : ∃ b1, b'.migrate wide = some b1 ∧
    b1.Denotes wide a := by
  have hall : a.1.resting.take wide.maxOrders.toNat = a.1.resting := by
    refine List.take_of_length_le ?_
    have hle := h.live_le
    have horders := hcovers.orders
    rw [Spec.Book.length_resting]
    omega
  obtain ⟨b1, R, hrun, hden, hlevels⟩ := restore_denotes hopens a.2 (hall.symm ▸ h.loadable hcovers)
  rw [hall] at hlevels
  have hlists : R = a.1 := Spec.levels_inj hden.sound h.sound hlevels
  rw [hlists] at hden
  refine ⟨b1, ?_, hden⟩
  unfold OrderBook.migrate
  rw [h'.restingOrders, h'.seq]
  exact hrun

/-- As long as nothing is refused for the limits of `cfg`, a book that is moved about
answers what one would answer that stays under `cfg`. -/
theorem Denotes.moveAll (hfits : cfg.Fits) (h : b.Denotes cfg a) {now : BookConfig}
    (hnow : now.Fits) (hcovers : now.Covers cfg) (h' : b'.Denotes now a) {ops : List MoveOp}
    (hops : ∀ wide, MoveOp.migrate wide ∈ ops → wide.Opens ∧ wide.Covers cfg)
    (hlet : ∀ x ∈ (answer (Spec.serve cfg (Spec.summed cfg)) a (ops.flatMap MoveOp.commands)).2,
      x.2.refusedByConfig = false) :
    ∃ b1 out last, runAll move b' ops = some (b1, out) ∧
      out.map Emission.record =
        (answer (Spec.serve cfg (Spec.summed cfg)) a (ops.flatMap MoveOp.commands)).2 ∧
      BookConfig.Fits last ∧ b1.Denotes last (answer (Spec.serve cfg (Spec.summed cfg)) a
        (ops.flatMap MoveOp.commands)).1 := by
  induction ops generalizing b b' a now with
  | nil => exact ⟨b', [], now, rfl, rfl, hnow, h'⟩
  | cons op ops ih =>
    have hops' : ∀ wide, MoveOp.migrate wide ∈ ops → wide.Opens ∧ wide.Covers cfg := by
      intro wide hmem
      exact hops wide (List.mem_cons_of_mem op hmem)
    cases op with
    | apply c =>
      have hcommands : (MoveOp.apply c :: ops).flatMap MoveOp.commands =
          c :: ops.flatMap MoveOp.commands := rfl
      rw [hcommands, answer_cons] at hlet ⊢
      dsimp only at hlet ⊢
      obtain ⟨b1, _, _, _, hden⟩ := h.apply hfits.narrow c
      obtain ⟨b1', out, hrun, hout, hden'⟩ := h'.apply hnow.narrow c
      have hserve : Spec.serve now (Spec.summed now) a c =
          Spec.serve cfg (Spec.summed cfg) a c := by
        unfold Spec.serve
        rw [hcovers.step_eq h.valid fun e he => ?_]
        -- the event has its number in what the step answers
        rw [← Spec.numbered_snd a.2 (Spec.step cfg (Spec.summed cfg) a.1 c).2] at he
        obtain ⟨x, hx, rfl⟩ := List.mem_map.mp he
        exact hlet x (List.mem_append_left _ hx)
      rw [hserve] at hout hden'
      obtain ⟨b2, rest, last, hall, hrest, hlast, hden2⟩ :=
        ih hden hnow hcovers hden' hops' fun x hx =>
        hlet x (List.mem_append_right _ hx)
      refine ⟨b2, out ++ rest, last, runAll_cons hrun hall, ?_, hlast, hden2⟩
      rw [List.map_append, hout, hrest]
    | migrate wide =>
      have hcommands : (MoveOp.migrate wide :: ops).flatMap MoveOp.commands =
          ops.flatMap MoveOp.commands := rfl
      rw [hcommands] at hlet ⊢
      obtain ⟨hwide, hcovers'⟩ := hops wide List.mem_cons_self
      obtain ⟨b1, hrun, hden⟩ := h.migrate hwide hcovers' h'
      obtain ⟨b2, rest, last, hall, hrest, hlast, hden2⟩ :=
        ih h hwide.toFits hcovers' hden hops' hlet
      have hmove : b'.move (.migrate wide) = some (b1, []) := by
        unfold move
        dsimp only
        rw [hrun]
        rfl
      exact ⟨b2, rest, last, runAll_cons hmove hall, hrest, hlast, hden2⟩

end Move

end OrderBook

/-- From a reachable book on, run commands, and any number of times between them save the
book and restore it under another configuration that covers the first one. If the book left
alone refuses nothing for a price or for want of room, the events are the same, and so are
all answers at the end. -/
theorem migration_unobservable {cfg : BookConfig} (hfits : cfg.Fits) {b : OrderBook}
    (hreach : OrderBook.Reaches cfg b) {ops : List MoveOp}
    (hops : ∀ wide, MoveOp.migrate wide ∈ ops → wide.Opens ∧ wide.Covers cfg) {b1 : OrderBook}
    {out1 : List Emission} (hrun : b.applyAll (ops.flatMap MoveOp.commands) = some (b1, out1))
    (hlet : ∀ e ∈ out1, e.ev.refusedByConfig = false) :
    ∃ b2 out2, runAll OrderBook.move b ops = some (b2, out2) ∧
      out2.map Emission.record = out1.map Emission.record ∧ b2.seq = b1.seq ∧ b2.Agree b1 := by
  obtain ⟨a, hden⟩ := hreach.denotes hfits
  obtain ⟨b1', out1', hrun', hout1, hden1⟩ :=
    hden.applyAll hfits.narrow (ops.flatMap MoveOp.commands)
  cases hrun.symm.trans hrun'
  obtain ⟨b2, out2, last, hmove, hout2, hlast, hden2⟩ :=
    hden.moveAll hfits hfits (BookConfig.Covers.refl cfg) hden hops
    fun x hx => by
      rw [← hout1] at hx
      obtain ⟨e, he, rfl⟩ := List.mem_map.mp hx
      exact hlet e he
  exact ⟨b2, out2, hmove, hout2.trans hout1.symm, hden2.seq.trans hden1.seq.symm,
    (hden2.shows hlast.narrow).agree (hden1.shows hfits.narrow)⟩

/-- A small ladder book moved to a tree with more room, and then to a wider ladder. -/
def smallMove : List MoveOp :=
  [.apply (.newLimit 1 .bid 5 10 .gtc), .migrate ⟨0, 0, 9, .tree⟩, .apply (.newMarket 2 .ask 4),
    .migrate ⟨1, 100, 5, .ladder⟩, .apply (.newLimit 3 .ask 7 3 .fok)]

theorem migration_unobservable_small : ∃ b b1 out1, OrderBook.Reaches smallBook b ∧
    b.applyAll (smallMove.flatMap MoveOp.commands) = some (b1, out1) ∧
      ∃ b2 out2, runAll OrderBook.move b smallMove = some (b2, out2) ∧
        out2.map Emission.record = out1.map Emission.record ∧ b2.seq = b1.seq ∧ b2.Agree b1 := by
  obtain ⟨b, hnew, hden⟩ := OrderBook.denotes_new smallBook_opens
  obtain ⟨b1, out1, hrun, hout, _⟩ :=
    hden.applyAll smallBook_fits.narrow (smallMove.flatMap MoveOp.commands)
  have hreach := OrderBook.Reaches.start hnew
  refine ⟨b, b1, out1, hreach, hrun, migration_unobservable smallBook_fits hreach ?_ hrun ?_⟩
  · intro wide hmem
    simp only [smallMove, List.mem_cons, MoveOp.migrate.injEq, reduceCtorEq, List.not_mem_nil,
      or_false, false_or] at hmem
    rcases hmem with rfl | rfl
    · exact ⟨⟨⟨by decide, fun hk => by cases hk⟩, by decide, by decide⟩,
        ⟨by decide, by decide, by decide⟩⟩
    · exact ⟨⟨⟨by decide, fun _ _ => by decide⟩, by decide, by decide⟩,
        ⟨by decide, by decide, by decide⟩⟩
  · have hquiet : ∀ x ∈ out1.map Emission.record, x.2.refusedByConfig = false := by
      rw [hout, Spec.answer_serve]
      decide
    intro e he
    exact hquiet _ (List.mem_map_of_mem he)

end Matcher
