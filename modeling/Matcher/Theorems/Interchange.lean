import Matcher.Logic.Runs

/-!
# Ladder and tree are interchangeable

The specification reads the index kind at two points: which prices are valid, and
which range a fill-or-kill check adds up. For prices within a ladder's span that
lies between 1 and half the largest price the two kinds agree on both.
-/

namespace Matcher

open Kit

namespace Spec

/-- The ladder and the tree over the same positive prices. -/
structure Twins (ladder tree : BookConfig) : Prop where
  isLadder : ladder.index = .ladder
  isTree : tree.index = .tree
  maxOrders : tree.maxOrders = ladder.maxOrders
  low : 1 ≤ ladder.priceMin
  high : ladder.priceMax ≤ Int64.maxValue / 2

section Twins

variable {ladder tree : BookConfig}

theorem Twins.positive (h : Twins ladder tree) {p : Price} (hp : ladder.priceMin ≤ p) : 0 < p :=
  Int64.lt_of_lt_of_le (by decide : (0 : Int64) < 1) (Int64.le_trans h.low hp)

/-- Both add up the same orders. -/
theorem Twins.summed_eq (h : Twins ladder tree) {R : Book}
    (hR : ∀ s, ∀ o ∈ R.side s, ladder.priceMin ≤ o.price ∧ o.price ≤ ladder.priceMax) (s : Side)
    (price : Price) :
    summed ladder s price (R.side (opposite s)) = summed tree s price (R.side (opposite s)) := by
  cases s with
  | bid =>
    have hfilter : (R.asks.filter fun o => decide (OrderBook.fillLo ladder ≤ o.price ∧
        o.price ≤ price)) =
        R.asks.filter fun o => decide (OrderBook.fillLo tree ≤ o.price ∧ o.price ≤ price) := by
      refine List.filter_congr fun o ho => ?_
      have hp := (hR .ask o ho).1
      have hlow : OrderBook.fillLo tree ≤ o.price := by
        rw [OrderBook.fillLo, h.isTree, if_pos rfl]
        exact Int64.le_trans (by decide) (Int64.le_of_lt (h.positive hp))
      rw [OrderBook.fillLo, h.isLadder, if_neg (by simp)]
      simp only [hp, hlow, true_and]
    show ((R.asks.filter _).map Order.qty).sum.toNat = ((R.asks.filter _).map Order.qty).sum.toNat
    rw [hfilter]
  | ask =>
    have hfilter : (R.bids.filter fun o =>
        decide (price ≤ o.price ∧ o.price ≤ OrderBook.fillHi ladder)) =
        R.bids.filter fun o => decide (price ≤ o.price ∧ o.price ≤ OrderBook.fillHi tree) := by
      refine List.filter_congr fun o ho => ?_
      have hp := (hR .bid o ho).2
      have hhigh : o.price ≤ OrderBook.fillHi tree := by
        rw [OrderBook.fillHi, h.isTree, if_pos rfl]
        exact Int64.le_trans hp h.high
      rw [OrderBook.fillHi, h.isLadder, if_neg (by simp)]
      simp only [hp, hhigh, and_true]
    show ((R.bids.filter _).map Order.qty).sum.toNat = ((R.bids.filter _).map Order.qty).sum.toNat
    rw [hfilter]

/-- A command whose price, if it has one, lies in the ladder's span. -/
def InSpan (cfg : BookConfig) (c : Command) : Prop :=
  c.kind = .new ∧ c.otype = .limit ∨ c.kind = .replace → cfg.priceMin ≤ c.price ∧
    c.price ≤ cfg.priceMax

theorem Twins.validPrice (h : Twins ladder tree) {p : Price} (hlo : ladder.priceMin ≤ p)
    (hhi : p ≤ ladder.priceMax) : Spec.validPrice ladder p = true ∧
      Spec.validPrice tree p = true := by
  have hpos := h.positive hlo
  simp [Spec.validPrice, h.isLadder, h.isTree, hlo, hhi, hpos]

theorem Twins.step_eq (h : Twins ladder tree) {R : Book}
    (hR : ∀ s, ∀ o ∈ R.side s, ladder.priceMin ≤ o.price ∧ o.price ≤ ladder.priceMax) {c : Command}
    (hc : InSpan ladder c) : step ladder (summed ladder) R c = step tree (summed tree) R c := by
  unfold step
  cases hk : c.kind with
  | new =>
    have hprice : (c.otype = .limit ∧ Spec.validPrice ladder c.price = false) ↔
        (c.otype = .limit ∧ Spec.validPrice tree c.price = false) := by
      refine and_congr_right fun hl => ?_
      obtain ⟨hlo, hhi⟩ := hc (Or.inl ⟨hk, hl⟩)
      simp [h.validPrice hlo hhi]
    have hcheck : checkNew ladder (summed ladder) R c = checkNew tree (summed tree) R c := by
      simp only [checkNew, hprice, h.summed_eq hR, h.maxOrders]
    simp only [newOrder, hcheck]
  | cancel => rfl
  | replace =>
    obtain ⟨hlo, hhi⟩ := hc (Or.inr hk)
    simp only [replace, h.validPrice hlo hhi]

end Twins

end Spec

namespace OrderBook

variable {b : OrderBook} {C : Content}

/-- The two specifications run alike. -/
theorem Rep.run_twins (tree : BookConfig) (h : Rep none none b C) (hn : b.cfg.Narrow)
    (htwins : Spec.Twins b.cfg tree) (cs : List Command) (hcs : ∀ c ∈ cs, Spec.InSpan b.cfg c) :
    Spec.run b.cfg (Spec.summed b.cfg) C.spec cs = Spec.run tree (Spec.summed tree) C.spec cs := by
  induction cs generalizing b C with
  | nil => rw [Spec.run, Spec.run]
  | cons c cs ih =>
    have hstep := htwins.step_eq (R := C.spec) (fun s o ho =>
      (PriceIndex.valid_ladder htwins.isLadder _).mp (h.valid_spec s o ho).1)
        (hcs c List.mem_cons_self)
    obtain ⟨b1, C1, out1, _, hdone1⟩ := h.apply hn c
    have hcfg := hdone1.cfg
    have hrest := ih hdone1.rep (by rwa [hcfg]) (by rwa [hcfg])
      fun c' hc' => by
        rw [hcfg]
        exact hcs c' (List.mem_cons_of_mem _ hc')
    rw [hcfg, hdone1.spec] at hrest
    rw [Spec.run_cons, Spec.run_cons, hrest, hstep]

end OrderBook

/-- A ladder book and a tree book over the same prices emit the same numbered
events for any run of commands with prices in the span, and answer every query
alike after it. -/
theorem ladder_tree_interchangeable (pmin pmax : Price) (maxOrders : UInt64) (hlow : 1 ≤ pmin)
    (hle : pmin ≤ pmax) (hhigh : pmax ≤ Int64.maxValue / 2)
    (hspan : pmax.toInt - pmin.toInt + 1 < 2 ^ 32) (horders : maxOrders.toNat ≤ 2 ^ 29)
    (cs : List Command)
    (hcs : ∀ c ∈ cs, c.kind = .new ∧ c.otype = .limit ∨ c.kind = .replace →
      pmin ≤ c.price ∧ c.price ≤ pmax) :
    ∃ ladder0 ladder out tree0 tree out',
      OrderBook.new ⟨pmin, pmax, maxOrders, .ladder⟩ = some ladder0 ∧
      ladder0.applyAll cs = some (ladder, out) ∧
      OrderBook.new ⟨pmin, pmax, maxOrders, .tree⟩ = some tree0 ∧
      tree0.applyAll cs = some (tree, out') ∧
      out.map Emission.record = out'.map Emission.record ∧ ladder.Agree tree := by
  have hbuilds : ∀ index, BookConfig.Builds ⟨pmin, pmax, maxOrders, index⟩ := fun _ =>
    BookConfig.builds_of_span hle (hspan.trans (by decide))
  obtain ⟨ladder0, hnew, hrep, hseq, hcfg⟩ :=
    OrderBook.new_rep ⟨pmin, pmax, maxOrders, .ladder⟩ horders (hbuilds .ladder)
  obtain ⟨tree0, hnew', hrep', hseq', hcfg'⟩ :=
    OrderBook.new_rep ⟨pmin, pmax, maxOrders, .tree⟩ horders (hbuilds .tree)
  have hn : ladder0.cfg.Narrow := by
    rw [hcfg]
    exact fun _ _ => hspan
  have hn' : tree0.cfg.Narrow := by
    rw [hcfg']
    exact fun hk => by cases hk
  obtain ⟨ladder, C, out, hrun, hdone⟩ := hrep.applyAll hn cs
  obtain ⟨tree, C', out', hrun', hdone'⟩ := hrep'.applyAll hn' cs
  have htwins := hrep.run_twins tree0.cfg hn
    (by rw [hcfg, hcfg']; exact ⟨rfl, rfl, rfl, hlow, hhigh⟩) cs (by rw [hcfg]; exact hcs)
  refine ⟨ladder0, ladder, out, tree0, tree, out', hnew, hrun, hnew', hrun', ?_, ?_⟩
  · rw [hdone.record, hdone'.record, hseq, hseq', htwins]
  · have hshows := hdone.rep.shows (hdone.cfg ▸ hn)
    have hshows' := hdone'.rep.shows (hdone'.cfg ▸ hn')
    rw [hdone.spec, htwins] at hshows
    rw [hdone'.spec] at hshows'
    exact hshows.agree hshows'

theorem ladder_tree_interchangeable_small : ∃ ladder0 ladder out tree0 tree out',
    OrderBook.new ⟨1, 8, 4, .ladder⟩ = some ladder0 ∧
    ladder0.applyAll smallRun = some (ladder, out) ∧
    OrderBook.new ⟨1, 8, 4, .tree⟩ = some tree0 ∧ tree0.applyAll smallRun = some (tree, out') ∧
    out.map Emission.record = out'.map Emission.record ∧ ladder.Agree tree :=
  ladder_tree_interchangeable 1 8 4 (by decide) (by decide) (by decide) (by decide) (by decide)
    smallRun (by decide)

end Matcher
