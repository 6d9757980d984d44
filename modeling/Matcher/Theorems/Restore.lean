import Matcher.Logic.Runs

/-!
# Restore, then continue

Two books that represent the same lists answer every further command alike,
whatever their chunks, tables and bitmaps look like. A restored book and the
book it was saved from are such a pair.
-/

namespace Matcher

open Kit

namespace OrderBook

/-- Books with the same lists, sequence number and configuration stay alike. -/
theorem Rep.lockstep {b b' : OrderBook} {C C' : Content} (h : Rep none none b C)
    (h' : Rep none none b' C') (hn : b.cfg.Narrow) (hspec : C'.spec = C.spec)
    (hseq : b'.seq = b.seq) (hcfg : b'.cfg = b.cfg) (cs : List Command) :
    ∃ b1 out b1' out', b.applyAll cs = some (b1, out) ∧ b'.applyAll cs = some (b1', out') ∧
      out'.map Emission.record = out.map Emission.record ∧ b1'.seq = b1.seq ∧ b1'.Agree b1 := by
  obtain ⟨b1, C1, out, hrun, hdone⟩ := h.applyAll hn cs
  obtain ⟨b1', C1', out', hrun', hdone'⟩ := h'.applyAll (hcfg ▸ hn) cs
  rw [hcfg, hspec] at hdone'
  refine ⟨b1, out, b1', out', hrun, hrun', ?_, ?_, ?_⟩
  · rw [hdone.record, hdone'.record, hseq]
  · rw [hdone.seq, hdone'.seq, hseq]
  · have hshows := hdone.rep.shows (hdone.cfg ▸ hn)
    have hshows' := hdone'.rep.shows (hdone'.cfg ▸ hcfg ▸ hn)
    rw [hdone.spec] at hshows
    rw [hdone'.spec] at hshows'
    exact hshows'.agree hshows

end OrderBook

/-- A reachable book, restored from its own configuration, sequence number and
resting orders, has the same resting orders, and after any further commands the
two have emitted the same numbered events and answer every query alike. -/
theorem restore_indistinguishable {cfg : BookConfig} (hfits : cfg.Fits) {b : OrderBook}
    (h : OrderBook.Reaches cfg b) :
    ∃ os b', b.restingOrders = some os ∧ OrderBook.restore b.cfg b.seq os = some b' ∧
      b'.restingOrders = some os ∧
      ∀ cs, ∃ b1 out b1' out', b.applyAll cs = some (b1, out) ∧ b'.applyAll cs = some (b1', out') ∧
        out'.map Emission.record = out.map Emission.record ∧ b1'.seq = b1.seq ∧ b1'.Agree b1 := by
  obtain ⟨C, hrep, hcfg⟩ := h.rep hfits
  have hn : b.cfg.Narrow := hcfg ▸ hfits.narrow
  obtain ⟨b', C', hrestore, hrep', hspec', hseq', hcfg'⟩ := hrep.restore
  refine ⟨C.spec.resting, b', (hrep.shows hn).restingOrders, hrestore, ?_, fun cs => ?_⟩
  · rw [← hspec']
    exact (hrep'.shows (hcfg' ▸ hn)).restingOrders
  · exact hrep.lockstep hrep' hn hspec' hseq' hcfg' cs

theorem restore_indistinguishable_small : ∃ b, OrderBook.Reaches smallBook b ∧
    ∃ os b', b.restingOrders = some os ∧ OrderBook.restore b.cfg b.seq os = some b' ∧
      b'.restingOrders = some os ∧
      ∀ cs, ∃ b1 out b1' out', b.applyAll cs = some (b1, out) ∧ b'.applyAll cs = some (b1', out') ∧
        out'.map Emission.record = out.map Emission.record ∧ b1'.seq = b1.seq ∧ b1'.Agree b1 := by
  obtain ⟨b, h⟩ := OrderBook.exists_reaches smallBook_opens smallRun
  exact ⟨b, h, restore_indistinguishable smallBook_fits h⟩

end Matcher
