import Matcher.Logic.MarketSim
import Matcher.Theorems.ChunkPool
import Matcher.Theorems.Lookahead

/-!
# Upkeep cannot be observed

Besides applying a command, the owner of a book may hand over a batch, touch the storage
in advance, move the threshold of the look-ahead, or save the book and continue on the
restored one. In any order and any number these change no event and no answer to a
query: the book does what applying its commands one by one does.
-/

namespace Matcher

open Kit

/-- What the owner of a book does with it. -/
inductive BookOp where
  | apply (c : Command)
  | batch (cs : List Command)
  | prefault
  | threshold (live : Nat)
  | reload
deriving DecidableEq, Repr, Inhabited

/-- The commands an operation applies. -/
def BookOp.commands : BookOp → List Command
  | .apply c => [c]
  | .batch cs => cs
  | .prefault | .threshold _ | .reload => []

namespace OrderBook

/-- `restore(b.config(), b.seq(), b.resting_orders())` -/
def reload (b : OrderBook) : Option OrderBook := do
  OrderBook.restore b.cfg b.seq (← b.restingOrders)

def operate (b : OrderBook) : BookOp → Option (OrderBook × List Emission)
  | .apply c => b.apply c
  | .batch cs => b.applyBatch cs
  | .prefault => some (b.prefault, [])
  | .threshold live => some (b.setPrefetchThreshold live, [])
  | .reload => b.reload.map fun b => (b, [])

section Operate

variable {cfg : BookConfig} {b : OrderBook} {a : Spec.Sheet}

theorem Denotes.prefault (h : b.Denotes cfg a) : b.prefault.Denotes cfg a := by
  obtain ⟨C, hrep, hspec, hseq, hcfg⟩ := h
  exact ⟨C, hrep.prefault, hspec, hseq, hcfg⟩

theorem Denotes.setPrefetchThreshold (h : b.Denotes cfg a) (live : Nat) :
    (b.setPrefetchThreshold live).Denotes cfg a := by
  obtain ⟨C, hrep, hspec, hseq, hcfg⟩ := h
  exact ⟨C, { hrep with }, hspec, hseq, hcfg⟩

theorem Denotes.reload (h : b.Denotes cfg a) : ∃ b', b.reload = some b' ∧ b'.Denotes cfg a := by
  obtain ⟨b', hrun, hden⟩ := h.restore
  refine ⟨b', ?_, hden⟩
  obtain ⟨_, _, _, hseq, hcfg⟩ := id h
  unfold OrderBook.reload
  rw [h.restingOrders, hcfg, hseq]
  exact hrun

/-- With look-ahead or without, a batch does what its commands do. -/
theorem Denotes.applyBatch (hn : cfg.Narrow) (h : b.Denotes cfg a) (cs : List Command) :
    b.applyBatch cs = runAll OrderBook.apply b cs := by
  obtain ⟨C, hrep, _, _, hcfg⟩ := h
  obtain ⟨b', out, hahead, hall⟩ := hrep.applyAhead (hcfg ▸ hn) cs
  rw [← applyAll_eq_runAll]
  unfold OrderBook.applyBatch
  rw [hahead, hall, ite_self]

theorem operate_implements (hn : cfg.Narrow) :
    Implements operate (Spec.serve cfg (Spec.summed cfg)) BookOp.commands Emission.record
      (Denotes cfg) := by
  refine ⟨fun {b a} h op => ?_⟩
  cases op with
  | apply c =>
    unfold BookOp.commands
    rw [answer_singleton]
    exact h.apply hn c
  | batch cs =>
    have hrun := (apply_implements hn).run h cs
    rw [List.flatMap_singleton', ← h.applyBatch hn] at hrun
    exact hrun
  | prefault => exact ⟨b.prefault, [], rfl, rfl, h.prefault⟩
  | threshold live => exact ⟨b.setPrefetchThreshold live, [], rfl, rfl, h.setPrefetchThreshold live⟩
  | reload =>
    obtain ⟨b', hrun, hden⟩ := h.reload
    refine ⟨b', [], ?_, rfl, hden⟩
    unfold operate
    rw [hrun]
    rfl

end Operate

end OrderBook

/-- From a new book on, any operations run to an end; the events they give are those of
their commands applied one by one, and so are all answers after them. -/
theorem upkeep_unobservable {cfg : BookConfig} (hopens : cfg.Opens) (ops : List BookOp) :
    ∃ b0 b out b' out', OrderBook.new cfg = some b0 ∧
      runAll OrderBook.operate b0 ops = some (b, out) ∧
      b0.applyAll (ops.flatMap BookOp.commands) = some (b', out') ∧
      out.map Emission.record = out'.map Emission.record ∧ b.seq = b'.seq ∧ b.Agree b' := by
  obtain ⟨b0, hnew, hden⟩ := OrderBook.denotes_new hopens
  have hn := hopens.narrow
  obtain ⟨b, out, b', out', hrun, hrun', hout, hb, hb'⟩ := (OrderBook.operate_implements hn).alike
    (OrderBook.apply_implements hn) hden hden
      (List.flatMap_singleton' (ops.flatMap BookOp.commands)).symm
  rw [← OrderBook.applyAll_eq_runAll] at hrun'
  exact ⟨b0, b, out, b', out', hnew, hrun, hrun', hout, hb.seq.trans hb'.seq.symm, hb.agree hn hb'⟩

theorem upkeep_unobservable_small :
    ∃ b0 b out b' out', OrderBook.new smallBook = some b0 ∧
      runAll OrderBook.operate b0 [.threshold 0, .batch smallRun, .prefault, .reload,
        .apply (.cancel 1)] = some (b, out) ∧
      b0.applyAll (smallRun ++ [.cancel 1]) = some (b', out') ∧
      out.map Emission.record = out'.map Emission.record ∧ b.seq = b'.seq ∧ b.Agree b' :=
  upkeep_unobservable smallBook_opens [.threshold 0, .batch smallRun, .prefault, .reload,
    .apply (.cancel 1)]

end Matcher
