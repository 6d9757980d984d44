import Matcher.Logic.MarketSim
import Matcher.Theorems.SnapshotRoundTrip

/-!
# Restarts cannot be observed

An engine that is saved to a snapshot text, discarded and rebuilt from the text stands
for the same market. So a run may be interrupted anywhere and any number of times, and
delivers what it delivers without a stop; and the text of a snapshot determines
everything the engine will ever do.
-/

namespace Matcher

open Kit

/-- The record of a symbol in a snapshot of the market `V`. -/
def Spec.Market.page (V : Spec.Market) (s : Symbol) : Snapshot.SnapBook :=
  let a := (V s).getD ({}, 0)
  ⟨s, a.2, a.1.resting⟩

namespace Engine

section Stands

variable {cfg : BookConfig} {e e' : Engine} {V : Spec.Market} {s : Symbol}

theorem Stands.mem_symbols (h : Stands cfg e V) : s ∈ e.symbols ↔ V s ≠ none := by
  rw [Engine.mem_symbols, ← Option.ne_none_iff_exists', Ne, h.missing]

/-- Engines that stand for the same market have the same symbols. -/
theorem Stands.symbols_eq (h : Stands cfg e V) (h' : Stands cfg e' V) : e'.symbols = e.symbols :=
  symbols_congr fun _ => h'.mem_symbols.trans h.mem_symbols.symm

theorem Stands.map_page (V : Spec.Market) (ss : List Symbol) :
    (ss.map V.page).map Snapshot.SnapBook.symbol = ss := by
  rw [List.map_map]
  exact List.map_id ss

theorem Stands.records (h : Stands cfg e V) (hs : s ∈ e.symbols) : e.Records (V.page s) := by
  obtain ⟨b, hb⟩ := Engine.mem_symbols.mp hs
  obtain ⟨a, ha, hden⟩ := h.found hb
  unfold Spec.Market.page
  rw [ha]
  exact ⟨b, hb, hden.seq, hden.restingOrders⟩

/-- The snapshot of an engine is that of the market it stands for. -/
theorem Stands.writeEngine (h : Stands cfg e V) : Snapshot.writeEngine e =
    some (Snapshot.headerLine cfg ++ ((e.symbols.map V.page).map Snapshot.bookText).flatten) := by
  refine Snapshot.writeEngine_iff.mpr ⟨e.symbols.map V.page, map_page V e.symbols, fun sb hsb =>
    ?_, ?_⟩
  · obtain ⟨s, hs, rfl⟩ := List.mem_map.mp hsb
    exact h.records hs
  · rw [h.default]

/-- Rebuilt from its snapshot, an engine stands for the same market. -/
theorem Stands.rebuilt (h : Stands cfg e V) :
    ∃ e', Snapshot.restoreEngine ⟨cfg, e.symbols.map V.page⟩ = some e' ∧ Stands cfg e' V := by
  have hrestore : ∀ sb ∈ e.symbols.map V.page, ∃ b,
      OrderBook.restore cfg sb.seq sb.orders = some b ∧
        ∃ a, V sb.symbol = some a ∧ b.Denotes cfg a := by
    intro sb hsb
    obtain ⟨s, hs, rfl⟩ := List.mem_map.mp hsb
    obtain ⟨b, hb⟩ := Engine.mem_symbols.mp hs
    obtain ⟨a, ha, hden⟩ := h.found hb
    obtain ⟨b', hrun, hden'⟩ := hden.restore
    unfold Spec.Market.page
    rw [ha]
    exact ⟨b', hrun, a, rfl, hden'⟩
  obtain ⟨e', hrun, hcfg, hbooks, hothers⟩ :=
    Snapshot.restoreBooks_each { defaultCfg := cfg } hrestore
    ((map_page V e.symbols).symm ▸ nodup_symbols e) fun _ _ => rfl
  rw [map_page] at hothers
  refine ⟨e', hrun, hcfg, fun s => ?_⟩
  by_cases hs : s ∈ e.symbols
  · obtain ⟨b, hb, a, ha, hden⟩ := hbooks (V.page s) (List.mem_map_of_mem hs)
    rw [show e'.book s = some b from hb, show V s = some a from ha]
    exact Option.Rel.some hden
  · rw [hothers s hs, not_not.mp (mt h.mem_symbols.mpr hs)]
    exact Option.Rel.none

end Stands

/-- What happens to an engine: a command, or a stop and a restart from a snapshot. -/
inductive Op where
  | submit (s : Symbol) (c : Command)
  | restart
deriving DecidableEq, Repr

def Op.commands : Op → List (Symbol × Command)
  | .submit s c => [(s, c)]
  | .restart => []

/-- `restore_engine(parse(write_engine(e)))` -/
def restart (e : Engine) : Option Engine := do
  Snapshot.restoreEngine (Snapshot.parse (← Snapshot.writeEngine e))

def operate (e : Engine) : Op → Option (Engine × List (Symbol × Emission))
  | .submit s c => e.submitTagged s c
  | .restart => e.restart.map fun e => (e, [])

section Operate

variable {cfg : BookConfig} {e : Engine} {V : Spec.Market}

theorem Stands.restart (h : Stands cfg e V) : ∃ e', e.restart = some e' ∧ Stands cfg e' V := by
  obtain ⟨e', hrun, hstands⟩ := h.rebuilt
  refine ⟨e', ?_, hstands⟩
  unfold Engine.restart
  rw [h.writeEngine, Option.bind_eq_bind, Option.bind_some, Snapshot.parse_written]
  exact hrun

theorem operate_implements (hopens : cfg.Opens) :
    Implements operate (Spec.Market.serve cfg (Spec.summed cfg)) Op.commands tagged
      (Stands cfg) := by
  refine ⟨fun {e V} h op => ?_⟩
  cases op with
  | submit s c =>
    unfold Op.commands
    rw [answer_singleton]
    exact h.submitTagged hopens (s, c)
  | restart =>
    obtain ⟨e', hrun, hstands⟩ := h.restart
    refine ⟨e', [], ?_, rfl, hstands⟩
    unfold operate
    rw [hrun]
    rfl

/-- Every engine whose books have the default configuration stands for a market. -/
theorem Reached.stands (hopens : cfg.Opens) (h : Reached cfg e) : ∃ V, Stands cfg e V := by
  induction h with
  | start => exact ⟨_, Stands.new cfg⟩
  | @symbol e e' s h hrun ih =>
    obtain ⟨V, hV⟩ := ih
    obtain ⟨b, hnew, hden⟩ := OrderBook.denotes_new hopens
    obtain ⟨b', hnew', hrun⟩ := Option.bind_eq_some_iff.mp hrun
    cases hnew.symm.trans hnew'
    cases hrun
    by_cases hs : s ∈ e.books
    · -- a symbol that has a book keeps it
      refine ⟨V, ?_⟩
      rw [addBook, if_pos hs]
      exact hV
    · refine ⟨Function.update V s (some ({}, 0)), (addBook_cfg e s b).trans hV.default, fun t => ?_⟩
      by_cases ht : t = s
      · rw [ht, addBook_new b (Finmap.lookup_eq_none.mpr hs), Function.update_self]
        exact Option.Rel.some hden
      · rw [addBook_ne e b ht, Function.update_of_ne ht]
        exact hV.books t
  | @submit e e' s c out h hrun ih =>
    obtain ⟨V, hV⟩ := ih
    obtain ⟨e1, out1, hrun1, _, hstands⟩ := hV.submitTagged hopens (s, c)
    obtain ⟨⟨e2, out2⟩, hsubmit, hrun1⟩ := Option.bind_eq_some_iff.mp hrun1
    cases hrun.symm.trans hsubmit
    cases hrun1
    exact ⟨_, hstands⟩

end Operate

end Engine

/-- From a new engine on, any commands for any symbols with restarts anywhere between
them: the run returns, delivers what the commands alone deliver, and the two engines
write the same snapshot. -/
theorem restarts_unobservable {cfg : BookConfig} (hopens : cfg.Opens) (ops : List Engine.Op) :
    ∃ e out e' out' text, runAll Engine.operate { defaultCfg := cfg } ops = some (e, out) ∧
      Engine.submitAll { defaultCfg := cfg } (ops.flatMap Engine.Op.commands) = some (e', out') ∧
      out.map Engine.tagged = out'.map Engine.tagged ∧
      Snapshot.writeEngine e = some text ∧ Snapshot.writeEngine e' = some text := by
  have hstart := Engine.Stands.new cfg
  obtain ⟨e, out, e', out', hrun, hrun', hout, he, he'⟩ := (Engine.operate_implements hopens).alike
    (Engine.submitTagged_implements hopens) hstart hstart
      (List.flatMap_singleton' (ops.flatMap Engine.Op.commands)).symm
  rw [← Engine.submitAll_eq_runAll] at hrun'
  refine ⟨e, out, e', out', _, hrun, hrun', hout, he.writeEngine, ?_⟩
  rw [← he.symbols_eq he']
  exact he'.writeEngine

theorem restarts_unobservable_small :
    ∃ e out e' out' text,
      runAll Engine.operate { defaultCfg := smallBook }
        [.submit 7 (.newLimit 1 .bid 5 10 .gtc), .restart, .submit 9 (.cancel 1), .restart,
          .submit 7 (.newMarket 2 .ask 4)] = some (e, out) ∧
      Engine.submitAll { defaultCfg := smallBook } [(7, .newLimit 1 .bid 5 10 .gtc), (9, .cancel 1),
        (7, .newMarket 2 .ask 4)] = some (e', out') ∧
      out.map Engine.tagged = out'.map Engine.tagged ∧
      Snapshot.writeEngine e = some text ∧ Snapshot.writeEngine e' = some text :=
  restarts_unobservable smallBook_opens
    [.submit 7 (.newLimit 1 .bid 5 10 .gtc), .restart, .submit 9 (.cancel 1), .restart,
      .submit 7 (.newMarket 2 .ask 4)]

/-- Two engines with one and the same snapshot text have the same configuration, deliver
the same events for every further run of commands, and write the same snapshot after it,
however they got there. -/
theorem snapshot_determines {cfg cfg' : BookConfig} (hopens : cfg.Opens)
    (hopens' : cfg'.Opens) {e e' : Engine} (h : Engine.Reached cfg e) (h' : Engine.Reached cfg' e')
    {text : Text} (htext : Snapshot.writeEngine e = some text)
    (htext' : Snapshot.writeEngine e' = some text) :
    cfg' = cfg ∧ ∀ cmds, ∃ e1 out e1' out' text', e.submitAll cmds = some (e1, out) ∧
      e'.submitAll cmds = some (e1', out') ∧
      out'.map Engine.tagged = out.map Engine.tagged ∧
      Snapshot.writeEngine e1 = some text' ∧ Snapshot.writeEngine e1' = some text' := by
  obtain ⟨V, hV⟩ := h.stands hopens
  obtain ⟨V', hV'⟩ := h'.stands hopens'
  -- both texts are parsed as what they were written from
  rw [hV.writeEngine] at htext
  rw [hV'.writeEngine] at htext'
  have hparse := congrArg Snapshot.parse ((Option.some.inj htext).trans
    (Option.some.inj htext').symm)
  rw [Snapshot.parse_written, Snapshot.parse_written] at hparse
  obtain ⟨hcfg, hpages⟩ := Snapshot.Snap.mk.inj hparse
  subst hcfg
  have hsymbols : e'.symbols = e.symbols := by
    have hmap := congrArg (List.map Snapshot.SnapBook.symbol) hpages
    rw [Engine.Stands.map_page, Engine.Stands.map_page] at hmap
    exact hmap.symm
  have hmarket : V' = V := by
    funext s
    by_cases hs : s ∈ e.symbols
    · rw [hsymbols] at hpages
      have hpage : V.page s = V'.page s := List.map_inj_left.mp hpages s hs
      obtain ⟨a, ha⟩ := Option.ne_none_iff_exists'.mp (hV.mem_symbols.mp hs)
      obtain ⟨a', ha'⟩ := Option.ne_none_iff_exists'.mp (hV'.mem_symbols.mp (hsymbols ▸ hs))
      unfold Spec.Market.page at hpage
      rw [ha, ha'] at hpage
      obtain ⟨_, hseq, horders⟩ := Snapshot.SnapBook.mk.inj hpage
      rw [ha, ha', show a = a' from Prod.ext (Spec.resting_inj horders) hseq]
    · rw [not_not.mp (mt hV.mem_symbols.mpr hs),
        not_not.mp (mt hV'.mem_symbols.mpr (hsymbols ▸ hs))]
  subst hmarket
  refine ⟨rfl, fun cmds => ?_⟩
  obtain ⟨e1, out, hrun, hout, hstands⟩ := hV.submitAll hopens cmds
  obtain ⟨e1', out', hrun', hout', hstands'⟩ := hV'.submitAll hopens cmds
  refine ⟨e1, out, e1', out', _, hrun, hrun', hout'.trans hout.symm, hstands.writeEngine, ?_⟩
  rw [← hstands.symbols_eq hstands']
  exact hstands'.writeEngine

/-- Two engines that got there by different commands, both of them refused. -/
theorem snapshot_determines_small : ∃ e e' text,
    Engine.Reached smallBook e ∧ Engine.Reached smallBook e' ∧
    Snapshot.writeEngine e = some text ∧ Snapshot.writeEngine e' = some text ∧
    smallBook = smallBook ∧ ∀ cmds, ∃ e1 out e1' out' text', e.submitAll cmds = some (e1, out) ∧
      e'.submitAll cmds = some (e1', out') ∧ out'.map Engine.tagged = out.map Engine.tagged ∧
      Snapshot.writeEngine e1 = some text' ∧ Snapshot.writeEngine e1' = some text' := by
  obtain ⟨e, out, hrun, _, hstands⟩ :=
    (Engine.Stands.new smallBook).submitAll smallBook_opens [(7, .cancel 1)]
  obtain ⟨e', out', hrun', _, hstands'⟩ :=
    (Engine.Stands.new smallBook).submitAll smallBook_opens [(7, .cancel 2)]
  have hreached := Engine.Reached.start.submitAll hrun
  have hreached' := Engine.Reached.start.submitAll hrun'
  have hsame : Engine.Stands smallBook e' (Spec.Market.run smallBook (fun _ =>
      none) [(7, .cancel 1)]).1 := hstands'
  have htext' := hstands'.writeEngine
  rw [hstands.symbols_eq hsame] at htext'
  exact ⟨e, e', _, hreached, hreached', hstands.writeEngine, htext',
    snapshot_determines smallBook_opens smallBook_opens hreached hreached'
      hstands.writeEngine htext'⟩

end Matcher
