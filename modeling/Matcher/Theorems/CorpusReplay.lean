import Matcher.Spec.Course
import Matcher.Spec.Sweep
import Matcher.Theorems.CorpusFiles
import Matcher.Theorems.Loading
import Matcher.Theorems.Upkeep

/-!
# Replaying a corpus

A book that replays a corpus never runs full and refuses nothing but a cancel or a replace
of an order that is gone. As long as the corpus only builds, the generator's list of live
orders is exact; a replace may be priced for the other side and trade, so from there on
it is not.
-/

namespace Matcher

open Kit

namespace Spec

section Course

variable {cfg : BookConfig} {available : Side → Price → List Order → Nat} {R Q : Book}
    {c : Matcher.Command}

/-- Only a new order brings an id into the book. -/
theorem Course.keeps_ids {P : OrderId → Prop} {r : Book × List Event} (hR : Sound R)
    (h : Course cfg R c r) (hold : ∀ s, ∀ o ∈ R.side s, P o.orderId)
    (hnew : c.kind = .new → P c.orderId) : ∀ s, ∀ o ∈ r.1.side s, P o.orderId := by
  have hout : ∀ {Q s limit t}, SetsOut cfg R c Q s limit t → ∀ s', ∀ o ∈ Q.side s',
      P o.orderId := by
    intro Q s limit t hout s' o ho
    rw [hout.lists hR] at ho
    exact hold s' o (List.mem_filter.mp ho).1
  have hown : ∀ {Q s limit t}, SetsOut cfg R c Q s limit t → P c.orderId := by
    intro Q s limit t hout
    cases hout with
    | new hkind => exact hnew hkind
    | replace _ _ hfind =>
      obtain ⟨ho, hid⟩ := find_eq_some hfind
      rw [← hid]
      exact hold _ _ ho
  have hswept : ∀ {Q s limit t}, SetsOut cfg R c Q s limit t →
      ∀ s', ∀ o ∈ (Q.set (opposite s) (sweep c Q s limit).1).side s', P o.orderId := by
    intro Q s limit t h s' o ho
    rcases side_eq_or s s' with rfl | rfl
    · rw [Book.side_opposite_set] at ho
      exact hout h _ o ho
    · rw [Book.side_set] at ho
      obtain ⟨o', ho', hid, _⟩ := fill_sub _ _ o ho
      rw [← hid]
      exact hout h _ o' ho'
  cases h with
  | refused => exact hold
  | @cancelled s o hkind hfind =>
    obtain ⟨ho, hid⟩ := find_eq_some hfind
    intro s' x hx
    rw [hR.remove_side ho hid] at hx
    exact hold s' x (List.mem_filter.mp hx).1
  | @shrunk s o =>
    intro s' x hx
    rcases side_eq_or s s' with rfl | rfl
    · rw [Book.side_set] at hx
      obtain ⟨y, hy, rfl⟩ := List.mem_map.mp hx
      rw [apply_ite Order.orderId, ite_self]
      exact hold _ y hy
    · rw [Book.side_set_opposite] at hx
      exact hold _ x hx
  | filled h => exact hswept h
  | @rested Q s t h =>
    intro s' x hx
    rcases side_eq_or s s' with rfl | rfl
    · rw [Book.side_set] at hx
      rcases mem_insertBack.mp hx with rfl | hx
      · exact hown h
      · exact hout h _ x hx
    · rw [Book.side_set_opposite] at hx
      exact hswept h _ x hx
  | expired h => exact hswept h

/-- Why a command is refused. -/
theorem step_rejected {id : OrderId} {reason : RejectReason}
    (h : .rejected id reason ∈ (step cfg available R c).2) :
    (c.kind = .new ∧ checkNew cfg available R c = some reason) ∨
    (c.kind ≠ .new ∧ reason = .unknownOrderId) ∨
      (c.kind = .replace ∧ (c.qty = 0 ∨ validPrice cfg c.price = false)) := by
  -- a sweep only trades and closes, so a rejection would be its last event
  have hfill : ∀ s limit os qty e, Event.rejected id reason ∈ (fill s limit c.orderId os qty).2.2 ++
      [e] →
      e = Event.rejected id reason := by
    intro s limit os qty e he
    rcases List.mem_append.mp he with he | he
    · rcases fill_event he with ⟨_, _, _, heq⟩ | ⟨_, _, heq⟩
      · cases heq
      · cases heq
    · exact (List.mem_singleton.mp he).symm
  unfold step at h
  split at h
  · next hkind =>
    unfold newOrder at h
    split at h
    · next r hcheck =>
      cases List.mem_singleton.mp h
      exact Or.inl ⟨hkind, hcheck⟩
    · dsimp only at h
      generalize (if c.otype = .limit then some c.price else none) = limit at h
      split at h
      · cases hfill _ _ _ _ _ h
      split at h
      · cases hfill _ _ _ _ _ h
      · cases hfill _ _ _ _ _ h
  · next hkind =>
    unfold cancel at h
    split at h
    · cases List.mem_singleton.mp h
      exact Or.inr (Or.inl ⟨by rw [hkind]; decide, rfl⟩)
    · cases List.mem_singleton.mp h
  · next hkind =>
    unfold replace at h
    split at h
    · cases List.mem_singleton.mp h
      exact Or.inr (Or.inl ⟨by rw [hkind]; decide, rfl⟩)
    split at h
    · next hqty => exact Or.inr (Or.inr ⟨hkind, Or.inl hqty⟩)
    split at h
    · next hprice => exact Or.inr (Or.inr ⟨hkind, Or.inr hprice⟩)
    split at h
    · cases List.mem_singleton.mp h
    · dsimp only at h
      split at h
      · cases hfill _ _ _ _ _ h
      · cases hfill _ _ _ _ _ h

end Course

end Spec

namespace Vectorgen

/-! ## Replay -/

/-- The book that a command of the generator finds: every id in it was given out before. -/
structure Behind (cfg : BookConfig) (g : Gen) (a : Spec.Sheet) : Prop where
  stands : ∃ b : OrderBook, b.Denotes cfg a
  used : ∀ s, ∀ o ∈ a.1.side s, o.orderId.toNat < g.nextId.toNat

section Replay

variable {cfg : BookConfig} {K : Nat} {g g' : Gen} {a : Spec.Sheet} {c : Command}

theorem Behind.fresh (h : Behind cfg g a) : a.1.find g.nextId = none := by
  rw [Spec.find_eq_none]
  intro s o ho heq
  have hlt := h.used s o ho
  rw [heq] at hlt
  exact Nat.lt_irrefl _ hlt

/-- There are no more orders than ids that were given out. -/
theorem Behind.live_le (h : Behind cfg g a) : a.1.live ≤ g.nextId.toNat := by
  obtain ⟨b, hden⟩ := h.stands
  have hnodup : ((a.1.resting.map RestingOrder.orderId).map UInt64.toNat).Nodup :=
    (OrderBook.nodup_resting hden.sound).map fun _ _ heq => UInt64.toNat_inj.mp heq
  have hsub : (a.1.resting.map RestingOrder.orderId).map UInt64.toNat ⊆
      List.range g.nextId.toNat := by
    intro k hk
    obtain ⟨id, hid, rfl⟩ := List.mem_map.mp hk
    obtain ⟨o, ho, rfl⟩ := List.mem_map.mp hid
    obtain ⟨s, x, hx, rfl⟩ := Spec.Book.mem_resting.mp ho
    exact List.mem_range.mpr (h.used s x hx)
  have hlength := (List.subperm_of_subset hnodup hsub).length_le
  rwa [List.length_map, List.length_map, Spec.Book.length_resting, List.length_range] at hlength

/-- A configuration that has room for `K` orders at the header's prices. -/
structure Suits (cfg : BookConfig) (K : Nat) : Prop where
  opens : cfg.Opens
  room : K < cfg.maxOrders.toNat
  price : ∀ p, InRange p → Spec.validPrice cfg p = true

/-- A new order of the generator passes every check. -/
theorem Behind.checkNew (hcfg : Suits cfg K) (h : Behind cfg g a) (hroom : g.nextId.toNat ≤ K)
    (side : Side) (otype : OType) {price : Price} {qty : Qty} {tif : Tif} (hprice : InRange price)
    (hqty : qty ≠ 0) (htif : tif = .gtc ∨ tif = .ioc) :
    Spec.checkNew cfg (Spec.summed cfg) a.1 (Command.new g.nextId side otype price qty tif).parsed =
      none := by
  have hvalid := hcfg.price price hprice
  have hlive := h.live_le
  have hfull : ¬ cfg.maxOrders.toNat ≤ a.1.live := by
    have := hcfg.room
    omega
  have hpost : tif ≠ .postOnly := by
    rcases htif with rfl | rfl
    · decide
    · decide
  have hfok : tif ≠ .fok := by
    rcases htif with rfl | rfl
    · decide
    · decide
  unfold Spec.checkNew Command.parsed
  simp [hqty, hvalid, h.fresh, hfull, hpost, hfok]

theorem mem_numbered {n : UInt64} {evs : List Event} {x : UInt64 × Event}
    (hx : x ∈ Spec.numbered n evs) : x.2 ∈ evs := by
  have hmem := List.mem_map_of_mem (f := Prod.snd) hx
  rwa [Spec.numbered_snd] at hmem

/-- One command: the next one finds the book as this one did, and the only thing that can be
refused is a cancel or a replace of an order that is gone. -/
theorem Deals.serve (hcfg : Suits cfg K) (hd : Deals K g c g') (h : Behind cfg g a) :
    Behind cfg g' (Spec.serve cfg (Spec.summed cfg) a c.parsed).1 ∧
      ∀ x ∈ (Spec.serve cfg (Spec.summed cfg) a c.parsed).2, ∀ id r, x.2 = .rejected id r →
        r = .unknownOrderId ∧ ¬ c.IsNew := by
  have hn := hcfg.opens.narrow
  obtain ⟨b, hden⟩ := h.stands
  obtain ⟨b', _, _, _, hden'⟩ := hden.apply hn c.parsed
  -- ids are given out in order, and only a new order gets one
  have hmono : g.nextId.toNat ≤ g'.nextId.toNat := by
    cases hd with
    | build _ _ _ hnext => omega
    | take _ _ _ hnext => omega
    | kill hnext => rw [hnext]
    | churn _ _ hnext => rw [hnext]
  have hown : c.parsed.kind = .new → c.parsed.orderId.toNat < g'.nextId.toNat := by
    intro hkind
    cases hd with
    | build _ _ _ hnext =>
      show g.nextId.toNat < _
      omega
    | take _ _ _ hnext =>
      show g.nextId.toNat < _
      omega
    | kill => cases hkind
    | churn => cases hkind
  refine ⟨⟨⟨b', hden'⟩, ?_⟩, ?_⟩
  · have hcourse := Spec.step_course cfg (Spec.summed cfg) a.1 c.parsed
    exact hcourse.keeps_ids (P := fun id => id.toNat < g'.nextId.toNat) hden.sound
      (fun s o ho => Nat.lt_of_lt_of_le (h.used s o ho) hmono) hown
  · intro x hx id r hrejected
    have hmem := mem_numbered hx
    rw [hrejected] at hmem
    have hwhy := Spec.step_rejected hmem
    cases hd with
    | @build side price qty _ hroom hprice hqty =>
      have hpass := h.checkNew hcfg hroom side .limit hprice.inRange hqty (Or.inl rfl)
      rcases hwhy with ⟨_, hcheck⟩ | ⟨hkind, _⟩ | ⟨hkind, _⟩
      · cases hpass.symm.trans hcheck
      · exact absurd rfl hkind
      · cases hkind
    | @take side otype price qty _ hroom hprice hqty =>
      have hpass := h.checkNew hcfg hroom side otype hprice hqty (Or.inr rfl)
      rcases hwhy with ⟨_, hcheck⟩ | ⟨hkind, _⟩ | ⟨hkind, _⟩
      · cases hpass.symm.trans hcheck
      · exact absurd rfl hkind
      · cases hkind
    | kill =>
      -- the generator may cancel what a trade has taken, but nothing else can be wrong
      rcases hwhy with ⟨hkind, _⟩ | ⟨_, hr⟩ | ⟨hkind, _⟩
      · cases hkind
      · refine ⟨hr, ?_⟩
        rintro ⟨_, _, _, _, _, _, heq⟩
        cases heq
      · cases hkind
    | churn hprice hqty =>
      rcases hwhy with ⟨hkind, _⟩ | ⟨_, hr⟩ | ⟨_, hzero | hinvalid⟩
      · cases hkind
      · refine ⟨hr, ?_⟩
        rintro ⟨_, _, _, _, _, _, heq⟩
        cases heq
      · exact absurd hzero hqty
      · have hvalid := hcfg.price _ hprice
        cases hvalid.symm.trans hinvalid

/-- A phase on the book that its first command finds. -/
theorem Behind.play (hcfg : Suits cfg K) {w : Text} {cmds : List Command} (h : Behind cfg g a)
    (htrace : Trace (Plays w K) g cmds g') {b : OrderBook} (hden : b.Denotes cfg a) :
    ∃ b' a' out, b.applyBatch (cmds.map Command.parsed) = some (b', out) ∧ b'.Denotes cfg a' ∧
      Behind cfg g' a' ∧ ∀ x ∈ out, ∀ id r, x.ev = .rejected id r → r = .unknownOrderId ∧
        ¬ (w = "w1".toList ∨ w = "w2".toList) := by
  have hn := hcfg.opens.narrow
  obtain ⟨b', out, hrun, hout, hden'⟩ := hden.applyAll hn (cmds.map Command.parsed)
  rw [answer_map] at hout hden'
  have hkeep : ∀ g c g' a, Plays w K g c g' → Behind cfg g a →
      Behind cfg g' (Spec.serve cfg (Spec.summed cfg) a c.parsed).1 ∧
      ∀ x ∈ (Spec.serve cfg (Spec.summed cfg) a c.parsed).2, ∀ id r, x.2 = .rejected id r →
        r = .unknownOrderId ∧ ¬ (w = "w1".toList ∨ w = "w2".toList) := by
    intro g c g' a hplays hbehind
    obtain ⟨hnext, hrefused⟩ := hplays.deals.serve hcfg hbehind
    refine ⟨hnext, fun x hx id r hr => ?_⟩
    obtain ⟨hunknown, hnot⟩ := hrefused x hx id r hr
    exact ⟨hunknown, fun hw => hnot (hplays.isNew hw)⟩
  obtain ⟨hlast, hrefused⟩ := htrace.answer hkeep h
  refine ⟨b', _, out, ?_, hden', hlast, fun x hx id r hr => ?_⟩
  · rw [hden.applyBatch hn, ← OrderBook.applyAll_eq_runAll]
    exact hrun
  · have hmem : x.record ∈ out.map Emission.record := List.mem_map_of_mem hx
    rw [hout] at hmem
    exact hrefused _ hmem id r hr

end Replay

/-- The headers ask for a book that is large enough. -/
theorem suits_config {a : Args} (hsize : a.setup.toNat + a.n.toNat + 16 ≤ 2 ^ 29) :
    Suits a.config (a.setup.toNat + a.n.toNat) := by
  have horders : a.maxOrders.toNat = a.setup.toNat + a.n.toNat + 16 := by
    have hsixteen : (16 : UInt64).toNat = 16 := rfl
    unfold Args.maxOrders
    rw [UInt64.toNat_add, UInt64.toNat_add, hsixteen]
    omega
  have hwidth : PMAX.toInt - PMIN.toInt + 1 < 2 ^ 32 := by decide
  refine ⟨⟨⟨?_, ?_⟩, ?_, ?_⟩, ?_, ?_⟩
  · show a.maxOrders.toNat ≤ 2 ^ 29
    omega
  · exact fun _ _ => hwidth
  · show PMIN.toInt ≤ PMAX.toInt + 1
    decide
  · exact hwidth.trans (by decide)
  · show _ < a.maxOrders.toNat
    omega
  · intro p hp
    unfold Spec.validPrice
    exact (Bool.and_eq_true _ _).mpr ⟨decide_eq_true hp.1, decide_eq_true hp.2⟩

end Vectorgen

open Vectorgen in
/-- `matcherbench` replays every corpus of `vectorgen`: no command of the first phase is
refused, and of the timed phase only a cancel or a replace of an order that is gone. So a
book of `max_orders` orders is large enough, and W1 and W2 measure no refusals. -/
theorem corpus_replays {a : Args} (hw : a.workload ∈ workloads)
    (hsize : a.setup.toNat + a.n.toNat + 16 ≤ 2 ^ 29) :
    ∃ setupFile runFile b untimed timed, vectorgen a = some (setupFile, runFile) ∧
      Drivers.matcherbench setupFile runFile = some (b, untimed, timed) ∧
      (∀ x ∈ untimed, ∀ id r, x.ev ≠ .rejected id r) ∧
      ∀ x ∈ timed, ∀ id r, x.ev = .rejected id r → r = .unknownOrderId ∧
        a.workload ≠ "w1".toList ∧ a.workload ≠ "w2".toList := by
  have hcfg := suits_config hsize
  obtain ⟨corpus, setup, run, hgen, hsetup, hrun, _, _, htrace, htrace'⟩ :=
    generate_spec hw (by omega)
  obtain ⟨b0, hnew, hden0⟩ := OrderBook.denotes_new hcfg.opens
  have hstart : Behind a.config { rng := ⟨a.seed ||| 1⟩ } ({}, 0) :=
    ⟨⟨b0, hden0⟩, by rintro (_ | _) o ho <;> exact absurd ho List.not_mem_nil⟩
  obtain ⟨b1, a1, untimed, hbatch, hden1, hbehind, hquiet⟩ := hstart.play hcfg htrace hden0.prefault
  obtain ⟨b2, a2, timed, hbatch', _, _, hquiet'⟩ := hbehind.play hcfg htrace' hden1
  refine ⟨_, _, b2, untimed, timed, vectorgen_eq hgen, ?_, ?_, ?_⟩
  · have hload : ∀ cfg, Drivers.load cfg (header a.workload a.seed a.maxOrders ++ corpus.setup) =
        (a.config, setup.map Command.parsed) := by
      intro cfg
      rw [hsetup]
      exact load_written hw a.seed a.maxOrders cfg setup
    have hload' : ∀ cfg, Drivers.load cfg (header a.workload a.seed a.maxOrders ++ corpus.run) =
        (a.config, run.map Command.parsed) := by
      intro cfg
      rw [hrun]
      exact load_written hw a.seed a.maxOrders cfg run
    unfold Drivers.matcherbench Drivers.replay
    rw [hload, hload']
    dsimp only
    rw [hnew, Option.bind_eq_bind, Option.bind_some, hbatch, Option.bind_eq_bind, Option.bind_some]
    dsimp only
    rw [hbatch', Option.bind_some]
    rfl
  · intro x hx id r hr
    exact (hquiet x hx id r hr).2 (Or.inl rfl)
  · intro x hx id r hr
    obtain ⟨hunknown, hnot⟩ := hquiet' x hx id r hr
    exact ⟨hunknown, not_or.mp hnot⟩

open Vectorgen in
theorem corpus_replays_small : ∃ setupFile runFile b untimed timed,
    vectorgen smallArgs = some (setupFile, runFile) ∧
    Drivers.matcherbench setupFile runFile = some (b, untimed, timed) ∧
    (∀ x ∈ untimed, ∀ id r, x.ev ≠ .rejected id r) ∧
    ∀ x ∈ timed, ∀ id r, x.ev = .rejected id r → r = .unknownOrderId ∧
      smallArgs.workload ≠ "w1".toList ∧ smallArgs.workload ≠ "w2".toList :=
  corpus_replays (by decide) (by decide)

namespace Spec

theorem insertBack_perm (s : Side) (o : Order) (os : List Order) :
    (insertBack s o os).Perm (o :: os) := by
  induction os with
  | nil => exact List.Perm.refl _
  | cons x xs ih =>
    unfold insertBack
    split
    · exact List.Perm.refl _
    · exact (ih.cons x).trans (List.Perm.swap o x xs)

theorem Book.put_ids (R : Book) (o : RestingOrder) :
    ((R.put o).resting.map RestingOrder.orderId).Perm (R.resting.map RestingOrder.orderId ++
      [o.orderId]) := by
  refine List.Perm.trans ?_ (List.perm_append_singleton _ _).symm
  rw [show o.orderId :: R.resting.map RestingOrder.orderId =
    (o :: R.resting).map RestingOrder.orderId from rfl]
  refine List.Perm.map _ ?_
  obtain ⟨id, side, price, qty, tif⟩ := o
  have hinsert := (insertBack_perm side ⟨id, price, qty, tif⟩ (R.side side)).map
    (Order.resting side)
  unfold Book.put Book.resting Book.restingSide
  cases side with
  | bid => exact hinsert.append_right _
  | ask => exact (hinsert.append_left _).trans List.perm_middle

end Spec

namespace Vectorgen

/-- The generator's list of live orders is exact, and no two orders can meet. -/
structure Tracked (g : Gen) (a : Spec.Sheet) : Prop where
  ids : (a.1.resting.map RestingOrder.orderId).Perm g.live
  apart : ∀ s, ∀ o ∈ a.1.side s, Apart s o.price

section Track

variable {cfg : BookConfig} {K : Nat} {g g' : Gen} {a : Spec.Sheet} {c : Command}

/-- A price on its own side of the middle reaches no price on the other. -/
theorem Apart.beyond {s : Side} {p q : Price} (hp : Apart s p) (hq : Apart (opposite s) q) :
    Spec.admits s (some p) q = false := by
  cases s with
  | bid => exact decide_eq_false (Int64.not_le.mpr (Int64.lt_trans hp.2 hq.1))
  | ask => exact decide_eq_false (Int64.not_le.mpr (Int64.lt_trans hq.2 hp.1))

/-- An order that builds the book comes to rest with all of its quantity. -/
theorem Tracked.step (hcfg : Suits cfg K) (h : Behind cfg g a) (htracked : Tracked g a)
    (hroom : g.nextId.toNat ≤ K) {side : Side} {price : Price} {qty : Qty}
    (hprice : Apart side price) (hqty : qty ≠ 0) :
    Spec.step cfg (Spec.summed cfg) a.1 (Command.limit g.nextId side price qty .gtc).parsed =
      (a.1.put ⟨g.nextId, side, price, qty, .gtc⟩, [.accepted g.nextId qty]) := by
  have hpass := h.checkNew hcfg hroom side .limit hprice.inRange hqty (Or.inl rfl)
  have hbeyond : ∀ o ∈ a.1.side (opposite side), Spec.admits side (some price) o.price = false :=
    fun o ho =>
    hprice.beyond (htracked.apart _ o ho)
  have hself : a.1.set (opposite side) (a.1.side (opposite side)) = a.1 := by cases side <;> rfl
  have hfill : Spec.fill side (some price) g.nextId (a.1.side (opposite side)) qty =
      (a.1.side (opposite side), qty, []) :=
    Spec.fill_none hbeyond qty
  unfold Spec.step Command.limit
  rw [show (Command.new g.nextId side .limit price qty .gtc).parsed.kind = .new from rfl]
  dsimp only
  unfold Spec.newOrder
  rw [hpass]
  dsimp only [Command.parsed]
  simp only [↓reduceIte, hfill, if_neg hqty, true_or, and_self, hself]
  rfl

theorem Tracked.serve (hcfg : Suits cfg K) (hd : Deals K g c g') (hbuilds : c.Builds)
    (h : Behind cfg g a) (htracked : Tracked g a) :
    Tracked g' (Spec.serve cfg (Spec.summed cfg) a c.parsed).1 ∧
      ∀ x ∈ (Spec.serve cfg (Spec.summed cfg) a c.parsed).2, ∃ id q, x.2 = .accepted id q := by
  obtain ⟨_, _, _, _, heq⟩ := hbuilds
  cases hd with
  | @build side price qty _ hroom hprice hqty hnext hlive =>
    have hstep := htracked.step hcfg h hroom hprice hqty
    unfold Spec.serve
    rw [hstep]
    refine ⟨⟨?_, ?_⟩, ?_⟩
    · rw [hlive]
      exact (Spec.Book.put_ids _ _).trans (htracked.ids.append_right _)
    · intro s o ho
      unfold Spec.Book.put at ho
      rcases Spec.side_eq_or side s with rfl | rfl
      · rw [Spec.Book.side_set] at ho
        rcases Spec.mem_insertBack.mp ho with rfl | ho
        · exact hprice
        · exact htracked.apart _ o ho
      · rw [Spec.Book.side_set_opposite] at ho
        exact htracked.apart _ o ho
    · intro x hx
      exact ⟨g.nextId, qty, List.mem_singleton.mp (mem_numbered hx)⟩
  | take => cases heq
  | kill => cases heq
  | churn => cases heq

/-- A phase that only builds. -/
theorem Tracked.play (hcfg : Suits cfg K) {cmds : List Command} (h : Behind cfg g a)
    (htracked : Tracked g a) (htrace : Trace (Plays "w1".toList K) g cmds g') {b : OrderBook}
    (hden : b.Denotes cfg a) :
    ∃ b' a' out, b.applyAll (cmds.map Command.parsed) = some (b', out) ∧ b'.Denotes cfg a' ∧
      Behind cfg g' a' ∧ Tracked g' a' ∧ ∀ x ∈ out, ∃ id q, x.ev = .accepted id q := by
  obtain ⟨b', out, hrun, hout, hden'⟩ := hden.applyAll hcfg.opens.narrow (cmds.map Command.parsed)
  rw [answer_map] at hout hden'
  have hkeep : ∀ g c g' a, Plays "w1".toList K g c g' → Behind cfg g a ∧ Tracked g a →
      (Behind cfg g' (Spec.serve cfg (Spec.summed cfg) a c.parsed).1 ∧
        Tracked g' (Spec.serve cfg (Spec.summed cfg) a c.parsed).1) ∧
      ∀ x ∈ (Spec.serve cfg (Spec.summed cfg) a c.parsed).2, ∃ id q, x.2 = .accepted id q := by
    rintro g c g' a hplays ⟨hbehind, htracked⟩
    obtain ⟨hnext, _⟩ := hplays.deals.serve hcfg hbehind
    obtain ⟨hids, haccepted⟩ := htracked.serve hcfg hplays.deals (hplays.builds rfl) hbehind
    exact ⟨⟨hnext, hids⟩, haccepted⟩
  obtain ⟨⟨hlast, hids⟩, haccepted⟩ := htrace.answer hkeep ⟨h, htracked⟩
  refine ⟨b', _, out, hrun, hden', hlast, hids, fun x hx => ?_⟩
  have hmem : x.record ∈ out.map Emission.record := List.mem_map_of_mem hx
  rw [hout] at hmem
  exact haccepted _ hmem

end Track

/-- What the generator says of its list: it names the orders that rest in the book, each once. -/
def Gen.Exact (g : Gen) (b : OrderBook) : Prop :=
  g.live.Nodup ∧ ∃ os, b.restingOrders = some os ∧ (os.map RestingOrder.orderId).Perm g.live

theorem Tracked.isExact {cfg : BookConfig} {b : OrderBook} {g : Gen} {a : Spec.Sheet}
    (hden : b.Denotes cfg a) (h : Tracked g a) :
    g.Exact b :=
  ⟨h.ids.nodup (OrderBook.nodup_resting hden.sound), _, hden.restingOrders, h.ids⟩

end Vectorgen

open Vectorgen in
/-- While a corpus only builds, the generator knows the book: after the first phase of any
workload, and after the timed phase of W1, its list names exactly the orders that rest in
the book, and every command was accepted with nothing traded. -/
theorem live_tracking_exact {a : Args} (hw : a.workload ∈ workloads)
    (hsize : a.setup.toNat + a.n.toNat + 16 ≤ 2 ^ 29) :
    ∃ corpus, ∃ setup run : List Vectorgen.Command, ∃ b0 b untimed b' timed,
      generate a = some corpus ∧
      corpus.setup = setup.flatMap Command.line ∧ corpus.run = run.flatMap Command.line ∧
      OrderBook.new a.config = some b0 ∧
      b0.applyAll (setup.map Command.parsed) = some (b, untimed) ∧
      b.applyAll (run.map Command.parsed) = some (b', timed) ∧
      corpus.atSetup.Exact b ∧ (∀ x ∈ untimed, ∃ id q, x.ev = .accepted id q) ∧
      (a.workload = "w1".toList →
        corpus.atEnd.Exact b' ∧ ∀ x ∈ timed, ∃ id q, x.ev = .accepted id q) := by
  have hcfg := suits_config hsize
  obtain ⟨corpus, setup, run, hgen, hsetup, hrun, _, _, htrace, htrace'⟩ :=
    generate_spec hw (by omega)
  obtain ⟨b0, hnew, hden0⟩ := OrderBook.denotes_new hcfg.opens
  have hempty : ∀ s, ∀ o ∈ (({}, 0) : Spec.Sheet).1.side s, False := by
    rintro (_ | _) o ho <;> exact absurd ho List.not_mem_nil
  have hstart : Behind a.config { rng := ⟨a.seed ||| 1⟩ } ({}, 0) :=
    ⟨⟨b0, hden0⟩, fun s o ho => (hempty s o ho).elim⟩
  have htracked : Tracked { rng := ⟨a.seed ||| 1⟩ } ({}, 0) :=
    ⟨List.Perm.refl _, fun s o ho => (hempty s o ho).elim⟩
  obtain ⟨b, a1, untimed, hfirst, hden, hbehind, hids, haccepted⟩ :=
    htracked.play hcfg hstart htrace hden0
  obtain ⟨b', timed, hsecond, _, _⟩ := hden.applyAll hcfg.opens.narrow (run.map Command.parsed)
  refine ⟨corpus, setup, run, b0, b, untimed, b', timed, hgen, hsetup, hrun, hnew, hfirst, hsecond,
    hids.isExact hden, haccepted, ?_⟩
  intro hw1
  -- the timed phase of W1 builds on where the first phase left off
  rw [hw1] at htrace'
  obtain ⟨b2, a2, timed2, hsecond2, hden2, _, hids2, haccepted2⟩ :=
    hids.play hcfg hbehind htrace' hden
  cases hsecond.symm.trans hsecond2
  exact ⟨hids2.isExact hden2, haccepted2⟩

open Vectorgen in
theorem live_tracking_exact_small :
    ∃ corpus, ∃ setup run : List Vectorgen.Command, ∃ b0 b untimed b' timed,
      generate smallArgs = some corpus ∧
      corpus.setup = setup.flatMap Command.line ∧ corpus.run = run.flatMap Command.line ∧
      OrderBook.new smallArgs.config = some b0 ∧
      b0.applyAll (setup.map Command.parsed) = some (b, untimed) ∧
      b.applyAll (run.map Command.parsed) = some (b', timed) ∧
      corpus.atSetup.Exact b ∧ (∀ x ∈ untimed, ∃ id q, x.ev = .accepted id q) ∧
      (smallArgs.workload = "w1".toList →
        corpus.atEnd.Exact b' ∧ ∀ x ∈ timed, ∃ id q, x.ev = .accepted id q) :=
  live_tracking_exact (by decide) (by decide)

end Matcher
