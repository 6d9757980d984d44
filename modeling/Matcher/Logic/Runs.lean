import Matcher.Logic.QuerySim

/-!
# Runs

From the empty book on: a new book represents the empty content, a run of
commands is a run of the specification, and `restore` rebuilds a book that
represents the same lists.
-/

namespace Matcher

open Kit

/-- The configurations whose locations and ladder indices fit their 32 bits: a
location is eight times a chunk number, and `NIL` is no ladder index. -/
structure BookConfig.Fits (cfg : BookConfig) : Prop where
  orders : cfg.maxOrders.toNat ≤ 2 ^ 29
  narrow : cfg.Narrow

/-- Those of them whose book can be built: the number of ticks is that of some vector, for
a tree as well. -/
structure BookConfig.Opens (cfg : BookConfig) : Prop extends cfg.Fits where
  ordered : cfg.priceMin.toInt ≤ cfg.priceMax.toInt + 1
  length : cfg.priceMax.toInt - cfg.priceMin.toInt + 1 < 2 ^ 59

theorem BookConfig.Opens.builds {cfg : BookConfig} (h : cfg.Opens) : cfg.Builds := by
  by_cases hle : cfg.priceMin ≤ cfg.priceMax
  · exact builds_of_span hle h.length
  · have hgap := h.ordered
    rw [Int64.le_iff_toInt_le] at hle
    rw [Builds, LadderIndex.span_empty (by omega)]
    exact Nat.zero_le _

/-- A ladder with eight ticks and room for four orders. -/
def smallBook : BookConfig := { priceMin := 1, priceMax := 8, maxOrders := 4 }

theorem smallBook_opens : smallBook.Opens where
  orders := by decide
  narrow _ _ := by decide
  ordered := by decide
  length := by decide

theorem smallBook_fits : smallBook.Fits := smallBook_opens.toFits

/-- A bid, and a market order that takes a part of it. -/
def smallRun : List Command := [.newLimit 1 .bid 5 10 .gtc, .newMarket 2 .ask 4]

/-- Two bids at one price, then a better one, and an ask. -/
def smallQueue : List Command :=
  [.newLimit 1 .bid 5 10 .gtc, .newLimit 2 .bid 5 4 .gtc, .newLimit 3 .bid 6 3 .gtc,
    .newLimit 4 .ask 7 2 .gtc]

namespace OrderBook

/-- `b` is reached from the empty book by some run of commands. -/
def Reaches (cfg : BookConfig) (b : OrderBook) : Prop :=
  ∃ b0 cs out, new cfg = some b0 ∧ b0.applyAll cs = some (b, out)

theorem Reaches.start {cfg : BookConfig} {b : OrderBook} (h : new cfg = some b) : Reaches cfg b :=
  ⟨b, [], [], h, rfl⟩

theorem applyAll_append {b b1 b2 : OrderBook} {cs ds : List Command} {out1 out2 : List Emission}
    (h1 : b.applyAll cs = some (b1, out1)) (h2 : b1.applyAll ds = some (b2, out2)) :
    b.applyAll (cs ++ ds) = some (b2, out1 ++ out2) := by
  induction cs generalizing b out1 with
  | nil =>
    cases h1
    exact h2
  | cons c cs ih =>
    obtain ⟨⟨b', out'⟩, hc, h1⟩ := Option.bind_eq_some_iff.mp h1
    obtain ⟨⟨b'', out''⟩, hcs, h1⟩ := Option.bind_eq_some_iff.mp h1
    cases h1
    simp only [List.cons_append, applyAll, hc, ih hcs, Option.bind_eq_bind, Option.bind_some,
      List.append_assoc]
    rfl

theorem Reaches.apply {cfg : BookConfig} {b b' : OrderBook} {c : Command} {out : List Emission}
    (h : Reaches cfg b) (hrun : b.apply c = some (b', out)) : Reaches cfg b' := by
  obtain ⟨b0, cs, out0, hnew, hrun0⟩ := h
  refine ⟨b0, cs ++ [c], out0 ++ (out ++ []), hnew, applyAll_append hrun0 ?_⟩
  simp only [applyAll, hrun, Option.bind_eq_bind, Option.bind_some]
  rfl

/-- The empty content. -/
def blank : Content :=
  { prices := fun _ => [], queue := fun _ => [], level := fun _ => {}, locs := ∅ }

theorem blank_spec : blank.spec = {} := rfl

section Runs

variable {b : OrderBook} {C : Content}

theorem new_rep (cfg : BookConfig) (horders : cfg.maxOrders.toNat ≤ 2 ^ 29) (hbuilds : cfg.Builds) :
    ∃ b, new cfg = some b ∧ Rep none none b blank ∧ b.seq = 0 ∧ b.cfg = cfg := by
  obtain ⟨map, hnew, hmodels, htags⟩ :=
    OrderMap.new_models (show cfg.maxOrders.toNat ≤ 2 ^ 61 by omega)
  have hchunks : cfg.maxOrders.toNat ≤ Store.maxChunks := horders.trans (by decide)
  refine ⟨_, new_eq_some.mpr ⟨hbuilds, hchunks, map, hnew, rfl⟩, ?_, rfl, rfl⟩
  refine ⟨?_, Store.Queues.blank id _, fun k _ => ?_, fun k hk => (by cases hk), ?_, horders, hbuilds⟩
  · rintro (_ | _)
    · exact PriceIndex.blank_lists cfg .bid
    · exact PriceIndex.blank_lists cfg .ask
  · simp [blank]
  · refine ⟨hmodels, fun i l _ => ?_, fun i hi => (by cases hi), ?_, ?_, Nat.mul_comm 2 _ ▸ htags⟩
    · simp [blank]
    · simp [blank, Store.blank]
    · simp [blank]

/-- A run of commands is the specification's run. -/
theorem Rep.applyAll (h : Rep none none b C) (hn : b.cfg.Narrow) (cs : List Command) :
    ∃ b' C' out, b.applyAll cs = some (b', out) ∧
      Done b (fun _ => True) (Spec.run b.cfg (Spec.summed b.cfg) C.spec cs) b' C' out := by
  induction cs generalizing b C with
  | nil => exact ⟨b, C, [], rfl, ⟨⟨rfl, by simp [Spec.run], rfl, fun _ _ => trivial⟩, h, rfl⟩⟩
  | cons c cs ih =>
    obtain ⟨b1, C1, out1, hrun1, hdone1⟩ := h.apply hn c
    obtain ⟨b2, C2, out2, hrun2, hdone2⟩ := ih hdone1.rep (hdone1.cfg ▸ hn)
    rw [hdone1.cfg, hdone1.spec] at hdone2
    refine ⟨b2, C2, out1 ++ out2, ?_, ⟨⟨hdone2.cfg.trans hdone1.cfg, ?_, ?_, fun _ _ => trivial⟩,
      hdone2.rep, hdone2.spec⟩⟩
    · simp only [OrderBook.applyAll, hrun1, hrun2, Option.bind_eq_bind, Option.bind_some]
      rfl
    · rw [hdone2.seq, hdone1.seq, Spec.run, List.length_append, UInt64.ofNat_add]
      grind
    · rw [List.map_append, hdone1.record, hdone2.record, hdone1.seq, Spec.run, Spec.numbered_append]

/-- A book that was built represents the empty content. -/
theorem rep_of_new {cfg : BookConfig} (horders : cfg.maxOrders.toNat ≤ 2 ^ 29)
    (hnew : new cfg = some b) :
    Rep none none b blank ∧ b.seq = 0 ∧ b.cfg = cfg := by
  obtain ⟨b', hnew', hrep⟩ := new_rep cfg horders (new_eq_some.mp hnew).1
  cases hnew.symm.trans hnew'
  exact hrep

/-- A reachable book represents the outcome of the specification's run. -/
theorem Reaches.rep {cfg : BookConfig} (hfits : cfg.Fits) (h : Reaches cfg b) :
    ∃ C, Rep none none b C ∧ b.cfg = cfg := by
  obtain ⟨b0, cs, out, hnew, hrun⟩ := h
  obtain ⟨hrep, _, hcfg⟩ := rep_of_new hfits.orders hnew
  obtain ⟨b', C', out', hrun', hdone⟩ := hrep.applyAll (hcfg ▸ hfits.narrow) cs
  cases hrun.symm.trans hrun'
  exact ⟨C', hdone.rep, hdone.cfg.trans hcfg⟩

/-- Where there is a reachable book, there was one to begin with. -/
theorem Reaches.builds {cfg : BookConfig} (h : Reaches cfg b) : cfg.Builds := by
  obtain ⟨b0, cs, out, hnew, hrun⟩ := h
  exact (new_eq_some.mp hnew).1

/-- Every run returns, with the specification's lists. -/
theorem exists_reaches_rep {cfg : BookConfig} (hopens : cfg.Opens) (cs : List Command) :
    ∃ b C, Reaches cfg b ∧ Rep none none b C ∧ b.cfg = cfg ∧
      C.spec = (Spec.run cfg (Spec.summed cfg) {} cs).1 := by
  obtain ⟨b0, hnew, hrep, _, hcfg⟩ := new_rep cfg hopens.orders hopens.builds
  obtain ⟨b, C, out, hrun, hdone⟩ := hrep.applyAll (hcfg ▸ hopens.narrow) cs
  rw [hcfg, blank_spec] at hdone
  exact ⟨b, C, ⟨b0, cs, out, hnew, hrun⟩, hdone.rep, hdone.cfg.trans hcfg, hdone.spec⟩

theorem exists_reaches {cfg : BookConfig} (hopens : cfg.Opens) (cs : List Command) :
    ∃ b, Reaches cfg b := by
  obtain ⟨b, _, hreach, _⟩ := exists_reaches_rep hopens cs
  exact ⟨b, hreach⟩

end Runs

/-! ## Restoring -/

section Restore

variable {b : OrderBook} {C : Content}

/-- An order that nothing on its side is worse than goes to the end. -/
theorem insertBack_last {s : Side} {o : Spec.Order} {os : List Spec.Order}
    (h : ∀ x ∈ os, ¬ Better s o.price x.price) : Spec.insertBack s o os = os ++ [o] := by
  have := Spec.insertBack_append h (List.forall_mem_nil fun y : Spec.Order =>
    Better s o.price y.price)
  rwa [List.append_nil] at this

theorem find_insert {R : Spec.Book} {s : Side} {os : List Spec.Order}
    {o : Spec.Order} {id : OrderId} (hid : R.find id = none) (hne : id ≠ o.orderId)
    (hos : ∀ x ∈ os, x = o ∨ x ∈ R.side s) :
    (R.set s os).find id = none := by
  rw [Spec.find_eq_none] at hid ⊢
  intro s' x hx
  by_cases hs : s' = s
  · subst hs
    have hx' : x ∈ os := by cases s' <;> exact hx
    rcases hos x hx' with rfl | hx'
    · exact fun heq => hne heq.symm
    · exact hid s' x hx'
  · refine hid s' x ?_
    cases s <;> cases s' <;> first | exact hx | exact absurd rfl hs

/-- Orders in book order, restored onto a side that stands before them. -/
theorem Rep.restoreSide (h : Rep none none b C) (s : Side) (os : List Spec.Order)
    (hvalid : ∀ o ∈ os, b.cfg.Valid o.price ∧ b.cfg.HasRoom o.price) (hqty : ∀ o ∈ os, o.qty ≠ 0)
    (hfresh : ∀ o ∈ os, C.spec.find o.orderId = none) (hnd : (os.map Spec.Order.orderId).Nodup)
    (hsorted : (C.spec.side s ++ os).Pairwise fun o o' => ¬ Better s o'.price o.price)
    (hroom : b.store.live + os.length ≤ b.cfg.maxOrders.toNat) :
    ∃ b' C', (∀ rest, b.restoreFrom (os.map (Spec.Order.resting s) ++ rest) = b'.restoreFrom rest) ∧
      Rep none none b' C' ∧ b'.cfg = b.cfg ∧ b'.seq = b.seq ∧
      C'.spec = C.spec.set s (C.spec.side s ++ os) := by
  induction os generalizing b C with
  | nil =>
    refine ⟨b, C, fun _ => rfl, h, rfl, rfl, ?_⟩
    rw [List.append_nil]
    cases s <;> rfl
  | cons o os ih =>
    have hlt : b.store.live < b.cfg.maxOrders.toNat := by
      rw [List.length_cons] at hroom
      omega
    obtain ⟨b1, C1, hrun1, hrep1, hseq1, hcfg1, hspec1⟩ := h.rest s
      (hvalid o List.mem_cons_self).1 (hvalid o List.mem_cons_self).2
        (h.unfound (hfresh o List.mem_cons_self)) hlt
      (hqty o List.mem_cons_self) o.tif
    have hlast : Spec.insertBack s o (C.spec.side s) = C.spec.side s ++ [o] :=
      insertBack_last fun x hx => (List.pairwise_append.mp hsorted).2.2 x hx o List.mem_cons_self
    rw [show (⟨o.orderId, o.price, o.qty, o.tif⟩ : Spec.Order) = o from rfl, hlast] at hspec1
    have hside1 : C1.spec.side s = C.spec.side s ++ [o] := by
      rw [hspec1]
      cases s <;> rfl
    have hlive1 : b1.store.live = b.store.live + 1 := by
      rw [← hrep1.spec_live, ← h.spec_live, hspec1]
      cases s <;> simp [Spec.Book.live, Spec.Book.set, Spec.Book.side] <;> omega
    rw [List.map_cons, List.nodup_cons] at hnd
    obtain ⟨b', C', hrun, hrep, hcfg, hseq, hspec⟩ := ih hrep1
      (fun x hx => hcfg1 ▸ hvalid x (List.mem_cons_of_mem _ hx))
      (fun x hx => hqty x (List.mem_cons_of_mem _ hx))
      (fun x hx => by
        rw [hspec1]
        refine find_insert (o := o) (hfresh x (List.mem_cons_of_mem _ hx))
          (fun heq => hnd.1 (heq ▸ List.mem_map_of_mem hx)) fun y hy => ?_
        simpa [or_comm] using hy)
      hnd.2 (by rwa [hside1, List.append_assoc]) (by
        rw [hlive1, hcfg1]
        rw [List.length_cons] at hroom
        omega)
    refine ⟨b', C', fun rest => ?_, hrep, hcfg.trans hcfg1, hseq.trans hseq1, ?_⟩
    · have hopen : ¬ b.store.live ≥ b.cfg.maxOrders.toNat := Nat.not_le.mpr hlt
      rw [← hrun, List.map_cons, List.cons_append]
      simp only [restoreFrom, Spec.Order.resting, if_neg hopen, hrun1, Option.bind_eq_bind,
        Option.bind_some]
    · rw [hspec, hside1, hspec1, List.append_assoc]
      cases s <;> rfl

/-- `restore` from orders of a book, taken in their order, represents them, and goes on
with what else there is to restore. -/
theorem Rep.restoreLists (h : Rep none none b C) (seq : UInt64) {R : Spec.Book}
    (hR : ∀ s, (R.side s).Sublist (C.spec.side s)) :
    ∃ b' C', (∀ rest, OrderBook.restore b.cfg seq (R.resting ++ rest) = b'.restoreFrom rest) ∧
      Rep none none b' C' ∧ C'.spec = R ∧ b'.seq = seq ∧ b'.cfg = b.cfg := by
  obtain ⟨b0, hnew, hrep0, _, hcfg0⟩ := new_rep b.cfg h.small h.builds
  have hroom : R.bids.length + R.asks.length ≤ b.cfg.maxOrders.toNat := by
    have h1 := h.ids.card
    have h2 := h.ids.full
    have hlive : b.store.live = C.spec.bids.length + C.spec.asks.length := h.live_eq
    have hbids : R.bids.length ≤ C.spec.bids.length := (hR .bid).length_le
    have hasks : R.asks.length ≤ C.spec.asks.length := (hR .ask).length_le
    omega
  have hvalid : ∀ s, ∀ o ∈ R.side s, b.cfg.Valid o.price ∧ b.cfg.HasRoom o.price := fun s o ho =>
    h.valid_spec s o ((hR s).subset ho)
  have hqty : ∀ s, ∀ o ∈ R.side s, o.qty ≠ 0 := fun s o ho => h.qty_spec s o ((hR s).subset ho)
  have hnodup : ∀ s, ((R.side s).map Spec.Order.orderId).Nodup := by
    intro s
    refine List.Nodup.sublist ((hR s).map _) ?_
    rw [Content.spec_side]
    exact h.nodup_orders s
  have hsorted : ∀ s, (R.side s).Pairwise fun o o' => ¬ Better s o'.price o.price := fun s =>
    (h.sorted_spec s).sublist (hR s)
  obtain ⟨b1, C1, hrun1, hrep1, hcfg1, hseq1, hspec1⟩ := (hrep0.set_seq seq).restoreSide .bid R.bids
    (hcfg0 ▸ hvalid .bid) (hqty .bid) (fun o _ => rfl) (hnodup .bid) (hsorted .bid) (by
      show b0.store.live + _ ≤ b0.cfg.maxOrders.toNat
      have h0 := hrep0.live_eq
      rw [hcfg0, h0]
      simp [Content.orders, blank]
      omega)
  have hlive1 : b1.store.live = R.bids.length := by
    rw [← hrep1.spec_live, hspec1]
    simp [Spec.Book.live, Spec.Book.set, Spec.Book.side, blank_spec]
  have hbids1 : C1.spec = ⟨R.bids, []⟩ := by rw [hspec1]; rfl
  obtain ⟨b2, C2, hrun2, hrep2, hcfg2, hseq2, hspec2⟩ := hrep1.restoreSide .ask R.asks
    (by rw [hcfg1, hcfg0]; exact hvalid .ask) (hqty .ask) (fun o ho => by
      rw [hbids1, Spec.find_eq_none]
      rintro (_ | _) x hx
      · exact h.disjoint_orders ((hR .bid).subset hx) ((hR .ask).subset ho)
      · exact absurd hx List.not_mem_nil)
    (hnodup .ask) (by rw [hbids1]; exact hsorted .ask) (by
      rw [hlive1, hcfg1, hcfg0]
      omega)
  refine ⟨b2, C2, fun rest => ?_, hrep2, ?_, hseq2.trans hseq1, hcfg2.trans (hcfg1.trans hcfg0)⟩
  · simp only [OrderBook.restore, hnew, Option.bind_eq_bind, Option.bind_some]
    rw [Spec.Book.resting, List.append_assoc]
    exact (hrun1 _).trans (hrun2 rest)
  · rw [hspec2, hbids1]
    rfl

/-- `restore` from a book's own sequence number and orders represents the same
lists. -/
theorem Rep.restore (h : Rep none none b C) :
    ∃ b' C', OrderBook.restore b.cfg b.seq C.spec.resting = some b' ∧ Rep none none b' C' ∧
      C'.spec = C.spec ∧ b'.seq = b.seq ∧ b'.cfg = b.cfg := by
  obtain ⟨b', C', hrun, hrest⟩ := h.restoreLists b.seq fun s => List.Sublist.refl (C.spec.side s)
  refine ⟨b', C', ?_, hrest⟩
  rw [← List.append_nil C.spec.resting, hrun]
  rfl

end Restore

end OrderBook

end Matcher
