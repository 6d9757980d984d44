import Matcher.Logic.Runs

/-!
# Books with ladders of any width

With 2^32 prices or more the ladder's cursor is cut to 32 bits and can point
anywhere, so matching need not be the specification's. The three structures
still fit together: a command that returns leaves a book that represents some
content.
-/

namespace Matcher

open Kit

namespace OrderBook

section Wide

variable {hold : Option OrderId} {b b' : OrderBook} {C : Content} {out : List Emission}

/-- Where an order came to rest there is a slot for its price. -/
theorem Rep.pushLevel_room (h : Rep hold none b C) {side : Side} {price : Price}
    {oid : OrderId} {qty : Qty} {tif : Tif} {r : OrderBook × Nat}
    (hrun : b.pushLevel side price oid qty tif = some r) :
    b.cfg.HasRoom price := by
  by_contra hroom
  have hnone : b.levelInsert side price = none := by
    rw [OrderBook.levelInsert, (h.index side).levelInsert_none hroom, Option.map_none]
  rw [OrderBook.pushLevel, hnone] at hrun
  cases hrun

/-- What a command has passed that is not rejected. -/
theorem checkNew_passed {c : Command} (h : b.checkNew c = some none) :
    c.qty ≠ 0 ∧ (c.otype = .limit → b.priceOk c.price = true) ∧
      b.map.contains c.orderId = some false ∧ b.store.live < b.cfg.maxOrders.toNat := by
  unfold checkNew at h
  split at h
  · cases h
  next hqty =>
  split at h
  · cases h
  next hprice =>
  obtain ⟨found, hfound, h⟩ := Option.bind_eq_some_iff.mp h
  cases found with
  | true => cases h
  | false =>
    rw [if_neg Bool.false_ne_true] at h
    split at h
    · cases h
    next hfull =>
    exact ⟨hqty, fun hl => by simpa [hl] using hprice, hfound, Nat.lt_of_not_le hfull⟩

theorem Rep.newOrder_keeps (h : Rep none none b C) {c : Command}
    (hrun : b.newOrder c = some (b', out)) :
    ∃ C', Rep none none b' C' ∧ b'.cfg = b.cfg := by
  rw [OrderBook.newOrder] at hrun
  obtain ⟨verdict, hcheck, hrun⟩ := Option.bind_eq_some_iff.mp hrun
  cases verdict with
  | some r =>
    cases hrun
    exact ⟨C, h.set_seq _, rfl⟩
  | none =>
    obtain ⟨hqty, hprice, hcontains, hlive⟩ := checkNew_passed hcheck
    obtain ⟨⟨b1, left, out1⟩, hcross, hrun⟩ := Option.bind_eq_some_iff.mp hrun
    obtain ⟨C1, evs, hrep1, hswept⟩ := crossFrom_keeps _ _ _ _ _ _ _ h hqty hcross
    dsimp only at hrun
    split at hrun
    · cases hrun
      exact ⟨C1, hrep1.set_seq _, hswept.cfg⟩
    next hleft =>
    split at hrun
    · next hrest =>
      obtain ⟨b2, hrest2, hrun⟩ := Option.bind_eq_some_iff.mp hrun
      cases hrun
      have hvalid : b1.cfg.Valid c.price := by
        rw [hswept.cfg, ← validPrice_iff, ← priceOk_eq]
        exact hprice hrest.1
      have hnew : C.locs.lookup c.orderId = none := by
        have hc := h.ids.models.contains_eq h.ids.room c.orderId
        rw [hcontains] at hc
        exact Option.not_isSome_iff_eq_none.mp (by simp [← Option.some.inj hc])
      have hroom : b1.cfg.HasRoom c.price := by
        rw [OrderBook.rest] at hrest2
        obtain ⟨r, hpush, _⟩ := Option.bind_eq_some_iff.mp hrest2
        exact hrep1.pushLevel_room hpush
      obtain ⟨n, hcount, _⟩ := hswept.removed
      obtain ⟨b2', C2, hrest2', hrep2, _, hcfg2, _⟩ := hrep1.rest c.side hvalid hroom
        (hswept.fresh _ hnew) (by rw [hswept.cfg]; omega) hleft c.tif
      cases hrest2.symm.trans hrest2'
      exact ⟨C2, hrep2.set_seq _, hcfg2.trans hswept.cfg⟩
    · cases hrun
      exact ⟨C1, hrep1.set_seq _, hswept.cfg⟩

theorem Rep.replaceCross_keeps (h : Rep none none b C) {s : Side} {p : Price} {x : Cell}
    (hx : x ∈ C.queue (s, p)) {oid : OrderId} (hid : x.id = oid) {price : Price} {qty : Qty}
    (hqty : qty ≠ 0) (hvalid : b.cfg.Valid price) {ploc : Nat}
    (hview : b.map.view ploc = some (oid, x.loc))
    (hrun : b.replaceCross oid s p price qty x.tif ploc x.loc = some (b', out)) :
    ∃ C', Rep none none b' C' ∧ b'.cfg = b.cfg := by
  obtain ⟨b1, C1, hrun1, hrep1, hmap1, _, hcfg1, _, hlive1, _⟩ := h.unlinkOrder hx
  rw [hid] at hrep1
  simp only [OrderBook.replaceCross, hrun1, Option.bind_eq_bind, Option.bind_some] at hrun
  obtain ⟨⟨b2, left, out1⟩, hcross, hrun⟩ := Option.bind_eq_some_iff.mp hrun
  obtain ⟨C2, evs, hrep2, hswept⟩ := crossFrom_keeps _ _ _ _ _ _ _ hrep1 hqty hcross
  have hcfg2 : b2.cfg = b.cfg := hswept.cfg.trans hcfg1
  split at hrun
  · obtain ⟨map', hremove, hids⟩ := hrep2.ids.release
    rw [hremove] at hrun
    cases hrun
    have hrep' : Rep none none { b2 with map := map' } { C2 with locs := C2.locs.erase oid } :=
      { hrep2 with ids := hids }
    exact ⟨_, hrep'.set_seq _, hcfg2⟩
  next hleft =>
  obtain ⟨⟨b3, nloc⟩, hpush, hrun⟩ := Option.bind_eq_some_iff.mp hrun
  obtain ⟨n, hcount, _⟩ := hswept.removed
  have hsmall := h.live_le
  obtain ⟨b3', y, l, hpush', hyid, _, _, hp⟩ := hrep2.pushLevel s (hcfg2 ▸ hvalid)
    (hrep2.pushLevel_room hpush) (by omega) oid hleft x.tif
  cases hpush.symm.trans hpush'
  obtain ⟨map', hrelocate, hmodels, htags⟩ :=
    Rep.relocate hrep2 hswept (by omega) (hmap1 ▸ hview) y.loc
  rw [← hyid] at hmodels hrep2
  have hrep' := hp.rep hrep2 (hrep2.ids.reput (s, price) hmodels htags)
  simp only [hp.map] at hrun
  have hout : some (({ b3 with map := map' }.emit (.replaced oid price left)).1,
      out1 ++ ({ b3 with map := map' }.emit (.replaced oid price left)).2) = some (b', out) := by
    rw [← hrun]
    by_cases hsame : b2.map.removes = b1.map.removes
    · rw [if_pos hsame] at hrelocate ⊢
      rw [hrelocate]
      rfl
    · rw [if_neg hsame] at hrelocate ⊢
      rw [hrelocate]
      rfl
  cases hout
  exact ⟨_, hrep'.set_seq _, hp.cfg.trans hcfg2⟩

theorem Rep.replace_keeps (h : Rep none none b C) {oid : OrderId} {price : Price} {qty : Qty}
    (hrun : b.replace oid price qty = some (b', out)) :
    ∃ C', Rep none none b' C' ∧ b'.cfg = b.cfg := by
  rw [OrderBook.replace] at hrun
  cases hloc : C.locs.lookup oid with
  | none =>
    rw [h.ids.models.get_none h.ids.room hloc] at hrun
    cases hrun
    exact ⟨C, h.set_seq _, rfl⟩
  | some loc =>
    obtain ⟨ploc, hget, hval, hview⟩ := h.ids.models.get_some hloc
    obtain ⟨s, p, x, hx, hid, rfl, _⟩ := h.find_some hloc
    obtain ⟨ch, hch, hside, hprice, hs, htif⟩ := (h.store.reads hx).read
    simp only [hget, hval, hch, hs, htif, show ch.side = s from hside, show ch.price =
      p from hprice, Option.bind_eq_bind, Option.bind_some] at hrun
    split at hrun
    · cases hrun
      exact ⟨C, h.set_seq _, rfl⟩
    next hqty =>
    split at hrun
    · cases hrun
      exact ⟨C, h.set_seq _, rfl⟩
    next hok =>
    have hvalid : b.cfg.Valid price := by
      rw [← validPrice_iff, ← priceOk_eq]
      simpa using hok
    split at hrun
    · obtain ⟨b1, C1, out1, hrun1, hdone⟩ := h.replaceInPlace (fun _ => True) hx hqty
        fun _ _ => trivial
      rw [hid] at hrun1
      next hsame =>
      rw [hsame.1] at hrun
      cases hrun.symm.trans hrun1
      exact ⟨C1, hdone.rep, hdone.cfg⟩
    · exact h.replaceCross_keeps hx hid hqty hvalid hview hrun

/-- A command that returns leaves a book in order, however wide its ladder. -/
theorem Rep.apply_keeps (h : Rep none none b C) {c : Command} (hrun : b.apply c = some (b', out)) :
    ∃ C', Rep none none b' C' ∧ b'.cfg = b.cfg := by
  rw [OrderBook.apply] at hrun
  split at hrun
  · exact h.newOrder_keeps hrun
  · obtain ⟨b1, C1, out1, hrun1, hdone⟩ := h.cancel c
    cases hrun.symm.trans hrun1
    exact ⟨C1, hdone.rep, hdone.cfg⟩
  · exact h.replace_keeps hrun

theorem Rep.applyAll_keeps (h : Rep none none b C) {cs : List Command}
    (hrun : b.applyAll cs = some (b', out)) : ∃ C', Rep none none b' C' ∧ b'.cfg = b.cfg := by
  induction cs generalizing b C out with
  | nil =>
    cases hrun
    exact ⟨C, h, rfl⟩
  | cons c cs ih =>
    obtain ⟨⟨b1, out1⟩, hrun1, hrun⟩ := Option.bind_eq_some_iff.mp hrun
    obtain ⟨⟨b2, out2⟩, hrun2, hout⟩ := Option.bind_eq_some_iff.mp hrun
    cases hout
    obtain ⟨C1, hrep1, hcfg1⟩ := h.apply_keeps hrun1
    obtain ⟨C2, hrep2, hcfg2⟩ := ih hrep1 hrun2
    exact ⟨C2, hrep2, hcfg2.trans hcfg1⟩

/-- A reachable book is in order: only the number of orders is bounded. -/
theorem Reaches.keeps {cfg : BookConfig} (horders : cfg.maxOrders.toNat ≤ 2 ^ 29)
    (h : Reaches cfg b) :
    ∃ C, Rep none none b C ∧ b.cfg = cfg := by
  obtain ⟨b0, cs, out, hnew, hrun⟩ := h
  obtain ⟨hrep, _, hcfg⟩ := rep_of_new horders hnew
  obtain ⟨C, hrep', hcfg'⟩ := hrep.applyAll_keeps hrun
  exact ⟨C, hrep', hcfg'.trans hcfg⟩

end Wide

end OrderBook

end Matcher
