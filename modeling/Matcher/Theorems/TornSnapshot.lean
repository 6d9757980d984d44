import Matcher.Logic.SnapshotCut
import Matcher.Theorems.CrossStructure
import Matcher.Theorems.SnapshotRoundTrip
import Matcher.Theorems.Uncrossed

/-!
# A torn snapshot

A snapshot write that stopped somewhere leaves a text that is still parsed and restored.
An order's line that lost a part of its quantity is restored as an order the book never
held; a cut anywhere else does no harm.
-/

namespace Matcher

open Kit

/-! ## Intact books -/

/-- What a query reports of an order. -/
def RestingOrder.info (o : RestingOrder) : OrderInfo := ⟨o.orderId, o.side, o.price, o.qty⟩

/-- The engine's book of the symbol lists an order like `o`. -/
def Engine.Holds (e : Engine) (s : Symbol) (o : RestingOrder) : Prop :=
  ∃ b os, e.book s = some b ∧ b.restingOrders = some os ∧ ∃ o' ∈ os, o'.info = o.info

namespace OrderBook

/-- What is promised of a book restored under the symbol `s` from a snapshot of `e`: its
structures agree, it is not crossed, every run of commands returns, and its orders are
live, admitted by its configuration, unique and orders of `e`. -/
structure Intact (b : OrderBook) (e : Engine) (s : Symbol) : Prop where
  coherent : b.Coherent
  uncrossed : b.NotCrossed
  runs : ∀ cs, ∃ r, b.applyAll cs = some r
  listed : ∃ os, b.restingOrders = some os ∧ b.Lists os ∧ (os.map RestingOrder.orderId).Nodup ∧
    ∀ o ∈ os, o.qty ≠ 0 ∧ b.priceOk o.price = true ∧ e.Holds s o

section Intact

variable {b : OrderBook} {C : Content} {e : Engine} {s : Symbol}

/-- A book that represents some of the engine's orders is intact. -/
theorem Rep.intact (h : Rep none none b C) (hn : b.cfg.Narrow) (hC : Spec.Uncrossed C.spec)
    (hheld : ∀ o ∈ C.spec.resting, e.Holds s o) : b.Intact e s where
  coherent := h.coherent hn
  uncrossed := (h.shows hn).notCrossed hC
  runs cs := by
    obtain ⟨b', _, out, hrun, _⟩ := h.applyAll hn cs
    exact ⟨(b', out), hrun⟩
  listed := by
    refine ⟨C.spec.resting, (h.shows hn).restingOrders, (h.shows hn).lists h.sound,
      nodup_resting h.sound, fun o ho => ?_⟩
    obtain ⟨s, x, hx, rfl⟩ := Spec.Book.mem_resting.mp ho
    refine ⟨h.qty_spec s x hx, ?_, hheld _ ho⟩
    rw [priceOk_eq, validPrice_iff]
    exact (h.valid_spec s x hx).1

/-- A book without orders is intact. -/
theorem blank_intact (e : Engine) (s : Symbol) {cfg : BookConfig} (hfits : cfg.Fits)
    (hbuilds : cfg.Builds) (seq : UInt64) :
    ∃ b, OrderBook.restore cfg seq [] = some b ∧ b.Intact e s ∧ b.store.live = 0 ∧ b.cfg = cfg := by
  obtain ⟨b, hnew, hrep, _, hcfg⟩ := new_rep cfg hfits.orders hbuilds
  refine ⟨{ b with seq }, ?_, ?_, ?_, hcfg⟩
  · rw [OrderBook.restore, hnew]
    rfl
  · exact (hrep.set_seq seq).intact (hcfg ▸ hfits.narrow) blank_uncrossed fun o ho =>
      absurd ho List.not_mem_nil
  · exact hrep.live_eq

/-- Without room no order is restored. -/
theorem restore_noRoom {cfg : BookConfig} (hroom : cfg.maxOrders = 0) (seq : UInt64)
    (os : List RestingOrder) :
    OrderBook.restore cfg seq os = OrderBook.restore cfg seq [] := by
  rw [OrderBook.restore, OrderBook.restore]
  cases hnew : OrderBook.new cfg with
  | none => rfl
  | some b0 =>
    obtain ⟨_, _, map, _, rfl⟩ := new_eq_some.mp hnew
    cases os with
    | nil => rfl
    | cons o os =>
      have hfull : (Store.blank cfg.maxOrders.toNat).live ≥ cfg.maxOrders.toNat := by
        rw [hroom]; exact Nat.zero_le _
      exact if_pos hfull

/-- The first orders of a book are restored to a book that lists them. -/
theorem Rep.restoreFirst (h : Rep none none b C) (seq : UInt64) {os : List RestingOrder}
    (hos : os <+: C.spec.resting) :
    ∃ b' C', (∀ rest, OrderBook.restore b.cfg seq (os ++ rest) = b'.restoreFrom rest) ∧
      Rep none none b' C' ∧
      C'.spec.resting = os ∧ (∀ s, (C'.spec.side s).Sublist (C.spec.side s)) ∧ b'.cfg = b.cfg := by
  rw [List.prefix_iff_eq_take.mp hos, Spec.Book.resting_take]
  have hsub : ∀ s, ((⟨C.spec.bids.take os.length,
      C.spec.asks.take (os.length - C.spec.bids.length)⟩ : Spec.Book).side s).Sublist
      (C.spec.side s) := by
    rintro (_ | _)
    · exact List.take_sublist _ _
    · exact List.take_sublist _ _
  obtain ⟨b', C', hrun, hrep, hspec, _, hcfg⟩ := h.restoreLists seq hsub
  exact ⟨b', C', hrun, hrep, by rw [hspec], fun s => by rw [hspec]; exact hsub s, hcfg⟩

end Intact

end OrderBook

namespace Snapshot

open Engine OrderBook

section Restored

variable {cfg : BookConfig} {e : Engine} {sbs : List SnapBook}

theorem restoreBooks_intact {e0 e : Engine} {xs : List SnapBook}
    (h0 : ∀ s b, e0.book s = some b → b.Intact e s)
    (hall : ∀ x ∈ xs, ∃ b, OrderBook.restore cfg x.seq x.orders = some b ∧ b.Intact e x.symbol) :
    ∃ e', restoreBooks cfg e0 xs = some e' ∧ ∀ s b, e'.book s = some b → b.Intact e s := by
  induction xs generalizing e0 with
  | nil => exact ⟨e0, rfl, h0⟩
  | cons x xs ih =>
    obtain ⟨b, hrestore, hintact⟩ := hall x List.mem_cons_self
    have hadded : ∀ s b', (e0.addBook x.symbol b).book s = some b' → b'.Intact e s := by
      intro s b' hb'
      rcases addBook_some hb' with hb' | ⟨rfl, rfl⟩
      · exact h0 s b' hb'
      · exact hintact
    obtain ⟨e', hrun, he'⟩ := ih hadded fun y hy => hall y (List.mem_cons_of_mem x hy)
    refine ⟨e', ?_, he'⟩
    rw [restoreBooks, hrestore]
    exact hrun

/-- A text that does no harm is restored to intact books. -/
theorem Harmless.restore (hfits : cfg.Fits) (hreach : Engine.Reached cfg e)
    (hrecords : ∀ sb ∈ sbs, e.Records sb) {s : Snap} (h : Harmless cfg sbs s) :
    ∃ e', restoreEngine s = some e' ∧ ∀ t b, e'.book t = some b → b.Intact e t := by
  refine restoreBooks_intact (fun t b hb => by cases hb) fun x hx => ?_
  rcases h x hx with hnone | ⟨hcfg, ⟨hne, hnil⟩ | ⟨sb, hsb, hsymbol, hfirst⟩⟩
  · -- the configuration was read from a line that is not a header
    have hzero : (parseHeader []).Fits := ⟨by decide, fun _ _ => by decide⟩
    have hbuilds : (parseHeader []).Builds := by decide
    obtain ⟨b, hrun, hintact, _⟩ :=
      blank_intact e x.symbol (hnone ▸ hzero) (hnone ▸ hbuilds) x.seq
    exact ⟨b, by rw [restore_noRoom (by rw [hnone]; rfl), hrun], hintact⟩
  · -- some book was written, so there was one
    obtain ⟨sb, hsb⟩ := List.exists_mem_of_ne_nil sbs hne
    obtain ⟨b0, hbook, _, _⟩ := hrecords sb hsb
    have hbuilds := (hreach.books.2 _ b0 hbook).builds
    obtain ⟨b, hrun, hintact, _⟩ := blank_intact e x.symbol (hcfg ▸ hfits) (hcfg ▸ hbuilds) x.seq
    exact ⟨b, by rw [hnil, hrun], hintact⟩
  · obtain ⟨b, hbook, _, horders⟩ := hrecords sb hsb
    obtain ⟨C, hrep, hbcfg, hC⟩ := (hreach.books.2 _ b hbook).rep_uncrossed hfits
    have hlist := (hrep.shows (hbcfg ▸ hfits.narrow)).restingOrders
    rw [Option.some.inj (horders.symm.trans hlist)] at hfirst
    obtain ⟨b', C', hrun, hrep', hspec', hsub, hcfg'⟩ := hrep.restoreFirst x.seq hfirst
    refine ⟨b', ?_, hrep'.intact (by rw [hcfg', hbcfg]; exact hfits.narrow) ?_ fun o ho => ?_⟩
    · have hall := hrun []
      rw [List.append_nil] at hall
      rw [hcfg, ← hbcfg, hall]
      rfl
    · exact hC.mono fun s y hy => ⟨y, (hsub s).subset hy, rfl⟩
    · rw [hsymbol]
      exact ⟨b, _, hbook, hlist, o, hfirst.subset (hspec' ▸ ho), rfl⟩

end Restored

end Snapshot

/-! ## An order as it was pushed -/

namespace Store

theorem setSlot_some {ch ch' : Chunk} {i : Nat} {v : Slot} (h : ch.setSlot i v = some ch') :
    i < CHUNK_SLOTS ∧ ch'.s[i]? = some v := by
  rw [Chunk.setSlot] at h
  split at h
  · next hlt =>
    cases h
    exact ⟨hlt, Vector.getElem?_set_self hlt⟩
  · cases h

theorem setTif_some {ch ch' : Chunk} {i : Nat} {t : Tif} (h : ch.setTif i t = some ch') :
    ch'.s = ch.s := by
  rw [Chunk.setTif] at h
  split at h
  · cases h
    rfl
  · cases h

/-- Whatever its quantity, an order stands in the slot that `push` reports. -/
theorem push_slot {st st' : Store} {l l' : Level} {side : Side} {price : Price} {id : OrderId}
    {qty : Qty} {tif : Tif} {loc : Nat} (h : st.push l side price id qty tif = some (st', l', loc))
    (hsize : st'.chunks.size ≤ 2 ^ 29) :
    ∃ ch, st'.chunk loc = some ch ∧ ch.s[locSlot loc]? = some ⟨id, qty⟩ := by
  obtain ⟨⟨st1, l1, c⟩, _, h⟩ := Option.bind_eq_some_iff.mp h
  obtain ⟨ch, hch, h⟩ := Option.bind_eq_some_iff.mp h
  obtain ⟨ch1, hslot, h⟩ := Option.bind_eq_some_iff.mp h
  obtain ⟨ch2, htif, h⟩ := Option.bind_eq_some_iff.mp h
  obtain ⟨hlt, hset⟩ := setSlot_some hslot
  rw [← setTif_some htif] at hset
  have hlt8 : ch.tail < 8 := hlt.trans (by decide)
  obtain ⟨st2, hupd, h⟩ := Option.bind_eq_some_iff.mp h
  rw [updChunk_eq _ hch] at hupd
  cases hupd
  cases h
  dsimp only at hsize
  rw [withChunk_size] at hsize
  have hc : c < 2 ^ 29 := lt_of_lt_of_le (lt_size_of_getElem? hch) hsize
  refine ⟨{ ch2 with tail := incr 8 ch.tail, live := incr 8 ch2.live }, ?_, ?_⟩
  · rw [Store.chunk, locChunk_mkLoc hc hlt8]
    exact withChunk_self hch
  · rw [locSlot_mkLoc hc hlt8]
    exact hset

end Store

namespace OrderBook

/-- An order that an intact book finds has a quantity, and the engine holds one like it. -/
theorem Intact.held {b : OrderBook} {e : Engine} {t : Symbol} (h : b.Intact e t)
    {id : OrderId} {i : OrderInfo} (hi : b.order id = some (some i)) :
    i.qty ≠ 0 ∧ ∃ b0 os0 y, e.book t = some b0 ∧ b0.restingOrders = some os0 ∧ y ∈ os0 ∧
    y.orderId = id ∧
      y.qty = i.qty := by
  obtain ⟨os, _, hlists, _, hall⟩ := h.listed
  obtain ⟨x, hx, hid⟩ : ∃ x ∈ os, x.orderId = id := by
    by_contra hnone
    have hunknown := hlists.unknown id fun x hx hid => hnone ⟨x, hx, hid⟩
    rw [hi] at hunknown
    cases hunknown
  have hinfo := hlists.order x hx
  rw [hid, hi] at hinfo
  have hqty : i.qty = x.qty := congrArg OrderInfo.qty (Option.some.inj (Option.some.inj hinfo))
  obtain ⟨hlive, _, b0, os0, hbook, horders, y, hy, hsame⟩ := hall x hx
  refine ⟨hqty ▸ hlive, b0, os0, y, hbook, horders, hy, ?_, ?_⟩
  · exact (congrArg OrderInfo.orderId hsame).trans hid
  · exact (congrArg OrderInfo.qty hsame).trans hqty.symm

/-- The book finds an order that has just been rested, whatever its price and quantity. -/
theorem Rep.order_of_rest {b b' : OrderBook} {C : Content} (h : Rep none none b C)
    {side : Side} {price : Price} {oid : OrderId} {qty : Qty} {tif : Tif}
    (hrun : b.rest oid side price qty tif = some b') (hsize : b'.store.chunks.size ≤ 2 ^ 29) :
    ∃ s p, b'.order oid = some (some ⟨oid, s, p, qty⟩) := by
  obtain ⟨⟨b3, loc⟩, hpush, hrun⟩ := Option.bind_eq_some_iff.mp hrun
  obtain ⟨map, hmap, hrun⟩ := Option.bind_eq_some_iff.mp hrun
  have hmap3 := pushLevel_map hpush
  obtain ⟨b1, _, hpush⟩ := Option.bind_eq_some_iff.mp hpush
  obtain ⟨lv, _, hpush⟩ := Option.bind_eq_some_iff.mp hpush
  obtain ⟨⟨st, lv', loc'⟩, hstore, hpush⟩ := Option.bind_eq_some_iff.mp hpush
  obtain ⟨b2, hwrite, hpush⟩ := Option.bind_eq_some_iff.mp hpush
  cases hpush
  have hst3 : b3.store = st := (writeLevel_frame hwrite).store
  cases hrun
  rw [hmap3] at hmap
  obtain ⟨map', hmap', hmodels, _⟩ := h.ids.models.insert h.ids.room oid loc
  cases hmap.symm.trans hmap'
  obtain ⟨i, hget, hval, _⟩ := hmodels.get_some (Finmap.lookup_insert _)
  dsimp only at hsize
  rw [hst3] at hsize
  obtain ⟨ch, hch, hs⟩ := Store.push_slot hstore hsize
  refine ⟨ch.side, ch.price, ?_⟩
  simp only [order, hget, hval, hst3, hch, hs, Option.bind_eq_bind, Option.bind_some]
  rfl

end OrderBook

namespace Snapshot

open Engine OrderBook

section Restored

variable {cfg : BookConfig} {e : Engine} {sbs : List SnapBook}

theorem restoreBooks_append (e0 : Engine) (xs ys : List SnapBook) :
    restoreBooks cfg e0 (xs ++ ys) = (restoreBooks cfg e0 xs).bind fun e1 =>
      restoreBooks cfg e1 ys := by
  induction xs generalizing e0 with
  | nil => rfl
  | cons x xs ih =>
    rw [List.cons_append, restoreBooks, restoreBooks, Option.bind_eq_bind, Option.bind_assoc]
    exact congrArg _ (funext fun b => ih _)

theorem restoreBooks_other {e0 e' : Engine} {xs : List SnapBook}
    (h : restoreBooks cfg e0 xs = some e') {s : Symbol} (hs : s ∉ xs.map SnapBook.symbol) :
    e'.book s = e0.book s := by
  induction xs generalizing e0 with
  | nil =>
    cases h
    rfl
  | cons x xs ih =>
    obtain ⟨b, _, h⟩ := Option.bind_eq_some_iff.mp h
    rw [List.map_cons, List.mem_cons, not_or] at hs
    exact (ih h hs.2).trans (addBook_ne e0 b hs.1)

/-- A mangled order makes its book one that is not intact. -/
theorem mangled_corrupts (hfits : cfg.Fits) (hreach : Engine.Reached cfg e)
    (hsymbols : sbs.map SnapBook.symbol = e.symbols) (hrecords : ∀ sb ∈ sbs, e.Records sb)
    {l l' : List SnapBook} {sb : SnapBook} {os os' : List RestingOrder} {o x : RestingOrder}
    (hsbs : sbs = l ++ sb :: l') (hos : sb.orders = os ++ o :: os') (hx : Mangled o x) {e' : Engine}
    (hrun : restoreEngine ⟨cfg, l ++ [{ sb with orders := os ++ [x] }]⟩ = some e') :
    ∃ b', e'.book sb.symbol = some b' ∧ ¬ b'.Intact e sb.symbol := by
  obtain ⟨e1, hrun1, hrun⟩ :=
    Option.bind_eq_some_iff.mp ((restoreBooks_append _ _ _).symm.trans hrun)
  obtain ⟨b', hrestored, hrun⟩ := Option.bind_eq_some_iff.mp hrun
  cases hrun
  have hrestore : OrderBook.restore cfg sb.seq (os ++ [x]) = some b' := hrestored
  have hfree : e1.book sb.symbol = none := by
    refine restoreBooks_other hrun1 fun hmem => ?_
    have hnodup := hsymbols ▸ nodup_symbols e
    rw [hsbs, List.map_append, List.map_cons] at hnodup
    exact (List.nodup_append.mp hnodup).2.2 _ hmem _ List.mem_cons_self rfl
  refine ⟨b', addBook_new b' hfree, fun hintact => ?_⟩
  -- the book that was written, and what is restored of it before the mangled order
  obtain ⟨b, hbook, _, horders⟩ :=
    hrecords sb (by rw [hsbs]; exact List.mem_append_right _ List.mem_cons_self)
  obtain ⟨C, hrep, hcfg⟩ := (hreach.books.2 _ b hbook).rep hfits
  have hshows := hrep.shows (hcfg ▸ hfits.narrow)
  have hlists := hshows.lists hrep.sound
  have hresting : C.spec.resting = os ++ o :: os' :=
    hos ▸ Option.some.inj (hshows.restingOrders.symm.trans horders)
  obtain ⟨b1, C1, hrest, hrep1, hspec1, _, hcfg1⟩ :=
    hrep.restoreFirst sb.seq ⟨o :: os', hresting.symm⟩
  have hlive : os.length < cfg.maxOrders.toNat := by
    have hcard := hrep.ids.card
    have hfull := hrep.ids.full
    rw [← hrep.spec_live, ← Spec.Book.length_resting, hresting, List.length_append,
      List.length_cons] at hcard
    rw [← hcfg]
    omega
  have hsize := restore_size hrestore
  rw [List.length_append, List.length_singleton] at hsize
  have hcell := hrest [x]
  rw [hcfg, hrestore, restoreFrom, hcfg1, hcfg, ← hrep1.spec_live, ← Spec.Book.length_resting,
    hspec1, if_neg (Nat.not_le.mpr hlive)] at hcell
  obtain ⟨b2, hx2, hdone⟩ := Option.bind_eq_some_iff.mp hcell.symm
  cases hdone
  have horders29 := hfits.orders
  obtain ⟨s, p, horder⟩ := hrep1.order_of_rest hx2 (by omega)
  obtain ⟨hqty, b3, os3, y, hbook3, horders3, hy, hyid, hyqty⟩ := hintact.held horder
  rcases hx with hzero | ⟨hxid, hother⟩
  · exact hqty hzero
  · cases hbook.symm.trans hbook3
    have hlist3 : os3 = C.spec.resting := Option.some.inj (horders3.symm.trans hshows.restingOrders)
    have hmine := hlists.order o (by
      rw [hresting]; exact List.mem_append_right _ List.mem_cons_self)
    have hyours := hlists.order y (hlist3 ▸ hy)
    rw [hyid.trans hxid, hmine] at hyours
    have hsameQty : o.qty = y.qty :=
      congrArg OrderInfo.qty (Option.some.inj (Option.some.inj hyours))
    exact hother (hyqty.symm.trans hsameQty.symm)

end Restored

end Snapshot

/-- Restoring the first part of a snapshot's text gives intact books if and only if the cut
is not in an order's line, behind its tag and before its closing brace. -/
theorem torn_snapshot_intact_iff {cfg : BookConfig} (hfits : cfg.Fits) {e : Engine}
    (h : Engine.Reached cfg e) {p r : Text} (htext : Snapshot.writeEngine e = some (p ++ r)) :
    (∃ e', Snapshot.restoreEngine (Snapshot.parse p) = some e' ∧
      ∀ s b, e'.book s = some b → b.Intact e s) ↔ Snapshot.cutsOrder p r = false := by
  obtain ⟨sbs, hsymbols, hrecords, hsplit⟩ := Snapshot.writeEngine_iff.mp htext
  rw [h.books.1] at hsplit
  have hqty : ∀ sb ∈ sbs, ∀ o ∈ sb.orders, o.qty ≠ 0 := by
    intro sb hsb o ho
    obtain ⟨b, hbook, _, horders⟩ := hrecords sb hsb
    obtain ⟨C, hrep, hcfg⟩ := (h.books.2 _ b hbook).rep hfits
    have hlist := (hrep.shows (hcfg ▸ hfits.narrow)).restingOrders
    rw [Option.some.inj (horders.symm.trans hlist)] at ho
    obtain ⟨s, x, hx, rfl⟩ := Spec.Book.mem_resting.mp ho
    exact hrep.qty_spec s x hx
  rcases Snapshot.parse_cut hqty hsplit with ⟨hcut, hharmless⟩ | ⟨hcut, l, sb, l', os, o, os', x,
    hsbs, hos, hx, hparse⟩
  · exact iff_of_true (hharmless.restore hfits h hrecords) hcut
  · refine iff_of_false ?_ (by simp [hcut])
    rintro ⟨e', hrun, hintact⟩
    rw [hparse] at hrun
    obtain ⟨b', hbook', hnot⟩ :=
      Snapshot.mangled_corrupts hfits h hsymbols hrecords hsbs hos hx hrun
    exact hnot (hintact _ b' hbook')

/-- An engine with one book, at symbol 7. -/
theorem Engine.exists_book (cs : List Command) {R : Spec.Book} {evs : List Event}
    (hspec : Spec.run smallBook (Spec.summed smallBook) {} cs = (R, evs)) {sb : Snapshot.SnapBook}
    (hsb : sb = ⟨7, UInt64.ofNat evs.length, R.resting⟩) :
    ∃ e0 e out, Engine.addSymbol { defaultCfg := smallBook } 7 smallBook = some e0 ∧
      e0.submitAll (cs.map fun c => (7, c)) = some (e, out) ∧ Engine.Reached smallBook e ∧
      [sb].map Snapshot.SnapBook.symbol = e.symbols ∧ ∀ x ∈ [sb], e.Records x := by
  obtain ⟨b0, hnew, hrep, hseq, hcfg⟩ :=
    OrderBook.new_rep smallBook smallBook_opens.orders smallBook_opens.builds
  have hn : b0.cfg.Narrow := hcfg ▸ smallBook_fits.narrow
  obtain ⟨b, C, out, hrun, hdone⟩ := hrep.applyAll hn cs
  have hadd : Engine.addSymbol { defaultCfg := smallBook } 7 smallBook =
      some (Engine.addBook { defaultCfg := smallBook } 7 b0) := by
    rw [Engine.addSymbol, hnew]
    rfl
  have hempty : Engine.book { defaultCfg := smallBook } 7 = none := rfl
  obtain ⟨e, hall, _, hown, hothers⟩ := Engine.submitAll_own (Engine.addBook_new b0 hempty) hrun
  have hsymbols : e.symbols = [7] := Engine.symbols_single hown fun t ht =>
    (hothers t ht).trans (Engine.addBook_ne _ b0 ht)
  rw [hcfg, OrderBook.blank_spec, hspec] at hdone
  have hlist := (hdone.rep.shows (hdone.cfg ▸ hn)).restingOrders
  rw [hdone.spec] at hlist
  rw [hsb]
  refine ⟨_, e, _, hadd, hall, (Engine.Reached.start.symbol hadd).submitAll hall, hsymbols.symm,
    List.forall_mem_singleton.mpr ⟨b, hown, ?_, hlist⟩⟩
  rw [hdone.seq, hseq]
  exact UInt64.zero_add _

/-- What a snapshot says of a book with two bids. -/
def twoBids : Snapshot.SnapBook := ⟨7, 2, [⟨1, .bid, 5, 10, .gtc⟩, ⟨2, .bid, 5, 4, .postOnly⟩]⟩

/-- The text was cut off behind the first of two orders, which alone is restored. -/
theorem torn_snapshot_intact_small : ∃ e p r, Engine.Reached smallBook e ∧
    Snapshot.writeEngine e = some (p ++ r) ∧
    Snapshot.parse p = ⟨smallBook, [⟨7, 2, [⟨1, .bid, 5, 10, .gtc⟩]⟩]⟩ ∧
    Snapshot.cutsOrder p r = false ∧
    ((∃ e', Snapshot.restoreEngine (Snapshot.parse p) = some e' ∧
      ∀ s b, e'.book s = some b → b.Intact e s) ↔ Snapshot.cutsOrder p r = false) := by
  have hspec : Spec.run smallBook (Spec.summed smallBook) {}
      [.newLimit 1 .bid 5 10 .gtc, .newLimit 2 .bid 5 4 .postOnly] =
      (⟨[⟨1, 5, 10, .gtc⟩, ⟨2, 5, 4, .postOnly⟩], []⟩, [.accepted 1 10, .accepted 2 4]) := by decide
  obtain ⟨_, e, _, _, _, hreached, hsymbols, hrecords⟩ :=
    Engine.exists_book _ hspec (show twoBids = _ from rfl)
  have hwritten := Snapshot.writeEngine_iff.mpr ⟨_, hsymbols, hrecords, rfl⟩
  rw [hreached.books.1] at hwritten
  have htext : Snapshot.writeEngine e = some ((Snapshot.headerLine smallBook ++
      Snapshot.bookLine 7 2 ++ Snapshot.orderLine ⟨1, .bid, 5, 10, .gtc⟩) ++
      Snapshot.orderLine ⟨2, .bid, 5, 4, .postOnly⟩) := by
    simp [hwritten, Snapshot.bookText, twoBids]
  exact ⟨e, _, _, hreached, htext, by decide +kernel, by decide +kernel,
    torn_snapshot_intact_iff smallBook_fits hreached htext⟩

/-- What a snapshot says of a book with one bid. -/
def bidBook : Snapshot.SnapBook := ⟨7, 1, [⟨1, .bid, 5, 10, .gtc⟩]⟩

/-- A text that stops before the bid's quantity is read as a bid without quantity, and the
book restored from it is not intact. -/
theorem torn_snapshot_not_intact :
    ∃ e0 e out p r, Engine.addSymbol { defaultCfg := smallBook } 7 smallBook = some e0 ∧
    e0.submitAll [(7, .newLimit 1 .bid 5 10 .gtc)] = some (e, out) ∧ Engine.Reached smallBook e ∧
    Snapshot.writeEngine e = some (p ++ r) ∧
    Snapshot.parse p = ⟨smallBook, [⟨7, 1, [⟨1, .bid, 5, 0, .gtc⟩]⟩]⟩ ∧
    ¬ ∃ e', Snapshot.restoreEngine (Snapshot.parse p) = some e' ∧
      ∀ s b, e'.book s = some b → b.Intact e s := by
  have hspec : Spec.run smallBook (Spec.summed smallBook) {} [.newLimit 1 .bid 5 10 .gtc] =
      (⟨[⟨1, 5, 10, .gtc⟩], []⟩, [.accepted 1 10]) := by decide
  obtain ⟨e0, e, out, hadd, hrun, hreached, hsymbols, hrecords⟩ :=
    Engine.exists_book _ hspec (show bidBook = _ from rfl)
  have htext := Snapshot.writeEngine_iff.mpr ⟨_, hsymbols, hrecords, rfl⟩
  rw [hreached.books.1] at htext
  have hparse : Snapshot.parse (Snapshot.headerLine smallBook ++ Snapshot.bookLine 7 1 ++
      (Snapshot.orderLine ⟨1, .bid, 5, 10, .gtc⟩).take 85) =
        ⟨smallBook, [⟨7, 1, [⟨1, .bid, 5, 0, .gtc⟩]⟩]⟩ := by decide +kernel
  refine ⟨e0, e, out, _, "10\x7d\n".toList, hadd, hrun, hreached, htext.trans ?_, hparse, ?_⟩
  · rfl
  · rintro ⟨e', hrestore, hintact⟩
    rw [hparse] at hrestore
    have hbooks : [bidBook] = [] ++ bidBook :: [] := rfl
    have horders : bidBook.orders = [] ++ ⟨1, .bid, 5, 10, .gtc⟩ :: [] := rfl
    obtain ⟨b', hbook', hnot⟩ :=
      Snapshot.mangled_corrupts smallBook_fits hreached hsymbols hrecords hbooks horders
      (Or.inl rfl) hrestore
    exact hnot (hintact _ b' hbook')

end Matcher
