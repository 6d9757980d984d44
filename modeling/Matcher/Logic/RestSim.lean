import Matcher.Logic.SweepSim
import Matcher.Spec.Facts

/-!
# Orders enter and leave the book

The two structural moves of every command, against the specification's lists:
`rest` puts an order behind everything of equal or better price, `unlinkOrder`
takes one out of the middle of its level.
-/

namespace Matcher

open Kit

namespace Spec

/-- `insertBack` goes behind everything that is not worse. -/
theorem insertBack_append {s : Side} {o : Order} {xs ys : List Order}
    (hxs : ∀ x ∈ xs, ¬ Better s o.price x.price) (hys : ∀ y ∈ ys, Better s o.price y.price) :
    insertBack s o (xs ++ ys) = xs ++ o :: ys := by
  induction xs with
  | nil =>
    cases ys with
    | nil => rfl
    | cons y ys => rw [List.nil_append, insertBack, if_pos (hys y List.mem_cons_self)]; rfl
  | cons x xs ih =>
    rw [List.cons_append, insertBack, if_neg (hxs x List.mem_cons_self),
      ih fun z hz => hxs z (List.mem_cons_of_mem _ hz)]
    rfl

theorem find_of_mem {R : Book} {s : Side} {o : Order} (ho : o ∈ R.side s)
    (hnd : ((R.side s).map Order.orderId).Nodup)
    (hother : s = .ask → ∀ o' ∈ R.bids, o'.orderId ≠ o.orderId) :
    R.find o.orderId = some (s, o) := by
  have hfind : (R.side s).find? (fun x => decide (x.orderId = o.orderId)) = some o := by
    obtain ⟨l, r, hsplit⟩ := List.append_of_mem ho
    rw [hsplit] at hnd ⊢
    rw [List.map_append, List.map_cons] at hnd
    refine List.find?_eq_some_iff_append.mpr ⟨by simp, l, r, rfl, fun x hx => ?_⟩
    have hne : x.orderId ≠ o.orderId := fun heq =>
      (List.nodup_append.mp hnd).2.2 _ (List.mem_map_of_mem hx) _ List.mem_cons_self heq
    simp [hne]
  cases s with
  | bid =>
    have hb : R.bids.find? (fun x => decide (x.orderId = o.orderId)) = some o := hfind
    rw [Book.find, hb]
  | ask =>
    have hb : R.bids.find? (fun x => decide (x.orderId = o.orderId)) = none := by
      rw [List.find?_eq_none]
      intro x hx
      simpa using hother rfl x hx
    have ha : R.asks.find? (fun x => decide (x.orderId = o.orderId)) = some o := hfind
    rw [Book.find, hb, ha]
    rfl

end Spec

namespace PriceIndex

/-- The listed prices around `p`. -/
theorem listed_split {s : Side} {p : Price} {ps : List Price} (h : ps.Pairwise (Better s)) :
    ∃ l r, listed s p ps = l ++ p :: r ∧ (p ∈ ps → ps = l ++ p :: r) ∧ (p ∉ ps → ps = l ++ r) ∧
      (∀ q ∈ l, Better s q p) ∧ ∀ q ∈ r, Better s p q := by
  have hsorted : (listed s p ps).Pairwise (Better s) := by
    unfold listed
    split
    · exact h
    · next hnew => exact ranked_insert h hnew
  obtain ⟨l, r, hsplit⟩ := List.append_of_mem (mem_listed.mpr (Or.inl rfl) : p ∈ listed s p ps)
  rw [hsplit] at hsorted
  obtain ⟨_, hr, hlr⟩ := List.pairwise_append.mp hsorted
  refine ⟨l, r, hsplit, fun hp => ?_, fun hp => ?_, fun q hq => hlr q hq p List.mem_cons_self,
    (List.pairwise_cons.mp hr).1⟩
  · rw [← hsplit, listed, if_pos hp]
  · have hpl : p ∉ l := fun hmem => irrefl_of (Better s) p (hlr p hmem p List.mem_cons_self)
    have herase : (listed s p ps).erase p = ps := by
      rw [listed, if_neg hp, List.erase_orderedInsert_of_notMem hp]
    rw [← herase, hsplit, List.erase_append_right _ hpl, List.erase_cons_head]

end PriceIndex

namespace Content

/-- The content after appending `x` at level `k`. -/
def push (C : Content) (k : Key) (x : Cell) (l : Level) : Content where
  prices := Function.update C.prices k.1 (PriceIndex.listed k.1 k.2 (C.prices k.1))
  queue := Function.update C.queue k (C.queue k ++ [x])
  level := Function.update C.level k l
  locs := C.locs.insert x.id x.loc

/-- The appended order stands behind everything of equal or better price. -/
theorem push_orders {C : Content} {k : Key} {x : Cell} {l : Level}
    (hsorted : (C.prices k.1).Pairwise (Better k.1))
    (hunlisted : k.2 ∉ C.prices k.1 → C.queue k = []) :
    (C.push k x l).orders k.1 = Spec.insertBack k.1 (x.order k.2) (C.orders k.1) := by
  obtain ⟨ls, rs, hsplit, hin, hout, hls, hrs⟩ := PriceIndex.listed_split (p := k.2) hsorted
  have hfar : ∀ qs : List Price, k.2 ∉ qs →
      (qs.flatMap fun p => ((C.push k x l).queue (k.1, p)).map (Cell.order p)) =
        qs.flatMap fun p => (C.queue (k.1, p)).map (Cell.order p) := by
    intro qs hqs
    refine List.flatMap_congr fun p hp => ?_
    have hpk : (k.1, p) ≠ k := fun heq => hqs (congrArg Prod.snd heq ▸ hp)
    have hfar : (C.push k x l).queue (k.1, p) = C.queue (k.1, p) := Function.update_of_ne hpk _ _
    rw [hfar]
  have hself : (C.push k x l).queue (k.1, k.2) = C.queue k ++ [x] := Function.update_self ..
  have hbefore : C.orders k.1 = (ls.flatMap fun p => (C.queue (k.1, p)).map (Cell.order p)) ++
      (C.queue k).map (Cell.order k.2) ++ rs.flatMap fun p =>
        (C.queue (k.1, p)).map (Cell.order p) := by
    by_cases hmem : k.2 ∈ C.prices k.1
    · rw [orders, hin hmem]
      simp
    · rw [orders, hout hmem, hunlisted hmem]
      simp
  have hprice : ∀ qs : List Price,
      ∀ o ∈ (qs.flatMap fun p => (C.queue (k.1, p)).map (Cell.order p)), o.price ∈ qs := by
    intro qs o ho
    obtain ⟨p, hp, ho⟩ := List.mem_flatMap.mp ho
    obtain ⟨y, _, rfl⟩ := List.mem_map.mp ho
    exact hp
  rw [hbefore, Spec.insertBack_append]
  · have hls' : k.2 ∉ ls := fun hmem => irrefl_of (Better k.1) k.2 (hls _ hmem)
    have hrs' : k.2 ∉ rs := fun hmem => irrefl_of (Better k.1) k.2 (hrs _ hmem)
    rw [orders, show (C.push k x l).prices k.1 = _ from Function.update_self .., hsplit,
      List.flatMap_append, List.flatMap_cons, hfar ls hls', hfar rs hrs', hself]
    simp
  · intro o ho
    rcases List.mem_append.mp ho with ho | ho
    · exact fun hb => irrefl_of (Better k.1) k.2 (trans_of (Better k.1) hb (hls _ (hprice ls o ho)))
    · obtain ⟨y, _, rfl⟩ := List.mem_map.mp ho
      exact irrefl_of (Better k.1) k.2
  · exact fun o ho => hrs _ (hprice rs o ho)

theorem push_orders_ne {C : Content} {k : Key} {x : Cell} {l : Level} {s : Side} (hs : s ≠ k.1) :
    (C.push k x l).orders s = C.orders s := by
  refine orders_congr (Function.update_of_ne hs _ _) fun p _ => Function.update_of_ne ?_ _ _
  rintro rfl
  exact hs rfl

theorem push_spec {C : Content} {k : Key} {x : Cell} {l : Level}
    (hsorted : (C.prices k.1).Pairwise (Better k.1))
    (hunlisted : k.2 ∉ C.prices k.1 → C.queue k = []) :
    (C.push k x l).spec =
      C.spec.set k.1 (Spec.insertBack k.1 (x.order k.2) (C.spec.side k.1)) := by
  have hself := push_orders (x := x) (l := l) hsorted hunlisted
  obtain ⟨s, p⟩ := k
  cases s
  · have hother := push_orders_ne (C := C) (x := x) (l := l) (k := (.bid, p)) (s := .ask) (by simp)
    simp only [spec, Spec.Book.set, Spec.Book.side, hother, Spec.Book.mk.injEq, and_true]
    exact hself
  · have hother := push_orders_ne (C := C) (x := x) (l := l) (k := (.ask, p)) (s := .bid) (by simp)
    simp only [spec, Spec.Book.set, Spec.Book.side, hother, Spec.Book.mk.injEq, true_and]
    exact hself

end Content

namespace OrderBook

/-! ## Appending to a level -/

/-- `b'` is `b` with `x` appended at level `k`, and the map not yet told. -/
structure Pushed (b : OrderBook) (C : Content) (k : Key) (x : Cell) (b' : OrderBook)
    (l : Level) : Prop where
  index : b'.Indexed (C.push k x l).prices (C.push k x l).level
  store : Store.Queues id b'.store (C.push k x l).level (C.push k x l).queue
  live : b'.store.live = b.store.live + 1
  map : b'.map = b.map
  seq : b'.seq = b.seq
  cfg : b'.cfg = b.cfg

section Push

variable {hold : Option OrderId} {b : OrderBook} {C : Content}

theorem Rep.unlisted (h : Rep hold none b C) {k : Key} (hk : k.2 ∉ C.prices k.1) :
    C.queue k = [] := by
  by_contra hne
  exact hk ((h.listed k (by simp)).mpr hne)

/-- `push(*own.level_insert(price), ..)`. -/
theorem Rep.pushLevel (h : Rep hold none b C) (side : Side) {price : Price}
    (hvalid : b.cfg.Valid price) (hroom : b.cfg.HasRoom price) (hlive : b.store.live < 2 ^ 29)
    (oid : OrderId) {qty : Qty} (hqty : qty ≠ 0) (tif : Tif) :
    ∃ b' x l, b.pushLevel side price oid qty tif = some (b', x.loc) ∧ x.id = oid ∧ x.qty = qty ∧
      x.tif = tif ∧ Pushed b C (side, price) x b' l := by
  obtain ⟨b1, hinsert, hframe1, hindex1⟩ := h.index.levelInsert (s := side) hvalid hroom (by
    have := h.length_prices_le side
    omega) fun hmem => by
    have hne := (h.listed (side, price) (by simp)).mp hmem
    have := (h.store.level_empty (side, price)).1
    simpa [hne] using this
  have hmem1 : price ∈ Function.update C.prices side
      (PriceIndex.listed side price (C.prices side)) side := by
    rw [Function.update_self]
    exact PriceIndex.mem_listed.mpr (Or.inl rfl)
  obtain ⟨st, l, x, hpush, hid, hq, ht, hstore, hlive'⟩ :=
    h.store.push (k := (side, price)) (h.store.room hlive _) rfl hqty oid tif
  obtain ⟨b2, hwrite, hframe2, hindex2⟩ :=
    (show ({ b1 with store := st } : OrderBook).Indexed _ _ from hindex1).write hmem1 l
  refine ⟨b2, x, l, ?_, hid, hq, ht, hindex2, by rw [hframe2.store]; exact hstore, ?_,
    hframe2.map.trans hframe1.map, hframe2.seq.trans hframe1.seq, hframe2.cfg.trans hframe1.cfg⟩
  · simp only [OrderBook.pushLevel, hinsert, hindex1.read hmem1, hframe1.store, hpush, hwrite,
      Option.bind_eq_bind, Option.bind_some]
    rfl
  · rw [hframe2.store]
    exact hlive'

/-- With the map told, the new content is represented. -/
theorem Pushed.rep (h : Rep hold none b C) {k : Key} {x : Cell} {b' : OrderBook} {l : Level}
    (hp : Pushed b C k x b' l) {map : OrderMap}
    (hids : Ids none map b.cfg.maxOrders.toNat (b.store.live + 1) (C.push k x l).queue
      (C.push k x l).locs) :
    Rep none none { b' with map } (C.push k x l) := by
  refine ⟨hp.index, hp.store, fun k' _ => ?_, fun k' hk' => (by cases hk'), ?_, hp.cfg ▸ h.small,
    hp.cfg ▸ h.builds⟩
  · by_cases hk : k' = k
    · subst hk
      simp only [Content.push, Function.update_self, PriceIndex.mem_listed, true_or, ne_eq,
        List.append_eq_nil_iff, List.cons_ne_nil, and_false, not_false_eq_true]
    · have hlisted := h.listed k' (by simp)
      simp only [Content.push, Function.update_of_ne hk]
      by_cases hs : k'.1 = k.1
      · have hp' : k'.2 ≠ k.2 := fun hp' => hk (Prod.ext hs hp')
        rw [hs, Function.update_self, PriceIndex.mem_listed, ← hs]
        exact ⟨fun hm => hlisted.mp (hm.resolve_left hp'), fun hne => Or.inr (hlisted.mpr hne)⟩
      · rw [Function.update_of_ne hs]
        exact hlisted
  · show Ids none map b'.cfg.maxOrders.toNat b'.store.live _ _
    rw [hp.cfg, hp.live]
    exact hids

/-- `rest`: a new order enters the book. -/
theorem Rep.rest (h : Rep none none b C) (side : Side) {price : Price} (hvalid : b.cfg.Valid price)
    (hroom : b.cfg.HasRoom price) {oid : OrderId} (hnew : C.locs.lookup oid = none)
    (hlive : b.store.live < b.cfg.maxOrders.toNat)
    {qty : Qty} (hqty : qty ≠ 0) (tif : Tif) :
    ∃ b' C', b.rest oid side price qty tif = some b' ∧ Rep none none b' C' ∧ b'.seq = b.seq ∧
      b'.cfg = b.cfg ∧ C'.spec =
        C.spec.set side (Spec.insertBack side ⟨oid, price, qty, tif⟩ (C.spec.side side)) := by
  obtain ⟨b1, x, l, hrun, hid, hq, ht, hp⟩ :=
    h.pushLevel side hvalid hroom (lt_of_lt_of_le hlive h.small) oid hqty tif
  obtain ⟨map, hinsert, hids⟩ := h.ids.put (x := x) (side, price) (hid.symm ▸ hnew) hlive
  refine ⟨{ b1 with map }, C.push (side, price) x l, ?_, hp.rep h hids, hp.seq, hp.cfg, ?_⟩
  · rw [hid] at hinsert
    simp only [OrderBook.rest, hrun, hp.map, hinsert, Option.bind_eq_bind, Option.bind_some]
    rfl
  · rw [Content.push_spec (h.sorted side) h.unlisted, Cell.order, hid, hq, ht]

end Push

/-! ## Taking an order off the book -/

section Unlink

variable {hold : Option OrderId} {ex : Option Key} {b : OrderBook} {C : Content}

/-- An empty level contributes nothing. -/
theorem flatMap_erase {α β : Type*} [DecidableEq α] {f : α → List β} {a : α}
    (hf : f a = []) (as : List α) :
    (as.erase a).flatMap f = as.flatMap f := by
  induction as with
  | nil => rfl
  | cons c as ih =>
    rw [List.erase_cons]
    split
    · next hc =>
      rw [beq_iff_eq] at hc
      rw [List.flatMap_cons, hc, hf, List.nil_append]
    · rw [List.flatMap_cons, List.flatMap_cons, ih]

/-- The other orders of a queue have other ids. -/
theorem Rep.id_ne_of_split (h : Rep hold ex b C) {k : Key} {l r : List Cell} {x : Cell}
    (hsplit : C.queue k = l ++ x :: r) : ∀ y ∈ l ++ r, y.id ≠ x.id := by
  have hnd := h.nodup_queue k
  rw [hsplit, List.map_append, List.map_cons] at hnd
  have hnot := (List.nodup_cons.mp (List.nodup_middle.mp hnd)).1
  rw [← List.map_append] at hnot
  exact fun y hy heq => hnot (heq ▸ List.mem_map_of_mem hy)

/-- So have the orders at other prices. -/
theorem Rep.id_ne_of_price (h : Rep hold ex b C) {s : Side} {p q : Price} {x : Cell}
    (hx : x ∈ C.queue (s, p)) (hqp : q ≠ p) : ∀ y ∈ C.queue (s, q), y.id ≠ x.id := fun _ hy heq =>
  hqp (Prod.mk.inj (h.id_inj hy hx heq).1).2

/-- `unlink` takes the order at `x.loc` out of its level, which stays listed for now. -/
theorem Rep.unlinkCell (h : Rep none none b C) {s : Side} {p : Price} {x : Cell}
    (hx : x ∈ C.queue (s, p)) :
    ∃ l r st lv b', C.queue (s, p) = l ++ x :: r ∧
      (b.ownIndex s).levelMut p = some (C.level (s, p)) ∧
      b.store.unlink (C.level (s, p)) x.loc = some (st, lv) ∧
      { b with store := st }.writeLevel s p lv = some b' ∧
      b'.map = b.map ∧ b'.seq = b.seq ∧ b'.cfg = b.cfg ∧ b'.store.live + 1 = b.store.live ∧
      Rep (some x.id) (if l ++ r = [] then some (s, p) else none) b' { C with
        queue := Function.update C.queue (s, p) (l ++ r), level :=
          Function.update C.level (s, p) lv } := by
  have hmem : p ∈ C.prices s := h.listed_of_mem hx
  obtain ⟨l, r, hsplit⟩ := List.append_of_mem hx
  have hlevel := (h.index s).levelMut p
  rw [if_neg (by rw [(h.store.level_empty (s, p)).1, hsplit]; simp)] at hlevel
  have hsmall := h.live_le
  obtain ⟨st, lv, hunlink, hlive, hstore⟩ := h.store.unlink hsplit (by omega)
  obtain ⟨b', hwrite, hframe, hindex⟩ :=
    (show ({ b with store := st } : OrderBook).Indexed _ _ from h.index).write hmem lv
  have hstore' : b'.store = st := hframe.store
  have hmap : b'.map = b.map := hframe.map
  refine ⟨l, r, st, lv, b', hsplit, hlevel, hunlink, hwrite, hmap, hframe.seq, hframe.cfg, by
    rw [hstore']; exact hlive, ?_⟩
  refine h.requeue (s, p) (l ++ r) C.locs (some x.id) b' (Or.inl rfl) hmem hframe.cfg hindex (by
    rw [hstore']; exact hstore) ?_
  rw [hmap]
  exact h.ids.take h.loc_inj hsplit (h.store.nodup _) (by rw [hstore']; exact hlive)

/-- `unlinkOrder` takes the order at `x.loc` out of its level; the map keeps it. -/
theorem Rep.unlinkOrder (h : Rep none none b C) {s : Side} {p : Price} {x : Cell}
    (hx : x ∈ C.queue (s, p)) :
    ∃ b' C', b.unlinkOrder s p x.loc = some b' ∧ Rep (some x.id) none b' C' ∧ b'.map = b.map ∧
      b'.seq = b.seq ∧ b'.cfg = b.cfg ∧ C'.locs = C.locs ∧ b'.store.live + 1 = b.store.live ∧
      C'.spec = C.spec.remove s x.id := by
  have hmem : p ∈ C.prices s := h.listed_of_mem hx
  obtain ⟨l, r, st, lv, b1, hsplit, hlevel, hunlink, hwrite, hmap1, hseq1, hcfg1, hlive1, hrep1⟩ :=
    h.unlinkCell hx
  obtain ⟨C1, hC1⟩ : ∃ C1 : Content, C1 = { C with
      queue := Function.update C.queue (s, p) (l ++ r), level :=
        Function.update C.level (s, p) lv } :=
    ⟨_, rfl⟩
  have hq1 : C1.queue (s, p) = l ++ r := by
    rw [hC1]
    exact Function.update_self ..
  obtain ⟨b2, hunlink2, hframe2, hrep2⟩ := Rep.unlinkLevel (b := b1) (C := C1) (k := (s, p))
    (show Rep (some x.id) _ b1 C1 by rw [hq1, hC1]; exact hrep1) (by rw [hC1]; exact hmem)
  obtain ⟨C2, hC2⟩ : ∃ C2 : Content, C2 = { C1 with
      prices := Function.update C1.prices s
        (if C1.queue (s, p) = [] then (C1.prices s).erase p else C1.prices s) } :=
    ⟨_, rfl⟩
  refine ⟨b2, C2, ?_, by rw [hC2]; exact hrep2, hframe2.map.trans hmap1, hframe2.seq.trans hseq1,
    hframe2.cfg.trans hcfg1, by rw [hC2, hC1], by rw [hframe2.store]; exact hlive1, ?_⟩
  · simp only [OrderBook.unlinkOrder, hlevel, hunlink, hwrite, Option.bind_eq_bind,
      Option.bind_some]
    exact hunlink2
  -- the orders of side `s` are the old ones without `x.id`
  have hfilter : C2.orders s = (C.orders s).filter fun o => decide (o.orderId ≠ x.id) := by
    have hsame : C2.orders s = (C.prices s).flatMap fun q =>
        (C1.queue (s, q)).map (Cell.order q) := by
      have hprices : C2.prices s = if l ++ r = [] then (C.prices s).erase p else C.prices s := by
        rw [hC2, ← hq1]
        simp [hC1]
      rw [Content.orders, hprices, show C2.queue = C1.queue by rw [hC2]]
      split
      · next hnil => exact flatMap_erase (by rw [hq1, hnil]; rfl) _
      · rfl
    rw [hsame, Content.orders, List.filter_flatMap]
    refine List.flatMap_congr fun q hq => ?_
    rw [List.filter_map]
    congr 1
    by_cases hqp : q = p
    · rw [hqp, hq1, hsplit, List.filter_append, List.filter_cons_of_neg (by simp [Cell.order])]
      rw [← List.filter_append]
      exact (List.filter_eq_self.mpr fun y hy => decide_eq_true (h.id_ne_of_split hsplit y hy)).symm
    · have hfar : C1.queue (s, q) = C.queue (s, q) := by
        rw [hC1]
        exact Function.update_of_ne (fun heq => hqp (Prod.mk.inj heq).2) _ _
      rw [hfar, List.filter_eq_self.mpr]
      exact fun y hy => decide_eq_true (h.id_ne_of_price hx hqp y hy)
  have hother : ∀ s', s' ≠ s → C2.orders s' = C.orders s' := by
    intro s' hs
    refine Content.orders_congr ?_ fun q _ => ?_
    · rw [hC2, hC1]
      exact Function.update_of_ne hs _ _
    · rw [hC2, hC1]
      exact Function.update_of_ne (fun heq => hs (Prod.mk.inj heq).1) _ _
  cases s
  · simp only [Content.spec, Spec.Book.remove, Spec.Book.set, Spec.Book.side, hfilter,
      hother .ask (by simp)]
  · simp only [Content.spec, Spec.Book.remove, Spec.Book.set, Spec.Book.side, hfilter,
      hother .bid (by simp)]

end Unlink

end OrderBook

end Matcher
