import Matcher.Logic.BookRep

/-!
# Which operations take chunks

Only a push takes a chunk, and it takes one that no order has used before only when
no chunk is free. Everything else a command does leaves the number of chunks as it
is. These are facts about the code as such, of any store.
-/

namespace Matcher

open Kit

namespace Store

/-- The chunks in use and those constructed stay as many as they are. -/
structure Steady (st st' : Store) : Prop where
  used : st'.used = st.used
  size : st'.chunks.size = st.chunks.size
  capacity : st'.capacity = st.capacity

theorem Steady.refl (st : Store) : Steady st st := ⟨rfl, rfl, rfl⟩

theorem Steady.trans {st st' st'' : Store} (h : Steady st st') (h' : Steady st' st'') :
    Steady st st'' :=
  ⟨h'.used.trans h.used, h'.size.trans h.size, h'.capacity.trans h.capacity⟩

/-- At most one more chunk is in use, and then no chunk is free. -/
structure Drawn (st st' : Store) : Prop where
  capacity : st'.capacity = st.capacity
  size_le : st'.chunks.size ≤ st.chunks.size + 1
  drawn : Steady st st' ∨
    st'.freeChunk = NIL ∧ st'.used = incr 32 st.used ∧
    st'.chunks.size ≤ max st.chunks.size (st.used + 1)

theorem Steady.drawn {st st' : Store} (h : Steady st st') : Drawn st st' :=
  ⟨h.capacity, h.size.le.trans (Nat.le_succ _), Or.inl h⟩

theorem Steady.trans_drawn {st st' st'' : Store} (h : Steady st st') (h' : Drawn st' st'') :
    Drawn st st'' := by
  refine ⟨h'.capacity.trans h.capacity, h.size ▸ h'.size_le, h'.drawn.imp h.trans ?_⟩
  rw [h.used, h.size]
  exact id

section

variable {st st' : Store} {l l' : Level} {c n : Nat}

theorem updChunk_steady {f : Chunk → Chunk} (h : st.updChunk c f = some st') :
    Steady st st' ∧ st'.freeChunk = st.freeChunk := by
  obtain ⟨chunks, hmod, rfl⟩ := Option.map_eq_some_iff.mp h
  rw [(modify?_eq_some.mp hmod).2]
  exact ⟨⟨rfl, Array.size_modify, rfl⟩, rfl⟩

theorem linkNext_steady (h : st.linkNext l c n = some (st', l')) :
    Steady st st' ∧ st'.freeChunk = st.freeChunk := by
  rw [linkNext] at h
  split at h
  · obtain ⟨st1, hupd, h⟩ := Option.map_eq_some_iff.mp h
    cases h
    exact updChunk_steady hupd
  · cases h
    exact ⟨.refl st, rfl⟩

theorem linkPrev_steady (h : st.linkPrev l c n = some (st', l')) : Steady st st' := by
  rw [linkPrev] at h
  split at h
  · obtain ⟨st1, hupd, h⟩ := Option.map_eq_some_iff.mp h
    cases h
    exact (updChunk_steady hupd).1
  · cases h
    exact .refl st

theorem dropChunk_steady (h : st.dropChunk l c = some (st', l')) : Steady st st' := by
  obtain ⟨ch, _, h⟩ := Option.bind_eq_some_iff.mp h
  obtain ⟨⟨st1, l1⟩, hnext, h⟩ := Option.bind_eq_some_iff.mp h
  obtain ⟨⟨st2, l2⟩, hprev, h⟩ := Option.bind_eq_some_iff.mp h
  obtain ⟨st3, hupd, h⟩ := Option.bind_eq_some_iff.mp h
  cases h
  have hrun := ((linkNext_steady hnext).1.trans (linkPrev_steady hprev)).trans
    (updChunk_steady hupd).1
  exact ⟨hrun.used, hrun.size, hrun.capacity⟩

theorem setQty_steady {loc : Nat} {q : Qty} (h : st.setQty loc q = some st') : Steady st st' := by
  obtain ⟨ch, _, h⟩ := Option.bind_eq_some_iff.mp h
  obtain ⟨s, _, h⟩ := Option.bind_eq_some_iff.mp h
  obtain ⟨ch1, _, h⟩ := Option.bind_eq_some_iff.mp h
  exact (updChunk_steady h).1

theorem retire_steady {loc : Nat} (h : st.retire l loc = some (st', l')) : Steady st st' := by
  obtain ⟨st1, hupd, h⟩ := Option.bind_eq_some_iff.mp h
  obtain ⟨ch, _, h⟩ := Option.bind_eq_some_iff.mp h
  obtain ⟨hstart, _⟩ := updChunk_steady hupd
  have hfirst : Steady st st1 := ⟨hstart.used, hstart.size, hstart.capacity⟩
  split at h
  · exact hfirst.trans (dropChunk_steady h)
  · cases h
    exact hfirst

theorem unlink_steady {loc : Nat} (h : st.unlink l loc = some (st', l')) : Steady st st' := by
  obtain ⟨ch, _, h⟩ := Option.bind_eq_some_iff.mp h
  obtain ⟨s, _, h⟩ := Option.bind_eq_some_iff.mp h
  obtain ⟨st1, hset, h⟩ := Option.bind_eq_some_iff.mp h
  exact (setQty_steady hset).trans (retire_steady h)

theorem front_steady {loc : Nat} (h : st.front l = some (st', loc)) : Steady st st' := by
  obtain ⟨ch, _, h⟩ := Option.bind_eq_some_iff.mp h
  obtain ⟨head, _, h⟩ := Option.bind_eq_some_iff.mp h
  obtain ⟨st1, hupd, h⟩ := Option.bind_eq_some_iff.mp h
  cases h
  exact (updChunk_steady hupd).1

/-! ## The push -/

theorem takeChunk_drawn (h : st.takeChunk = some (st', c)) : Drawn st st' := by
  rw [takeChunk] at h
  split at h
  · obtain ⟨ch, _, h⟩ := Option.bind_eq_some_iff.mp h
    cases h
    exact Steady.drawn ⟨rfl, rfl, rfl⟩
  · next hfree =>
    cases h
    by_cases hfull : st.used = st.chunks.size
    · rw [if_pos hfull]
      refine ⟨rfl, (Array.size_push _).le, Or.inr ⟨not_not.mp hfree, rfl, ?_⟩⟩
      rw [Array.size_push, hfull]
      exact le_max_right _ _
    · rw [if_neg hfull]
      exact ⟨rfl, Nat.le_succ _, Or.inr ⟨not_not.mp hfree, rfl, le_max_left _ _⟩⟩

/-- What keeps the chunks and the head of the free list can follow. -/
theorem Drawn.then {st1 : Store} (h : Drawn st st1)
    (h' : Steady st1 st' ∧ st'.freeChunk = st1.freeChunk) : Drawn st st' := by
  obtain ⟨hsteady, hfree⟩ := h'
  refine ⟨hsteady.capacity.trans h.capacity, hsteady.size.le.trans h.size_le,
    h.drawn.imp (fun hs => hs.trans hsteady) ?_⟩
  rintro ⟨hnil, hused, hsize⟩
  exact ⟨hfree.trans hnil, hsteady.used.trans hused, hsteady.size.le.trans hsize⟩

theorem allocChunk_drawn {side : Side} {price : Price}
    (h : st.allocChunk side price = some (st', c)) : Drawn st st' := by
  obtain ⟨⟨st1, c1⟩, htake, h⟩ := Option.bind_eq_some_iff.mp h
  obtain ⟨st2, hupd, h⟩ := Option.bind_eq_some_iff.mp h
  cases h
  exact (takeChunk_drawn htake).then (updChunk_steady hupd)

theorem tailChunk_drawn {side : Side} {price : Price}
    (h : st.tailChunk l side price = some (st', l', c)) : Drawn st st' := by
  obtain ⟨full, _, h⟩ := Option.bind_eq_some_iff.mp h
  split at h
  · obtain ⟨⟨st1, n⟩, halloc, h⟩ := Option.bind_eq_some_iff.mp h
    obtain ⟨st2, hupd, h⟩ := Option.bind_eq_some_iff.mp h
    obtain ⟨⟨st3, l3⟩, hlink, h⟩ := Option.bind_eq_some_iff.mp h
    cases h
    exact ((allocChunk_drawn halloc).then (updChunk_steady hupd)).then (linkNext_steady hlink)
  · cases h
    exact (Steady.refl st).drawn

theorem push_drawn {side : Side} {price : Price} {id : OrderId} {qty : Qty} {tif : Tif}
    (h : st.push l side price id qty tif = some (st', l', n)) : Drawn st st' := by
  obtain ⟨⟨st1, l1, c1⟩, htail, h⟩ := Option.bind_eq_some_iff.mp h
  obtain ⟨ch, _, h⟩ := Option.bind_eq_some_iff.mp h
  obtain ⟨ch1, _, h⟩ := Option.bind_eq_some_iff.mp h
  obtain ⟨ch2, _, h⟩ := Option.bind_eq_some_iff.mp h
  obtain ⟨st2, hupd, h⟩ := Option.bind_eq_some_iff.mp h
  cases h
  obtain ⟨hsteady, hfree⟩ := updChunk_steady hupd
  exact (tailChunk_drawn htail).then ⟨⟨hsteady.used, hsteady.size, hsteady.capacity⟩, hfree⟩

end

end Store

namespace OrderBook

open Store

section

variable {b b' : OrderBook} {s : Side} {p : Price} {out : List Emission}

theorem writeLevel_frame {l : Level} (h : b.writeLevel s p l = some b') : b.Frame b' := by
  obtain ⟨ix, _, rfl⟩ := Option.map_eq_some_iff.mp h
  exact setIndex_frame b s ix

theorem unlinkLevel_frame (h : b.unlinkLevel s p = some b') : b.Frame b' := by
  obtain ⟨ix, _, rfl⟩ := Option.map_eq_some_iff.mp h
  exact setIndex_frame b s ix

theorem levelInsert_frame (h : b.levelInsert s p = some b') : b.Frame b' := by
  obtain ⟨ix, _, rfl⟩ := Option.map_eq_some_iff.mp h
  exact setIndex_frame b s ix

/-! ## The sweep -/

theorem fillFront_steady {taker : OrderId} {qty left : Qty}
    (h : b.fillFront s p taker qty = some (b', left, out)) :
    Steady b.store b'.store := by
  obtain ⟨lv, _, h⟩ := Option.bind_eq_some_iff.mp h
  obtain ⟨⟨st1, loc⟩, hfront, h⟩ := Option.bind_eq_some_iff.mp h
  obtain ⟨ch, _, h⟩ := Option.bind_eq_some_iff.mp h
  obtain ⟨m, _, h⟩ := Option.bind_eq_some_iff.mp h
  obtain ⟨b1, hwrite, h⟩ := Option.bind_eq_some_iff.mp h
  obtain ⟨st2, hset, h⟩ := Option.bind_eq_some_iff.mp h
  have hst1 : b1.store = st1 := (writeLevel_frame hwrite).store
  have hfirst : Steady b.store st2 := (front_steady hfront).trans (hst1 ▸ setQty_steady hset)
  dsimp only at h
  -- the maker is filled, or the taker is
  generalize (if qty < m.qty then qty else m.qty) = q at *
  split at h
  · obtain ⟨lv', _, h⟩ := Option.bind_eq_some_iff.mp h
    obtain ⟨⟨st3, lv''⟩, hretire, h⟩ := Option.bind_eq_some_iff.mp h
    obtain ⟨b2, hwrite', h⟩ := Option.bind_eq_some_iff.mp h
    obtain ⟨map, _, h⟩ := Option.bind_eq_some_iff.mp h
    cases h
    have hst3 : b2.store = st3 := (writeLevel_frame hwrite').store
    exact hfirst.trans (hst3 ▸ retire_steady hretire)
  · cases h
    exact hfirst

theorem Frame.refl (b : OrderBook) : b.Frame b := ⟨rfl, rfl, rfl, rfl⟩

/-- A relation between two books and the output in between: changes of an index keep it,
and every round of the inner loop does. -/
structure Carried (R : OrderBook → List Emission → OrderBook → Prop) : Prop where
  frame : ∀ {b b' : OrderBook}, b.Frame b' → R b [] b'
  trans : ∀ {b b1 b2 : OrderBook} {out1 out2 : List Emission}, R b out1 b1 → R b1 out2 b2 →
    R b (out1 ++ out2) b2
  round : ∀ {b b' : OrderBook} {s : Side} {p : Price} {taker : OrderId} {qty left : Qty}
    {out : List Emission},
    b.fillFront s p taker qty = some (b', left, out) → R b out b'

section Carried

variable {R : OrderBook → List Emission → OrderBook → Prop} (hR : Carried R) {taker : OrderId}
    {qty left : Qty}

include hR

theorem Carried.fillLevel {fuel : Nat}
    (h : OrderBook.fillLevel s p taker fuel b qty = some (b', left, out)) :
    R b out b' := by
  induction fuel generalizing b qty out with
  | zero => cases h
  | succ fuel ih =>
    obtain ⟨lv, _, h⟩ := Option.bind_eq_some_iff.mp h
    split at h
    · cases h
      exact hR.frame (.refl _)
    obtain ⟨⟨b1, left1, out1⟩, hfill, h⟩ := Option.bind_eq_some_iff.mp h
    dsimp only at h
    split at h
    · cases h
      exact hR.round hfill
    obtain ⟨⟨b2, left2, out2⟩, hloop, h⟩ := Option.bind_eq_some_iff.mp h
    cases h
    exact hR.trans (hR.round hfill) (ih hloop)

theorem Carried.sweepLevel (h : OrderBook.sweepLevel s p taker b qty = some (b', left, out)) :
    R b out b' := by
  obtain ⟨⟨b1, left1, out1⟩, hfill, h⟩ := Option.bind_eq_some_iff.mp h
  obtain ⟨lv, _, h⟩ := Option.bind_eq_some_iff.mp h
  split at h
  · obtain ⟨b2, hunlink, h⟩ := Option.bind_eq_some_iff.mp h
    cases h
    have hall := hR.trans (hR.fillLevel hfill) (hR.frame (unlinkLevel_frame hunlink))
    rwa [List.append_nil] at hall
  · cases h
    exact hR.fillLevel hfill

/-- The sweep carries what its rounds carry. -/
theorem Carried.crossFrom {bound : Option Price} {fuel : Nat}
    (h : OrderBook.crossFrom s bound taker fuel b qty = some (b', left, out)) : R b out b' := by
  induction fuel generalizing b qty out with
  | zero => cases h
  | succ fuel ih =>
    rw [OrderBook.crossFrom] at h
    split at h
    · split at h
      · cases h
        exact hR.frame (.refl _)
      split at h
      · obtain ⟨⟨b1, left1, out1⟩, hsweep, h⟩ := Option.bind_eq_some_iff.mp h
        dsimp only at h
        split at h
        · cases h
          exact hR.sweepLevel hsweep
        obtain ⟨⟨b2, left2, out2⟩, hloop, h⟩ := Option.bind_eq_some_iff.mp h
        cases h
        exact hR.trans (hR.sweepLevel hsweep) (ih hloop)
      · cases h
        exact hR.frame (.refl _)
    · cases h
      exact hR.frame (.refl _)

end Carried

theorem carried_steady : Carried fun b _ b' => Steady b.store b'.store where
  frame h := h.store ▸ .refl _
  trans h1 h2 := h1.trans h2
  round h := fillFront_steady h

/-! ## The commands -/

theorem pushLevel_drawn {oid : OrderId} {qty : Qty} {tif : Tif} {loc : Nat}
    (h : b.pushLevel s p oid qty tif = some (b', loc)) : Drawn b.store b'.store := by
  obtain ⟨b1, hins, h⟩ := Option.bind_eq_some_iff.mp h
  obtain ⟨lv, _, h⟩ := Option.bind_eq_some_iff.mp h
  obtain ⟨⟨st, lv', loc'⟩, hpush, h⟩ := Option.bind_eq_some_iff.mp h
  obtain ⟨b2, hwrite, h⟩ := Option.bind_eq_some_iff.mp h
  cases h
  rw [(writeLevel_frame hwrite).store, ← (levelInsert_frame hins).store]
  exact push_drawn hpush

theorem pushLevel_map {oid : OrderId} {qty : Qty} {tif : Tif} {loc : Nat}
    (h : b.pushLevel s p oid qty tif = some (b', loc)) : b'.map = b.map := by
  obtain ⟨b1, hins, h⟩ := Option.bind_eq_some_iff.mp h
  obtain ⟨lv, _, h⟩ := Option.bind_eq_some_iff.mp h
  obtain ⟨⟨st, lv', loc'⟩, _, h⟩ := Option.bind_eq_some_iff.mp h
  obtain ⟨b2, hwrite, h⟩ := Option.bind_eq_some_iff.mp h
  cases h
  exact (writeLevel_frame hwrite).map.trans (levelInsert_frame hins).map

theorem rest_drawn {oid : OrderId} {qty : Qty} {tif : Tif} (h : b.rest oid s p qty tif = some b') :
    Drawn b.store b'.store := by
  obtain ⟨⟨b1, loc⟩, hpush, h⟩ := Option.bind_eq_some_iff.mp h
  obtain ⟨map, _, h⟩ := Option.bind_eq_some_iff.mp h
  have hdrawn := pushLevel_drawn hpush
  cases h
  exact hdrawn

/-- Every order that is restored takes at most one chunk. -/
theorem restoreFrom_size {os : List RestingOrder} (h : b.restoreFrom os = some b') :
    b'.store.chunks.size ≤ b.store.chunks.size + os.length := by
  induction os generalizing b with
  | nil =>
    cases h
    exact Nat.le_add_right _ _
  | cons o os ih =>
    rw [restoreFrom] at h
    split at h
    · cases h
      exact Nat.le_add_right _ _
    · obtain ⟨b1, hrest, h⟩ := Option.bind_eq_some_iff.mp h
      have hsize := (rest_drawn hrest).size_le
      have hmore := ih h
      rw [List.length_cons]
      omega

theorem restore_size {cfg : BookConfig} {seq : UInt64} {os : List RestingOrder}
    (h : restore cfg seq os = some b') :
    b'.store.chunks.size ≤ os.length := by
  obtain ⟨b0, hnew, h⟩ := Option.bind_eq_some_iff.mp h
  obtain ⟨_, _, map, _, rfl⟩ := new_eq_some.mp hnew
  have hsize : b'.store.chunks.size ≤ 0 + os.length := restoreFrom_size h
  rwa [Nat.zero_add] at hsize

theorem unlinkOrder_steady {loc : Nat} (h : b.unlinkOrder s p loc = some b') :
    Steady b.store b'.store := by
  rw [unlinkOrder] at h
  split at h
  · obtain ⟨⟨st, lv⟩, hunlink, h⟩ := Option.bind_eq_some_iff.mp h
    obtain ⟨b1, hwrite, h⟩ := Option.bind_eq_some_iff.mp h
    rw [(unlinkLevel_frame h).store, (writeLevel_frame hwrite).store]
    exact unlink_steady hunlink
  · rw [(unlinkLevel_frame h).store]
    exact .refl _

theorem newOrder_drawn {c : Command} (h : b.newOrder c = some (b', out)) :
    Drawn b.store b'.store := by
  rw [newOrder] at h
  obtain ⟨verdict, _, h⟩ := Option.bind_eq_some_iff.mp h
  cases verdict with
  | some r =>
    cases h
    exact (Steady.refl _).drawn
  | none =>
    obtain ⟨⟨b1, left, out1⟩, hcross, h⟩ := Option.bind_eq_some_iff.mp h
    have hsteady := carried_steady.crossFrom hcross
    dsimp only at h
    split at h
    · cases h
      exact hsteady.drawn
    split at h
    · obtain ⟨b2, hrest, h⟩ := Option.bind_eq_some_iff.mp h
      have hdrawn := hsteady.trans_drawn (rest_drawn hrest)
      cases h
      exact hdrawn
    · cases h
      exact hsteady.drawn

theorem cancel_steady {oid : OrderId} (h : b.cancel oid = some (b', out)) :
    Steady b.store b'.store := by
  rw [cancel] at h
  obtain ⟨found, _, h⟩ := Option.bind_eq_some_iff.mp h
  cases found with
  | none =>
    cases h
    exact .refl _
  | some ploc =>
    obtain ⟨loc, _, h⟩ := Option.bind_eq_some_iff.mp h
    obtain ⟨ch, _, h⟩ := Option.bind_eq_some_iff.mp h
    obtain ⟨b1, hunlink, h⟩ := Option.bind_eq_some_iff.mp h
    obtain ⟨map, _, h⟩ := Option.bind_eq_some_iff.mp h
    have hsteady := unlinkOrder_steady hunlink
    cases h
    exact hsteady

theorem replaceInPlace_steady {oid : OrderId} {loc : Nat} {oldQty qty : Qty}
    (h : b.replaceInPlace oid s p loc oldQty qty = some (b', out)) : Steady b.store b'.store := by
  rw [replaceInPlace] at h
  split at h
  · obtain ⟨b1, hwrite, h⟩ := Option.bind_eq_some_iff.mp h
    obtain ⟨st, hset, h⟩ := Option.bind_eq_some_iff.mp h
    have hsteady := setQty_steady hset
    rw [(writeLevel_frame hwrite).store] at hsteady
    cases h
    exact hsteady
  · obtain ⟨b1, hsame, h⟩ := Option.bind_eq_some_iff.mp h
    cases hsame
    obtain ⟨st, hset, h⟩ := Option.bind_eq_some_iff.mp h
    have hsteady := setQty_steady hset
    cases h
    exact hsteady

theorem replaceCross_drawn {oid : OrderId} {p' : Price} {qty : Qty} {tif : Tif} {ploc loc : Nat}
    (h : b.replaceCross oid s p p' qty tif ploc loc = some (b', out)) : Drawn b.store b'.store := by
  obtain ⟨b1, hunlink, h⟩ := Option.bind_eq_some_iff.mp h
  obtain ⟨⟨b2, left, out1⟩, hcross, h⟩ := Option.bind_eq_some_iff.mp h
  have hsteady := (unlinkOrder_steady hunlink).trans (carried_steady.crossFrom hcross)
  dsimp only at h
  split at h
  · obtain ⟨map, _, h⟩ := Option.bind_eq_some_iff.mp h
    cases h
    exact hsteady.drawn
  obtain ⟨⟨b3, nloc⟩, hpush, h⟩ := Option.bind_eq_some_iff.mp h
  have hdrawn := hsteady.trans_drawn (pushLevel_drawn hpush)
  split at h
  · obtain ⟨map, _, h⟩ := Option.bind_eq_some_iff.mp h
    cases h
    exact hdrawn
  · obtain ⟨map, _, h⟩ := Option.bind_eq_some_iff.mp h
    cases h
    exact hdrawn

theorem replace_drawn {oid : OrderId} {qty : Qty} (h : b.replace oid p qty = some (b', out)) :
    Drawn b.store b'.store := by
  rw [replace] at h
  obtain ⟨found, _, h⟩ := Option.bind_eq_some_iff.mp h
  cases found with
  | none =>
    cases h
    exact (Steady.refl _).drawn
  | some ploc =>
    obtain ⟨loc, _, h⟩ := Option.bind_eq_some_iff.mp h
    split at h
    · cases h
      exact (Steady.refl _).drawn
    split at h
    · cases h
      exact (Steady.refl _).drawn
    obtain ⟨ch, _, h⟩ := Option.bind_eq_some_iff.mp h
    obtain ⟨o, _, h⟩ := Option.bind_eq_some_iff.mp h
    obtain ⟨tif, _, h⟩ := Option.bind_eq_some_iff.mp h
    split at h
    · exact (replaceInPlace_steady h).drawn
    · exact replaceCross_drawn h

/-- A command takes at most one chunk that no order has used before. -/
theorem apply_drawn {c : Command} (h : b.apply c = some (b', out)) : Drawn b.store b'.store := by
  rw [apply] at h
  split at h
  · exact newOrder_drawn h
  · exact (cancel_steady h).drawn
  · exact replace_drawn h

end

end OrderBook

end Matcher
