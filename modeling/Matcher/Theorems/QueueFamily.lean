import Matcher.Logic.StoreQueues

/-!
# The chunked store is a family of FIFO queues

`Family` puts beside a store and its levels the queues that a history of
operations should leave: `push` appends at the back, under the location the code
returned, and an order leaves its queue by `unlink` or by a full fill at the front.
In every family a history reaches, the code reads these queues.
-/

namespace Matcher

open Kit

inductive QueueOp (κ : Type) where
  | push (k : κ) (id : OrderId) (qty : Qty) (tif : Tif)
  | unlink (k : κ) (loc : Nat)
  /-- A fill of `q` that leaves something of the order at `loc`. -/
  | shrink (k : κ) (loc : Nat) (q : Qty)
  /-- A fill of all of the front order. -/
  | fillFront (k : κ)

/-- A store, the levels that share it, and the queues of the history. -/
structure Family (κ : Type) where
  store : Store
  level : κ → Level
  queue : κ → List Cell

namespace Family

section

variable {κ : Type} [DecidableEq κ] (label : κ → Side × Price)

/-- What the code does, and what becomes of the queue. -/
def step (F : Family κ) : QueueOp κ → Option (Family κ)
  | .push k id qty tif => do
    let (store, l, loc) ← F.store.push (F.level k) (label k).1 (label k).2 id qty tif
    return ⟨store, Function.update F.level k l,
      Function.update F.queue k (F.queue k ++ [⟨loc, id, qty, tif⟩])⟩
  | .unlink k loc => do
    let (store, l) ← F.store.unlink (F.level k) loc
    return ⟨store, Function.update F.level k l,
      Function.update F.queue k ((F.queue k).filter fun x => x.loc ≠ loc)⟩
  | .shrink k loc q => do
    let ch ← F.store.chunk loc
    let m ← ch.s[locSlot loc]?
    let store ← F.store.setQty loc (m.qty - q)
    return ⟨store, Function.update F.level k { F.level k with total := (F.level k).total - q },
      Function.update F.queue k ((F.queue k).map fun x =>
        if x.loc = loc then { x with qty := x.qty - q } else x)⟩
  | .fillFront k => do
    let (store, loc) ← F.store.front (F.level k)
    let ch ← store.chunk loc
    let m ← ch.s[locSlot loc]?
    let store ← store.setQty loc (m.qty - m.qty)
    let (store, l) ← store.retire { F.level k with total := (F.level k).total - m.qty } loc
    return ⟨store, Function.update F.level k l, Function.update F.queue k (F.queue k).tail⟩

/-- What an operation may ask for: a quantity to push and a chunk for it, a live
location, a fill that leaves something, an order to fill. -/
def Ok (F : Family κ) : QueueOp κ → Prop
  | .push k _ qty _ => qty ≠ 0 ∧ F.store.Room (F.level k)
  | .unlink k loc => ∃ x ∈ F.queue k, x.loc = loc
  | .shrink k loc q => ∃ x ∈ F.queue k, x.loc = loc ∧ 0 < q ∧ q < x.qty
  | .fillFront k => F.queue k ≠ []

instance (F : Family κ) (op : QueueOp κ) : Decidable (F.Ok op) :=
  match op with
  | .push k _ qty _ => inferInstanceAs (Decidable (qty ≠ 0 ∧
      (F.store.usedUp (F.level k).tail = some true → F.store.freeChunk = NIL →
        F.store.used < 2 ^ 29)))
  | .unlink k loc => inferInstanceAs (Decidable (∃ x ∈ F.queue k, x.loc = loc))
  | .shrink k loc q =>
    inferInstanceAs (Decidable (∃ x ∈ F.queue k, x.loc = loc ∧ 0 < q ∧ q < x.qty))
  | .fillFront k => inferInstanceAs (Decidable (F.queue k ≠ []))

/-- A history, as far as its operations may be asked for. -/
def play (F : Family κ) : List (QueueOp κ) → Option (Family κ)
  | [] => some F
  | op :: ops => if F.Ok op then do (← F.step label op).play ops else none

/-- The families that histories from the empty store reach. -/
inductive Reaches (capacity : Nat) : Family κ → Prop
  | start : Reaches capacity ⟨Store.blank capacity, fun _ => {}, fun _ => []⟩
  | step {F F' : Family κ} {op : QueueOp κ} : Reaches capacity F → F.Ok op →
      F.step label op = some F' →
      Reaches capacity F'

/-- The chunk cursors pass neither the live slot at a cell's location nor the tail. -/
def CursorOk (st : Store) (x : Cell) : Prop :=
  ∃ ch, st.chunk x.loc = some ch ∧ ch.s[locSlot x.loc]? = some ⟨x.id, x.qty⟩ ∧
    ch.tif[locSlot x.loc]? = some x.tif ∧ ch.head ≤ locSlot x.loc ∧ locSlot x.loc < ch.tail

/-- The store reads the queues. -/
structure Serves (F : Family κ) : Prop where
  reads : ∀ k, ∀ x ∈ F.queue k, x.qty ≠ 0 ∧ CursorOk F.store x
  apart : ∀ k k', ∀ x ∈ F.queue k, ∀ y ∈ F.queue k', x.loc = y.loc → k = k' ∧ x = y
  once : ∀ k, ((F.queue k).map Cell.loc).Nodup
  forEach : ∀ k, F.store.forEach (F.level k) = some ((F.queue k).map Cell.loc)
  front : ∀ k x rest, F.queue k = x :: rest → ∃ st ch,
    F.store.front (F.level k) = some (st, x.loc) ∧
    st.chunk x.loc = some ch ∧ ch.head = locSlot x.loc ∧ ∀ k, ∀ y ∈ F.queue k, CursorOk st y
  empty : ∀ k, (F.level k).empty = true ↔ F.queue k = []
  ends : ∀ k, F.queue k = [] → (F.level k).head = NIL ∧ (F.level k).tail = NIL

end

end Family

/-- The cursor stops within the slots. -/
theorem Chunk.skipDead_lt {ch : Chunk} {fuel i j : Nat} (h : ch.skipDead fuel i = some j) :
    j < CHUNK_SLOTS := by
  induction fuel generalizing i with
  | zero => cases h
  | succ fuel ih =>
    rw [Chunk.skipDead] at h
    obtain ⟨s, hs, h⟩ := Option.bind_eq_some_iff.mp h
    split at h
    · exact ih h
    · cases h
      exact (Vector.getElem?_eq_some_iff.mp hs).1

namespace Store

section Queues

variable {κ : Type} {label : κ → Side × Price} {st : Store} {lv : κ → Level} {Q : κ → List Cell}

theorem Queues.cursorOk (h : Queues label st lv Q) {k : κ} {x : Cell} (hx : x ∈ Q k) :
    Family.CursorOk st x := by
  obtain ⟨L, hlay, _, hQ, _⟩ := h
  rw [hQ k] at hx
  obtain ⟨c, i, ch, _, hspot⟩ := hlay.locate hx
  obtain ⟨_, _, _, hs, ht⟩ := Chunk.cell_eq_some.mp hspot.cell
  refine ⟨ch, by rw [Store.chunk, hspot.locChunk, hspot.read], ?_⟩
  rw [hspot.locSlot]
  exact ⟨hs, ht, hspot.head_le, hspot.lt_tail⟩

/-- The cursor is left at the slot that `front` returns. -/
theorem Queues.front_cursor (h : Queues label st lv Q) {k : κ} {st' : Store} {loc : Nat}
    (hne : Q k ≠ []) (hrun : st.front (lv k) = some (st', loc)) :
    ∃ ch, st'.chunk loc = some ch ∧ ch.head = locSlot loc := by
  have hempty := (h.level_empty k).1
  obtain ⟨L, hlay, _, _, _⟩ := h
  have hhead : (lv k).head < 2 ^ 29 := by
    cases hchain : L.chain k with
    | nil => exact absurd (hempty.mp ((hlay.empty_iff k).mpr hchain)) hne
    | cons c cs =>
      rw [hlay.head k, hchain]
      exact hlay.lt_bound (k := k) (by simp [hchain])
  rw [Store.front] at hrun
  obtain ⟨ch, hch, hrun⟩ := Option.bind_eq_some_iff.mp hrun
  obtain ⟨head, hskip, hrun⟩ := Option.bind_eq_some_iff.mp hrun
  obtain ⟨st1, hupd, hrun⟩ := Option.bind_eq_some_iff.mp hrun
  cases hrun
  have hslot : head < 8 := Nat.lt_trans (Chunk.skipDead_lt hskip) (by decide)
  rw [updChunk_eq _ hch, Option.some.injEq] at hupd
  refine ⟨{ ch with head }, ?_, ?_⟩
  · rw [Store.chunk, locChunk_mkLoc hhead hslot, ← hupd]
    exact withChunk_self hch
  · rw [locSlot_mkLoc hhead hslot]

end Queues

end Store

namespace Family

section Runs

variable {κ : Type} {label : κ → Side × Price} {F : Family κ}

/-- The levels of the store hold the family's queues. -/
def Holds (label : κ → Side × Price) (F : Family κ) : Prop := F.store.Queues label F.level F.queue

theorem Holds.serves (h : F.Holds label) : F.Serves where
  reads k x hx := ⟨Store.Queues.qty_ne_zero h hx, Store.Queues.cursorOk h hx⟩
  apart k k' x hx y hy hloc :=
    ⟨Store.Queues.loc_level h hx hy hloc, Store.Queues.loc_inj h hx hy hloc⟩
  once k := Store.Queues.nodup h k
  forEach k := Store.Queues.forEach h k
  front k x rest hq := by
    obtain ⟨st, hrun, hst, _⟩ := Store.Queues.front h hq
    obtain ⟨ch, hch, hhead⟩ := Store.Queues.front_cursor h (by simp [hq]) hrun
    exact ⟨st, ch, hrun, hch, hhead, fun k y hy => hst.cursorOk hy⟩
  empty k := (Store.Queues.level_empty h k).1
  ends k hnil := by
    rw [(Store.Queues.level_empty h k).2 hnil]
    exact ⟨rfl, rfl⟩

/-- The counter of live orders does not wrap. -/
theorem Holds.live_lt (h : F.Holds label) : F.store.live < 2 ^ 64 := by
  obtain ⟨L, hlay, _⟩ := h
  have hle : F.store.live ≤ F.store.used * 6 := hlay.live_le_used
  have hused := hlay.used_bound
  omega

/-- A queue without the order at a location. -/
theorem Holds.filter_eq (h : F.Holds label) {k : κ} {l r : List Cell} {x : Cell}
    (hsplit : F.queue k = l ++ x :: r) :
    (F.queue k).filter (fun y => y.loc ≠ x.loc) = l ++ r := by
  have hnd := Store.Queues.nodup h k
  rw [hsplit, List.map_append, List.map_cons] at hnd
  have hnot := (List.nodup_cons.mp (List.nodup_middle.mp hnd)).1
  rw [List.mem_append, not_or] at hnot
  have hkeep : ∀ ys : List Cell, x.loc ∉ ys.map Cell.loc → ys.filter (fun y => y.loc ≠ x.loc) =
      ys :=
    fun ys hys => List.filter_eq_self.mpr fun y hy => by
      have hne : y.loc ≠ x.loc := fun heq => hys (heq ▸ List.mem_map_of_mem hy)
      exact decide_eq_true hne
  rw [hsplit, List.filter_append, List.filter_cons_of_neg (by simp), hkeep l hnot.1, hkeep r hnot.2]

/-- A queue with the order at a location changed. -/
theorem Holds.map_eq (h : F.Holds label) {k : κ} {l r : List Cell} {x : Cell}
    (hsplit : F.queue k = l ++ x :: r) (f : Cell → Cell) :
    (F.queue k).map (fun y => if y.loc = x.loc then f y else y) = l ++ f x :: r := by
  have hnd := Store.Queues.nodup h k
  rw [hsplit, List.map_append, List.map_cons] at hnd
  have hnot := (List.nodup_cons.mp (List.nodup_middle.mp hnd)).1
  rw [List.mem_append, not_or] at hnot
  have hkeep : ∀ ys : List Cell, x.loc ∉ ys.map Cell.loc →
      ys.map (fun y => if y.loc = x.loc then f y else y) = ys :=
    fun ys hys => (List.map_congr_left fun y hy => by
      have hne : y.loc ≠ x.loc := fun heq => hys (heq ▸ List.mem_map_of_mem hy)
      exact if_neg hne).trans (List.map_id _)
  rw [hsplit, List.map_append, List.map_cons, if_pos rfl, hkeep l hnot.1, hkeep r hnot.2]

variable [DecidableEq κ]

/-- Every operation that may be asked for is done, and keeps the queues. -/
theorem Holds.step (h : F.Holds label) {op : QueueOp κ} (hop : F.Ok op) :
    ∃ F', F.step label op = some F' ∧ F'.Holds label := by
  cases op with
  | push k id qty tif =>
    obtain ⟨hqty, hroom⟩ := hop
    obtain ⟨st, l, x, hrun, rfl, rfl, rfl, hst, _⟩ := Store.Queues.push h hroom rfl hqty id tif
    refine ⟨⟨st, Function.update F.level k l, Function.update F.queue k (F.queue k ++ [x])⟩, ?_,
      hst⟩
    simp only [Family.step, hrun, Option.bind_eq_bind, Option.bind_some]
    rfl
  | unlink k loc =>
    obtain ⟨x, hx, rfl⟩ := hop
    obtain ⟨l, r, hsplit⟩ := List.append_of_mem hx
    obtain ⟨st, lv, hrun, _, hst⟩ := Store.Queues.unlink h hsplit h.live_lt
    refine ⟨_, by simp only [Family.step, hrun, Option.bind_eq_bind, Option.bind_some]; rfl, ?_⟩
    rw [Holds, h.filter_eq hsplit]
    exact hst
  | shrink k loc q =>
    obtain ⟨x, hx, rfl, hpos, hlt⟩ := hop
    obtain ⟨l, r, hsplit⟩ := List.append_of_mem hx
    obtain ⟨ch, hch, hs, _⟩ := Store.Queues.cursorOk h hx
    have hleft : x.qty - q ≠ 0 := by
      intro h0
      have hle : x.qty = q := by
        have hsum : x.qty - q + q = x.qty := sub_add_cancel _ _
        rw [h0, UInt64.zero_add] at hsum
        exact hsum.symm
      rw [hle] at hlt
      exact absurd hlt (UInt64.lt_irrefl _)
    obtain ⟨st, hset, _, hst⟩ :=
      Store.Queues.setQty h hsplit (q := x.qty - q) (t := (F.level k).total - q) hleft
      (by grind)
    refine ⟨_, by
      simp only [Family.step, hch, hs, hset, Option.bind_eq_bind, Option.bind_some]; rfl, ?_⟩
    rw [Holds, h.map_eq hsplit fun y => { y with qty := y.qty - q }]
    exact hst
  | fillFront k =>
    obtain ⟨x, rest, hq⟩ := List.exists_cons_of_ne_nil hop
    obtain ⟨st1, hfront, hst1, hlive1⟩ := Store.Queues.front h hq
    obtain ⟨ch, hch, hs, _⟩ := hst1.cursorOk (k := k) (x := x) (by simp [hq])
    obtain ⟨st2, st3, l, hset, hretire, _, hst3⟩ :=
      hst1.kill (k := k) (l := []) (r := rest) (x := x)
      (t := (F.level k).total - x.qty) hq (sub_add_cancel _ _) (hlive1 ▸ h.live_lt)
    have hretire' : st2.retire { F.level k with total := (F.level k).total - x.qty } x.loc =
        some (st3, l) := hretire
    refine ⟨⟨st3, Function.update F.level k l, Function.update F.queue k rest⟩, ?_, hst3⟩
    simp only [Family.step, hfront, hch, hs, sub_self, hset, hretire', hq, Option.bind_eq_bind,
      Option.bind_some]
    rfl

/-- What a history leaves is reached. -/
theorem Reaches.play {capacity : Nat} (h : Reaches label capacity F)
    {ops : List (QueueOp κ)} {F' : Family κ} (hplay : F.play label ops = some F') :
    Reaches label capacity F' := by
  induction ops generalizing F with
  | nil =>
    cases hplay
    exact h
  | cons op ops ih =>
    unfold Family.play at hplay
    split at hplay
    · next hop =>
      obtain ⟨F1, hstep, hplay⟩ := Option.bind_eq_some_iff.mp hplay
      exact ih (h.step hop hstep) hplay
    · cases hplay

theorem Reaches.holds {capacity : Nat} (h : Reaches label capacity F) : F.Holds label := by
  induction h with
  | start => exact Store.Queues.blank label capacity
  | step _ hop hrun ih =>
    obtain ⟨F', hrun', hF'⟩ := ih.step hop
    cases hrun.symm.trans hrun'
    exact hF'

end Runs

end Family

/-- Whatever the history, the store serves the queues that it should leave, and does
every further operation. -/
theorem store_serves_queues {κ : Type} [DecidableEq κ] (label : κ → Side × Price)
    (capacity : Nat) {F : Family κ} (h : F.Reaches label capacity) :
    F.Serves ∧ ∀ op, F.Ok op → ∃ F', F.step label op = some F' :=
  ⟨h.holds.serves, fun _ hop => (h.holds.step hop).imp fun _ hF => hF.1⟩

/-- Two levels. -/
def twoLevels : Bool → Side × Price
  | true => (.bid, 5)
  | false => (.ask, 7)

/-- Two orders for each level, one of them cancelled, one filled in part and one filled. -/
def twoQueues : List (QueueOp Bool) :=
  [.push true 1 10 .gtc, .push true 2 4 .gtc, .push false 3 3 .postOnly, .push false 4 6 .gtc,
    .unlink true 0, .shrink true 1 1, .fillFront false]

theorem store_serves_queues_small : ∃ F : Family Bool,
    F.queue true = [⟨1, 2, 3, .gtc⟩] ∧ F.queue false = [⟨9, 4, 6, .gtc⟩] ∧
    F.Serves ∧ ∀ op, F.Ok op → ∃ F', F.step twoLevels op = some F' := by
  have hqueues : (Family.play twoLevels ⟨Store.blank 4, fun _ => {}, fun _ => []⟩ twoQueues).map
      (fun F => (F.queue true, F.queue false)) = some ([⟨1, 2, 3, .gtc⟩], [⟨9, 4, 6, .gtc⟩]) := by
    decide +kernel
  obtain ⟨F, hplay, hF⟩ := Option.map_eq_some_iff.mp hqueues
  obtain ⟨htrue, hfalse⟩ := Prod.ext_iff.mp hF
  exact ⟨F, htrue, hfalse, store_serves_queues twoLevels 4 (Family.Reaches.start.play hplay)⟩

end Matcher
