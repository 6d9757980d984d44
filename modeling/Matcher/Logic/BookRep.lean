import Matcher.Book
import Matcher.Logic.IndexRep
import Matcher.Logic.OrderMapRep
import Matcher.Logic.StoreQueues
import Matcher.Spec.Book

/-!
# One book in three structures

`OrderBook.Rep hold ex b C`: the store, the two indexes and the map of the book
`b` all describe one content `C`. Two exceptions occur while a command runs and
nowhere else: `hold` is the id of the order a replace has taken off the book but
not out of the map, and `ex` is the one level that is still listed although the
sweep has just emptied it.
-/

namespace Matcher

open Kit

/-- A level's name. -/
abbrev Key := Side × Price

/-- What a book holds: the prices listed on each side, best first, the queue and
the level record of each level, and the location of each id. -/
structure Content where
  prices : Side → List Price
  queue : Key → List Cell
  level : Key → Level
  locs : Finmap fun _ : OrderId => Nat

/-- A cell of a level at price `p`, as the specification sees it. -/
def Cell.order (p : Price) (x : Cell) : Spec.Order := ⟨x.id, p, x.qty, x.tif⟩

namespace Content

/-- The orders of side `s`, best price first and by arrival within a price. -/
def orders (C : Content) (s : Side) : List Spec.Order :=
  (C.prices s).flatMap fun p => (C.queue (s, p)).map (Cell.order p)

def spec (C : Content) : Spec.Book := ⟨C.orders .bid, C.orders .ask⟩

@[simp] theorem spec_side (C : Content) (s : Side) : C.spec.side s = C.orders s := by
  cases s <;> rfl

theorem orders_congr {C C' : Content} {s : Side} (hp : C'.prices s = C.prices s)
    (hq : ∀ p ∈ C.prices s, C'.queue (s, p) = C.queue (s, p)) : C'.orders s = C.orders s := by
  rw [orders, orders, hp]
  exact List.flatMap_congr fun p hmem => by rw [hq p hmem]

/-- The best level's orders come first. -/
theorem orders_cons {C : Content} {s : Side} {p : Price} {ps : List Price}
    (hp : C.prices s = p :: ps) :
    C.orders s = (C.queue (s, p)).map (Cell.order p) ++
      ps.flatMap fun p => (C.queue (s, p)).map (Cell.order p) := by
  rw [orders, hp, List.flatMap_cons]

theorem mem_orders {C : Content} {s : Side} {o : Spec.Order} :
    o ∈ C.orders s ↔ ∃ p ∈ C.prices s, ∃ x ∈ C.queue (s, p), x.order p = o := by
  simp only [orders, List.mem_flatMap, List.mem_map]

end Content

namespace OrderBook

/-! ## The indexes of a book -/

/-- The indexes of `b` list `prices` with the levels `level`. -/
def Indexed (b : OrderBook) (prices : Side → List Price) (level : Key → Level) : Prop :=
  ∀ s, PriceIndex.Lists b.cfg s (b.ownIndex s) (prices s) fun p => level (s, p)

/-- Only the indexes differ. -/
structure Frame (b b' : OrderBook) : Prop where
  store : b'.store = b.store
  map : b'.map = b.map
  seq : b'.seq = b.seq
  cfg : b'.cfg = b.cfg

section Indexed

variable {b : OrderBook} {prices : Side → List Price} {level : Key → Level}

theorem setIndex_frame (b : OrderBook) (s : Side) (ix : PriceIndex) :
    b.Frame (b.setIndex s ix) := by
  cases s <;> exact ⟨rfl, rfl, rfl, rfl⟩

theorem ownIndex_setIndex (b : OrderBook) (s s' : Side) (ix : PriceIndex) :
    (b.setIndex s ix).ownIndex s' = if s' = s then ix else b.ownIndex s' := by
  cases s <;> cases s' <;> rfl

/-- Replacing one side's index. -/
theorem Indexed.set (h : b.Indexed prices level) {s : Side} {ix : PriceIndex} {ps : List Price}
    (level' : Key → Level) (hix : PriceIndex.Lists b.cfg s ix ps fun p => level' (s, p))
    (hother : ∀ s', s' ≠ s → ∀ p, level' (s', p) = level (s', p)) :
    (b.setIndex s ix).Indexed (Function.update prices s ps) level' := by
  intro s'
  rw [(setIndex_frame b s ix).cfg, ownIndex_setIndex]
  by_cases hs : s' = s
  · subst hs
    rw [if_pos rfl, Function.update_self]
    exact hix
  · rw [if_neg hs, Function.update_of_ne hs, funext (hother s' hs)]
    exact h s'

theorem Indexed.read (h : b.Indexed prices level) {s : Side} {p : Price} (hp : p ∈ prices s) :
    b.readLevel s p = some (level (s, p)) := (h s).read hp

theorem Indexed.write (h : b.Indexed prices level) {s : Side} {p : Price}
    (hp : p ∈ prices s) (l : Level) :
    ∃ b', b.writeLevel s p l = some b' ∧ b.Frame b' ∧
      b'.Indexed prices (Function.update level (s, p) l) := by
  obtain ⟨ix, hrun, hix⟩ := (h s).write hp l
  refine ⟨b.setIndex s ix, by rw [writeLevel, hrun, Option.map_some], setIndex_frame b s ix, ?_⟩
  have hfun : (fun q => Function.update level (s, p) l (s, q)) =
      Function.update (fun q => level (s, q)) p l := by
    funext q
    by_cases hq : q = p
    · rw [hq, Function.update_self, Function.update_self]
    · rw [Function.update_of_ne hq, Function.update_of_ne (fun heq => hq (Prod.mk.inj heq).2)]
  have hset := h.set (Function.update level (s, p) l) (hfun ▸ hix) fun s' hs q =>
    Function.update_of_ne (fun heq => hs (Prod.mk.inj heq).1) _ _
  rwa [Function.update_eq_self] at hset

theorem Indexed.levelInsert (h : b.Indexed prices level) {s : Side} {p : Price} (hp : b.cfg.Valid p)
    (hroom : b.cfg.HasRoom p) (hfew : (prices s).length + 1 < 2 ^ 32)
    (hbusy : p ∈ prices s → (level (s, p)).empty = false) :
    ∃ b', b.levelInsert s p = some b' ∧ b.Frame b' ∧
      b'.Indexed (Function.update prices s (PriceIndex.listed s p (prices s))) level := by
  obtain ⟨ix, hrun, hix⟩ := (h s).levelInsert hp hroom hfew hbusy
  exact ⟨b.setIndex s ix, by rw [OrderBook.levelInsert, hrun, Option.map_some],
    setIndex_frame b s ix, h.set level hix fun _ _ _ => rfl⟩

theorem Indexed.unlinkLevel (h : b.Indexed prices level) {s : Side} {p : Price} (hp : p ∈ prices s)
    (hdef : (level (s, p)).empty = true → level (s, p) = {}) :
    ∃ b', b.unlinkLevel s p = some b' ∧ b.Frame b' ∧
      b'.Indexed (Function.update prices s
        (if (level (s, p)).empty then (prices s).erase p else prices s)) level := by
  obtain ⟨ix, hrun, hix⟩ := (h s).unlinkLevel hp hdef
  exact ⟨b.setIndex s ix, by rw [OrderBook.unlinkLevel, hrun, Option.map_some],
    setIndex_frame b s ix, h.set level hix fun _ _ _ => rfl⟩

end Indexed

/-! ## The map and the queues -/

/-- The map holds the location of every queued order, and beside them at most
`hold`. -/
structure Ids (hold : Option OrderId) (map : OrderMap) (max live : Nat) (queue : Key → List Cell)
    (locs : Finmap fun _ : OrderId => Nat) : Prop where
  models : map.Models locs
  found : ∀ (i : OrderId) (l : Nat), hold ≠ some i →
    (locs.lookup i = some l ↔ ∃ k, ∃ x ∈ queue k, x.id = i ∧ x.loc = l)
  held : ∀ i : OrderId, hold = some i → (locs.lookup i).isSome ∧ ∀ k, ∀ x ∈ queue k, x.id ≠ i
  card : locs.keys.card = live + (if hold.isSome then 1 else 0)
  full : locs.keys.card ≤ max
  tags : 2 * max ≤ map.tags.size ∧ 16 ≤ map.tags.size

/-- Locations name cells uniquely. -/
def LocInj (queue : Key → List Cell) : Prop :=
  ∀ (k k' : Key) (x y : Cell), x ∈ queue k → y ∈ queue k' → x.loc = y.loc → k = k' ∧ x = y

/-- The cells of the queues after queue `k` was replaced. -/
theorem exists_update {queue : Key → List Cell} {k : Key} {xs : List Cell} {P : Cell → Prop} :
    (∃ k', ∃ y ∈ Function.update queue k xs k', P y) ↔
      (∃ y ∈ xs, P y) ∨ ∃ k', k' ≠ k ∧ ∃ y ∈ queue k', P y := by
  constructor
  · rintro ⟨k', y, hy, hP⟩
    by_cases hk : k' = k
    · subst hk
      rw [Function.update_self] at hy
      exact Or.inl ⟨y, hy, hP⟩
    · rw [Function.update_of_ne hk] at hy
      exact Or.inr ⟨k', hk, y, hy, hP⟩
  · rintro (⟨y, hy, hP⟩ | ⟨k', hk, y, hy, hP⟩)
    · exact ⟨k, y, by rwa [Function.update_self], hP⟩
    · exact ⟨k', y, by rwa [Function.update_of_ne hk], hP⟩

section Ids

variable {hold : Option OrderId} {map : OrderMap} {max live : Nat} {queue : Key → List Cell}
  {locs : Finmap fun _ : OrderId => Nat}

theorem Ids.room (h : Ids hold map max live queue locs) : locs.keys.card < map.tags.size := by
  have := h.full
  have := h.tags
  omega

theorem Ids.ne_hold (h : Ids hold map max live queue locs) {k : Key} {x : Cell} (hx : x ∈ queue k) :
    hold ≠ some x.id := fun heq => (h.held _ heq).2 k x hx rfl

/-- The map finds a queued order. -/
theorem Ids.lookup (h : Ids hold map max live queue locs) {k : Key} {x : Cell} (hx : x ∈ queue k) :
    locs.lookup x.id = some x.loc :=
  (h.found x.id x.loc (h.ne_hold hx)).mpr ⟨k, x, hx, rfl, rfl⟩

/-- No two queued orders share an id. -/
theorem Ids.id_inj (h : Ids hold map max live queue locs) (hinj : LocInj queue)
    {k k' : Key} {x y : Cell} (hx : x ∈ queue k) (hy : y ∈ queue k') (hid : x.id = y.id) :
    k = k' ∧ x = y := by
  refine hinj k k' x y hx hy ?_
  have h1 := h.lookup hx
  rw [hid, h.lookup hy] at h1
  exact (Option.some.inj h1).symm

/-- Taking a cell out of its queue leaves the cells with other ids. -/
theorem Ids.others (h : Ids hold map max live queue locs) (hinj : LocInj queue) {k : Key}
    {l r : List Cell} {x : Cell} (hsplit : queue k = l ++ x :: r)
    (hnd : ((queue k).map Cell.loc).Nodup) {P : Cell → Prop} :
    (∃ k', ∃ y ∈ Function.update queue k (l ++ r) k', P y) ↔
      ∃ k', ∃ y ∈ queue k', y.id ≠ x.id ∧ P y := by
  have hx : x ∈ queue k := by simp [hsplit]
  have hnot : x ∉ l ++ r := by
    rw [hsplit, List.map_append, List.map_cons] at hnd
    have := (List.nodup_cons.mp (List.nodup_middle.mp hnd)).1
    intro hmem
    rw [← List.map_append] at this
    exact this (List.mem_map_of_mem hmem)
  rw [exists_update]
  constructor
  · rintro (⟨y, hy, hP⟩ | ⟨k', hk, y, hy, hP⟩)
    · have hyk : y ∈ queue k := by
        rw [hsplit]
        simp only [List.mem_append, List.mem_cons] at hy ⊢
        exact hy.imp_right Or.inr
      refine ⟨k, y, hyk, fun heq => hnot ?_, hP⟩
      rwa [← (h.id_inj hinj hyk hx heq).2]
    · exact ⟨k', y, hy, fun heq => hk (h.id_inj hinj hy hx heq).1, hP⟩
  · rintro ⟨k', y, hy, hne, hP⟩
    by_cases hk : k' = k
    · subst hk
      rw [hsplit] at hy
      refine Or.inl ⟨y, ?_, hP⟩
      simp only [List.mem_append, List.mem_cons] at hy ⊢
      rcases hy with hy | rfl | hy
      · exact Or.inl hy
      · exact absurd rfl hne
      · exact Or.inr hy
    · exact Or.inr ⟨k', hk, y, hy, hP⟩

/-- Only ids and locations matter to the map. -/
theorem Ids.requantify (h : Ids hold map max live queue locs) {k : Key} {l r : List Cell} {x : Cell}
    (hsplit : queue k = l ++ x :: r) (q : Qty) :
    Ids hold map max live (Function.update queue k (l ++ { x with qty := q } :: r)) locs := by
  have hiff : ∀ P : OrderId → Nat → Prop,
      (∃ k', ∃ y ∈ Function.update queue k (l ++ { x with qty := q } :: r) k', P y.id y.loc) ↔
        ∃ k', ∃ y ∈ queue k', P y.id y.loc := by
    intro P
    have hself := @exists_update queue k (queue k) fun y => P y.id y.loc
    rw [Function.update_eq_self] at hself
    rw [exists_update, hself, hsplit]
    simp [or_and_right, exists_or]
  refine { h with found := fun i loc hi => ?_, held := fun i hi =>
    ⟨(h.held i hi).1, fun k' y hy heq => ?_⟩ }
  · rw [h.found i loc hi, hiff fun i' l' => i' = i ∧ l' = loc]
  · obtain ⟨k'', z, hz, hzi⟩ := (hiff fun i' _ => i' = i).mp ⟨k', y, hy, heq⟩
    exact (h.held i hi).2 k'' z hz hzi

theorem keys_insert (i : OrderId) (l : Nat) : (locs.insert i l).keys = insert i locs.keys := by
  ext j
  simp only [Finmap.mem_keys, Finmap.mem_insert, Finset.mem_insert]

theorem card_erase {i : OrderId} {l : Nat} (hi : locs.lookup i = some l) :
    (locs.erase i).keys.card + 1 = locs.keys.card := by
  have hmem : i ∈ locs.keys := by rw [Finmap.mem_keys, Finmap.mem_iff]; exact ⟨l, hi⟩
  rw [Finmap.keys_erase]
  exact Finset.card_erase_add_one hmem

/-- A filled order leaves its queue and the map. -/
theorem Ids.erase (h : Ids hold map max live queue locs) (hinj : LocInj queue) {k : Key}
    {l r : List Cell} {x : Cell} (hsplit : queue k = l ++ x :: r)
    (hnd : ((queue k).map Cell.loc).Nodup) {live' : Nat} (hlive : live' + 1 = live) :
    ∃ map', map.remove x.id = some map' ∧ map'.removes = incr 64 map.removes ∧
      Ids hold map' max live' (Function.update queue k (l ++ r)) (locs.erase x.id) := by
  have hx : x ∈ queue k := by simp [hsplit]
  have hlook := h.lookup hx
  obtain ⟨map', hrun, hmodels, htags, _, hremoves⟩ := h.models.remove_present h.room hlook
  refine ⟨map', hrun, hremoves, hmodels, fun i loc hi => ?_, fun i hi =>
    ⟨?_, fun k' y hy heq => ?_⟩, ?_, ?_, htags ▸ h.tags⟩
  · rw [h.others hinj hsplit hnd]
    by_cases hix : i = x.id
    · rw [hix, Finmap.lookup_erase]
      constructor
      · intro hc
        cases hc
      · rintro ⟨k', y, hy, hne, heq, _⟩
        exact absurd heq hne
    · rw [Finmap.lookup_erase_ne hix, h.found i loc hi]
      constructor
      · rintro ⟨k', y, hy, rfl, hl⟩
        exact ⟨k', y, hy, hix, rfl, hl⟩
      · rintro ⟨k', y, hy, _, hyi, hl⟩
        exact ⟨k', y, hy, hyi, hl⟩
  · rw [Finmap.lookup_erase_ne]
    · exact (h.held i hi).1
    · rintro rfl
      exact h.ne_hold hx hi
  · obtain ⟨k'', z, hz, _, hzi⟩ :=
      (h.others hinj hsplit hnd (P := fun y => y.id = i)).mp ⟨k', y, hy, heq⟩
    exact (h.held i hi).2 k'' z hz hzi
  · have := card_erase hlook
    have := h.card
    omega
  · have := card_erase hlook
    have := h.full
    omega

/-- A replaced order leaves its queue but not the map. -/
theorem Ids.take (h : Ids none map max live queue locs) (hinj : LocInj queue) {k : Key}
    {l r : List Cell} {x : Cell} (hsplit : queue k = l ++ x :: r)
    (hnd : ((queue k).map Cell.loc).Nodup) {live' : Nat} (hlive : live' + 1 = live) :
    Ids (some x.id) map max live' (Function.update queue k (l ++ r)) locs := by
  have hx : x ∈ queue k := by simp [hsplit]
  refine { h with
    found := fun i loc hi => ?_
    held := fun i hi => ⟨?_, fun k' y hy heq => ?_⟩
    card := ?_ }
  · have hix : i ≠ x.id := fun heq => hi (congrArg some heq.symm)
    rw [h.others hinj hsplit hnd, h.found i loc (by simp)]
    constructor
    · rintro ⟨k', y, hy, rfl, hl⟩
      exact ⟨k', y, hy, hix, rfl, hl⟩
    · rintro ⟨k', y, hy, _, hyi, hl⟩
      exact ⟨k', y, hy, hyi, hl⟩
  · cases hi
    rw [h.lookup hx]
    rfl
  · cases hi
    obtain ⟨k'', z, hz, hne, hzi⟩ :=
      (h.others hinj hsplit hnd (P := fun y => y.id = x.id)).mp ⟨k', y, hy, heq⟩
    exact hne hzi
  · have := h.card
    simp only [Option.isSome_none, Option.isSome_some, Bool.false_eq_true, if_false, if_true]
      at this ⊢
    omega

/-- The held order leaves the map. -/
theorem Ids.release {i : OrderId} (h : Ids (some i) map max live queue locs) :
    ∃ map', map.remove i = some map' ∧ Ids none map' max live queue (locs.erase i) := by
  obtain ⟨hsome, hnone⟩ := h.held i rfl
  obtain ⟨l, hl⟩ := Option.isSome_iff_exists.mp hsome
  obtain ⟨map', hrun, hmodels, htags, _, _⟩ := h.models.remove_present h.room hl
  have hcard := card_erase hl
  refine ⟨map', hrun, hmodels, fun j loc _ => ?_, fun j hj => (by cases hj), ?_, ?_, htags ▸ h.tags⟩
  · by_cases hji : j = i
    · rw [hji, Finmap.lookup_erase]
      constructor
      · intro hc
        cases hc
      · rintro ⟨k, x, hx, hxi, _⟩
        exact absurd hxi (hnone k x hx)
    · rw [Finmap.lookup_erase_ne hji]
      exact h.found j loc fun heq => hji (Option.some.inj heq).symm
  · have := h.card
    simp only [Option.isSome_none, Option.isSome_some, Bool.false_eq_true, if_false, if_true]
      at this ⊢
    omega
  · have := h.full
    omega

/-- What `found` becomes when a cell is appended. -/
theorem Ids.found_append {i : OrderId} {l : Nat} {k : Key} {x : Cell}
    (hfound : i ≠ x.id → (locs.lookup i = some l ↔ ∃ k, ∃ y ∈ queue k, y.id = i ∧ y.loc = l))
    (hnone : ∀ k, ∀ y ∈ queue k, y.id ≠ x.id) :
    (locs.insert x.id x.loc).lookup i = some l ↔
      ∃ k', ∃ y ∈ Function.update queue k (queue k ++ [x]) k', y.id = i ∧ y.loc = l := by
  have hself := @exists_update queue k (queue k) fun y => y.id = i ∧ y.loc = l
  rw [Function.update_eq_self] at hself
  have happ : (∃ k', ∃ y ∈ Function.update queue k (queue k ++ [x]) k', y.id = i ∧ y.loc = l) ↔
      (∃ k', ∃ y ∈ queue k', y.id = i ∧ y.loc = l) ∨ x.id = i ∧ x.loc = l := by
    rw [exists_update, hself]
    simp only [List.mem_append, List.mem_singleton, or_and_right, exists_or, exists_eq_left]
    exact or_right_comm
  rw [happ]
  by_cases hix : i = x.id
  · subst hix
    rw [Finmap.lookup_insert]
    constructor
    · intro heq
      exact Or.inr ⟨rfl, Option.some.inj heq⟩
    · rintro (⟨k', y, hy, hyi, _⟩ | ⟨_, hl⟩)
      · exact absurd hyi (hnone k' y hy)
      · rw [hl]
  · rw [Finmap.lookup_insert_of_ne _ hix, hfound hix]
    exact ⟨Or.inl, fun hc => hc.resolve_right fun heq => hix heq.1.symm⟩

/-- A new order enters its queue and the map. -/
theorem Ids.put (h : Ids none map max live queue locs) {x : Cell} (k : Key)
    (hnew : locs.lookup x.id = none) (hroom : live < max) :
    ∃ map', map.insert x.id x.loc = some map' ∧
      Ids none map' max (live + 1) (Function.update queue k (queue k ++ [x]))
        (locs.insert x.id x.loc) := by
  obtain ⟨map', hrun, hmodels, htags, _, _⟩ := h.models.insert h.room x.id x.loc
  have hnone : ∀ k, ∀ y ∈ queue k, y.id ≠ x.id := by
    intro k y hy heq
    have := h.lookup hy
    rw [heq, hnew] at this
    cases this
  have hcard : (locs.insert x.id x.loc).keys.card = locs.keys.card + 1 := by
    have hnot : x.id ∉ locs.keys := by
      rw [Finmap.mem_keys, ← Finmap.lookup_eq_none]
      exact hnew
    rw [keys_insert]
    exact Finset.card_insert_of_notMem hnot
  have hcard0 := h.card
  simp only [Option.isSome_none, Bool.false_eq_true, if_false, Nat.add_zero] at hcard0
  refine ⟨map', hrun, hmodels, fun i l _ => ?_, fun i hi => (by cases hi), ?_, by omega,
    htags ▸ h.tags⟩
  · exact Ids.found_append (fun _ => h.found i l (by simp)) hnone
  · simp only [Option.isSome_none, Bool.false_eq_true, if_false, Nat.add_zero]
    omega

/-- The held order enters a queue again, with a new location. -/
theorem Ids.reput {x : Cell} (h : Ids (some x.id) map max live queue locs) (k : Key)
    {map' : OrderMap} (hmodels : map'.Models (locs.insert x.id x.loc))
    (htags : map'.tags.size = map.tags.size) :
    Ids none map' max (live + 1) (Function.update queue k (queue k ++ [x]))
      (locs.insert x.id x.loc) := by
  obtain ⟨hsome, hnone⟩ := h.held x.id rfl
  have hcard : (locs.insert x.id x.loc).keys.card = locs.keys.card := by
    have hmem : x.id ∈ locs.keys := by
      rw [Finmap.mem_keys, Finmap.mem_iff]
      exact Option.isSome_iff_exists.mp hsome
    rw [keys_insert, Finset.insert_eq_of_mem hmem]
  have hcard0 := h.card
  simp only [Option.isSome_some, if_true] at hcard0
  refine ⟨hmodels, fun i l _ => ?_, fun i hi => (by cases hi), ?_, hcard ▸ h.full,
    htags ▸ h.tags⟩
  · exact Ids.found_append
      (fun hix => h.found i l fun heq => hix (Option.some.inj heq).symm) hnone
  · simp only [Option.isSome_none, Bool.false_eq_true, if_false, Nat.add_zero]
    omega

end Ids

/-! ## The representation invariant -/

/-- The constructor returns if and only if the store, the map and the ladders can be
built. -/
theorem new_eq_some {cfg : BookConfig} {b : OrderBook} :
    OrderBook.new cfg = some b ↔ cfg.Builds ∧ cfg.maxOrders.toNat ≤ Store.maxChunks ∧
      ∃ map, OrderMap.new cfg.maxOrders.toNat = some map ∧
      { store := Store.blank cfg.maxOrders.toNat, map, cfg
        bids := PriceIndex.blank cfg.index .bid cfg.priceMin cfg.priceMax
        asks := PriceIndex.blank cfg.index .ask cfg.priceMin cfg.priceMax } = b := by
  constructor
  · intro h
    obtain ⟨store, hstore, h⟩ := Option.bind_eq_some_iff.mp h
    obtain ⟨hchunks, rfl⟩ := Store.new_eq_some.mp hstore
    obtain ⟨map, hmap, h⟩ := Option.bind_eq_some_iff.mp h
    obtain ⟨bids, hbids, h⟩ := Option.bind_eq_some_iff.mp h
    obtain ⟨asks, hasks, h⟩ := Option.bind_eq_some_iff.mp h
    obtain ⟨hbuilds, rfl⟩ := (PriceIndex.new_eq_some cfg .bid).mp hbids
    obtain ⟨_, rfl⟩ := (PriceIndex.new_eq_some cfg .ask).mp hasks
    exact ⟨hbuilds, hchunks, map, hmap, Option.some.inj h⟩
  · rintro ⟨hbuilds, hchunks, map, hmap, rfl⟩
    have hstore := Store.new_eq_some.mpr ⟨hchunks, rfl⟩
    have hnew := fun side => (PriceIndex.new_eq_some cfg side).mpr ⟨hbuilds, rfl⟩
    simp only [OrderBook.new, hstore, hmap, hnew, Option.bind_eq_bind, Option.bind_some]
    rfl

/-- The three structures of `b` describe the content `C`. -/
structure Rep (hold : Option OrderId) (ex : Option Key) (b : OrderBook) (C : Content) : Prop where
  index : b.Indexed C.prices C.level
  store : Store.Queues id b.store C.level C.queue
  listed : ∀ k : Key, ex ≠ some k → (k.2 ∈ C.prices k.1 ↔ C.queue k ≠ [])
  exempt : ∀ k : Key, ex = some k → k.2 ∈ C.prices k.1
  ids : Ids hold b.map b.cfg.maxOrders.toNat b.store.live C.queue C.locs
  small : b.cfg.maxOrders.toNat ≤ 2 ^ 29
  builds : b.cfg.Builds

section Rep

variable {hold : Option OrderId} {ex : Option Key} {b : OrderBook} {C : Content}

/-- The sequence number is nobody's business. -/
theorem Rep.set_seq (h : Rep hold ex b C) (n : UInt64) : Rep hold ex { b with seq := n } C :=
  { h with }

/-- One level's record and queue are replaced, together with the map. -/
theorem Rep.requeue (h : Rep hold ex b C) (k : Key) (xs : List Cell)
    (locs : Finmap fun _ : OrderId => Nat) (hold' : Option OrderId) (b' : OrderBook)
    (hex : ex = none ∨ ex = some k) (hk : k.2 ∈ C.prices k.1) {l : Level} (hcfg : b'.cfg = b.cfg)
    (hindex : b'.Indexed C.prices (Function.update C.level k l))
    (hstore : Store.Queues id b'.store (Function.update C.level k l) (Function.update C.queue k xs))
    (hids : Ids hold' b'.map b.cfg.maxOrders.toNat b'.store.live
      (Function.update C.queue k xs) locs) :
    Rep hold' (if xs = [] then some k else none) b'
      { C with
        queue := Function.update C.queue k xs
        level := Function.update C.level k l
        locs } := by
  refine { index := hindex, store := hstore, listed := fun k' hk' => ?_, exempt := fun k' hk' => ?_,
           ids := hcfg ▸ hids, small := hcfg ▸ h.small, builds := hcfg ▸ h.builds }
  · by_cases hkk : k' = k
    · subst hkk
      have hxs : xs ≠ [] := fun hnil => by simp [hnil] at hk'
      simp only [Function.update_self, hk, hxs, ne_eq, not_false_eq_true]
    · simp only [Function.update_of_ne hkk]
      refine h.listed k' ?_
      rcases hex with rfl | rfl
      · simp
      · exact fun heq => hkk (Option.some.inj heq).symm
  · split at hk'
    · cases hk'
      exact hk
    · cases hk'

/-- `unlink_level` after a level's queue changed: the level goes if it is empty. -/
theorem Rep.unlinkLevel {k : Key} (h : Rep hold (if C.queue k = [] then some k else none) b C)
    (hk : k.2 ∈ C.prices k.1) :
    ∃ b', b.unlinkLevel k.1 k.2 = some b' ∧ b.Frame b' ∧ Rep hold none b' { C with
      prices := Function.update C.prices k.1
        (if C.queue k = [] then (C.prices k.1).erase k.2 else C.prices k.1) } := by
  have hempty := h.store.level_empty k
  obtain ⟨b', hrun, hframe, hindex⟩ := h.index.unlinkLevel hk fun he => hempty.2 (hempty.1.mp he)
  have hif : (if (C.level (k.1, k.2)).empty then (C.prices k.1).erase k.2 else C.prices k.1) =
      if C.queue k = [] then (C.prices k.1).erase k.2 else C.prices k.1 := if_congr hempty.1 rfl rfl
  rw [hif] at hindex
  refine ⟨b', hrun, hframe, hindex, hframe.store ▸ h.store, fun k' _ => ?_, fun k' hk' =>
    (by cases hk'), ?_, hframe.cfg ▸ h.small, hframe.cfg ▸ h.builds⟩
  · by_cases hnil : C.queue k = []
    · simp only [hnil, if_true] at h ⊢
      by_cases hkk : k' = k
      · subst hkk
        simp only [Function.update_self, hnil, ne_eq, not_true, iff_false]
        exact (h.index k'.1).nodup.not_mem_erase
      · have hlisted := h.listed k' fun heq => hkk (Option.some.inj heq).symm
        by_cases hs : k'.1 = k.1
        · have hp : k'.2 ≠ k.2 := fun hp => hkk (Prod.ext hs hp)
          rw [hs, Function.update_self, (h.index k.1).nodup.mem_erase_iff, ← hs]
          exact ⟨fun hm => hlisted.mp hm.2, fun hne => ⟨hp, hlisted.mpr hne⟩⟩
        · rw [Function.update_of_ne hs]
          exact hlisted
    · simp only [hnil, if_false] at h ⊢
      rw [Function.update_eq_self]
      exact h.listed k' (by simp)
  · rw [hframe.map, hframe.cfg, hframe.store]
    exact h.ids

theorem Rep.live_le (h : Rep hold ex b C) : b.store.live ≤ 2 ^ 29 := by
  have := h.ids.card
  have := h.ids.full
  have := h.small
  omega

/-- A level with orders is listed. -/
theorem Rep.listed_of_mem (h : Rep hold ex b C) {k : Key} {x : Cell} (hx : x ∈ C.queue k) :
    k.2 ∈ C.prices k.1 := by
  by_cases hk : ex = some k
  · exact h.exempt k hk
  · exact (h.listed k hk).mpr (List.ne_nil_of_mem hx)

theorem Rep.valid (h : Rep hold ex b C) {s : Side} {p : Price} (hp : p ∈ C.prices s) :
    b.cfg.Valid p :=
  (h.index s).valid p hp

/-- A listed price has a slot in its index. -/
theorem Rep.hasRoom (h : Rep hold ex b C) {s : Side} {p : Price} (hp : p ∈ C.prices s) :
    b.cfg.HasRoom p :=
  (h.index s).hasRoom hp

/-- Unless the ladder is too wide, every valid price has. -/
theorem Rep.room (h : Rep hold ex b C) (hn : b.cfg.Short) {p : Price} (hp : b.cfg.Valid p) :
    b.cfg.HasRoom p := (h.index .bid).room hn hp

theorem Rep.sorted (h : Rep hold ex b C) (s : Side) : (C.prices s).Pairwise (Better s) :=
  (h.index s).sorted

theorem Rep.loc_inj (h : Rep hold ex b C) : LocInj C.queue := fun _ _ _ _ hx hy hloc =>
  ⟨h.store.loc_level hx hy hloc, h.store.loc_inj hx hy hloc⟩

/-- No two live orders share an id. -/
theorem Rep.id_inj (h : Rep hold ex b C) {k k' : Key} {x y : Cell} (hx : x ∈ C.queue k)
    (hy : y ∈ C.queue k') (hid : x.id = y.id) : k = k' ∧ x = y := h.ids.id_inj h.loc_inj hx hy hid

theorem Rep.nodup_queue (h : Rep hold ex b C) (k : Key) : ((C.queue k).map Cell.id).Nodup := by
  have hnd := h.store.nodup k
  rw [List.Nodup, List.pairwise_map] at hnd ⊢
  refine hnd.imp_of_mem fun hx hy hne heq => hne ?_
  rw [(h.id_inj hx hy heq).2]

/-- Ids are unique on a side. -/
theorem Rep.nodup_orders (h : Rep hold ex b C) (s : Side) :
    ((C.orders s).map Spec.Order.orderId).Nodup := by
  rw [Content.orders, List.map_flatMap, List.nodup_flatMap]
  constructor
  · intro p _
    rw [List.map_map]
    exact h.nodup_queue (s, p)
  · refine (h.sorted s).imp fun {p q} hpq i hi hi' => ?_
    simp only [List.map_map] at hi hi'
    obtain ⟨x, hx, rfl⟩ := List.mem_map.mp hi
    obtain ⟨y, hy, hxy⟩ := List.mem_map.mp hi'
    have heq := (Prod.mk.inj (h.id_inj hy hx hxy).1).2
    rw [heq] at hpq
    exact irrefl_of (Better s) p hpq

/-- And the two sides share none. -/
theorem Rep.disjoint_orders (h : Rep hold ex b C) {o o' : Spec.Order} (ho : o ∈ C.orders .bid)
    (ho' : o' ∈ C.orders .ask) : o.orderId ≠ o'.orderId := by
  obtain ⟨p, _, x, hx, rfl⟩ := Content.mem_orders.mp ho
  obtain ⟨q, _, y, hy, rfl⟩ := Content.mem_orders.mp ho'
  intro heq
  cases (Prod.mk.inj (h.id_inj hx hy heq).1).1

/-- `live` counts the orders of both sides. -/
theorem Rep.live_eq (h : Rep hold ex b C) :
    b.store.live = (C.orders .bid).length + (C.orders .ask).length := by
  have hlen : ∀ s, (C.orders s).length = ((C.prices s).map fun p =>
      (C.queue (s, p)).length).sum := by
    intro s
    rw [Content.orders, List.length_flatMap]
    simp
  have hks := h.store.live_eq ((C.prices .bid).map (Prod.mk .bid) ++
    (C.prices .ask).map (Prod.mk .ask))
    (by
      refine List.nodup_append.mpr ⟨?_, ?_, ?_⟩
      · exact (h.index .bid).nodup.map fun _ _ heq => (Prod.mk.inj heq).2
      · exact (h.index .ask).nodup.map fun _ _ heq => (Prod.mk.inj heq).2
      · intro k hk k' hk' heq
        obtain ⟨p, _, rfl⟩ := List.mem_map.mp hk
        obtain ⟨q, _, rfl⟩ := List.mem_map.mp hk'
        cases (Prod.mk.inj heq).1)
    fun k hk => by
      obtain ⟨x, hx⟩ := List.exists_mem_of_ne_nil _ hk
      have hp := h.listed_of_mem hx
      obtain ⟨s, p⟩ := k
      cases s
      · exact List.mem_append_left _ (List.mem_map_of_mem hp)
      · exact List.mem_append_right _ (List.mem_map_of_mem hp)
  rw [hks, List.map_append, List.sum_append, List.map_map, List.map_map, hlen, hlen]
  rfl

/-- A queue is no longer than the book. -/
theorem Rep.length_queue_le (h : Rep hold ex b C) (k : Key) :
    (C.queue k).length ≤ b.store.live := by
  rcases hq : C.queue k with _ | ⟨x, xs⟩
  · exact Nat.zero_le _
  have hp := h.listed_of_mem (k := k) (x := x) (by simp [hq])
  have hside : (C.queue k).length ≤ (C.orders k.1).length := by
    rw [Content.orders, List.length_flatMap]
    refine List.single_le_sum (fun _ _ => Nat.zero_le _) _ (List.mem_map.mpr ⟨k.2, hp, ?_⟩)
    simp
  rw [← hq, h.live_eq]
  obtain ⟨s, p⟩ := k
  cases s
  · exact hside.trans (Nat.le_add_right _ _)
  · exact hside.trans (Nat.le_add_left _ _)

/-- There are no more levels than orders. -/
theorem Rep.length_prices_le (h : Rep hold none b C) (s : Side) :
    (C.prices s).length ≤ b.store.live := by
  have hside : (C.prices s).length ≤ (C.orders s).length := by
    rw [Content.orders, List.length_flatMap]
    calc (C.prices s).length = ((C.prices s).map fun _ => 1).sum := by simp
      _ ≤ _ := List.sum_le_sum fun p hp => by
        have hne := (h.listed (s, p) (by simp)).mp hp
        rw [List.length_map]
        exact List.length_pos_iff.mpr hne
  rw [h.live_eq]
  cases s
  · exact hside.trans (Nat.le_add_right _ _)
  · exact hside.trans (Nat.le_add_left _ _)

end Rep

end OrderBook

end Matcher
