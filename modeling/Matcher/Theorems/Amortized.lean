import Matcher.Logic.MarketSim
import Matcher.Spec.Course

/-!
# Three events a command

One command can fill any number of orders, so no bound holds of its events alone. But an
order is filled once, and some command rested it: with two events set aside for each
resting order, three events a command are enough. So numbers do not repeat before
2^64 / 3 commands.
-/

namespace Matcher

open Kit

namespace Spec

/-- A maker that leaves is worth two events; one that stays ends the sweep with nothing
left of the taker. -/
theorem fill_length (s : Side) (limit : Option Price) (taker : OrderId)
    (os : List Order) (qty : Qty) :
    (fill s limit taker os qty).2.2.length + 2 * (fill s limit taker os qty).1.length ≤
      2 * os.length + 1 ∧ ((fill s limit taker os qty).2.1 ≠ 0 →
        (fill s limit taker os qty).2.2.length + 2 * (fill s limit taker os qty).1.length ≤
          2 * os.length) := by
  induction os generalizing qty with
  | nil => simp [fill]
  | cons o os ih =>
    unfold fill
    split
    · simp
    split
    · have hrest := ih (qty - o.qty)
      generalize fill s limit taker os (qty - o.qty) = r at hrest ⊢
      obtain ⟨rest, left, evs⟩ := r
      dsimp only [List.length_cons] at hrest ⊢
      refine ⟨by omega, fun hleft => ?_⟩
      have hwhole := hrest.2 hleft
      omega
    · simp only [List.length_cons, List.length_nil, ne_eq, not_true_eq_false, false_implies,
        and_true]
      omega

theorem live_remove_le (R : Book) (s : Side) (id : OrderId) : (R.remove s id).live ≤ R.live := by
  have hle := List.length_filter_le (fun o : Order => decide (o.orderId ≠ id)) (R.side s)
  rw [live_eq _ s, live_eq R s, Book.side_remove, Book.side_remove_opposite]
  omega

section Step

variable {cfg : BookConfig} {available : Side → Price → List Order → Nat} {R Q : Book}
    {c : Command} {s : Side}
  {limit : Option Price} {t : Tif}

theorem SetsOut.live_le (h : SetsOut cfg R c Q s limit t) : Q.live ≤ R.live := by
  cases h with
  | new => exact Nat.le_refl _
  | replace => exact live_remove_le R s c.orderId

/-- What a command emits is paid for by three events and by two for each order that leaves. -/
theorem Course.length {r : Book × List Event} (h : Course cfg R c r) :
    r.2.length + 2 * r.1.live ≤ 2 * R.live + 3 := by
  cases h with
  | refused reason =>
    simp only [List.length_singleton]
    omega
  | @cancelled s =>
    have hle := live_remove_le R s c.orderId
    simp only [List.length_singleton]
    omega
  | @shrunk s =>
    have hlive := live_eq R s
    simp only [live_eq _ s, Book.side_set, Book.side_set_opposite, List.length_map,
      List.length_singleton]
    omega
  | @filled Q s limit _ hout =>
    have hle := hout.live_le
    rw [live_eq Q s, live_eq R s] at hle
    have hfill := (fill_length s limit c.orderId (Q.side (opposite s)) c.qty).1
    unfold sweep
    simp only [live_eq _ s, Book.side_opposite_set, Book.side_set, List.length_append,
      List.length_singleton]
    omega
  | @rested Q s _ hout hleft =>
    have hle := hout.live_le
    rw [live_eq Q s, live_eq R s] at hle
    have hfill := (fill_length s (some c.price) c.orderId (Q.side (opposite s)) c.qty).2 hleft
    unfold sweep
    simp only [live_eq _ s, Book.side_set, Book.side_set_opposite, length_insertBack,
      List.length_append, List.length_singleton]
    omega
  | @expired Q s limit _ hout =>
    have hle := hout.live_le
    rw [live_eq Q s, live_eq R s] at hle
    have hfill := (fill_length s limit c.orderId (Q.side (opposite s)) c.qty).1
    unfold sweep
    simp only [live_eq _ s, Book.side_opposite_set, Book.side_set, List.length_append,
      List.length_singleton]
    omega

variable (cfg available)

theorem serve_length (a : Sheet) (c : Command) :
    (serve cfg available a c).2.length + 2 * (serve cfg available a c).1.1.live ≤ 2 * a.1.live +
      3 := by
  have hlength : ∀ (n : UInt64) (evs : List Event), (numbered n evs).length = evs.length := by
    intro n evs
    have h := congrArg List.length (numbered_snd n evs)
    rwa [List.length_map] at h
  unfold serve
  simp only [hlength]
  exact (step_course cfg available a.1 c).length

/-- The same of a run. -/
theorem answer_serve_length (a : Sheet) (cs : List Command) :
    (answer (serve cfg available) a cs).2.length + 2 *
      (answer (serve cfg available) a cs).1.1.live ≤
      2 * a.1.live + 3 * cs.length :=
  answer_length_le (Φ := fun a : Sheet => 2 * a.1.live) (serve_length cfg available) a cs

end Step

/-- The numbers of a list of events that is not too long. -/
theorem numbered_range (n : UInt64) (evs : List Event) (h : n.toNat + evs.length < 2 ^ 64) :
    (numbered n evs).map (fun x => x.1.toNat) = List.range' (n.toNat + 1) evs.length := by
  induction evs generalizing n with
  | nil => rfl
  | cons e es ih =>
    rw [List.length_cons] at h
    have hnext : (n + 1).toNat = n.toNat + 1 := by
      rw [UInt64.toNat_add, UInt64.toNat_one]
      exact Nat.mod_eq_of_lt (by omega)
    have hrest := ih (n + 1) (by omega)
    rw [hnext] at hrest
    rw [numbered, List.map_cons, List.length_cons, List.range'_succ, hrest, hnext]

end Spec

/-- From a new book on, the events of a run `ds` that follows a run `cs` number at most
three a command and two for each order that rested before, less two for each order that
rests after. So as long as three times the commands stay below 2^64, the numbers of all
events are 1, 2, 3 and so on, none used twice. -/
theorem events_amortized {cfg : BookConfig} (hopens : cfg.Opens) (cs ds : List Command) :
    ∃ b0 b b' out out', OrderBook.new cfg = some b0 ∧ b0.applyAll cs = some (b, out) ∧
      b.applyAll ds = some (b', out') ∧
      out'.length + 2 * b'.orderCount ≤ 2 * b.orderCount + 3 * ds.length ∧
      (3 * (cs.length + ds.length) < 2 ^ 64 →
        (out ++ out').map (fun x => x.seq.toNat) = List.range' 1 (out.length + out'.length)) := by
  have hn := hopens.narrow
  obtain ⟨b0, hnew, hden0⟩ := OrderBook.denotes_new hopens
  obtain ⟨b, out, hrun, hout, hden⟩ := hden0.applyAll hn cs
  obtain ⟨b', out', hrun', hout', hden'⟩ := hden.applyAll hn ds
  have hbound := Spec.answer_serve_length cfg (Spec.summed cfg) ({}, 0) cs
  have hbound' := Spec.answer_serve_length cfg (Spec.summed cfg)
    (answer (Spec.serve cfg (Spec.summed cfg)) ({}, 0) cs).1 ds
  have hempty : Spec.Book.live {} = 0 := rfl
  rw [← hout, List.length_map, ← (hden.shows hn).orderCount, hempty] at hbound
  rw [← hout', List.length_map, ← (hden.shows hn).orderCount, ← (hden'.shows hn).orderCount]
    at hbound'
  refine ⟨b0, b, b', out, out', hnew, hrun, hrun', hbound', fun hfew => ?_⟩
  have hall : (out ++ out').map Emission.record =
      Spec.numbered 0 (Spec.run cfg (Spec.summed cfg) {} (cs ++ ds)).2 := by
    have happend := congrArg Prod.snd (answer_append (Spec.serve cfg (Spec.summed cfg)) ({},
      0) cs ds)
    rw [Spec.answer_serve] at happend
    rw [List.map_append, hout, hout']
    exact happend.symm
  have hlength := congrArg List.length (congrArg (List.map Prod.snd) hall)
  rw [Spec.numbered_snd, List.length_map, List.length_map, List.length_append] at hlength
  have hnumbers := Spec.numbered_range 0 (Spec.run cfg (Spec.summed cfg) {} (cs ++ ds)).2 (by
    rw [← hlength, UInt64.toNat_zero]
    omega)
  rw [← hall, ← hlength, List.map_map] at hnumbers
  exact hnumbers

theorem events_amortized_small :
    ∃ b0 b b' out out', OrderBook.new smallBook = some b0 ∧ b0.applyAll smallRun = some (b, out) ∧
      b.applyAll [.cancel 1] = some (b', out') ∧
      out'.length + 2 * b'.orderCount ≤ 2 * b.orderCount + 3 ∧
      (9 < 2 ^ 64 →
        (out ++ out').map (fun x => x.seq.toNat) = List.range' 1 (out.length + out'.length)) :=
  events_amortized smallBook_opens smallRun [.cancel 1]

end Matcher
