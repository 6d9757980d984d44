import Matcher.Kit.Machine
import Matcher.Spec.Queries

/-!
# The naive market (SPEC section 6)

One naive book for every symbol that was used, each with the number of its last event.
A command concerns the book of its symbol and no other; a symbol's first command makes
it an empty book.
-/

namespace Matcher.Spec

open Matcher Kit

/-- The lists of a book and the number of its last event. -/
abbrev Sheet := Book × UInt64

abbrev Market := Symbol → Option Sheet

section Machines

variable (cfg : BookConfig) (available : Side → Price → List Order → Nat)

/-- One command, its events numbered on from the last one. -/
def serve (a : Sheet) (c : Command) : Sheet × List (UInt64 × Event) :=
  let r := step cfg available a.1 c
  ((r.1, a.2 + UInt64.ofNat r.2.length), numbered a.2 r.2)

/-- One command for one symbol. -/
def Market.serve (V : Market) (x : Symbol × Command) : Market × List (Symbol × UInt64 × Event) :=
  let r := Spec.serve cfg available ((V x.1).getD ({}, 0)) x.2
  (Function.update V x.1 (some r.1), r.2.map fun e => (x.1, e))

/-- A run of commands on one book. -/
theorem answer_serve (a : Sheet) (cs : List Command) : answer (serve cfg available) a cs =
    (((run cfg available a.1 cs).1, a.2 + UInt64.ofNat (run cfg available a.1 cs).2.length),
      numbered a.2 (run cfg available a.1 cs).2) := by
  induction cs generalizing a with
  | nil => simp [answer, run, numbered]
  | cons c cs ih =>
    rw [answer, ih, run_cons]
    unfold serve
    simp only [numbered_append, List.length_append, UInt64.ofNat_add, UInt64.add_assoc]

end Machines

/-- The text of a book's snapshot can tell this much of it. -/
theorem resting_inj {R R' : Book} (h : R.resting = R'.resting) : R = R' := by
  have hside : ∀ s, (R.side s).map (Order.resting s) = (R'.side s).map (Order.resting s) := by
    intro s
    have hfilter : ∀ R : Book,
        R.resting.filter (fun o => o.side = s) = (R.side s).map (Order.resting s) := by
      intro R
      unfold Book.resting Book.restingSide
      rw [List.filter_append, List.filter_map, List.filter_map]
      cases s <;> simp [Order.resting, Function.comp_def, Book.side]
    rw [← hfilter, ← hfilter, h]
  have hinj : ∀ s, Function.Injective (Order.resting s) := by
    intro s o o' heq
    cases o
    cases o'
    cases heq
    rfl
  have hbids := List.map_injective_iff.mpr (hinj .bid) (hside .bid)
  have hasks := List.map_injective_iff.mpr (hinj .ask) (hside .ask)
  cases R
  cases R'
  cases hbids
  cases hasks
  rfl

end Matcher.Spec
