import Matcher.Kit.Machine

/-!
# Traces

A machine that draws what it does next is not determined by its inputs. A trace lists
what it did. A run that prints what it does prints a trace, and what every step keeps of
this machine and of a second one, which takes the trace as its inputs, the trace keeps.
-/

namespace Kit

variable {σ τ κ ι ω α : Type*}

/-- The steps labelled `is` lead from the first state to the last. -/
inductive Trace (step : σ → ι → σ → Prop) : σ → List ι → σ → Prop where
  | nil (s : σ) : Trace step s [] s
  | cons {s s' s'' : σ} {i : ι} {is : List ι} (hstep : step s i s') (hrest : Trace step s' is s'') :
      Trace step s (i :: is) s''

section Trace

variable {step : σ → ι → σ → Prop} {s s' : σ} {is : List ι}

/-- A run prints a trace. `I n s` says that there is room for `n` rounds in `s`. -/
theorem runAll_trace {M : σ → κ → Option (σ × List ω)} {I : Nat → σ → Prop} {render : ι → List ω}
    (hround : ∀ n s k, I (n + 1) s → ∃ i s', M s k = some (s', render i) ∧ step s i s' ∧ I n s')
    {m : Nat} (ks : List κ) (hs : I (ks.length + m) s) :
    ∃ is s', runAll M s ks = some (s', is.flatMap render) ∧ Trace step s is s' ∧
      is.length = ks.length ∧ I m s' := by
  induction ks generalizing s with
  | nil =>
    rw [List.length_nil, Nat.zero_add] at hs
    exact ⟨[], s, rfl, .nil s, rfl, hs⟩
  | cons k ks ih =>
    rw [List.length_cons, Nat.add_right_comm] at hs
    obtain ⟨i, s1, hfirst, hstep, hs1⟩ := hround _ s k hs
    obtain ⟨is, s', hrun, htrace, hlength, hs'⟩ := ih hs1
    refine ⟨i :: is, s', ?_, .cons hstep htrace, ?_, hs'⟩
    · rw [List.flatMap_cons]
      exact runAll_cons hfirst hrun
    · rw [List.length_cons, List.length_cons, hlength]

/-- What each step keeps, with what it says of the answers. -/
theorem Trace.answer {N : τ → ι → τ × List α} {J : σ → τ → Prop} {P : α → Prop}
    (hkeep : ∀ s i s' a, step s i s' → J s a → J s' (N a i).1 ∧ ∀ o ∈ (N a i).2, P o)
    (h : Trace step s is s') {a : τ} (ha : J s a) :
    J s' (answer N a is).1 ∧ ∀ o ∈ (answer N a is).2, P o := by
  induction h generalizing a with
  | nil s => exact ⟨ha, fun o ho => absurd ho List.not_mem_nil⟩
  | cons hstep _ ih =>
    obtain ⟨hnext, hfirst⟩ := hkeep _ _ _ a hstep ha
    obtain ⟨hlast, hlater⟩ := ih hnext
    refine ⟨hlast, fun o ho => ?_⟩
    rcases List.mem_append.mp ho with ho | ho
    · exact hfirst o ho
    · exact hlater o ho

end Trace

end Kit
