import Mathlib.Data.List.Basic

/-!
# Machines that answer

A machine takes inputs one at a time and answers each with a list of outputs; a step
that does not return is `none`. `Implements` relates such a machine to a total one that
may take finer inputs: an input of the one stands for a list of inputs of the other, and
an input that stands for none is a service, which nobody can observe.
-/

namespace Kit

variable {σ σ' τ κ κ' ι ω ω' α : Type*}

/-- A run of inputs. -/
def runAll (M : σ → κ → Option (σ × List ω)) : σ → List κ → Option (σ × List ω)
  | s, [] => some (s, [])
  | s, k :: ks => do
    let (s, out) ← M s k
    let (s, rest) ← runAll M s ks
    return (s, out ++ rest)

theorem runAll_cons {M : σ → κ → Option (σ × List ω)} {s s' s'' : σ} {k : κ} {ks : List κ}
    {out rest : List ω} (hstep : M s k = some (s', out))
    (hrun : runAll M s' ks = some (s'', rest)) :
    runAll M s (k :: ks) = some (s'', out ++ rest) := by
  unfold runAll
  rw [hstep, Option.bind_eq_bind, Option.bind_some]
  dsimp only
  rw [hrun]
  rfl

/-- The answers of a total machine to a run of inputs. -/
def answer (N : τ → ι → τ × List ω) : τ → List ι → τ × List ω
  | a, [] => (a, [])
  | a, i :: is => ((answer N (N a i).1 is).1, (N a i).2 ++ (answer N (N a i).1 is).2)

@[simp] theorem answer_nil (N : τ → ι → τ × List ω) (a : τ) : answer N a [] = (a, []) := rfl

theorem answer_cons (N : τ → ι → τ × List ω) (a : τ) (i : ι) (is : List ι) :
    answer N a (i :: is) = ((answer N (N a i).1 is).1, (N a i).2 ++ (answer N (N a i).1 is).2) :=
  rfl

@[simp] theorem answer_singleton (N : τ → ι → τ × List ω) (a : τ) (i : ι) :
    answer N a [i] = N a i := by
  simp [answer]

theorem answer_append (N : τ → ι → τ × List ω) (a : τ) (is js : List ι) :
    answer N a (is ++ js) = ((answer N (answer N a is).1 js).1,
      (answer N a is).2 ++ (answer N (answer N a is).1 js).2) := by
  induction is generalizing a with
  | nil => rfl
  | cons i is ih => simp only [List.cons_append, answer_cons, ih, List.append_assoc]

/-- Inputs that are translated first. -/
theorem answer_map (N : τ → ι → τ × List ω) (f : κ → ι) (a : τ) (ks : List κ) :
    answer N a (ks.map f) = answer (fun a k => N a (f k)) a ks := by
  induction ks generalizing a with
  | nil => rfl
  | cons k ks ih => rw [List.map_cons, answer_cons, answer_cons, ih]

/-- The potential method: what a step answers is paid for by `k` and by what the potential
falls. Then `k` an input pays for all answers of a run. -/
theorem answer_length_le {N : τ → ι → τ × List ω} {Φ : τ → Nat} {k : Nat}
    (hstep : ∀ a i, (N a i).2.length + Φ (N a i).1 ≤ Φ a + k) (a : τ) (is : List ι) :
    (answer N a is).2.length + Φ (answer N a is).1 ≤ Φ a + k * is.length := by
  induction is generalizing a with
  | nil => simp
  | cons i is ih =>
    have hfirst := hstep a i
    have hrest := ih (N a i).1
    rw [answer_cons, List.length_append, List.length_cons, Nat.mul_succ]
    dsimp only
    omega

/-- `Rep s a` says that the state `s` stands for `a`. Every input `k` is answered, as the
machine `N` answers the inputs `expand k`, up to what `view` shows of an output. -/
structure Implements (M : σ → κ → Option (σ × List ω)) (N : τ → ι → τ × List α)
    (expand : κ → List ι) (view : ω → α) (Rep : σ → τ → Prop) : Prop where
  step : ∀ {s a}, Rep s a → ∀ k, ∃ s' out, M s k = some (s', out) ∧
    out.map view = (answer N a (expand k)).2 ∧ Rep s' (answer N a (expand k)).1

section Implements

variable {M : σ → κ → Option (σ × List ω)} {M' : σ' → κ' → Option (σ' × List ω')}
    {N : τ → ι → τ × List α}
  {expand : κ → List ι} {expand' : κ' → List ι} {view : ω → α} {view' : ω' → α} {Rep : σ → τ → Prop}
  {Rep' : σ' → τ → Prop}

/-- A run is answered as the run of what its inputs stand for. -/
theorem Implements.run (h : Implements M N expand view Rep) {s : σ} {a : τ}
    (hs : Rep s a) (ks : List κ) :
    ∃ s' out, runAll M s ks = some (s', out) ∧ out.map view = (answer N a (ks.flatMap expand)).2 ∧
      Rep s' (answer N a (ks.flatMap expand)).1 := by
  induction ks generalizing s a with
  | nil => exact ⟨s, [], rfl, rfl, hs⟩
  | cons k ks ih =>
    obtain ⟨s1, out1, hstep, hout1, hrep1⟩ := h.step hs k
    obtain ⟨s2, out2, hrun, hout2, hrep2⟩ := ih hrep1
    refine ⟨s2, out1 ++ out2, runAll_cons hstep hrun, ?_, ?_⟩
    · rw [List.map_append, hout1, hout2, List.flatMap_cons, answer_append]
    · rw [List.flatMap_cons, answer_append]
      exact hrep2

/-- Induction on a run, with a state of the machine at hand at every step. -/
theorem Implements.induction {N : τ → κ → τ × List α} (h : Implements M N (fun k => [k]) view Rep)
    {P : τ → List κ → Prop} (hnil : ∀ a, P a [])
    (hcons : ∀ s a k ks, Rep s a → P (N a k).1 ks → P a (k :: ks)) {s : σ} {a : τ} (hs : Rep s a)
    (ks : List κ) : P a ks := by
  induction ks generalizing s a with
  | nil => exact hnil a
  | cons k ks ih =>
    obtain ⟨s', _, _, _, hs'⟩ := h.step hs k
    rw [answer_singleton] at hs'
    exact hcons s a k ks hs (ih hs')

/-- Two machines that implement a third, fed inputs that stand for the same: the answers
look alike, and the states still stand for one and the same. -/
theorem Implements.alike (h : Implements M N expand view Rep)
    (h' : Implements M' N expand' view' Rep') {s : σ} {s' : σ'} {a : τ} (hs : Rep s a)
    (hs' : Rep' s' a) {ks : List κ} {ks' : List κ'}
    (hsame : ks.flatMap expand = ks'.flatMap expand') :
    ∃ t out t' out', runAll M s ks = some (t, out) ∧ runAll M' s' ks' = some (t', out') ∧
      out.map view = out'.map view' ∧ Rep t (answer N a (ks.flatMap expand)).1 ∧
      Rep' t' (answer N a (ks.flatMap expand)).1 := by
  obtain ⟨t, out, hrun, hout, hrep⟩ := h.run hs ks
  obtain ⟨t', out', hrun', hout', hrep'⟩ := h'.run hs' ks'
  rw [← hsame] at hout' hrep'
  exact ⟨t, out, t', out', hrun, hrun', hout.trans hout'.symm, hrep, hrep'⟩

end Implements

end Kit
