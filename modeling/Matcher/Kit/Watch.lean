import Matcher.Kit.Machine

/-!
# Observers

An observer keeps a state of its own from what it sees. It audits a list of events: each
must be in order for what the observer knows when it comes. It watches a machine: before
every input and at the end, what it knows agrees with the machine.
-/

namespace Kit

variable {σ τ υ κ ω α ε : Type*}

/-- Every event of the list is in order when it comes. -/
def Audit (see : τ → ε → τ) (ok : τ → ε → Prop) : τ → List ε → Prop
  | _, [] => True
  | t, e :: es => ok t e ∧ Audit see ok (see t e) es

theorem audit_append {see : τ → ε → τ} {ok : τ → ε → Prop} {t : τ} {es fs : List ε} :
    Audit see ok t (es ++ fs) ↔ Audit see ok t es ∧ Audit see ok (es.foldl see t) fs := by
  induction es generalizing t with
  | nil => simp [Audit]
  | cons e es ih => simp only [List.cons_append, List.foldl_cons, Audit, ih, and_assoc]

/-- An observer of a run: what it knows agrees with the state before every input and at
the end, and `ok` holds of each input and of what is shown of its outputs. -/
def Watch (M : σ → κ → Option (σ × List ω)) (view : ω → ε) (agrees : σ → τ → Prop)
    (ok : τ → κ → List ε → Prop) (next : τ → κ → List ε → τ) : σ → τ → List κ → Prop
  | s, t, [] => agrees s t
  | s, t, k :: ks => agrees s t ∧ ∃ s' out, M s k = some (s', out) ∧ ok t k (out.map view) ∧
      Watch M view agrees ok next s' (next t k (out.map view)) ks

/-- To watch a machine is to watch the one it implements: there is an invariant between
that one and the observer that every input keeps. -/
theorem Implements.watch {M : σ → κ → Option (σ × List ω)} {N : υ → κ → υ × List α} {view : ω → α}
    {Rep : σ → υ → Prop} {f : α → ε} {agrees : σ → τ → Prop} {ok : τ → κ → List ε → Prop}
    {next : τ → κ → List ε → τ} {I : υ → τ → Prop} (h : Implements M N (fun k => [k]) view Rep)
    (hagrees : ∀ s a t, Rep s a → I a t → agrees s t) (hstep : ∀ s a t k, Rep s a → I a t →
      ok t k ((N a k).2.map f) ∧ I (N a k).1 (next t k ((N a k).2.map f)))
    {s : σ} {a : υ} {t : τ} (hs : Rep s a) (ht : I a t) (ks : List κ) :
    Watch M (fun x => f (view x)) agrees ok next s t ks := by
  induction ks generalizing s a t with
  | nil => exact hagrees s a t hs ht
  | cons k ks ih =>
    obtain ⟨s', out, hrun, hout, hs'⟩ := h.step hs k
    obtain ⟨hok, hinv⟩ := hstep s a t k hs ht
    rw [answer_singleton] at hout hs'
    have hseen : out.map (fun x => f (view x)) = (N a k).2.map f := by
      rw [← hout, List.map_map]
      rfl
    refine ⟨hagrees s a t hs ht, s', out, hrun, ?_, ?_⟩
    · rw [hseen]
      exact hok
    · rw [hseen]
      exact ih hs' hinv

end Kit
