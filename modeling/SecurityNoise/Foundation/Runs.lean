import Mathlib.Tactic.TypeStar

/-!
# Runs of a labelled transition system

A run lists its labels in order. The invariant rule passes from one step to a whole
run; its guarded form assumes of every step a condition on the state before it.
-/

namespace SecurityNoise

variable {σ τ : Type*}

/-- `Run step s tr s'`: the labels `tr` lead from `s` to `s'`. -/
inductive Run (step : σ → τ → σ → Prop) : σ → List τ → σ → Prop
  | nil (s : σ) : Run step s [] s
  | cons {s s' s'' : σ} {l : τ} {tr : List τ} (h : step s l s')
      (tail : Run step s' tr s'') : Run step s (l :: tr) s''

/-- What holds of the labels so far and of the next one. -/
theorem forall_mem_snoc {P : τ → Prop} {tr : List τ} {l : τ} (h : ∀ l' ∈ tr, P l') (hl : P l) :
    ∀ l' ∈ tr ++ [l], P l' :=
  List.forall_mem_append.mpr ⟨h, List.forall_mem_singleton.mpr hl⟩

/-- What the next label adds to a projection of the labels. -/
theorem filterMap_snoc {α : Type*} (f : τ → Option α) (tr : List τ) (l : τ) :
    (tr ++ [l]).filterMap f = tr.filterMap f ++ (f l).toList := by
  rw [List.filterMap_append]
  cases h : f l <;> simp only [List.filterMap_cons, List.filterMap_nil, h] <;> rfl

namespace Run

variable {step : σ → τ → σ → Prop} {s s' s'' : σ} {tr tr' : List τ}

/-- An invariant that every step keeps holds after every run. -/
theorem invariant {I : σ → Prop} (hstep : ∀ s l s', I s → step s l s' → I s')
    (run : Run step s tr s') (h : I s) : I s' := by
  induction run with
  | nil s => exact h
  | cons hs _ ih => exact ih (hstep _ _ _ h hs)

/-- The invariant rule for statements about a state and the labels that led to it. -/
theorem history {J : List τ → σ → Prop} {pre : List τ}
    (hstep : ∀ pre s l s', J pre s → step s l s' → J (pre ++ [l]) s')
    (run : Run step s tr s') (h : J pre s) : J (pre ++ tr) s' := by
  induction run generalizing pre with
  | nil s => rwa [List.append_nil]
  | @cons s s' s'' l tr hs _ ih =>
      have hnext := ih (hstep _ _ _ _ h hs)
      rwa [List.append_assoc] at hnext

theorem append (run : Run step s tr s') (run' : Run step s' tr' s'') :
    Run step s (tr ++ tr') s'' := by
  induction run with
  | nil s => exact run'
  | cons hs _ ih => exact Run.cons hs (ih run')

theorem single {l : τ} (h : step s l s') : Run step s [l] s' :=
  Run.cons h (Run.nil s')

/-- A run without labels goes nowhere. -/
theorem eq_of_nil (run : Run step s [] s') : s' = s := by
  cases run
  rfl

/-- The first step of a run, and the rest. -/
theorem uncons {l : τ} (run : Run step s (l :: tr) s') : ∃ s₁, step s l s₁ ∧ Run step s₁ tr s' := by
  cases run with
  | cons h tail => exact ⟨_, h, tail⟩

/-- A run whose labels are in two parts passes a state between them. -/
theorem split (run : Run step s (tr ++ tr') s'') :
    ∃ s', Run step s tr s' ∧ Run step s' tr' s'' := by
  induction tr generalizing s with
  | nil => exact ⟨s, Run.nil s, run⟩
  | cons l tr ih =>
      obtain ⟨s₁, hstep, tail⟩ := run.uncons
      obtain ⟨s', hfirst, hrest⟩ := ih tail
      exact ⟨s', Run.cons hstep hfirst, hrest⟩

/-- A run of a smaller step relation is a run of the larger one. -/
theorem mono {step' : σ → τ → σ → Prop} (h : ∀ s l s', step s l s' → step' s l s')
    (run : Run step s tr s') : Run step' s tr s' := by
  induction run with
  | nil s => exact Run.nil s
  | cons hs _ ih => exact Run.cons (h _ _ _ hs) ih

/-- Steps that change nothing can be left out of a run. -/
theorem filter {p : τ → Bool} (hskip : ∀ s l s', step s l s' → p l = false → s' = s)
    (run : Run step s tr s') : Run step s (tr.filter p) s' := by
  induction run with
  | nil s => exact Run.nil s
  | @cons s s' s'' l tr hs _ ih =>
      by_cases hp : p l = true
      · rw [List.filter_cons_of_pos hp]
        exact Run.cons hs ih
      · have hsame := hskip s l s' hs (Bool.eq_false_iff.mpr hp)
        rw [List.filter_cons_of_neg hp, ← hsame]
        exact ih

/-- Where every step from an invariant state keeps the invariant and satisfies `P`
of its label, every label of a run from there satisfies `P`. -/
theorem forall_labels {I : σ → Prop} {P : τ → Prop}
    (hstep : ∀ s l s', I s → step s l s' → I s' ∧ P l)
    (run : Run step s tr s') (h : I s) : ∀ l ∈ tr, P l := by
  induction run with
  | nil s => simp
  | cons hs _ ih =>
      obtain ⟨hI, hP⟩ := hstep _ _ _ h hs
      intro l hl
      cases List.mem_cons.mp hl with
      | inl he => exact he ▸ hP
      | inr ht => exact ih hI l ht

end Run

/-- The steps that meet a condition on their label and the state before them. -/
def Guarded (ok : σ → τ → Prop) (step : σ → τ → σ → Prop) (s : σ) (l : τ) (s' : σ) : Prop :=
  ok s l ∧ step s l s'

/-- A run whose labels imply the condition is guarded by it. -/
theorem Run.guarded {ok : σ → τ → Prop} {step : σ → τ → σ → Prop} {s s' : σ} {tr : List τ}
    (run : Run step s tr s') (h : ∀ l ∈ tr, ∀ s s', step s l s' → ok s l) :
    Run (Guarded ok step) s tr s' := by
  induction run with
  | nil s => exact Run.nil s
  | cons hs _ ih =>
      have htail := ih fun l hl => h l (List.mem_cons_of_mem _ hl)
      exact Run.cons ⟨h _ List.mem_cons_self _ _ hs, hs⟩ htail

end SecurityNoise
