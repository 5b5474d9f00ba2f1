import Mathlib.Logic.Function.Basic
import Mathlib.Logic.Function.Iterate
import SecurityNoise.Foundation.Runs

/-!
# Threads over a shared state

Numbered threads take atomic steps on one shared state, in any order. What a thread does next
is a function of its own program counter and the shared state. A property of all counters is
kept if the step of one thread establishes it for that thread and disturbs no other.

## Implementation notes

A thread that has finished steps to itself, so that every thread can always be scheduled.
-/

namespace SecurityNoise

/-- The shared state and the program counter of each thread. -/
structure Threads (σ π : Type*) where
  shared : σ
  pcs : Nat → π

namespace Threads

variable {σ π : Type*} {next : σ → π → π × σ} {g g' : Threads σ π} {i : Nat}

/-- The state after a step of thread `i`. -/
def stepped (next : σ → π → π × σ) (g : Threads σ π) (i : Nat) : Threads σ π where
  shared := (next g.shared (g.pcs i)).2
  pcs := Function.update g.pcs i (next g.shared (g.pcs i)).1

def Step (next : σ → π → π × σ) (g : Threads σ π) (i : Nat) (g' : Threads σ π) : Prop :=
  g' = g.stepped next i

@[simp] theorem stepped_pcs_self (g : Threads σ π) (i : Nat) :
    (g.stepped next i).pcs i = (next g.shared (g.pcs i)).1 := Function.update_self ..

theorem stepped_pcs_of_ne (g : Threads σ π) {i j : Nat} (h : j ≠ i) :
    (g.stepped next i).pcs j = g.pcs j := Function.update_of_ne h ..

/-- What holds of every counter after a step: of the thread's own by what it did, of the
others because it left them alone. -/
theorem forall_stepped {L : Nat → π → Prop} (hown : L i (next g.shared (g.pcs i)).1)
    (hothers : ∀ j, j ≠ i → L j (g.pcs j)) : ∀ j, L j ((g.stepped next i).pcs j) := by
  intro j
  by_cases hj : j = i
  · rw [hj, stepped_pcs_self]
    exact hown
  · rw [stepped_pcs_of_ne g hj]
    exact hothers j hj

/-- Steps of one thread that nobody interrupts. -/
theorem run_alone {n : Nat} {pc : π} {s : σ}
    (h : (fun e => next e.2 e.1)^[n] (g.pcs i, g.shared) = (pc, s)) :
    Run (Step next) g (List.replicate n i) ⟨s, Function.update g.pcs i pc⟩ := by
  induction n generalizing g with
  | zero =>
      obtain ⟨rfl, rfl⟩ := Prod.mk.inj h
      rw [Function.update_eq_self]
      exact Run.nil g
  | succ n ih =>
      have hrest := @ih (g.stepped next i) (by rw [stepped_pcs_self]; exact h)
      have hpcs : Function.update (g.stepped next i).pcs i pc = Function.update g.pcs i pc :=
        Function.update_idem ..
      rw [hpcs] at hrest
      exact Run.cons rfl hrest

section Alone

variable {busy : π → Prop}

/-- Only a thread that no other thread is in the way of may step. -/
def Alone (busy : π → Prop) (g : Threads σ π) (i : Nat) : Prop := ∀ j, j ≠ i → ¬ busy (g.pcs j)

/-- Where threads step one at a time, at most one has a property that only a busy thread
acquires while no other has it. -/
theorem unique_of_alone {P : π → Prop}
    (hkeep : ∀ j, j ≠ i → P (g.pcs j) → P (next g.shared (g.pcs i)).1 → P (g.pcs i))
    (hunique : ∀ j k, P (g.pcs j) → P (g.pcs k) → j = k) :
    ∀ j k, P ((g.stepped next i).pcs j) → P ((g.stepped next i).pcs k) → j = k := by
  have hother : ∀ j, j ≠ i → P ((g.stepped next i).pcs j) → P ((g.stepped next i).pcs i) →
      j = i := by
    intro j hj hP hown
    rw [stepped_pcs_of_ne g hj] at hP
    rw [stepped_pcs_self] at hown
    exact hunique j i hP (hkeep j hj hP hown)
  intro j k hPj hPk
  by_cases hj : j = i
  · by_cases hk : k = i
    · rw [hj, hk]
    · rw [hj] at hPj ⊢
      exact (hother k hk hPk hPj).symm
  · by_cases hk : k = i
    · rw [hk] at hPk ⊢
      exact hother j hj hPj hPk
    · rw [stepped_pcs_of_ne g hj] at hPj
      rw [stepped_pcs_of_ne g hk] at hPk
      exact hunique j k hPj hPk

end Alone

end Threads

end SecurityNoise
