import Mathlib.Order.Defs.Unbundled

/-!
# Stateful calls with early exits

A call may end the process, return early without a value, or yield a value. The
state it has built up survives both ways of returning: nothing is rolled back on
an early exit. `Within` and `Triple` are the rules for reasoning about such calls,
`Refines` relates one to a specification whose failures leave no state.

## Implementation notes

Ending the process is an `Except` error, so no rule says anything about a state
after it. `Refines` excludes it: a call that refines a specification never ends
the process from a related state.
-/

namespace SecurityNoise

universe u

/-- A call over the state `σ` that can end the process with `ε`. -/
def EarlyExit (ε σ α : Type u) : Type u := σ → Except ε (Option α × σ)

namespace EarlyExit

variable {ε σ α β τ : Type u}

/-- Runs a call from a state. -/
def run (x : EarlyExit ε σ α) (s : σ) : Except ε (Option α × σ) := x s

instance : Monad (EarlyExit ε σ) where
  pure a := fun s => .ok (some a, s)
  bind x f := fun s =>
    match x s with
    | .error e => .error e
    | .ok (none, s') => .ok (none, s')
    | .ok (some a, s') => f a s'

/-- Returns early, keeping the state reached so far. -/
def leave : EarlyExit ε σ α := fun s => .ok (none, s)

/-- Reads the state. -/
def get : EarlyExit ε σ σ := fun s => .ok (some s, s)

/-- Replaces the state by its image. -/
def update (f : σ → σ) : EarlyExit ε σ PUnit := fun s => .ok (some ⟨⟩, f s)

/-- Runs a pure state transformer that may end the process. -/
def lift (f : σ → Except ε (α × σ)) : EarlyExit ε σ α := fun s =>
  match f s with
  | .error e => .error e
  | .ok (a, s') => .ok (some a, s')

/-- Runs a pure state transformer that may end the process or return early. -/
def liftOption (f : σ → Except ε (Option α × σ)) : EarlyExit ε σ α := f

@[simp] theorem run_pure (a : α) (s : σ) :
    (pure a : EarlyExit ε σ α).run s = .ok (some a, s) := rfl

@[simp] theorem run_leave (s : σ) : (leave : EarlyExit ε σ α).run s = .ok (none, s) := rfl

@[simp] theorem run_get (s : σ) : (get : EarlyExit ε σ σ).run s = .ok (some s, s) := rfl

@[simp] theorem run_update (f : σ → σ) (s : σ) :
    (update f : EarlyExit ε σ PUnit).run s = .ok (some ⟨⟩, f s) := rfl

@[simp] theorem run_liftOption (f : σ → Except ε (Option α × σ)) (s : σ) :
    (liftOption f).run s = f s := rfl

theorem run_lift (f : σ → Except ε (α × σ)) (s : σ) :
    (lift f).run s = match f s with
      | .error e => .error e
      | .ok (a, s') => .ok (some a, s') := rfl

theorem run_bind (x : EarlyExit ε σ α) (f : α → EarlyExit ε σ β) (s : σ) :
    (x >>= f).run s = match x.run s with
      | .error e => .error e
      | .ok (none, s') => .ok (none, s')
      | .ok (some a, s') => (f a).run s' := rfl

theorem run_bind_of_some {x : EarlyExit ε σ α} {f : α → EarlyExit ε σ β} {s s' : σ} {a : α}
    (h : x.run s = .ok (some a, s')) : (x >>= f).run s = (f a).run s' := by
  rw [run_bind, h]

theorem run_bind_of_none {x : EarlyExit ε σ α} {f : α → EarlyExit ε σ β} {s s' : σ}
    (h : x.run s = .ok (none, s')) : (x >>= f).run s = .ok (none, s') := by
  rw [run_bind, h]

instance : LawfulMonad (EarlyExit ε σ) :=
  LawfulMonad.mk' _
    (by
      intro α x
      funext s
      show (x >>= fun a => pure a).run s = x.run s
      rw [run_bind]
      rcases x.run s with e | ⟨_ | a, s'⟩ <;> rfl)
    (fun _ _ => rfl)
    (by
      intro α β γ x f g
      funext s
      show ((x >>= f) >>= g).run s = (x >>= fun a => f a >>= g).run s
      rw [run_bind, run_bind, run_bind]
      rcases x.run s with e | ⟨_ | a, s'⟩ <;> rfl)

/-- A finished `bind` either left in its first part or finished both parts. -/
theorem run_bind_eq_ok {x : EarlyExit ε σ α} {f : α → EarlyExit ε σ β} {s s'' : σ}
    {r : Option β} (h : (x >>= f).run s = .ok (r, s'')) :
    (∃ a s', x.run s = .ok (some a, s') ∧ (f a).run s' = .ok (r, s'')) ∨
      (r = none ∧ x.run s = .ok (none, s'')) := by
  rw [run_bind] at h
  split at h
  · cases h
  · rename_i s' hx
    obtain ⟨rfl, rfl⟩ := Prod.mk.inj (Except.ok.inj h)
    exact Or.inr ⟨rfl, hx⟩
  · rename_i a s' hx
    exact Or.inl ⟨a, s', hx, h⟩

/-- A `bind` that ends the process does so in one of its parts. -/
theorem run_bind_eq_error {x : EarlyExit ε σ α} {f : α → EarlyExit ε σ β} {s : σ} {e : ε}
    (h : (x >>= f).run s = .error e) :
    x.run s = .error e ∨ ∃ a s', x.run s = .ok (some a, s') ∧ (f a).run s' = .error e := by
  rw [run_bind] at h
  split at h
  · rename_i hx
    obtain rfl := Except.error.inj h
    exact Or.inl hx
  · cases h
  · rename_i a s' hx
    exact Or.inr ⟨a, s', hx, h⟩

section Within

/-- Every state a call can leave is related to the one it started from. -/
def Within (R : σ → σ → Prop) (x : EarlyExit ε σ α) : Prop :=
  ∀ s r s', x.run s = .ok (r, s') → R s s'

variable {R : σ → σ → Prop}

theorem Within.of_refl (hR : ∀ s, R s s) {x : EarlyExit ε σ α}
    (hx : ∀ s r s', x.run s = .ok (r, s') → s' = s) : Within R x := by
  intro s r s' h
  rw [hx s r s' h]
  exact hR s

theorem Within.pure (hR : ∀ s, R s s) (a : α) : Within R (Pure.pure a : EarlyExit ε σ α) := by
  rintro s r s' ⟨⟩
  exact hR s

theorem Within.leave (hR : ∀ s, R s s) : Within R (leave : EarlyExit ε σ α) := by
  rintro s r s' ⟨⟩
  exact hR s

theorem Within.update {f : σ → σ} (hf : ∀ s, R s (f s)) :
    Within R (update f : EarlyExit ε σ PUnit) := by
  rintro s r s' ⟨⟩
  exact hf s

theorem Within.bind (hR : ∀ s t w, R s t → R t w → R s w) {x : EarlyExit ε σ α}
    {f : α → EarlyExit ε σ β} (hx : Within R x) (hf : ∀ a, Within R (f a)) :
    Within R (x >>= f) := by
  intro s r s'' h
  obtain ⟨a, s', h₁, h₂⟩ | ⟨_, h₁⟩ := run_bind_eq_ok h
  · exact hR s s' s'' (hx s _ s' h₁) (hf a s' r s'' h₂)
  · exact hx s _ s'' h₁

theorem Within.mono {R' : σ → σ → Prop} (h : ∀ s t, R s t → R' s t) {x : EarlyExit ε σ α}
    (hx : Within R x) : Within R' x :=
  fun s r s' hr => h s s' (hx s r s' hr)

end Within

section Triple

/-- From a state in `P`, a call that yields `a` ends in `Q a` and one that
returns early ends in `E`. -/
def Triple (P : σ → Prop) (x : EarlyExit ε σ α) (Q : α → σ → Prop) (E : σ → Prop) : Prop :=
  ∀ s, P s → ∀ r s', x.run s = .ok (r, s') → match r with
    | some a => Q a s'
    | none => E s'

variable {P : σ → Prop} {Q : α → σ → Prop} {E : σ → Prop}

theorem Triple.bind {x : EarlyExit ε σ α} {f : α → EarlyExit ε σ β} {Q' : β → σ → Prop}
    (hx : Triple P x Q E) (hf : ∀ a, Triple (Q a) (f a) Q' E) : Triple P (x >>= f) Q' E := by
  intro s hs r s'' h
  obtain ⟨a, s', h₁, h₂⟩ | ⟨rfl, h₁⟩ := run_bind_eq_ok h
  · exact hf a s' (hx s hs _ s' h₁) r s'' h₂
  · exact hx s hs _ s'' h₁

theorem Triple.pure {a : α} (h : ∀ s, P s → Q a s) :
    Triple P (Pure.pure a : EarlyExit ε σ α) Q E := by
  rintro s hs r s' ⟨⟩
  exact h s hs

theorem Triple.leave (h : ∀ s, P s → E s) : Triple P (leave : EarlyExit ε σ α) Q E := by
  rintro s hs r s' ⟨⟩
  exact h s hs

theorem Triple.update {f : σ → σ} {Q : PUnit → σ → Prop} (h : ∀ s, P s → Q ⟨⟩ (f s)) :
    Triple P (update f : EarlyExit ε σ PUnit) Q E := by
  rintro s hs r s' ⟨⟩
  exact h s hs

theorem Triple.weaken {x : EarlyExit ε σ α} {P' : σ → Prop} {Q' : α → σ → Prop}
    {E' : σ → Prop} (hx : Triple P x Q E) (hP : ∀ s, P' s → P s)
    (hQ : ∀ a s, Q a s → Q' a s) (hE : ∀ s, E s → E' s) : Triple P' x Q' E' := by
  intro s hs r s' h
  have hr := hx s (hP s hs) r s' h
  cases r with
  | some a => exact hQ a s' hr
  | none => exact hE s' hr

end Triple

section Refines

/-- A call follows a specification: it returns early exactly when the specification
fails, and otherwise both yield values and states related by `Rel'`. -/
def Refines (Rel : σ → τ → Prop) (x : EarlyExit ε σ α) (y : StateT τ Option β)
    (Rel' : α → σ → β → τ → Prop) : Prop :=
  ∀ s t, Rel s t → match y.run t with
    | none => ∃ s', x.run s = .ok (none, s')
    | some (b, t') => ∃ a s', x.run s = .ok (some a, s') ∧ Rel' a s' b t'

variable {Rel : σ → τ → Prop}

theorem Refines.pure {a : α} {b : β} {Rel' : α → σ → β → τ → Prop}
    (h : ∀ s t, Rel s t → Rel' a s b t) :
    Refines Rel (Pure.pure a : EarlyExit ε σ α) (Pure.pure b) Rel' :=
  fun s t hst => ⟨a, s, rfl, h s t hst⟩

theorem Refines.bind {α' β' : Type u} {x : EarlyExit ε σ α} {y : StateT τ Option β}
    {f : α → EarlyExit ε σ α'} {g : β → StateT τ Option β'}
    {Mid : α → σ → β → τ → Prop} {Rel' : α' → σ → β' → τ → Prop}
    (hxy : Refines Rel x y Mid)
    (hfg : ∀ a b, Refines (fun s t => Mid a s b t) (f a) (g b) Rel') :
    Refines Rel (x >>= f) (y >>= g) Rel' := by
  intro s t hst
  have h := hxy s t hst
  rw [StateT.run_bind]
  cases hy : y.run t with
  | none =>
      rw [hy] at h
      obtain ⟨s', hs'⟩ := h
      exact ⟨s', run_bind_of_none hs'⟩
  | some p =>
      obtain ⟨b, t'⟩ := p
      rw [hy] at h
      obtain ⟨a, s', hs', hmid⟩ := h
      have h' := hfg a b s' t' hmid
      simp only [Option.bind_eq_bind, Option.bind_some, run_bind_of_some hs']
      exact h'

end Refines

end EarlyExit

end SecurityNoise
