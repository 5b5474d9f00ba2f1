import Mathlib.Data.List.Basic
import Mathlib.Data.Set.Basic

/-!
# Hash chains

A chain absorbs pieces of data: each digest is the hash of the one before, followed by the
next piece. Two chains of equally many pieces that end in one digest absorbed the same pieces
from the same start, or evaluated the hash on two inputs with one digest.
-/

namespace SecurityNoise

variable {β δ : Type*} (H : List β → δ) (enc : δ → List β)

/-- The digest after absorbing the pieces from `h` on. -/
def hashChain (h : δ) (ds : List (List β)) : δ :=
  ds.foldl (fun h d => H (enc h ++ d)) h

/-- The inputs on which the chain evaluates the hash. -/
def chainInputs : δ → List (List β) → List (List β)
  | _, [] => []
  | h, d :: ds => (enc h ++ d) :: chainInputs (H (enc h ++ d)) ds

/-- An input of `S` and another one of `T` have one digest. -/
def Collide (S T : Set (List β)) : Prop :=
  ∃ x ∈ S, ∃ y ∈ T, x ≠ y ∧ H x = H y

/-- Some input of `S` has the digest `h`. -/
def Hits (S : Set (List β)) (h : δ) : Prop := ∃ x ∈ S, H x = h

variable {H enc}

theorem Hits.mono {S S' : Set (List β)} {h : δ} (hhits : Hits H S h) (hS : S ⊆ S') :
    Hits H S' h := by
  obtain ⟨x, hx, heq⟩ := hhits
  exact ⟨x, hS hx, heq⟩

theorem Collide.mono {S S' T T' : Set (List β)} (h : Collide H S T) (hS : S ⊆ S')
    (hT : T ⊆ T') : Collide H S' T' := by
  obtain ⟨x, hx, y, hy, hne, heq⟩ := h
  exact ⟨x, hS hx, y, hT hy, hne, heq⟩

theorem Collide.symm {S T : Set (List β)} (h : Collide H S T) : Collide H T S := by
  obtain ⟨x, hx, y, hy, hne, heq⟩ := h
  exact ⟨y, hy, x, hx, hne.symm, heq.symm⟩

/-- A collision stays one when only a part of the digest is looked at. -/
theorem Collide.image {S T : Set (List β)} {γ : Type*} (f : δ → γ) (h : Collide H S T) :
    Collide (f ∘ H) S T := by
  obtain ⟨x, hx, y, hy, hne, heq⟩ := h
  exact ⟨x, hx, y, hy, hne, congrArg f heq⟩

@[simp] theorem hashChain_nil (h : δ) : hashChain H enc h [] = h := rfl

@[simp] theorem hashChain_cons (h : δ) (d : List β) (ds : List (List β)) :
    hashChain H enc h (d :: ds) = hashChain H enc (H (enc h ++ d)) ds := rfl

theorem hashChain_append (h : δ) (ds ds' : List (List β)) :
    hashChain H enc h (ds ++ ds') = hashChain H enc (hashChain H enc h ds) ds' :=
  List.foldl_append

theorem chainInputs_append (h : δ) (ds ds' : List (List β)) :
    chainInputs H enc h (ds ++ ds') =
      chainInputs H enc h ds ++ chainInputs H enc (hashChain H enc h ds) ds' := by
  induction ds generalizing h with
  | nil => rfl
  | cons d ds ih => simp only [List.cons_append, chainInputs, hashChain_cons, ih]

/-- Digests of one length are cut off an input in one way. -/
theorem hashInput_inj (henc : Function.Injective enc)
    (hlen : ∀ h h', (enc h).length = (enc h').length) {h h' : δ} {d d' : List β}
    (heq : enc h ++ d = enc h' ++ d') : h = h' ∧ d = d' := by
  obtain ⟨hh, hd⟩ := List.append_inj heq (hlen h h')
  exact ⟨henc hh, hd⟩

/-- Chains that end in one digest absorbed the same pieces, or found a collision. -/
theorem hashChain_inj (henc : Function.Injective enc)
    (hlen : ∀ h h', (enc h).length = (enc h').length) {h h' : δ} {ds ds' : List (List β)}
    (hcount : ds.length = ds'.length)
    (heq : hashChain H enc h ds = hashChain H enc h' ds') :
    (h = h' ∧ ds = ds') ∨
      Collide H {x | x ∈ chainInputs H enc h ds} {x | x ∈ chainInputs H enc h' ds'} := by
  induction ds generalizing h h' ds' with
  | nil =>
      rw [List.eq_nil_of_length_eq_zero hcount.symm] at heq ⊢
      exact Or.inl ⟨heq, rfl⟩
  | cons d ds ih =>
      cases ds' with
      | nil => cases hcount
      | cons d' ds' =>
          rw [hashChain_cons, hashChain_cons] at heq
          obtain ⟨hdigest, rfl⟩ | hcollide := ih (Nat.succ.inj hcount) heq
          · by_cases hinput : enc h ++ d = enc h' ++ d'
            · obtain ⟨rfl, rfl⟩ := hashInput_inj henc hlen hinput
              exact Or.inl ⟨rfl, rfl⟩
            · exact Or.inr ⟨_, List.mem_cons_self, _, List.mem_cons_self, hinput, hdigest⟩
          · exact Or.inr (hcollide.mono (fun _ => List.mem_cons_of_mem _)
              (fun _ => List.mem_cons_of_mem _))

/-- A chain ends in the digest of its last input. -/
theorem hashChain_hits (h : δ) {ds : List (List β)} (hne : ds ≠ []) :
    Hits H {x | x ∈ chainInputs H enc h ds} (hashChain H enc h ds) := by
  obtain ⟨pre, d, rfl⟩ := (List.eq_nil_or_concat' ds).resolve_left hne
  rw [hashChain_append, chainInputs_append]
  exact ⟨_, List.mem_append_right _ List.mem_cons_self, rfl⟩

/-- Of two chains that end in one digest the longer one came by the start of the shorter. -/
theorem hashChain_suffix (henc : Function.Injective enc)
    (hlen : ∀ h h', (enc h).length = (enc h').length) {h h' : δ} {ds ds' : List (List β)}
    (hle : ds.length ≤ ds'.length) (heq : hashChain H enc h ds = hashChain H enc h' ds') :
    (h = h' ∧ ds = ds') ∨
      Collide H {x | x ∈ chainInputs H enc h ds} {x | x ∈ chainInputs H enc h' ds'} ∨
      Hits H {x | x ∈ chainInputs H enc h' ds'} h := by
  have hsplit := List.take_append_drop (ds'.length - ds.length) ds'
  have hcount : ds.length = (ds'.drop (ds'.length - ds.length)).length := by
    rw [List.length_drop]
    omega
  rw [← hsplit, hashChain_append] at heq
  have hinputs : chainInputs H enc h' ds' =
      chainInputs H enc h' (ds'.take (ds'.length - ds.length)) ++
        chainInputs H enc (hashChain H enc h' (ds'.take (ds'.length - ds.length)))
          (ds'.drop (ds'.length - ds.length)) := by
    rw [← chainInputs_append, hsplit]
  rw [hinputs]
  obtain ⟨hstart, hds⟩ | hcollide := hashChain_inj henc hlen hcount heq
  · by_cases hnone : ds'.take (ds'.length - ds.length) = []
    · left
      rw [hnone, List.nil_append] at hsplit
      rw [hnone] at hstart
      exact ⟨hstart, hds.trans hsplit⟩
    · right; right
      rw [hstart]
      exact (hashChain_hits h' hnone).mono fun _ => List.mem_append_left _
  · exact Or.inr (Or.inl (hcollide.mono (fun _ => id) fun _ => List.mem_append_right _))

/-- Chains of any lengths that end in one digest are one chain, or found a collision, or one
of them came by the start of the other. -/
theorem hashChain_cases (henc : Function.Injective enc)
    (hlen : ∀ h h', (enc h).length = (enc h').length) {h h' : δ} {ds ds' : List (List β)}
    (heq : hashChain H enc h ds = hashChain H enc h' ds') :
    (h = h' ∧ ds = ds') ∨
      Collide H {x | x ∈ chainInputs H enc h ds} {x | x ∈ chainInputs H enc h' ds'} ∨
      Hits H {x | x ∈ chainInputs H enc h ds} h' ∨
      Hits H {x | x ∈ chainInputs H enc h' ds'} h := by
  rcases Nat.le_total ds.length ds'.length with hle | hle
  · obtain hsame | hcollide | hhits := hashChain_suffix henc hlen hle heq
    · exact Or.inl hsame
    · exact Or.inr (Or.inl hcollide)
    · exact Or.inr (Or.inr (Or.inr hhits))
  · obtain ⟨hstart, hds⟩ | hcollide | hhits := hashChain_suffix henc hlen hle heq.symm
    · exact Or.inl ⟨hstart.symm, hds.symm⟩
    · exact Or.inr (Or.inl hcollide.symm)
    · exact Or.inr (Or.inr (Or.inl hhits))

/-- The same of chains whose last digests agree in some part. -/
theorem hashChain_inj_image {γ : Type*} (f : δ → γ) (henc : Function.Injective enc)
    (hlen : ∀ h h', (enc h).length = (enc h').length) {h h' : δ} {ds ds' : List (List β)}
    (hcount : ds.length = ds'.length) (hne : ds ≠ [])
    (heq : f (hashChain H enc h ds) = f (hashChain H enc h' ds')) :
    (h = h' ∧ ds = ds') ∨
      Collide (f ∘ H) {x | x ∈ chainInputs H enc h ds} {x | x ∈ chainInputs H enc h' ds'} := by
  have hne' : ds' ≠ [] := by
    rintro rfl
    exact hne (List.eq_nil_of_length_eq_zero hcount)
  obtain ⟨pre, d, rfl⟩ := (List.eq_nil_or_concat' ds).resolve_left hne
  obtain ⟨pre', d', rfl⟩ := (List.eq_nil_or_concat' ds').resolve_left hne'
  rw [hashChain_append, hashChain_append] at heq
  rw [chainInputs_append, chainInputs_append]
  have hpre : pre.length = pre'.length := by simpa using hcount
  by_cases hinput : enc (hashChain H enc h pre) ++ d = enc (hashChain H enc h' pre') ++ d'
  · obtain ⟨hdigest, rfl⟩ := hashInput_inj henc hlen hinput
    obtain ⟨rfl, rfl⟩ | hcollide := hashChain_inj henc hlen hpre hdigest
    · exact Or.inl ⟨rfl, rfl⟩
    · exact Or.inr ((hcollide.image f).mono (fun _ => List.mem_append_left _)
        (fun _ => List.mem_append_left _))
  · refine Or.inr ⟨_, List.mem_append_right _ List.mem_cons_self, _,
      List.mem_append_right _ List.mem_cons_self, hinput, heq⟩

end SecurityNoise
