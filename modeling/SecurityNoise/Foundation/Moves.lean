import Mathlib.Logic.Function.Basic
import SecurityNoise.Foundation.Runs

/-!
# Objects that can be moved but not copied

A class says what its move constructor, its move assignment and its destructor leave in the
objects they touch. Where a move hands the value on and leaves a blank behind, every value has
one home, whatever is moved where: all other memory is blank, and the calls made on a value in
its several homes are one run from its construction.

## Implementation notes

A call is made on an object that has a value: what a class does with a moved-from object is
left open. Which object lives where is bookkeeping that no class reads.
-/

namespace SecurityNoise

variable {α τ : Type*}

/-- The move constructor and the move assignment, each with the new content of `*this` and of
the source, and the destructor. -/
structure MoveOps (α : Type*) where
  moveConstruct : α → α × α
  moveAssign : α → α → α × α
  destroy : α → α

/-- Moves hand the value on and leave a blank. -/
structure MoveOps.Lawful (M : MoveOps α) (Blank : α → Prop) : Prop where
  constructs : ∀ x, (M.moveConstruct x).1 = x
  leaves : ∀ x, Blank (M.moveConstruct x).2
  assigns : ∀ old x, (M.moveAssign old x).1 = x
  yields : ∀ old x, Blank (M.moveAssign old x).2
  destroys : ∀ x, Blank (M.destroy x)

/-- What each place in memory holds, the object whose value it is, and the number of objects
constructed so far, which are numbered in order. -/
structure Objects (α : Type*) where
  mem : Nat → α
  home : Nat → Option Nat
  made : Nat

inductive ObjectEvent (α τ : Type*)
  | construct (place : Nat) (x : α)
  | moveConstruct (place source : Nat)
  | moveAssign (place source : Nat)
  | call (place object : Nat) (l : τ)
  | destroy (place : Nat)

namespace Objects

/-- Nothing is constructed yet. -/
def start (mem : Nat → α) : Objects α := ⟨mem, fun _ => none, 0⟩

/-- The value at `source`, and the object, are at `place` now. -/
def handed (g : Objects α) (place source : Nat) (contents : α × α) : Objects α where
  mem := Function.update (Function.update g.mem place contents.1) source contents.2
  home := Function.update (Function.update g.home place (g.home source)) source none
  made := g.made

/-- `Fresh` values are constructed in free places, and `next` is what a call does. -/
def Step (M : MoveOps α) (Fresh : α → Prop) (next : α → τ → α → Prop) (g : Objects α)
    (ev : ObjectEvent α τ) (g' : Objects α) : Prop :=
  match ev with
  | .construct place x => g.home place = none ∧ Fresh x ∧
      g' = ⟨Function.update g.mem place x, Function.update g.home place (some g.made), g.made + 1⟩
  | .moveConstruct place source => g.home place = none ∧ place ≠ source ∧
      g' = g.handed place source (M.moveConstruct (g.mem source))
  | .moveAssign place source =>
      if place = source then g' = g
      else g' = g.handed place source (M.moveAssign (g.mem place) (g.mem source))
  | .call place object l => g.home place = some object ∧ ∃ x, next (g.mem place) l x ∧
      g' = { g with mem := Function.update g.mem place x }
  | .destroy place =>
      g' = { g with
        mem := Function.update g.mem place (M.destroy (g.mem place))
        home := Function.update g.home place none }

def constructed? : ObjectEvent α τ → Option α
  | .construct _ x => some x
  | _ => none

def callOn? (object : Nat) : ObjectEvent α τ → Option τ
  | .call _ object' l => if object' = object then some l else none
  | _ => none

/-- The values constructed, in order. -/
def constructed (tr : List (ObjectEvent α τ)) : List α := tr.filterMap constructed?

/-- The calls on an object, wherever it was. -/
def callsOn (object : Nat) (tr : List (ObjectEvent α τ)) : List τ :=
  tr.filterMap (callOn? object)

/-- What holds after the events `tr`. -/
structure Homes (Blank Fresh : α → Prop) (next : α → τ → α → Prop)
    (tr : List (ObjectEvent α τ)) (g : Objects α) : Prop where
  /-- An object lives in one place. -/
  single : ∀ place place' object, g.home place = some object → g.home place' = some object →
    place = place'
  /-- What is there is what its calls have made of it. -/
  lives : ∀ place object, g.home place = some object → ∃ x, (constructed tr)[object]? = some x ∧
    Fresh x ∧ Run next x (callsOn object tr) (g.mem place)
  blank : ∀ place, g.home place = none → Blank (g.mem place)
  counted : g.made = (constructed tr).length
  unmade : ∀ object, g.made ≤ object → callsOn object tr = []

section Histories

theorem constructed_snoc (tr : List (ObjectEvent α τ)) (ev : ObjectEvent α τ) :
    constructed (tr ++ [ev]) = constructed tr ++ (constructed? ev).toList :=
  filterMap_snoc ..

theorem callsOn_snoc (object : Nat) (tr : List (ObjectEvent α τ)) (ev : ObjectEvent α τ) :
    callsOn object (tr ++ [ev]) = callsOn object tr ++ (callOn? object ev).toList :=
  filterMap_snoc ..

/-- An event that constructs nothing and calls nothing adds to no history. -/
theorem histories_snoc (tr : List (ObjectEvent α τ)) {ev : ObjectEvent α τ} (hmade : constructed? ev = none)
    (hcall : ∀ object, callOn? object ev = none) :
    constructed (tr ++ [ev]) = constructed tr ∧
      ∀ object, callsOn object (tr ++ [ev]) = callsOn object tr := by
  constructor
  · rw [constructed_snoc, hmade]
    exact List.append_nil _
  · intro object
    rw [callsOn_snoc, hcall]
    exact List.append_nil _

end Histories

section Invariant

variable {M : MoveOps α} {Blank Fresh : α → Prop} {next : α → τ → α → Prop}
  {tr : List (ObjectEvent α τ)} {ev : ObjectEvent α τ} {g g' : Objects α}

/-- Objects are numbered before they have a home. -/
theorem Homes.lt_made (h : Homes Blank Fresh next tr g) {place object : Nat}
    (hplace : g.home place = some object) : object < g.made := by
  obtain ⟨x, hx, _⟩ := h.lives place object hplace
  rw [h.counted]
  exact (List.getElem?_eq_some_iff.mp hx).1

/-- A value that changes its home keeps its history; what is left is blank. -/
theorem Homes.handed (h : Homes Blank Fresh next tr g) {place source : Nat} {contents : α × α}
    (hmade : constructed? ev = none) (hcall : ∀ object, callOn? object ev = none)
    (hne : place ≠ source) (hvalue : contents.1 = g.mem source) (hleft : Blank contents.2) :
    Homes Blank Fresh next (tr ++ [ev]) (g.handed place source contents) := by
  obtain ⟨hconstructed, hcalls⟩ := histories_snoc tr hmade hcall
  have hsource : (g.handed place source contents).home source = none :=
    Function.update_self ..
  have hplace : (g.handed place source contents).home place = g.home source ∧
      (g.handed place source contents).mem place = g.mem source := by
    constructor
    · exact (Function.update_of_ne hne ..).trans (Function.update_self ..)
    · exact ((Function.update_of_ne hne ..).trans (Function.update_self ..)).trans hvalue
  have hother : ∀ q, q ≠ place → q ≠ source →
      (g.handed place source contents).home q = g.home q ∧
        (g.handed place source contents).mem q = g.mem q := by
    intro q hp hs
    constructor
    · exact (Function.update_of_ne hs ..).trans (Function.update_of_ne hp ..)
    · exact (Function.update_of_ne hs ..).trans (Function.update_of_ne hp ..)
  -- the places, each with where its value was before
  have hwas : ∀ q object, (g.handed place source contents).home q = some object →
      ∃ q', g.home q' = some object ∧ (g.handed place source contents).mem q = g.mem q' ∧
        (q = place ∧ q' = source ∨ q = q' ∧ q ≠ source) := by
    intro q object hq
    by_cases hs : q = source
    · rw [hs, hsource] at hq
      cases hq
    · by_cases hp : q = place
      · rw [hp, hplace.1] at hq
        refine ⟨source, hq, ?_, Or.inl ⟨hp, rfl⟩⟩
        rw [hp, hplace.2]
      · rw [(hother q hp hs).1] at hq
        exact ⟨q, hq, (hother q hp hs).2, Or.inr ⟨rfl, hs⟩⟩
  constructor
  · intro q r object hq hr
    obtain ⟨q', hq', _, hqs⟩ := hwas q object hq
    obtain ⟨r', hr', _, hrs⟩ := hwas r object hr
    have hsame := h.single q' r' object hq' hr'
    obtain ⟨rfl, hqs⟩ | ⟨rfl, hqs⟩ := hqs
    · obtain ⟨rfl, _⟩ | ⟨rfl, hrs⟩ := hrs
      · rfl
      · exact absurd (hsame.symm.trans hqs) hrs
    · obtain ⟨rfl, hrs⟩ | ⟨rfl, _⟩ := hrs
      · exact absurd (hsame.trans hrs) hqs
      · exact hsame
  · intro q object hq
    obtain ⟨q', hq', hmem, _⟩ := hwas q object hq
    rw [hconstructed, hcalls, hmem]
    exact h.lives q' object hq'
  · intro q hq
    by_cases hs : q = source
    · have hleft' : (g.handed place source contents).mem q = contents.2 := by
        rw [hs]
        exact Function.update_self ..
      rw [hleft']
      exact hleft
    · by_cases hp : q = place
      · rw [hp, hplace.1] at hq
        rw [hp, hplace.2]
        exact h.blank source hq
      · rw [(hother q hp hs).1] at hq
        rw [(hother q hp hs).2]
        exact h.blank q hq
  · rw [hconstructed]
    exact h.counted
  · intro object hobject
    rw [hcalls]
    exact h.unmade object hobject

theorem Homes.construct (h : Homes Blank Fresh next tr g) {place : Nat} {x : α}
    (hfree : g.home place = none) (hfresh : Fresh x) :
    Homes Blank Fresh next (tr ++ [.construct place x]) ⟨Function.update g.mem place x,
      Function.update g.home place (some g.made), g.made + 1⟩ := by
  have hconstructed : constructed (tr ++ [.construct place x]) = constructed tr ++ [x] :=
    constructed_snoc tr _
  have hcalls : ∀ object, callsOn object (tr ++ [.construct place x]) = callsOn object tr := by
    intro object
    rw [callsOn_snoc]
    exact List.append_nil _
  have hhome : ∀ q object, Function.update g.home place (some g.made) q = some object →
      q = place ∧ object = g.made ∨ q ≠ place ∧ g.home q = some object := by
    intro q object hq
    by_cases hp : q = place
    · rw [hp, Function.update_self] at hq
      exact Or.inl ⟨hp, (Option.some.inj hq).symm⟩
    · rw [Function.update_of_ne hp] at hq
      exact Or.inr ⟨hp, hq⟩
  constructor
  · intro q r object hq hr
    obtain ⟨rfl, rfl⟩ | ⟨_, hold⟩ := hhome q object hq
    · obtain ⟨rfl, _⟩ | ⟨_, hold⟩ := hhome r _ hr
      · rfl
      · exact absurd (h.lt_made hold) (Nat.lt_irrefl _)
    · obtain ⟨rfl, rfl⟩ | ⟨_, hold'⟩ := hhome r object hr
      · exact absurd (h.lt_made hold) (Nat.lt_irrefl _)
      · exact h.single q r object hold hold'
  · intro q object hq
    rw [hconstructed, hcalls]
    obtain ⟨rfl, rfl⟩ | ⟨hp, hq⟩ := hhome q object hq
    · refine ⟨x, ?_, hfresh, ?_⟩
      · rw [h.counted]
        exact List.getElem?_concat_length ..
      · rw [h.unmade g.made (Nat.le_refl _)]
        change Run next x [] (Function.update g.mem q x q)
        rw [Function.update_self]
        exact Run.nil x
    · obtain ⟨y, hy, hrest⟩ := h.lives q object hq
      change ∃ y, _ ∧ _ ∧ Run next y _ (Function.update g.mem place x q)
      rw [Function.update_of_ne hp]
      refine ⟨y, ?_, hrest⟩
      rw [List.getElem?_append_left (List.getElem?_eq_some_iff.mp hy).1]
      exact hy
  · intro q hq
    by_cases hp : q = place
    · rw [hp] at hq
      change Function.update g.home place (some g.made) place = none at hq
      rw [Function.update_self] at hq
      cases hq
    · change Function.update g.home place (some g.made) q = none at hq
      change Blank (Function.update g.mem place x q)
      rw [Function.update_of_ne hp] at hq ⊢
      exact h.blank q hq
  · rw [hconstructed, List.length_append, h.counted]
    rfl
  · intro object hobject
    rw [hcalls]
    exact h.unmade object (Nat.le_of_succ_le hobject)

/-- A call on an object adds to its history and to no other. -/
theorem Homes.call (h : Homes Blank Fresh next tr g) {place object : Nat} {l : τ} {x : α}
    (hplace : g.home place = some object) (hstep : next (g.mem place) l x) :
    Homes Blank Fresh next (tr ++ [.call place object l])
      { g with mem := Function.update g.mem place x } := by
  have hconstructed : constructed (tr ++ [.call place object l]) = constructed tr := by
    rw [constructed_snoc]
    exact List.append_nil _
  have hother : ∀ object', object' ≠ object →
      callsOn object' (tr ++ [.call place object l]) = callsOn object' tr := by
    intro object' hne
    rw [callsOn_snoc, callOn?, if_neg hne.symm]
    exact List.append_nil _
  constructor
  · exact h.single
  · intro q object' hq
    rw [hconstructed]
    by_cases hp : q = place
    · obtain rfl : object' = object := by
        rw [hp] at hq
        exact Option.some.inj (hq.symm.trans hplace)
      obtain ⟨y, hy, hfresh, run⟩ := h.lives place object' hplace
      refine ⟨y, hy, hfresh, ?_⟩
      change Run next y _ (Function.update g.mem place x q)
      rw [callsOn_snoc, callOn?, if_pos rfl, hp, Function.update_self]
      exact run.append (Run.single hstep)
    · have hne : object' ≠ object := by
        rintro rfl
        exact hp (h.single q place object' hq hplace)
      change ∃ y, _ ∧ _ ∧ Run next y _ (Function.update g.mem place x q)
      rw [hother object' hne, Function.update_of_ne hp]
      exact h.lives q object' hq
  · intro q hq
    have hp : q ≠ place := by
      rintro rfl
      cases hplace.symm.trans hq
    change Blank (Function.update g.mem place x q)
    rw [Function.update_of_ne hp]
    exact h.blank q hq
  · rw [hconstructed]
    exact h.counted
  · intro object' hobject
    rw [hother object' (Nat.ne_of_gt (Nat.lt_of_lt_of_le (h.lt_made hplace) hobject))]
    exact h.unmade object' hobject

theorem Homes.destroy (h : Homes Blank Fresh next tr g) {place : Nat} {x : α} (hx : Blank x) :
    Homes Blank Fresh next (tr ++ [.destroy place]) { g with
      mem := Function.update g.mem place x
      home := Function.update g.home place none } := by
  obtain ⟨hconstructed, hcalls⟩ := histories_snoc tr
    (rfl : constructed? (.destroy place : ObjectEvent α τ) = none) fun _ => rfl
  have hhome : ∀ q object, Function.update g.home place none q = some object →
      q ≠ place ∧ g.home q = some object := by
    intro q object hq
    by_cases hp : q = place
    · rw [hp, Function.update_self] at hq
      cases hq
    · rw [Function.update_of_ne hp] at hq
      exact ⟨hp, hq⟩
  constructor
  · intro q r object hq hr
    exact h.single q r object (hhome q object hq).2 (hhome r object hr).2
  · intro q object hq
    obtain ⟨hp, hq⟩ := hhome q object hq
    change ∃ y, _ ∧ _ ∧ Run next y _ (Function.update g.mem place x q)
    rw [hconstructed, hcalls, Function.update_of_ne hp]
    exact h.lives q object hq
  · intro q hq
    change Function.update g.home place none q = none at hq
    change Blank (Function.update g.mem place x q)
    by_cases hp : q = place
    · rw [hp, Function.update_self]
      exact hx
    · rw [Function.update_of_ne hp] at hq ⊢
      exact h.blank q hq
  · rw [hconstructed]
    exact h.counted
  · intro object hobject
    rw [hcalls]
    exact h.unmade object hobject

theorem Homes.step (h : Homes Blank Fresh next tr g) (hlawful : M.Lawful Blank)
    (hstep : Step M Fresh next g ev g') : Homes Blank Fresh next (tr ++ [ev]) g' := by
  cases ev with
  | construct place x =>
      obtain ⟨hfree, hfresh, rfl⟩ := hstep
      exact h.construct hfree hfresh
  | moveConstruct place source =>
      obtain ⟨_, hne, rfl⟩ := hstep
      apply h.handed rfl (fun _ => rfl) hne
      · exact hlawful.constructs _
      · exact hlawful.leaves _
  | moveAssign place source =>
      by_cases hne : place = source
      · obtain rfl : g' = g := by
          rw [Step, if_pos hne] at hstep
          exact hstep
        obtain ⟨hconstructed, hcalls⟩ := histories_snoc tr
          (rfl : constructed? (.moveAssign place source : ObjectEvent α τ) = none) fun _ => rfl
        constructor
        · exact h.single
        · intro q object hq
          rw [hconstructed, hcalls]
          exact h.lives q object hq
        · exact h.blank
        · rw [hconstructed]
          exact h.counted
        · intro object hobject
          rw [hcalls]
          exact h.unmade object hobject
      · rw [Step, if_neg hne] at hstep
        obtain rfl := hstep
        apply h.handed rfl (fun _ => rfl) hne
        · exact hlawful.assigns _ _
        · exact hlawful.yields _ _
  | call place object l =>
      obtain ⟨hplace, x, hcall, rfl⟩ := hstep
      exact h.call hplace hcall
  | destroy place =>
      obtain rfl := hstep
      exact h.destroy (hlawful.destroys _)

theorem Homes.start {mem : Nat → α} (hblank : ∀ place, Blank (mem place)) :
    Homes Blank Fresh next [] (Objects.start mem) := by
  constructor
  · intro place place' object hplace
    cases hplace
  · intro place object hplace
    cases hplace
  · intro place _
    exact hblank place
  · rfl
  · intro object _
    rfl

/-- Where moves are lawful, every value has one home and all other memory is blank. -/
theorem homes_of_run (hlawful : M.Lawful Blank) {mem : Nat → α}
    (hblank : ∀ place, Blank (mem place))
    (run : Run (Step M Fresh next) (Objects.start mem) tr g) : Homes Blank Fresh next tr g := by
  have hend : Homes Blank Fresh next ([] ++ tr) g := by
    apply run.history
    · intro pre g ev g' h hstep
      exact h.step hlawful hstep
    · exact Homes.start hblank
  exact hend

end Invariant

end Objects

end SecurityNoise
