import Mathlib.Logic.Function.Basic

/-!
# A heap of typed blocks

The live blocks by address, and what was left in the blocks that have been freed. What kind of
block is where is all that the owners of the blocks keep account of.
-/

namespace SecurityNoise

/-- `freed` is what the freed blocks were left holding, the last one first. -/
structure Heap (β : Type*) where
  live : Nat → Option β
  freed : List β

namespace Heap

variable {β κ : Type*}

def empty : Heap β := ⟨fun _ => none, []⟩

/-- A block at `a` that holds `b`: a new one, or new contents. -/
def put (h : Heap β) (a : Nat) (b : β) : Heap β :=
  { h with live := Function.update h.live a (some b) }

/-- The block at `a` is given back with `left` in it. -/
def free (h : Heap β) (a : Nat) (left : β) : Heap β where
  live := Function.update h.live a none
  freed := left :: h.freed

/-- The kinds of the live blocks. -/
def kinds (kind : β → κ) (h : Heap β) (a : Nat) : Option κ := (h.live a).map kind

/-- An allocator returns memory that is not in use, if any. -/
def Fresh (h : Heap β) (place : Option Nat) : Prop := ∀ a ∈ place, h.live a = none

variable {kind : β → κ} {h : Heap β} {a a' : Nat} {b b' left : β}

@[simp] theorem put_live_self (h : Heap β) (a : Nat) (b : β) : (h.put a b).live a = some b :=
  Function.update_self ..

theorem put_live_of_ne (hne : a' ≠ a) : (h.put a b).live a' = h.live a' :=
  Function.update_of_ne hne ..

@[simp] theorem free_live_self (h : Heap β) (a : Nat) (left : β) : (h.free a left).live a = none :=
  Function.update_self ..

theorem free_live_of_ne (hne : a' ≠ a) : (h.free a left).live a' = h.live a' :=
  Function.update_of_ne hne ..

/-- A block that is there after a write is the one written, or was there before, elsewhere. -/
theorem put_live_cases (hlive : (h.put a b).live a' = some b') :
    (a' = a ∧ b' = b) ∨ (a' ≠ a ∧ h.live a' = some b') := by
  by_cases hne : a' = a
  · rw [hne, put_live_self] at hlive
    exact Or.inl ⟨hne, (Option.some.inj hlive).symm⟩
  · rw [put_live_of_ne hne] at hlive
    exact Or.inr ⟨hne, hlive⟩

/-- A block that is there after one was freed is another. -/
theorem free_live_cases (hlive : (h.free a left).live a' = some b) :
    a' ≠ a ∧ h.live a' = some b := by
  by_cases hne : a' = a
  · rw [hne, free_live_self] at hlive
    cases hlive
  · rw [free_live_of_ne hne] at hlive
    exact ⟨hne, hlive⟩

theorem kinds_put : (h.put a b).kinds kind = Function.update (h.kinds kind) a (some (kind b)) := by
  funext a'
  by_cases hne : a' = a
  · rw [hne, Function.update_self, kinds, put_live_self]
    rfl
  · rw [Function.update_of_ne hne, kinds, put_live_of_ne hne]
    rfl

/-- New contents of the same kind. -/
theorem kinds_put_same (hlive : h.live a = some b) (hkind : kind b' = kind b) :
    (h.put a b').kinds kind = h.kinds kind := by
  rw [kinds_put, hkind]
  apply Function.update_eq_self_iff.mpr
  rw [kinds, hlive]
  rfl

theorem kinds_free : (h.free a left).kinds kind = Function.update (h.kinds kind) a none := by
  funext a'
  by_cases hne : a' = a
  · rw [hne, Function.update_self, kinds, free_live_self]
    rfl
  · rw [Function.update_of_ne hne, kinds, free_live_of_ne hne]
    rfl

/-- A block that is in use is not returned again. -/
theorem Fresh.ne (hfresh : h.Fresh (some a)) (hlive : h.live a' = some b) : a' ≠ a := by
  rintro rfl
  cases (hfresh a' rfl).symm.trans hlive

/-- A kind of the account is the kind of a live block. -/
theorem live_of_kinds {k : κ} (hkind : h.kinds kind a = some k) :
    ∃ b, h.live a = some b ∧ kind b = k :=
  Option.map_eq_some_iff.mp hkind

end Heap

end SecurityNoise
