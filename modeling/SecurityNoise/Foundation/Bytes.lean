import Mathlib.Algebra.Order.Ring.Nat
import Mathlib.Data.List.Basic

/-!
# Byte strings and fixed-width byte blocks

A block carries its width in its type, so a key or a digest of the wrong length
cannot be built. Reading a span of a byte string is partial: it succeeds exactly
when the span lies inside the string.
-/

namespace SecurityNoise

/-- A byte string of any length. -/
abbrev Bytes := List UInt8

/-- A byte array of fixed width. -/
@[ext]
structure Block (n : Nat) where
  toList : Bytes
  length_toList : toList.length = n
  deriving DecidableEq

attribute [simp] Block.length_toList

namespace Block

variable {m n : Nat}

/-- The all-zero block. -/
def zero (n : Nat) : Block n := ⟨List.replicate n 0, List.length_replicate⟩

/-- The byte `c` repeated `n` times. -/
def filled (n : Nat) (c : UInt8) : Block n := ⟨List.replicate n c, List.length_replicate⟩

/-- The exclusive or of two blocks, byte by byte. -/
def xor (a b : Block n) : Block n := ⟨List.zipWith (· ^^^ ·) a.toList b.toList, by simp⟩

/-- The first `m` bytes of a block that has at least that many. -/
def truncate (h : m ≤ n) (b : Block n) : Block m :=
  ⟨b.toList.take m, by simp [h]⟩

/-- A byte string that fits, copied to the front of an all-zero block. -/
def pad (n : Nat) (l : Bytes) (h : l.length ≤ n) : Block n :=
  ⟨l ++ List.replicate (n - l.length) 0, by simp; omega⟩

/-- A byte string of exactly the block's width, read as a block. -/
def ofBytes? (n : Nat) (l : Bytes) : Option (Block n) :=
  if h : l.length = n then some ⟨l, h⟩ else none

@[simp] theorem pad_toList (l : Bytes) (h : l.length ≤ n) :
    (pad n l h).toList = l ++ List.replicate (n - l.length) 0 := rfl

/-- Against a repeated byte, every byte is xored with that one. -/
theorem xor_filled_toList (a : Block n) (c : UInt8) :
    (a.xor (filled n c)).toList = a.toList.map (· ^^^ c) := by
  apply List.ext_getElem
  · simp [xor, filled]
  · intro i _ _
    simp [xor, filled]

@[simp] theorem ofBytes?_toList (b : Block n) : ofBytes? n b.toList = some b := by
  simp [ofBytes?]

theorem ofBytes?_eq_some {l : Bytes} {b : Block n} :
    ofBytes? n l = some b ↔ b.toList = l := by
  constructor
  · intro h
    unfold ofBytes? at h
    split at h
    · rw [← Option.some.inj h]
    · cases h
  · rintro rfl
    exact ofBytes?_toList b

theorem ofBytes?_eq_none {l : Bytes} : ofBytes? n l = none ↔ l.length ≠ n := by
  simp [ofBytes?]

end Block

/-- The `len` bytes of `l` from `offset` on, when `l` has that many. -/
def span (l : Bytes) (offset len : Nat) : Option Bytes :=
  if offset + len ≤ l.length then some ((l.drop offset).take len) else none

theorem span_eq_some {l out : Bytes} {offset len : Nat} :
    span l offset len = some out ↔
      offset + len ≤ l.length ∧ (l.drop offset).take len = out := by
  simp only [span, Option.ite_none_right_eq_some, Option.some.injEq]

theorem span_length {l out : Bytes} {offset len : Nat} (h : span l offset len = some out) :
    out.length = len := by
  obtain ⟨hle, rfl⟩ := span_eq_some.mp h
  simp only [List.length_take, List.length_drop]
  omega

/-- The span as a block of its width. -/
def spanBlock (n : Nat) (l : Bytes) (offset : Nat) : Option (Block n) :=
  if h : offset + n ≤ l.length then some ⟨(l.drop offset).take n, by simp; omega⟩ else none

theorem spanBlock_eq_some {n : Nat} {l : Bytes} {offset : Nat} {b : Block n} :
    spanBlock n l offset = some b ↔ span l offset n = some b.toList := by
  simp only [spanBlock, span]
  split
  · rw [Option.some.injEq, Option.some.injEq, Block.ext_iff]
  · simp

/-- A span of the bytes from `offset` on. -/
theorem span_drop {l : Bytes} {offset : Nat} (h : offset ≤ l.length) (len : Nat) :
    span (l.drop offset) 0 len = span l offset len := by
  have hiff : 0 + len ≤ (l.drop offset).length ↔ offset + len ≤ l.length := by
    rw [List.length_drop]
    omega
  simp only [span, hiff, List.drop_zero]

theorem spanBlock_drop {n : Nat} {l : Bytes} {offset : Nat} (h : offset ≤ l.length) :
    spanBlock n (l.drop offset) 0 = spanBlock n l offset := by
  apply Option.ext
  intro b
  rw [spanBlock_eq_some, spanBlock_eq_some, span_drop h]

/-- A span depends on the bytes up to its end only. -/
theorem span_of_take {l l' out : Bytes} {offset len : Nat} (h : span l offset len = some out)
    (htake : l'.take (offset + len) = l.take (offset + len)) :
    span l' offset len = some out := by
  obtain ⟨hle, rfl⟩ := span_eq_some.mp h
  have hlen := congrArg List.length htake
  rw [List.length_take, List.length_take, Nat.min_eq_left hle] at hlen
  refine span_eq_some.mpr ⟨by omega, ?_⟩
  have hpiece : ∀ l : Bytes, (l.drop offset).take len = (l.take (offset + len)).drop offset := by
    intro l
    rw [List.drop_take, Nat.add_sub_cancel_left]
  rw [hpiece, hpiece, htake]

end SecurityNoise
