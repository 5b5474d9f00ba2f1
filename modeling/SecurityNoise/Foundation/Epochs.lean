import Mathlib.Data.List.Basic
import Mathlib.Order.Basic

/-!
# Logs in epochs

The entries of a log carry the epoch they were made in, and epochs only advance. Two such logs
are compared epoch by epoch: if the one is part of the other in every epoch, then it is as a
whole.
-/

namespace SecurityNoise

variable {α ι : Type*} [DecidableEq ι] {epoch : α → ι} {log xs ys : List α} {a : α} {g g' : ι}
  {n : Nat}

section Numbers

/-- The entries of one epoch. -/
def inEpoch (epoch : α → ι) (log : List α) (g : ι) : List α :=
  log.filter fun a => decide (epoch a = g)

theorem mem_inEpoch : a ∈ inEpoch epoch log g ↔ a ∈ log ∧ epoch a = g := by
  rw [inEpoch, List.mem_filter, decide_eq_true_eq]

theorem inEpoch_cons_self (log : List α) (h : epoch a = g) :
    inEpoch epoch (a :: log) g = a :: inEpoch epoch log g :=
  List.filter_cons_of_pos (decide_eq_true h)

theorem inEpoch_cons_of_ne (log : List α) (h : epoch a ≠ g) :
    inEpoch epoch (a :: log) g = inEpoch epoch log g :=
  List.filter_cons_of_neg (by rwa [decide_eq_true_eq])

theorem inEpoch_snoc_self (log : List α) (h : epoch a = g) :
    inEpoch epoch (log ++ [a]) g = inEpoch epoch log g ++ [a] := by
  rw [inEpoch, List.filter_append]
  exact congrArg (inEpoch epoch log g ++ ·) (inEpoch_cons_self [] h)

theorem inEpoch_snoc_of_ne (log : List α) (h : epoch a ≠ g) :
    inEpoch epoch (log ++ [a]) g = inEpoch epoch log g := by
  have hlast : inEpoch epoch [a] g = [] := inEpoch_cons_of_ne [] h
  rw [inEpoch, List.filter_append]
  exact (congrArg (inEpoch epoch log g ++ ·) hlast).trans (List.append_nil _)

theorem inEpoch_prefix (h : xs <+: ys) (g : ι) : inEpoch epoch xs g <+: inEpoch epoch ys g :=
  h.filter _

/-- An entry keeps its number within its epoch when the log goes on. -/
theorem inEpoch_number {i : Nat} (h : xs <+: ys) (hget : (inEpoch epoch xs g)[i]? = some a) :
    (inEpoch epoch ys g)[i]? = some a := by
  obtain ⟨hi, _⟩ := List.getElem?_eq_some_iff.mp hget
  obtain ⟨rest, hrest⟩ : inEpoch epoch xs g <+: inEpoch epoch ys g := inEpoch_prefix h g
  rw [← hrest, List.getElem?_append_left hi, hget]

/-- A numbered entry of a log is an earlier one, or the last with the number of those before. -/
theorem inEpoch_snoc_number {b : α} {i : Nat}
    (hget : (inEpoch epoch (log ++ [a]) g)[i]? = some b) :
    (inEpoch epoch log g)[i]? = some b ∨
      (b = a ∧ epoch a = g ∧ i = (inEpoch epoch log g).length) := by
  by_cases hg : epoch a = g
  · rw [inEpoch_snoc_self log hg, List.getElem?_append] at hget
    split at hget
    · exact Or.inl hget
    · right
      obtain ⟨hi, hb⟩ := List.getElem?_eq_some_iff.mp hget
      rw [List.length_singleton] at hi
      rw [List.getElem_singleton] at hb
      exact ⟨hb.symm, hg, by omega⟩
  · rw [inEpoch_snoc_of_ne log hg] at hget
    exact Or.inl hget

/-- No entry is of a later epoch than all of them. -/
theorem inEpoch_eq_nil (h : ∀ a ∈ log, epoch a ≠ g) : inEpoch epoch log g = [] := by
  apply List.eq_nil_iff_forall_not_mem.mpr
  intro a ha
  obtain ⟨hmem, heq⟩ := mem_inEpoch.mp ha
  exact h a hmem heq

end Numbers

section Order

variable [PartialOrder ι]

/-- A log whose epochs only advance and have reached `g`, with `n` entries of that epoch. -/
structure EpochLog (epoch : α → ι) (log : List α) (g : ι) (n : Nat) : Prop where
  sorted : log.Pairwise fun a b => epoch a ≤ epoch b
  reached : ∀ a ∈ log, epoch a ≤ g
  count : (inEpoch epoch log g).length = n

namespace EpochLog

theorem nil (g : ι) : EpochLog epoch [] g 0 where
  sorted := List.Pairwise.nil
  reached _ ha := absurd ha List.not_mem_nil
  count := rfl

/-- An entry of the current epoch. -/
theorem snoc (h : EpochLog epoch log g n) (ha : epoch a = g) :
    EpochLog epoch (log ++ [a]) g (n + 1) where
  sorted := by
    apply List.pairwise_append.mpr
    refine ⟨h.sorted, List.pairwise_singleton .., ?_⟩
    intro b hb c hc
    rw [List.mem_singleton.mp hc, ha]
    exact h.reached b hb
  reached := by
    intro b hb
    rcases List.mem_append.mp hb with hpast | hlast
    · exact h.reached b hpast
    · rw [List.mem_singleton.mp hlast, ha]
  count := by
    rw [inEpoch_snoc_self log ha, List.length_append, List.length_singleton, h.count]

/-- A later epoch begins without entries. -/
theorem advance (h : EpochLog epoch log g n) (hlt : g < g') : EpochLog epoch log g' 0 where
  sorted := h.sorted
  reached b hb := (h.reached b hb).trans hlt.le
  count := by
    have hnone : ∀ b ∈ log, epoch b ≠ g' := by
      intro b hb
      exact ((h.reached b hb).trans_lt hlt).ne
    rw [inEpoch_eq_nil hnone, List.length_nil]

end EpochLog

/-- A log that is part of another in every epoch is part of it as a whole. The induction is on
the longer log, whose head is either skipped or the head of the other. -/
theorem sublist_of_inEpoch (hxs : xs.Pairwise fun a b => epoch a ≤ epoch b)
    (hys : ys.Pairwise fun a b => epoch a ≤ epoch b)
    (h : ∀ g, (inEpoch epoch xs g).Sublist (inEpoch epoch ys g)) : xs.Sublist ys := by
  induction ys generalizing xs with
  | nil =>
      cases xs with
      | nil => exact List.Sublist.refl _
      | cons x xs =>
          have hempty := h (epoch x)
          rw [inEpoch_cons_self xs rfl] at hempty
          cases hempty
  | cons y ys ih =>
      obtain ⟨hy, hys⟩ := List.pairwise_cons.mp hys
      -- the head of the longer log can be skipped where its epoch has entries enough without it
      have hskip : (inEpoch epoch xs (epoch y)).Sublist (inEpoch epoch ys (epoch y)) →
          xs.Sublist (y :: ys) := by
        intro hepoch
        apply List.Sublist.cons
        apply ih hxs hys
        intro g
        by_cases hg : epoch y = g
        · rwa [← hg]
        · have hpart := h g
          rwa [inEpoch_cons_of_ne ys hg] at hpart
      have hhead := h (epoch y)
      rw [inEpoch_cons_self ys rfl] at hhead
      cases xs with
      | nil => exact List.nil_sublist _
      | cons x xs =>
          obtain ⟨hx, htail⟩ := List.pairwise_cons.mp hxs
          by_cases hxy : epoch x = epoch y
          · rw [inEpoch_cons_self xs hxy] at hhead hskip
            cases hhead with
            | cons _ hrest => exact hskip hrest
            | cons_cons _ hrest =>
                apply List.Sublist.cons_cons
                apply ih htail hys
                intro g
                by_cases hg : epoch y = g
                · rwa [← hg]
                · have hpart := h g
                  rwa [inEpoch_cons_of_ne _ hg, inEpoch_cons_of_ne _ hg] at hpart
          · -- the head of the shorter log is of a later epoch, so the skipped one has none of it
            apply hskip
            have hmem : x ∈ inEpoch epoch (y :: ys) (epoch x) := by
              apply (h (epoch x)).subset
              rw [inEpoch_cons_self xs rfl]
              exact List.mem_cons_self
            have hlater : epoch y < epoch x := by
              rcases List.mem_cons.mp (mem_inEpoch.mp hmem).1 with rfl | hpast
              · exact absurd rfl hxy
              · exact lt_of_le_of_ne (hy x hpast) (Ne.symm hxy)
            have hnone : ∀ b ∈ x :: xs, epoch b ≠ epoch y := by
              intro b hb
              rcases List.mem_cons.mp hb with rfl | hpast
              · exact hxy
              · exact (hlater.trans_le (hx b hpast)).ne'
            rw [inEpoch_eq_nil hnone]
            exact List.nil_sublist _

end Order

end SecurityNoise
