/-
  Playground.Lib.Split — a text split at a separator, the empty pieces at the end left
  out.

  A text without the separator is its own one piece.
  - `split_eq_pair`: what splits into two pieces: the two around one separator, the
    second of them not empty, and any number of separators behind.
  - `findSome?_split`: what skips empty pieces anyway finds the same in all of them.
-/

import Mathlib.Data.List.DropRight

namespace Playground.Lib

variable {α β : Type} [DecidableEq α]

def split (sep : α) (s : List α) : List (List α) :=
  if sep ∈ s then (s.splitOn sep).rdropWhile List.isEmpty else [s]

variable {sep : α} {s a b : List α}

theorem not_mem_of_mem_splitOn (h : a ∈ s.splitOn sep) : sep ∉ a := by
  induction s generalizing a with
  | nil =>
    rw [List.splitOn_nil, List.mem_singleton] at h
    simp [h]
  | cons x s ih =>
    rw [List.splitOn_cons_eq_if_modifyHead] at h
    split at h
    · rcases List.mem_cons.mp h with rfl | h
      · exact List.not_mem_nil
      · exact ih h
    · rename_i hx
      obtain ⟨p, ps, hps⟩ := List.exists_cons_of_ne_nil (List.splitOn_ne_nil sep s)
      rw [hps, List.modifyHead_cons] at h
      rcases List.mem_cons.mp h with rfl | h
      · have hp : sep ∉ p := ih (by rw [hps]; exact List.mem_cons_self)
        have hne : sep ≠ x := fun e => hx (by simp [e])
        simp [hne, hp]
      · exact ih (by rw [hps]; exact List.mem_cons_of_mem _ h)

omit [DecidableEq α] in
/-- Empty pieces at the end are separators at the end. -/
theorem intercalate_replicate_nil (k : Nat) :
    List.intercalate [sep] (b :: List.replicate k []) = b ++ List.replicate k sep := by
  induction k generalizing b with
  | zero => simp
  | succ k ih =>
    rw [List.replicate_succ, List.intercalate_cons_cons, ih, List.replicate_succ]
    simp

omit [DecidableEq α] in
theorem rdropWhile_pair (hb : b ≠ []) (k : Nat) :
    (a :: b :: List.replicate k []).rdropWhile List.isEmpty = [a, b] := by
  induction k with
  | zero =>
    have : [a, b] = [a] ++ [b] := rfl
    rw [List.replicate_zero, this, List.rdropWhile_concat_neg]
    simpa using hb
  | succ k ih =>
    rw [List.replicate_succ', ← List.cons_append, ← List.cons_append, List.rdropWhile_concat_pos _ _ _ rfl, ih]

theorem split_eq_pair : split sep s = [a, b] ↔
    b ≠ [] ∧ sep ∉ a ∧ sep ∉ b ∧ ∃ k, s = a ++ sep :: (b ++ List.replicate k sep) := by
  constructor
  · intro h
    unfold split at h
    split at h
    · have hne : (s.splitOn sep).rdropWhile List.isEmpty ≠ [] := by simp [h]
      have hb : b ≠ [] := by
        have := List.rdropWhile_last_not _ _ hne
        simpa [h] using this
      -- what is left out is empty pieces
      obtain ⟨k, hk⟩ : ∃ k, (s.splitOn sep).rtakeWhile List.isEmpty = List.replicate k [] := by
        refine ⟨_, List.eq_replicate_iff.mpr ⟨rfl, fun x hx => ?_⟩⟩
        simpa using List.mem_rtakeWhile_imp hx
      have hl : s.splitOn sep = a :: b :: List.replicate k [] := by
        have := List.rdropWhile_append_rtakeWhile (p := List.isEmpty) (l := s.splitOn sep)
        rw [h, hk] at this
        exact this.symm
      have hs : s = a ++ sep :: (b ++ List.replicate k sep) := by
        have : List.intercalate [sep] (s.splitOn sep) = s := List.intercalate_splitOn sep
        rw [hl, List.intercalate_cons_cons, intercalate_replicate_nil] at this
        simpa using this.symm
      exact ⟨hb, not_mem_of_mem_splitOn (by rw [hl]; exact List.mem_cons_self),
        not_mem_of_mem_splitOn (by rw [hl]; exact List.mem_cons_of_mem _ List.mem_cons_self), k, hs⟩
    · cases h
  · rintro ⟨hb, ha, hb', k, rfl⟩
    have hs : a ++ sep :: (b ++ List.replicate k sep) = List.intercalate [sep] (a :: b :: List.replicate k []) := by
      rw [List.intercalate_cons_cons, intercalate_replicate_nil]
      simp
    rw [split, if_pos (by simp), hs, List.splitOn_intercalate sep ?_ (by simp), rdropWhile_pair hb]
    intro l hl
    simp only [List.mem_cons, List.mem_replicate] at hl
    rcases hl with rfl | rfl | ⟨-, rfl⟩
    · exact ha
    · exact hb'
    · exact List.not_mem_nil

theorem findSome?_split {f : List α → Option β} (hf : f [] = none) :
    (split sep s).findSome? f = (s.splitOn sep).findSome? f := by
  unfold split
  split
  · have hnone : ((s.splitOn sep).rtakeWhile List.isEmpty).findSome? f = none := by
      rw [List.findSome?_eq_none_iff]
      intro x hx
      have : x = [] := by simpa using List.mem_rtakeWhile_imp hx
      rw [this, hf]
    conv_rhs => rw [← List.rdropWhile_append_rtakeWhile (p := List.isEmpty) (l := s.splitOn sep)]
    rw [List.findSome?_append, hnone, Option.or_none]
  · rw [List.splitOn_eq_singleton ‹_›]

end Playground.Lib
