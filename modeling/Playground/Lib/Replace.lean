/-
  Playground.Lib.Replace — a pattern taken out of a text.

  Replacing a pattern by nothing drops its occurrences from left to right, none of them
  overlapping another: every one of them (`removeAll`), or the first (`removeFirst`).

  - `removeFirst_append`: one removal undoes a prefix.
  - `removeAll_append`: so does removing all, but for what it removes from the rest.
  - `removeAll_eq_self`: which is nothing just when the pattern is not in there.
  - `removeAll_eq_iff`: what a text without the pattern can be left of, for a pattern that
    cannot overlap itself.
-/

import Mathlib.Data.List.Infix

namespace Playground.Lib

variable {α : Type} [DecidableEq α]

/-- Drop the next `skip` letters, and every occurrence of `p` after them. -/
def removeFrom (p : List α) : Nat → List α → List α
  | _, [] => []
  | skip + 1, _ :: s => removeFrom p skip s
  | 0, x :: s => if p ≠ [] ∧ p <+: x :: s then removeFrom p (p.length - 1) s else x :: removeFrom p 0 s

def removeAll (p s : List α) : List α := removeFrom p 0 s

def removeFirst (p : List α) : List α → List α
  | [] => []
  | x :: s => if p <+: x :: s then (x :: s).drop p.length else x :: removeFirst p s

variable {p s : List α}

theorem removeFrom_skip (skip : Nat) : removeFrom p skip s = removeAll p (s.drop skip) := by
  induction skip generalizing s with
  | zero => rfl
  | succ skip ih =>
    cases s with
    | nil => rfl
    | cons x s => exact ih

theorem removeAll_cons_front {x : α} (hp : p ≠ []) (h : p <+: x :: s) :
    removeAll p (x :: s) = removeAll p (s.drop (p.length - 1)) := by
  rw [← removeFrom_skip, removeAll, removeFrom, if_pos ⟨hp, h⟩]

theorem removeAll_cons {x : α} (h : ¬ p <+: x :: s) : removeAll p (x :: s) = x :: removeAll p s := by
  rw [removeAll, removeFrom, if_neg fun hp => h hp.2]
  rfl

theorem removeFrom_length_le (skip : Nat) (s : List α) : (removeFrom p skip s).length ≤ s.length := by
  induction s generalizing skip with
  | nil => exact Nat.le_refl _
  | cons x s ih =>
    cases skip with
    | succ skip => exact Nat.le_succ_of_le (ih skip)
    | zero =>
      rw [removeFrom]
      split
      · exact Nat.le_succ_of_le (ih _)
      · exact Nat.succ_le_succ (ih 0)

/-- A pattern in front goes, whatever is left of the rest. -/
theorem removeAll_append (hp : p ≠ []) (s : List α) : removeAll p (p ++ s) = removeAll p s := by
  cases p with
  | nil => exact absurd rfl hp
  | cons a q =>
    have hfront : a :: q <+: a :: (q ++ s) := List.prefix_append (a :: q) s
    rw [List.cons_append, removeAll_cons_front hp hfront, List.length_cons, Nat.add_sub_cancel,
      List.drop_left]

/-- Nothing is removed just when the pattern does not occur. -/
theorem removeAll_eq_self (hp : p ≠ []) : removeAll p s = s ↔ ¬ p <:+: s := by
  induction s with
  | nil =>
    have hnil : ¬ p <:+: [] := fun h => hp (List.infix_nil.mp h)
    exact ⟨fun _ => hnil, fun _ => rfl⟩
  | cons x s ih =>
    rw [List.infix_cons_iff, not_or]
    by_cases h : p <+: x :: s
    · have hshort : (removeAll p (x :: s)).length ≤ s.length := by
        rw [removeAll_cons_front hp h]
        exact Nat.le_trans (removeFrom_length_le 0 _) (List.drop_sublist ..).length_le
      constructor
      · intro he
        rw [he, List.length_cons] at hshort
        omega
      · exact fun hn => absurd h hn.1
    · rw [removeAll_cons h, List.cons_inj_right, ih]
      exact ⟨fun hn => ⟨h, hn⟩, fun hn => hn.2⟩

/-- Removing the first occurrence takes a pattern from in front. -/
theorem removeFirst_append (p s : List α) : removeFirst p (p ++ s) = s := by
  cases hps : p ++ s with
  | nil => exact (List.append_eq_nil_iff.mp hps).2.symm
  | cons x rest =>
    have hfront : p <+: x :: rest := hps ▸ List.prefix_append p s
    rw [removeFirst, if_pos hfront, ← hps, List.drop_left]

/-! ## Where a text comes from -/

variable {t : List α}

/-- `t` is `s` with `p` put in between its letters, any number of times. -/
inductive Inserted (p : List α) : List α → List α → Prop
  | nil : Inserted p [] []
  | cons (x : α) {s t : List α} : Inserted p s t → Inserted p (x :: s) (x :: t)
  | put {s t : List α} : Inserted p s t → Inserted p s (p ++ t)

/-- No end of `p` is its beginning, but for the empty one and `p` itself. -/
def Unbordered (p : List α) : Prop := ∀ q ∈ p.tails, q <+: p → q = [] ∨ q = p

instance : Decidable (Unbordered p) := inferInstanceAs (Decidable (∀ q ∈ p.tails, q <+: p → q = [] ∨ q = p))

theorem inserted_removeAll (hp : p ≠ []) (t : List α) : Inserted p (removeAll p t) t := by
  induction hn : t.length using Nat.strong_induction_on generalizing t with
  | _ n ih =>
    cases t with
    | nil => exact .nil
    | cons x t =>
      by_cases h : p <+: x :: t
      · obtain ⟨rest, hrest⟩ := h
        have hpos := List.length_pos_iff.mpr hp
        have hlen := congrArg List.length hrest
        rw [List.length_append] at hlen
        rw [← hrest, removeAll_append hp]
        exact .put (ih rest.length (by omega) rest rfl)
      · rw [removeAll_cons h]
        rw [List.length_cons] at hn
        exact .cons x (ih t.length (by omega) t rfl)

omit [DecidableEq α] in
/-- A beginning that is the end of a pattern was there before the pattern was put in. -/
theorem Inserted.prefix_of_suffix (h : Inserted p s t) (hp : Unbordered p) {q : List α} (hq : q <:+ p) (hne : q ≠ p)
    (ht : q <+: t) : q <+: s := by
  induction h generalizing q with
  | nil => exact ht
  | cons x _ ih =>
    cases q with
    | nil => exact List.nil_prefix
    | cons y q =>
      obtain ⟨rfl, hrest⟩ := List.cons_prefix_cons.mp ht
      have hq' : q <:+ p := (List.suffix_cons y q).trans hq
      have hlen := hq.length_le
      rw [List.length_cons] at hlen
      refine List.cons_prefix_cons.mpr ⟨rfl, ih hq' ?_ hrest⟩
      rintro rfl
      omega
  | put _ ih =>
    -- it is a beginning of the pattern too
    have hfront : q <+: p := List.prefix_of_prefix_length_le ht (List.prefix_append p _) hq.length_le
    rcases hp q ((List.mem_tails q p).mpr hq) hfront with rfl | rfl
    · exact List.nil_prefix
    · exact absurd rfl hne

theorem Inserted.removed (h : Inserted p s t) (hne : p ≠ []) (hp : Unbordered p) (hs : ¬ p <:+: s) :
    removeAll p t = s := by
  induction h with
  | nil => rfl
  | @cons x s t h ih =>
    rw [List.infix_cons_iff, not_or] at hs
    have hno : ¬ p <+: x :: t := by
      intro hfront
      cases p with
      | nil => exact hne rfl
      | cons y q =>
        obtain ⟨rfl, ht⟩ := List.cons_prefix_cons.mp hfront
        have hq : q <+: s := h.prefix_of_suffix hp (List.suffix_cons y q) List.ne_cons_self ht
        exact hs.1 (List.cons_prefix_cons.mpr ⟨rfl, hq⟩)
    rw [removeAll_cons hno, ih hs.2]
  | put _ ih => rw [removeAll_append hne, ih hs]

/-- A text without the pattern is left of the texts that it is in with the pattern put in. -/
theorem removeAll_eq_iff (hne : p ≠ []) (hp : Unbordered p) (hs : ¬ p <:+: s) :
    removeAll p t = s ↔ Inserted p s t := by
  constructor
  · rintro rfl
    exact inserted_removeAll hne t
  · exact fun h => h.removed hne hp hs

example : removeAll [1, 2] [1, 2, 0, 1, 1, 2, 2] = [0, 1, 2] := by decide

end Playground.Lib
