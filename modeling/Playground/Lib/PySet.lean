/-
  Playground.Lib.PySet — a Python set and the iterator over it.

  A set is a table of slots, each free or holding a member, no member twice. Its
  iterator remembers the size the set had when the iteration began and the slot it is
  at; it goes on from that slot as the table is now, and raises when the size is no
  longer the one it remembers. Adding a member may lay the whole table out anew, in any
  order; discarding one frees its slot and moves no other.

  - `add_cases`, `members_discard`, `used_add`, `used_discard`: what a change does.
  - `next_item`, `next_stop`, `next_raised`: what an iterator has still to come to when
    it moves on, stops, or raises.
-/

import Mathlib.Data.List.Nodup
import Mathlib.Data.List.ReduceOption

namespace Playground.Lib

/-- A set as its table of slots. -/
structure PySet (α : Type) where
  slots : List (Option α)
  nodup : slots.reduceOption.Nodup

namespace PySet

variable {α : Type}

def empty : PySet α := ⟨[], List.nodup_nil⟩

/-- The members, in the order of their slots. -/
def members (s : PySet α) : List α := s.slots.reduceOption

/-- `len(s)`. -/
def used (s : PySet α) : Nat := s.members.length

instance : Membership α (PySet α) := ⟨fun s x => x ∈ s.members⟩

theorem members_nodup (s : PySet α) : s.members.Nodup := s.nodup

instance [DecidableEq α] (s : PySet α) (x : α) : Decidable (x ∈ s) := inferInstanceAs (Decidable (x ∈ s.members))

section Change

variable [DecidableEq α]

/-- Free the slot that holds `x`. -/
def free (x : α) (slot : Option α) : Option α := if slot = some x then none else slot

theorem reduceOption_free (x : α) (l : List (Option α)) :
    (l.map (free x)).reduceOption = l.reduceOption.filter (· ≠ x) := by
  induction l with
  | nil => rfl
  | cons a l ih =>
    cases a with
    | none => simpa [free] using ih
    | some y =>
      by_cases e : y = x
      · simpa [free, e] using ih
      · simpa [free, e] using ih

/-- `s.discard(x)`. -/
def discard (s : PySet α) (x : α) : PySet α :=
  ⟨s.slots.map (free x), by rw [reduceOption_free]; exact s.nodup.filter _⟩

/-- `s.add(x)`, which leaves the table `layout`; `none` when the layout does not hold
    the members there are then. -/
def add (s : PySet α) (x : α) (layout : PySet α) : Option (PySet α) :=
  if x ∈ s then some s else if layout.members.Perm (x :: s.members) then some layout else none

variable {s s' layout : PySet α} {x y : α}

theorem members_discard (s : PySet α) (x : α) : (s.discard x).members = s.members.filter (· ≠ x) :=
  reduceOption_free x s.slots

theorem discard_of_not_mem (h : x ∉ s) : s.discard x = s := by
  have hfree : ∀ a ∈ s.slots, free x a = a := by
    intro a ha
    by_cases e : a = some x
    · subst e
      exact absurd (List.reduceOption_mem_iff.mpr ha) h
    · simp [free, e]
  have hmap : s.slots.map (free x) = s.slots := by
    rw [List.map_congr_left hfree, List.map_id']
  cases s
  simpa [discard] using hmap

theorem used_discard (h : x ∈ s) : (s.discard x).used + 1 = s.used := by
  have hp : s.members.filter (· ≠ x) = s.members.erase x := by
    rw [s.members_nodup.erase_eq_filter]
    congr 1
    funext a
    simp [bne, Bool.beq_eq_decide_eq]
  have hpos : 0 < s.members.length := List.length_pos_of_mem h
  rw [used, members_discard, hp, List.length_erase_of_mem h, used]
  omega

theorem add_cases (h : s.add x layout = some s') :
    (x ∈ s ∧ s' = s) ∨ (x ∉ s ∧ s'.members.Perm (x :: s.members)) := by
  simp only [add] at h
  split at h
  · cases h
    exact .inl ⟨‹_›, rfl⟩
  · split at h
    · cases h
      exact .inr ⟨‹_›, ‹_›⟩
    · cases h

theorem used_add (h : s.add x layout = some s') (hx : x ∉ s) : s'.used = s.used + 1 := by
  rcases add_cases h with ⟨hx', -⟩ | ⟨-, hp⟩
  · exact absurd hx' hx
  · rw [used, hp.length_eq, List.length_cons, used]

end Change

/-! ## The iterator -/

/-- The first member in the slots, and the slot after it; `pos` is the first slot's. -/
def scan : List (Option α) → Nat → Option (α × Nat)
  | [], _ => none
  | none :: slots, pos => scan slots (pos + 1)
  | some x :: _, pos => some (x, pos + 1)

/-- The members at or after slot `pos`. -/
def unvisited (s : PySet α) (pos : Nat) : List α := (s.slots.drop pos).reduceOption

/-- What the iterator holds: the size the set had, and the slot it is at. -/
structure Iter where
  used : Nat
  pos : Nat
deriving DecidableEq, Repr

/-- What `next(it)` does. -/
inductive Turn (α : Type) where
  | raised
  | stop
  | item (x : α) (it : Iter)

/-- `iter(s)`. -/
def iter (s : PySet α) : Iter := ⟨s.used, 0⟩

/-- `next(it)` over the set as it is now. -/
def Iter.next (it : Iter) (s : PySet α) : Turn α :=
  if it.used = s.used then
    match scan (s.slots.drop it.pos) it.pos with
    | none => .stop
    | some (x, pos) => .item x ⟨it.used, pos⟩
  else .raised

theorem scan_none {l : List (Option α)} {pos : Nat} (h : scan l pos = none) : l.reduceOption = [] := by
  induction l generalizing pos with
  | nil => rfl
  | cons a l ih =>
    cases a with
    | none => simpa using ih h
    | some x => cases h

theorem scan_some {l : List (Option α)} {pos pos' : Nat} {x : α} (h : scan l pos = some (x, pos')) :
    ∃ k, pos' = pos + k ∧ l.reduceOption = x :: (l.drop k).reduceOption := by
  induction l generalizing pos with
  | nil => cases h
  | cons a l ih =>
    cases a with
    | none =>
      obtain ⟨k, rfl, hk⟩ := ih h
      exact ⟨k + 1, by omega, by simpa using hk⟩
    | some y =>
      cases h
      exact ⟨1, rfl, List.reduceOption_cons_of_some ..⟩

variable {s : PySet α} {it it' : Iter} {x : α}

theorem mem_of_unvisited {pos : Nat} (h : x ∈ s.unvisited pos) : x ∈ s :=
  List.reduceOption_mem_iff.mpr (List.mem_of_mem_drop (List.reduceOption_mem_iff.mp h))

theorem next_raised (h : it.next s = .raised) : it.used ≠ s.used := by
  intro he
  rw [Iter.next, if_pos he] at h
  split at h <;> cases h

/-- An iterator stops when it has nothing to come to. -/
theorem next_stop (h : it.next s = .stop) : it.used = s.used ∧ s.unvisited it.pos = [] := by
  simp only [Iter.next] at h
  split at h
  · split at h
    · exact ⟨‹_›, scan_none ‹_›⟩
    · cases h
  · cases h

/-- An iterator yields the first member it has still to come to. -/
theorem next_item (h : it.next s = .item x it') :
    it.used = s.used ∧ it'.used = it.used ∧ s.unvisited it.pos = x :: s.unvisited it'.pos := by
  simp only [Iter.next] at h
  split at h
  · split at h
    · cases h
    · cases h
      obtain ⟨k, rfl, hk⟩ := scan_some ‹_›
      exact ⟨‹_›, rfl, by rw [unvisited, hk, List.drop_drop, unvisited]⟩
  · cases h

end PySet

end Playground.Lib
