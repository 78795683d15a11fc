/-
  Playground.Lib.Lease — a lease that one owner at a time holds, and what its
  histories allow.

  A lease is granted only while it is free, is freed only by the owner that holds it,
  and may lapse at any moment while it is held. Attempts that change nothing are in
  the history too: a denied request, and a release that came from somebody else.

  For any history:
  - `granted_kept`: after a grant, as long as nothing ended it, the owner holds the
    lease and nobody else was granted it.
  - `ended_gone`: once the lease lapsed or was freed, an owner that is not granted it
    again never holds it.
  - `frees_le_grants`: an owner frees it at most as often as it was granted it.
-/

import Playground.Lib.Machine

namespace Playground.Lib.Lease

open Machine

variable {O : Type} [DecidableEq O]

inductive Ev (O : Type) where
  | grant (o : O)
  | deny (o : O)
  | free (o : O)
  | keep (o : O)
  | lapse
  deriving DecidableEq, Repr

/-- The state is who holds the lease. -/
def step : Option O → Ev O → Option (Option O)
  | none, .grant o => some (some o)
  | some p, .deny _ => some (some p)
  | some p, .free o => if p = o then some none else none
  | h, .keep o => if h = some o then none else some h
  | some _, .lapse => some none
  | _, _ => none

def lease : Machine (Option O) (Ev O) := ⟨step⟩

/-- What each event needs and leaves. -/
theorem step_cases {h h' : Option O} {e : Ev O} (hs : lease.step h e = some h') :
    (∃ o, e = .grant o ∧ h = none ∧ h' = some o) ∨ (∃ o p, e = .deny o ∧ h = some p ∧ h' = some p) ∨
      (∃ o, e = .free o ∧ h = some o ∧ h' = none) ∨ (∃ o, e = .keep o ∧ h ≠ some o ∧ h' = h) ∨
      (∃ o, e = .lapse ∧ h = some o ∧ h' = none) := by
  cases e with
  | grant o =>
    cases h with
    | none => cases hs; exact Or.inl ⟨o, rfl, rfl, rfl⟩
    | some p => cases hs
  | deny o =>
    cases h with
    | none => cases hs
    | some p => cases hs; exact Or.inr (Or.inl ⟨o, p, rfl, rfl, rfl⟩)
  | free o =>
    cases h with
    | none => cases hs
    | some p =>
      simp only [lease, step, Option.ite_none_right_eq_some, Option.some.injEq] at hs
      obtain ⟨rfl, rfl⟩ := hs
      exact Or.inr (Or.inr (Or.inl ⟨p, rfl, rfl, rfl⟩))
  | keep o =>
    simp only [lease, step, Option.ite_none_left_eq_some, Option.some.injEq] at hs
    obtain ⟨hn, rfl⟩ := hs
    exact Or.inr (Or.inr (Or.inr (Or.inl ⟨o, rfl, hn, rfl⟩)))
  | lapse =>
    cases h with
    | none => cases hs
    | some p => cases hs; exact Or.inr (Or.inr (Or.inr (Or.inr ⟨p, rfl, rfl, rfl⟩)))

theorem run_cons {h h' : Option O} {e : Ev O} {es : List (Ev O)} (hr : lease.run h (e :: es) = some h') :
    ∃ g, lease.step h e = some g ∧ lease.run g es = some h' := by
  simpa [run, Option.bind_eq_some_iff] using hr

theorem run_append_some {h h' : Option O} {es fs : List (Ev O)} (hr : lease.run h (es ++ fs) = some h') :
    ∃ g, lease.run h es = some g ∧ lease.run g fs = some h' := by
  simpa [run_append, Option.bind_eq_some_iff] using hr

/-- While nothing ends `o`'s hold, `o` holds and nobody is granted the lease. -/
theorem held_kept {o : O} {h' : Option O} : ∀ {es : List (Ev O)}, lease.run (some o) es = some h' →
    .lapse ∉ es → .free o ∉ es → h' = some o ∧ ∀ p, .grant p ∉ es
  | [], hr, _, _ => by cases hr; exact ⟨rfl, fun _ h => by cases h⟩
  | e :: es, hr, hl, hf => by
    obtain ⟨g, hs, hr⟩ := run_cons hr
    have hes : g = some o → h' = some o ∧ ∀ p, .grant p ∉ es := fun hg =>
      held_kept (hg ▸ hr) (fun h => hl (List.mem_cons_of_mem _ h)) (fun h => hf (List.mem_cons_of_mem _ h))
    rcases step_cases hs with ⟨p, rfl, h, -⟩ | ⟨p, q, rfl, h, hg⟩ | ⟨p, rfl, h, -⟩ | ⟨p, rfl, -, hg⟩ | ⟨p, rfl, -, -⟩
    · cases h
    · obtain ⟨h1, h2⟩ := hes (hg.trans h.symm)
      exact ⟨h1, fun r hr => (List.mem_cons.mp hr).elim (fun e => by cases e) (h2 r)⟩
    · cases h; exact absurd (List.mem_cons_self ..) hf
    · obtain ⟨h1, h2⟩ := hes hg
      exact ⟨h1, fun r hr => (List.mem_cons.mp hr).elim (fun e => by cases e) (h2 r)⟩
    · exact absurd (List.mem_cons_self ..) hl

/-- After `o` was granted the lease and until it lapses or `o` frees it, `o` holds it
    and nobody is granted it. -/
theorem granted_kept {o : O} {h h' : Option O} {es fs : List (Ev O)}
    (hr : lease.run h (es ++ .grant o :: fs) = some h') (hl : .lapse ∉ fs) (hf : .free o ∉ fs) :
    h' = some o ∧ ∀ p, .grant p ∉ fs := by
  obtain ⟨g, -, hr⟩ := run_append_some hr
  obtain ⟨g', hs, hr⟩ := run_cons hr
  have hg' : g' = some o := by
    rcases step_cases hs with ⟨p, h, -, hg⟩ | ⟨p, q, h, -⟩ | ⟨p, h, -⟩ | ⟨p, h, -⟩ | ⟨p, h, -⟩ <;> cases h
    exact hg
  exact held_kept (hg' ▸ hr) hl hf

/-- Who does not hold the lease and is not granted it never holds it. -/
theorem not_held_stays {o : O} {h h' : Option O} : ∀ {es : List (Ev O)}, lease.run h es = some h' →
    h ≠ some o → .grant o ∉ es → h' ≠ some o
  | [], hr, hn, _ => by cases hr; exact hn
  | e :: es, hr, hn, hg => by
    obtain ⟨g, hs, hr⟩ := run_cons hr
    refine not_held_stays hr ?_ fun h => hg (List.mem_cons_of_mem _ h)
    rcases step_cases hs with ⟨p, rfl, -, rfl⟩ | ⟨p, q, rfl, h, rfl⟩ | ⟨p, rfl, -, rfl⟩ | ⟨p, rfl, -, rfl⟩ |
      ⟨p, rfl, -, rfl⟩
    · intro h; cases h; exact hg (List.mem_cons_self ..)
    · rw [← h]; exact hn
    · simp
    · exact hn
    · simp

/-- Once the lease lapsed or `o` freed it, `o` does not hold it until it is granted it
    again. -/
theorem ended_gone {o : O} {h h' : Option O} : ∀ {es : List (Ev O)}, lease.run h es = some h' →
    .lapse ∈ es ∨ .free o ∈ es → .grant o ∉ es → h' ≠ some o
  | [], _, he, _ => by rcases he with he | he <;> cases he
  | e :: es, hr, he, hg => by
    obtain ⟨g, hs, hr⟩ := run_cons hr
    have hg' : .grant o ∉ es := fun h => hg (List.mem_cons_of_mem _ h)
    by_cases hrest : .lapse ∈ es ∨ .free o ∈ es
    · exact ended_gone hr hrest hg'
    -- the first event is the one that ends it
    have hgn : g = none := by
      rcases step_cases hs with ⟨p, rfl, -⟩ | ⟨p, q, rfl, -⟩ | ⟨p, rfl, -, rfl⟩ | ⟨p, rfl, -⟩ | ⟨p, rfl, -, rfl⟩
      · simp_all
      · simp_all
      · rfl
      · simp_all
      · rfl
    exact not_held_stays hr (by simp [hgn]) hg'

/-- Each grant pays for one free. -/
theorem frees_add_le {o : O} {h h' : Option O} : ∀ {es : List (Ev O)}, lease.run h es = some h' →
    es.count (.free o) + (if h' = some o then 1 else 0) ≤ es.count (.grant o) + (if h = some o then 1 else 0)
  | [], hr => by cases hr; simp
  | e :: es, hr => by
    obtain ⟨g, hs, hr⟩ := run_cons hr
    have ih := frees_add_le (o := o) hr
    rcases step_cases hs with ⟨p, rfl, rfl, rfl⟩ | ⟨p, q, rfl, rfl, rfl⟩ | ⟨p, rfl, rfl, rfl⟩ | ⟨p, rfl, -, rfl⟩ |
      ⟨p, rfl, rfl, rfl⟩ <;> simp [List.count_cons] at ih ⊢ <;> split at ih <;> simp_all <;> omega

theorem frees_le_grants {o : O} {h h' : Option O} {es : List (Ev O)} (hr : lease.run h es = some h')
    (hh : h ≠ some o) : es.count (.free o) ≤ es.count (.grant o) := by
  have := frees_add_le (o := o) hr
  rw [if_neg hh] at this
  omega

end Playground.Lib.Lease
