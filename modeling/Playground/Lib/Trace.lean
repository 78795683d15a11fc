/-
  Playground.Lib.Trace — what a program asks and is given, from its start to its end.

  A `Trace` is one way for a program to end: the commands that it ran, each with the
  outcome it had, whatever memory that is from.
  - `trace_of_reach`: a thread that has ended among others has run a trace of its
    program, and that is its part of the log.
-/

import Playground.Lib.Contract

namespace Playground.Lib

/-- A command with its outcome. -/
abbrev Asked (C : Type) (A : C → Type) (X : Type) := (c : C) × Except X (A c)

namespace Co

variable {C X α β : Type} {A : C → Type}

/-- Having run these commands the program ends so. -/
inductive Trace : Co C A X α → List (Asked C A X) → Except X α → Prop
  | ret (a : α) : Trace (.ret a) [] (.ok a)
  | raise (x : X) : Trace (.raise x) [] (.error x)
  | cmd {c : C} {k : Except X (A c) → Co C A X α} {o : Except X (A c)} {asked : List (Asked C A X)} {r : Except X α} :
    Trace (k o) asked r → Trace (.cmd c k) (⟨c, o⟩ :: asked) r

variable {p : Co C A X α} {asked : List (Asked C A X)}

theorem trace_resume (r : Except X α) : (resume r : Co C A X α).Trace [] r := by
  cases r with
  | ok a => exact .ret a
  | error x => exact .raise x

/-- The trace of a sequence: of its first program, and of the second if there is one. -/
theorem Trace.of_bind {f : α → Co C A X β} {r : Except X β} (h : (p.bind f).Trace asked r) :
    (∃ a first rest, p.Trace first (.ok a) ∧ (f a).Trace rest r ∧ asked = first ++ rest) ∨
      ∃ x, p.Trace asked (.error x) ∧ r = .error x := by
  induction p generalizing asked with
  | ret a => exact .inl ⟨a, [], asked, .ret a, h, rfl⟩
  | raise x =>
    cases h
    exact .inr ⟨x, .raise x, rfl⟩
  | cmd c k ih =>
    cases h with
    | cmd h =>
    rcases ih _ h with ⟨a, first, rest, hp, hf, rfl⟩ | ⟨x, hp, hr⟩
    · exact .inl ⟨a, _ :: first, rest, .cmd hp, hf, rfl⟩
    · exact .inr ⟨x, .cmd hp, hr⟩

/-- The trace of a `try`: of its program, and of the handler of what that raises. -/
theorem Trace.of_handle {f : X → Co C A X α} {r : Except X α} (h : (p.handle f).Trace asked r) :
    (∃ a, p.Trace asked (.ok a) ∧ r = .ok a) ∨
      ∃ x first rest, p.Trace first (.error x) ∧ (f x).Trace rest r ∧ asked = first ++ rest := by
  induction p generalizing asked with
  | ret a =>
    cases h
    exact .inl ⟨a, .ret a, rfl⟩
  | raise x => exact .inr ⟨x, [], asked, .raise x, h, rfl⟩
  | cmd c k ih =>
    cases h with
    | cmd h =>
    rcases ih _ h with ⟨a, hp, hr⟩ | ⟨x, first, rest, hp, hf, rfl⟩
    · exact .inl ⟨a, .cmd hp, hr⟩
    · exact .inr ⟨x, _ :: first, rest, .cmd hp, hf, rfl⟩

/-- A program that is given what its contract promises comes to its postcondition. -/
theorem Keeps.trace {k : Contract C A X} {q : Except X α → Prop} {r : Except X α} (hk : p.Keeps k q)
    (h : p.Trace asked r) (hg : ∀ step ∈ asked, k.gives step.1 step.2) : q r := by
  induction h with
  | ret a => exact hk
  | raise x => exact hk
  | cmd _ ih =>
    rw [List.forall_mem_cons] at hg
    exact ih (hk.2 _ hg.1) hg.2

end Co

section Threads

variable {ι C X α χ ε σ : Type} {A : C → Type} [DecidableEq ι]

def askedBy (i : ι) : Entry ι C A X ε → Option (Asked C A X)
  | .did j c r => if j = i then some ⟨c, r⟩ else none
  | .world _ => none

/-- The thread's part of the log. -/
def asked (i : ι) (log : List (Entry ι C A X ε)) : List (Asked C A X) := log.filterMap (askedBy i)

theorem mem_asked {i : ι} {log : List (Entry ι C A X ε)} {c : C} {r : Except X (A c)} :
    ⟨c, r⟩ ∈ asked i log ↔ .did i c r ∈ log := by
  rw [asked, List.mem_filterMap]
  constructor
  · rintro ⟨e, he, hby⟩
    cases e with
    | world e => cases hby
    | did j d o =>
      by_cases hj : j = i
      · rw [askedBy, if_pos hj] at hby
        cases hby
        exact hj ▸ he
      · rw [askedBy, if_neg hj] at hby
        cases hby
  · exact fun h => ⟨_, h, if_pos rfl⟩

variable {M : Memory ι C A X χ ε σ} {ok : Threads ι C A X α ε σ → Ev ι χ ε → Prop} {s : Threads ι C A X α ε σ}
  {m : σ} {p : ι → Co C A X α} {i : ι}

/-- What a thread has asked, and any way for it to go on, is a trace of its program. -/
theorem trace_of_rest (h : (threads M).Reach ok (start m p) s) {rest : List (Asked C A X)} {r : Except X α}
    (hr : (s.thr i).Trace rest r) : (p i).Trace (asked i s.log ++ rest) r := by
  revert rest r
  refine h.invariant (P := fun s => ∀ {rest r}, (s.thr i).Trace rest r → (p i).Trace (asked i s.log ++ rest) r) id ?_
  intro s e s' hrest _ hs rest r hr
  cases e with
  | run j x =>
    obtain ⟨c, k, rm, hj, -, rfl⟩ := threads_run hs
    rw [asked, List.filterMap_append, filterMap_one, ← asked]
    change (Function.update s.thr j (k rm.1) i).Trace rest r at hr
    by_cases hji : j = i
    · subst hji
      rw [Function.update_self] at hr
      have hnext : (s.thr j).Trace (⟨c, rm.1⟩ :: rest) r := by
        rw [hj]
        exact .cmd hr
      simpa [askedBy] using hrest hnext
    · rw [Function.update_of_ne (Ne.symm hji)] at hr
      simpa [askedBy, hji] using hrest hr
  | env e =>
    obtain ⟨m, -, rfl⟩ := threads_env hs
    rw [asked, List.filterMap_append, filterMap_one, ← asked]
    simpa [askedBy] using hrest hr

theorem trace_of_reach (h : (threads M).Reach ok (start m p) s) {r : Except X α} (hi : s.thr i = Co.resume r) :
    (p i).Trace (asked i s.log) r := by
  have hend : (s.thr i).Trace [] r := by
    rw [hi]
    exact Co.trace_resume r
  simpa using trace_of_rest h hend

end Threads

end Playground.Lib
