/-
  Playground.Lock.Guarded — a Redis lock over the data behind it, in any version.

  The versions differ in what Redis answers and in what goes wrong with a command, not
  in what the commands do: a `SET NX PX` takes the lock, the release script frees it,
  and between them the data are read, written and left alone (`Trade`).
  - `Guarded.excludes`: that is all a critical section asks of a lock.
-/

import Playground.Lib.Section
import Playground.Lock.LockService
import Playground.Redis.Faulty

namespace Playground.Lock

open Playground.Lib Playground.Redis

variable {ι C X χ ε : Type} {A : C → Type}

/-- A command under the lock reads the data, writes them or leaves them alone. `D` does
    the same to the data by themselves. -/
inductive Trade (M : Memory ι C A X χ ε (Strings String String)) (D : Memory ι C A X χ Empty (Option String))
    (data : String) (i : ι) (c : C) (x : χ) : Prop
  | reads (fault : Option (Bool × X)) (answer : Option String → A c) :
    (∀ m, M.exec i c x m = some (faulty fault m (answer (m.get data), m))) →
    (∀ d, D.exec i c x d = some (faulty fault d (answer d, d))) → Trade M D data i c x
  | writes (fault : Option (Bool × X)) (answer : A c) (value : String) :
    (∀ m, M.exec i c x m = some (faulty fault m (answer, m.set data value))) →
    (∀ d, D.exec i c x d = some (faulty fault d (answer, some value))) → Trade M D data i c x
  | rests (r : Except X (A c)) :
    (∀ m, M.exec i c x m = some (r, m)) → (∀ d, D.exec i c x d = some (r, d)) → Trade M D data i c x

/-- The lock is a key that the guard's attempts set to a token, and its frees clear. -/
structure Guarded (M : Memory ι C A X χ ε (Strings String String)) (D : Memory ι C A X χ Empty (Option String))
    (guard : ι → Guard C A X) (inner : C → Prop) (lock data : String) (token : ι → String) : Prop where
  attempt : ∀ i x, ∃ fault px, ∃ answer : Bool → A (guard i).attempt, answer false ≠ answer true ∧
    (∀ m, M.exec i (guard i).attempt x m =
      some (faulty fault m (answer (m.setNxPx lock (token i) px).1, (m.setNxPx lock (token i) px).2))) ∧
    ∀ r, (guard i).takes (guard i).attempt r = true → r = .ok (answer true)
  rest : ∀ i x, ∃ r, ∀ m, M.exec i (guard i).rest x m = some (r, m)
  free : ∀ i x, ∃ fault, ∃ answer : Nat → A (guard i).free, ∀ m, M.exec i (guard i).free x m =
    some (faulty fault m (answer (releaseLockLua m lock (token i)).1, (releaseLockLua m lock (token i)).2))
  inside : ∀ i c x, inner c → Trade M D data i c x
  plain : ∀ i c, inner c → (∀ r, (guard i).takes c r = false) ∧ (guard i).frees c = false

variable {M : Memory ι C A X χ ε (Strings String String)} {D : Memory ι C A X χ Empty (Option String)}
  {guard : ι → Guard C A X} {inner : C → Prop} {lock data : String} {token : ι → String}

/-- Seen from the data, a command under the lock is what it is on the data alone. -/
theorem Trade.inside {i : ι} {c : C} {x : χ} (ht : Trade M D data i c x) (hne : data ≠ lock)
    {m : Strings String String} {rm : Except X (A c) × Strings String String} (hx : M.exec i c x m = some rm) :
    rm.2.get lock = m.get lock ∧ D.exec i c x (m.get data) = some (rm.1, rm.2.get data) := by
  cases ht with
  | reads fault answer hM hD =>
    rw [hM] at hx
    cases hx
    refine ⟨faulty_keeps (f := fun m : Strings String String => m.get lock) rfl, (hD _).trans (congrArg some ?_)⟩
    exact faulty_seen (fun m : Strings String String => m.get data) fault m (answer (m.get data), m)
  | writes fault answer value hM hD =>
    rw [hM] at hx
    cases hx
    refine ⟨faulty_keeps (f := fun m : Strings String String => m.get lock) (Strings.get_set_ne m value hne.symm), ?_⟩
    rw [hD, ← Strings.get_set_same m data value]
    exact congrArg some (faulty_seen (fun m : Strings String String => m.get data) fault m (answer, m.set data value))
  | rests r hM hD =>
    rw [hM] at hx
    cases hx
    exact ⟨rfl, hD _⟩

/-- With a token of its own for every thread, such a lock excludes. -/
theorem Guarded.excludes (h : Guarded M D guard inner lock data token) (htok : Function.Injective token)
    (hne : data ≠ lock) :
    Excludes M D guard inner (fun m : Strings String String => m.get lock) (fun m => m.get data) token where
  distinct := htok
  attempt {i x m rm} hx := by
    obtain ⟨fault, px, answer, hanswer, hM, htakes⟩ := h.attempt i x
    rw [hM] at hx
    cases hx
    refine ⟨faulty_keeps (f := fun m : Strings String String => m.get data) (Strings.get_setNxPx_ne m _ _ hne), ?_, ?_⟩
    · by_cases hm : m.get lock = none
      · exact .inr hm
      · refine .inl (faulty_keeps (f := fun m : Strings String String => m.get lock) ?_)
        rw [Strings.setNxPx_denied m _ _ _ hm]
    · intro htook
      obtain ⟨hanswered, hafter⟩ := faulty_ok (htakes _ htook)
      have hm : m.get lock = none := by
        refine (Strings.setNxPx_fst m lock (token i) px).mp ?_
        cases hr : (m.setNxPx lock (token i) px).1 with
        | true => rfl
        | false =>
          rw [hr] at hanswered
          exact absurd hanswered hanswer
      refine ⟨hm, ?_⟩
      rw [hafter, Strings.get_setNxPx_same, if_pos hm]
  rest {i x m rm} hx := by
    obtain ⟨r, hM⟩ := h.rest i x
    rw [hM] at hx
    cases hx
    exact ⟨rfl, rfl⟩
  free {i x m rm} hx := by
    obtain ⟨fault, answer, hM⟩ := h.free i x
    rw [hM] at hx
    cases hx
    exact faulty_keeps (f := fun m : Strings String String => m.get data) (get_releaseLockLua_ne m (token i) hne)
  inside {i c x m rm} hc hx := (h.inside i c x hc).inside hne hx
  plain {i c} hc := h.plain i c hc

end Playground.Lock
