/-
  Playground.Lib.Round — threads that take a step each.

  In a round every thread of a list runs the command that it awaits, one after another.
-/

import Mathlib.Data.List.Nodup
import Playground.Lib.Coroutine

namespace Playground.Lib

variable {ι C X α χ ε σ : Type} {A : C → Type} [DecidableEq ι] {M : Memory ι C A X χ ε σ} {s : Threads ι C A X α ε σ}

/-- The thread can run its command from every memory that meets `inv`, which it leaves
    met, and goes on as `q`. -/
def Turns (M : Memory ι C A X χ ε σ) (inv : σ → Prop) (i : ι) (p q : Co C A X α) : Prop :=
  ∃ c k x o, p = .cmd c k ∧ k o = q ∧ ∀ m, inv m → ∃ m', M.exec i c x m = some (o, m') ∧ inv m'

theorem threads_round (inv : σ → Prop) (q : ι → Co C A X α) {l : List ι} (hl : l.Nodup) (hinv : inv s.mem)
    (h : ∀ i ∈ l, Turns M inv i (s.thr i) (q i)) :
    ∃ s', (threads M).Reach Machine.any s s' ∧ inv s'.mem ∧ (∀ i ∈ l, s'.thr i = q i) ∧
      ∀ i ∉ l, s'.thr i = s.thr i := by
  induction l generalizing s with
  | nil => exact ⟨s, .init, hinv, nofun, fun _ _ => rfl⟩
  | cons j l ih =>
    rw [List.nodup_cons] at hl
    obtain ⟨c, k, x, o, hj, hk, hexec⟩ := h j List.mem_cons_self
    obtain ⟨m, hx, hm⟩ := hexec s.mem hinv
    let s₁ : Threads ι C A X α ε σ := ⟨m, Function.update s.thr j (q j), s.log ++ [.did j c o]⟩
    have hstep : (threads M).step s (.run j x) = some s₁ := by simp only [threads, hj, hx, Option.map_some, hk, s₁]
    have hsame : ∀ i, i ≠ j → s₁.thr i = s.thr i := fun i hi => Function.update_of_ne hi ..
    obtain ⟨s', hreach, hinv', hdone, hrest⟩ := ih (s := s₁) hl.2 hm fun i hi => by
      rw [hsame i fun e => hl.1 (e ▸ hi)]
      exact h i (List.mem_cons_of_mem j hi)
    refine ⟨s', (Machine.Reach.step _ .init trivial hstep).trans hreach, hinv', fun i hi => ?_, fun i hi => ?_⟩
    · rcases List.mem_cons.mp hi with rfl | hi
      · exact (hrest i hl.1).trans (Function.update_self ..)
      · exact hdone i hi
    · rw [List.mem_cons, not_or] at hi
      exact (hrest i hi.2).trans (hsame i hi.1)

end Playground.Lib
