/-
  Playground.Lib.Contract — what programs ask of memory, and what they are given.

  A `Contract` says which commands may be asked and which outcomes they may have. A
  program keeps it when it asks only what it may, as long as every outcome so far was one
  that may be; what it then comes to is its postcondition.
  - `threads_keep`: over a memory that keeps an invariant under what may be asked, and
    gives then what it may give, threads that each keep the contract keep the invariant
    together, in whatever order they run.
-/

import Playground.Lib.Coroutine

namespace Playground.Lib

structure Contract (C : Type) (A : C → Type) (X : Type) where
  asks : C → Prop
  gives : (c : C) → Except X (A c) → Prop

namespace Co

variable {C X α β : Type} {A : C → Type} {k : Contract C A X} {q q' : Except X α → Prop}

/-- The program asks what it may and comes to what meets `q`. -/
def Keeps (k : Contract C A X) (q : Except X α → Prop) : Co C A X α → Prop
  | .ret a => q (.ok a)
  | .raise x => q (.error x)
  | .cmd c f => k.asks c ∧ ∀ r, k.gives c r → (f r).Keeps k q

theorem keeps_resume {r : Except X α} (h : q r) : (resume r : Co C A X α).Keeps k q := by
  cases r with
  | ok a => exact h
  | error x => exact h

theorem keeps_await {c : C} (h : k.asks c) : (await c : Co C A X (A c)).Keeps k (k.gives c) :=
  ⟨h, fun _ hr => keeps_resume hr⟩

theorem Keeps.mono {p : Co C A X α} (h : p.Keeps k q) (hq : ∀ r, q r → q' r) : p.Keeps k q' := by
  induction p with
  | ret a => exact hq _ h
  | raise x => exact hq _ h
  | cmd c f ih => exact ⟨h.1, fun r hr => ih r (h.2 r hr)⟩

theorem Keeps.bind {q' : Except X β → Prop} {p : Co C A X α} {f : α → Co C A X β} (h : p.Keeps k q)
    (hf : ∀ a, q (.ok a) → (f a).Keeps k q') (hx : ∀ x, q (.error x) → q' (.error x)) : (p.bind f).Keeps k q' := by
  induction p with
  | ret a => exact hf a h
  | raise x => exact hx x h
  | cmd c g ih => exact ⟨h.1, fun r hr => ih r (h.2 r hr)⟩

theorem Keeps.handle {p : Co C A X α} {f : X → Co C A X α} (h : p.Keeps k q) (hok : ∀ a, q (.ok a) → q' (.ok a))
    (hf : ∀ x, q (.error x) → (f x).Keeps k q') : (p.handle f).Keeps k q' := by
  induction p with
  | ret a => exact hok a h
  | raise x => exact hf x h
  | cmd c g ih => exact ⟨h.1, fun r hr => ih r (h.2 r hr)⟩

theorem Keeps.andFinally {qf : Except X Unit → Prop} {p : Co C A X α} {f : Co C A X Unit} (h : p.Keeps k q)
    (hf : f.Keeps k qf) (hx : ∀ x, qf (.error x) → q (.error x)) : (p.andFinally f).Keeps k q := by
  induction p with
  | ret a => exact hf.bind (fun _ _ => h) hx
  | raise x => exact hf.bind (fun _ _ => h) hx
  | cmd c g ih => exact ⟨h.1, fun r hr => ih r (h.2 r hr)⟩

end Co

section Threads

variable {ι C X α χ ε σ : Type} {A : C → Type} [DecidableEq ι] {M : Memory ι C A X χ ε σ}

theorem threads_keep {k : Contract C A X} {q : ι → Except X α → Prop} {inv : σ → Prop}
    {ok : Threads ι C A X α ε σ → Ev ι χ ε → Prop}
    (hexec : ∀ {i c x m rm}, k.asks c → inv m → M.exec i c x m = some rm → k.gives c rm.1 ∧ inv rm.2)
    (henv : ∀ {s e m}, ok s (.env e) → inv s.mem → M.env e s.mem = some m → inv m)
    {m : σ} {p : ι → Co C A X α} (hm : inv m) (hp : ∀ i, (p i).Keeps k (q i)) {s : Threads ι C A X α ε σ}
    (h : (threads M).Reach ok (start m p) s) : inv s.mem ∧ ∀ i, (s.thr i).Keeps k (q i) := by
  refine h.invariant (P := fun s => inv s.mem ∧ ∀ i, (s.thr i).Keeps k (q i)) ⟨hm, hp⟩ ?_
  rintro s e s' ⟨hmem, hthr⟩ hok hs
  cases e with
  | run i x =>
    obtain ⟨c, f, rm, hi, hx, rfl⟩ := threads_run hs
    have hkeeps := hthr i
    rw [hi] at hkeeps
    obtain ⟨hgives, hinv⟩ := hexec hkeeps.1 hmem hx
    refine ⟨hinv, (Function.forall_update_iff s.thr fun j p => p.Keeps k (q j)).mpr ⟨?_, fun j _ => hthr j⟩⟩
    exact hkeeps.2 _ hgives
  | env e =>
    obtain ⟨m, hx, rfl⟩ := threads_env hs
    exact ⟨henv hok hmem hx, hthr⟩

end Threads

end Playground.Lib
