/-
  Playground.Lib.Solo — a program run by itself: how it ends, construct by construct.

  `Ends` is the outcome of `Co.alone` as a relation with one rule for each way to
  build a program: an exception passes over what follows it, a handler takes it, a
  `finally` runs on either way out, and a loop over a list ends at the first element
  whose body raises. A memory run from a script (`Memory.scripted`) draws each command's
  chance from a list, so one program can meet a different chance at every step.
-/

import Playground.Lib.Coroutine

namespace Playground.Lib

/-- `for e in l: body e`. -/
def Co.forEach {C X β : Type} {A : C → Type} (body : β → Co C A X Unit) : List β → Co C A X Unit
  | [] => .ret ()
  | e :: l => (body e).bind fun _ => forEach body l

/-- The memory that draws its chances from a list, one for each command. -/
def Memory.scripted {ι C X χ ε σ : Type} {A : C → Type} (M : Memory ι C A X χ ε σ) :
    Memory ι C A X Unit ε (σ × List χ) where
  exec i c _ m :=
    match m.2 with
    | [] => none
    | x :: script => (M.exec i c x m.1).map fun rm => (rm.1, rm.2, script)
  env e m := (M.env e m.1).map fun m' => (m', m.2)

section Scripted

variable {ι C X χ ε σ : Type} {A : C → Type} {M : Memory ι C A X χ ε σ} {i : ι} {c : C} {x : χ} {m : σ}
  {script : List χ}

theorem scripted_exec {r : Except X (A c)} {m' : σ} (h : M.exec i c x m = some (r, m')) :
    M.scripted.exec i c () (m, x :: script) = some (r, m', script) := by
  simp only [Memory.scripted, h, Option.map_some]

end Scripted

namespace Co

variable {ι C X α β χ ε σ : Type} {A : C → Type} (M : Memory ι C A X χ ε σ) (i : ι) (pick : C → χ)

/-- Run by itself from memory `m`, the program ends with outcome `r` and leaves `m'`. -/
def Ends (p : Co C A X α) (m : σ) (r : Except X α) (m' : σ) : Prop :=
  ∃ cs, p.alone M i pick m = some (r, m', cs)

variable {M i pick} {p : Co C A X α} {m m' m'' : σ} {r r' : Except X α}

/-- A program has one end. -/
theorem Ends.unique {m₁ m₂ : σ} (h₁ : p.Ends M i pick m r m₁) (h₂ : p.Ends M i pick m r' m₂) : r = r' ∧ m₁ = m₂ := by
  obtain ⟨cs₁, h₁⟩ := h₁
  obtain ⟨cs₂, h₂⟩ := h₂
  cases h₁.symm.trans h₂
  exact ⟨rfl, rfl⟩

theorem ends_ret (a : α) : (Co.ret a : Co C A X α).Ends M i pick m (.ok a) m := ⟨[], rfl⟩

theorem ends_raise (x : X) : (Co.raise x : Co C A X α).Ends M i pick m (.error x) m := ⟨[], rfl⟩

theorem ends_resume (r : Except X α) : (resume r : Co C A X α).Ends M i pick m r m := by
  cases r with
  | ok a => exact ends_ret a
  | error x => exact ends_raise x

theorem ends_cmd {c : C} {k : Except X (A c) → Co C A X α} {o : Except X (A c)}
    (hx : M.exec i c (pick c) m = some (o, m')) (hk : (k o).Ends M i pick m' r m'') :
    (Co.cmd c k).Ends M i pick m r m'' := by
  obtain ⟨cs, hk⟩ := hk
  refine ⟨c :: cs, ?_⟩
  simp only [alone, hx, Option.bind_some, hk, Option.map_some]

/-- What a command does that a program ends after. -/
theorem Ends.of_cmd {c : C} {k : Except X (A c) → Co C A X α} (h : (Co.cmd c k).Ends M i pick m r m'') :
    ∃ o m', M.exec i c (pick c) m = some (o, m') ∧ (k o).Ends M i pick m' r m'' := by
  obtain ⟨cs, h⟩ := h
  simp only [alone, Option.bind_eq_some_iff, Option.map_eq_some_iff] at h
  obtain ⟨rm, hx, ⟨r₁, m₁, cs₁⟩, hk, heq⟩ := h
  cases heq
  exact ⟨rm.1, rm.2, hx, cs₁, hk⟩

theorem ends_await {c : C} {o : Except X (A c)} (hx : M.exec i c (pick c) m = some (o, m')) :
    (await c : Co C A X (A c)).Ends M i pick m o m' := ends_cmd hx (ends_resume o)

theorem Ends.bind {f : α → Co C A X β} {a : α} {t : Except X β} (hp : p.Ends M i pick m (.ok a) m')
    (hf : (f a).Ends M i pick m' t m'') : (p.bind f).Ends M i pick m t m'' := by
  induction p generalizing m with
  | ret b =>
    obtain ⟨cs, hp⟩ := hp
    cases hp
    exact hf
  | raise x =>
    obtain ⟨cs, hp⟩ := hp
    cases hp
  | cmd c k ih =>
    obtain ⟨o, m₁, hx, hk⟩ := hp.of_cmd
    exact ends_cmd hx (ih o hk)

/-- An exception passes over what follows. -/
theorem Ends.bind_error {x : X} (f : α → Co C A X β) (hp : p.Ends M i pick m (.error x) m') :
    (p.bind f).Ends M i pick m (.error x) m' := by
  induction p generalizing m with
  | ret b =>
    obtain ⟨cs, hp⟩ := hp
    cases hp
  | raise y =>
    obtain ⟨cs, hp⟩ := hp
    cases hp
    exact ends_raise x
  | cmd c k ih =>
    obtain ⟨o, m₁, hx, hk⟩ := hp.of_cmd
    exact ends_cmd hx (ih o hk)

theorem Ends.handle {a : α} (h : X → Co C A X α) (hp : p.Ends M i pick m (.ok a) m') :
    (p.handle h).Ends M i pick m (.ok a) m' := by
  induction p generalizing m with
  | ret b => exact hp
  | raise x =>
    obtain ⟨cs, hp⟩ := hp
    cases hp
  | cmd c k ih =>
    obtain ⟨o, m₁, hx, hk⟩ := hp.of_cmd
    exact ends_cmd hx (ih o hk)

/-- The handler goes on from where the exception was raised. -/
theorem Ends.handle_error {h : X → Co C A X α} {x : X} (hp : p.Ends M i pick m (.error x) m')
    (hh : (h x).Ends M i pick m' r m'') : (p.handle h).Ends M i pick m r m'' := by
  induction p generalizing m with
  | ret b =>
    obtain ⟨cs, hp⟩ := hp
    cases hp
  | raise y =>
    obtain ⟨cs, hp⟩ := hp
    cases hp
    exact hh
  | cmd c k ih =>
    obtain ⟨o, m₁, hx, hk⟩ := hp.of_cmd
    exact ends_cmd hx (ih o hk)

/-- A `finally` that does not raise leaves the outcome as it is. -/
theorem Ends.andFinally {f : Co C A X Unit} (hp : p.Ends M i pick m r m') (hf : f.Ends M i pick m' (.ok ()) m'') :
    (p.andFinally f).Ends M i pick m r m'' := by
  induction p generalizing m with
  | ret b =>
    obtain ⟨cs, hp⟩ := hp
    cases hp
    exact hf.bind (ends_ret b)
  | raise x =>
    obtain ⟨cs, hp⟩ := hp
    cases hp
    exact hf.bind (ends_raise x)
  | cmd c k ih =>
    obtain ⟨o, m₁, hx, hk⟩ := hp.of_cmd
    exact ends_cmd hx (ih o hk)

/-- A `finally` that raises replaces the outcome. -/
theorem Ends.andFinally_error {f : Co C A X Unit} {x : X} (hp : p.Ends M i pick m r m')
    (hf : f.Ends M i pick m' (.error x) m'') : (p.andFinally f).Ends M i pick m (.error x) m'' := by
  induction p generalizing m with
  | ret b =>
    obtain ⟨cs, hp⟩ := hp
    cases hp
    exact hf.bind_error _
  | raise y =>
    obtain ⟨cs, hp⟩ := hp
    cases hp
    exact hf.bind_error _
  | cmd c k ih =>
    obtain ⟨o, m₁, hx, hk⟩ := hp.of_cmd
    exact ends_cmd hx (ih o hk)

/-! ## Loops -/

variable {body : β → Co C A X Unit} {e : β} {l : List β} {t : Except X Unit}

theorem ends_forEach_nil : (forEach body []).Ends M i pick m (.ok ()) m := ends_ret ()

theorem ends_forEach_cons (he : (body e).Ends M i pick m (.ok ()) m') (hl : (forEach body l).Ends M i pick m' t m'') :
    (forEach body (e :: l)).Ends M i pick m t m'' := he.bind hl

/-- The loop ends at the first element whose body raises. -/
theorem ends_forEach_error {x : X} (he : (body e).Ends M i pick m (.error x) m') :
    (forEach body (e :: l)).Ends M i pick m (.error x) m' := he.bind_error _

end Co

end Playground.Lib
