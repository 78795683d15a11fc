/-
  Playground.Lib.Coroutine — programs that await commands, run side by side.

  A `Co` is a program as an event loop or a thread sees it: it returns, raises, or
  awaits a command and goes on with the command's outcome. `threads` runs a family of
  them over one shared memory: at each step one thread's awaited command executes,
  whole, and the thread runs on to its next await; between two steps the world may
  move by itself (a key expires). The log keeps every step in order.

  A `Flow` is a program's flow chart: phases, the program left in each (`code`), and
  what each phase does next (`head`). A family of programs that starts in phases
  behaves as its flow chart does (`Flow.follows`), so invariants are proved over phases
  and hold of the programs.
-/

import Mathlib.Logic.Function.Basic
import Playground.Lib.Machine

namespace Playground.Lib

/-- A program over commands `C` with answers `A` and exceptions `X`. -/
inductive Co (C : Type) (A : C → Type) (X α : Type) where
  | ret (a : α)
  | raise (x : X)
  | cmd (c : C) (k : Except X (A c) → Co C A X α)

namespace Co

variable {C X α β : Type} {A : C → Type}

def bind : Co C A X α → (α → Co C A X β) → Co C A X β
  | .ret a, f => f a
  | .raise x, _ => .raise x
  | .cmd c k, f => .cmd c fun r => (k r).bind f

instance : Monad (Co C A X) where
  pure := .ret
  bind := .bind

/-- Go on with a command's outcome: its answer, or the exception it raised. -/
def resume : Except X α → Co C A X α
  | .ok a => .ret a
  | .error x => .raise x

/-- `await c`. -/
def await (c : C) : Co C A X (A c) := .cmd c resume

/-- `try: p  except ...: h`. -/
def handle : Co C A X α → (X → Co C A X α) → Co C A X α
  | .ret a, _ => .ret a
  | .raise x, h => h x
  | .cmd c k, h => .cmd c fun r => (k r).handle h

/-- `try: p  finally: f`. An exception of `f` replaces the outcome of `p`. -/
def andFinally : Co C A X α → Co C A X Unit → Co C A X α
  | .ret a, f => f.bind fun _ => .ret a
  | .raise x, f => f.bind fun _ => .raise x
  | .cmd c k, f => .cmd c fun r => (k r).andFinally f

@[simp] theorem bind_eq (p : Co C A X α) (f : α → Co C A X β) : p >>= f = p.bind f := rfl
@[simp] theorem pure_eq (a : α) : (pure a : Co C A X α) = .ret a := rfl
@[simp] theorem ret_bind (a : α) (f : α → Co C A X β) : (Co.ret a : Co C A X α).bind f = f a := rfl
@[simp] theorem raise_bind (x : X) (f : α → Co C A X β) : (Co.raise x : Co C A X α).bind f = .raise x := rfl

theorem bind_assoc {γ : Type} (p : Co C A X α) (f : α → Co C A X β) (g : β → Co C A X γ) :
    (p.bind f).bind g = p.bind fun a => (f a).bind g := by
  induction p with
  | ret a => rfl
  | raise x => rfl
  | cmd c k ih => simp only [bind, ih]

/-- Two programs that await the same command and agree on its every outcome. -/
theorem cmd_congr {c : C} {k k' : Except X (A c) → Co C A X α} (hok : ∀ a, k (.ok a) = k' (.ok a))
    (herr : ∀ x, k (.error x) = k' (.error x)) : Co.cmd c k = Co.cmd c k' := by
  congr 1
  funext r
  cases r with
  | ok a => exact hok a
  | error x => exact herr x

/-- The command the program awaits. -/
def next : Co C A X α → Option C
  | .cmd c _ => some c
  | _ => none

theorem next_eq_some {p : Co C A X α} {c : C} : p.next = some c ↔ ∃ k, p = .cmd c k := by
  cases p with
  | ret a => simp [next]
  | raise x => simp [next]
  | cmd d k =>
    simp only [next, Option.some.injEq]
    constructor
    · rintro rfl
      exact ⟨k, rfl⟩
    · rintro ⟨k', hk⟩
      cases hk
      rfl

/-- Every command the program can come to meets `p`. -/
def Only (p : C → Prop) : Co C A X α → Prop
  | .ret _ => True
  | .raise _ => True
  | .cmd c k => p c ∧ ∀ r, (k r).Only p

section Only

variable {p : C → Prop}

theorem only_resume (r : Except X α) : (resume r : Co C A X α).Only p := by
  cases r <;> exact trivial

theorem only_await {c : C} (h : p c) : (await c : Co C A X (A c)).Only p := ⟨h, only_resume⟩

theorem only_bind {q : Co C A X α} {f : α → Co C A X β} (hq : q.Only p) (hf : ∀ a, (f a).Only p) :
    (q.bind f).Only p := by
  induction q with
  | ret a => exact hf a
  | raise x => trivial
  | cmd c k ih => exact ⟨hq.1, fun r => ih r (hq.2 r)⟩

theorem only_andFinally {q : Co C A X α} {f : Co C A X Unit} (hq : q.Only p) (hf : f.Only p) :
    (q.andFinally f).Only p := by
  induction q with
  | ret a => exact only_bind hf fun _ => trivial
  | raise x => exact only_bind hf fun _ => trivial
  | cmd c k ih => exact ⟨hq.1, fun r => ih r (hq.2 r)⟩

end Only

/-- Every way for the program to return goes through a command with a `good` outcome. -/
def Passes (good : (c : C) → Except X (A c) → Prop) : Co C A X α → Prop
  | .ret _ => False
  | .raise _ => True
  | .cmd c k => ∀ r, good c r ∨ (k r).Passes good

section Passes

variable {good : (c : C) → Except X (A c) → Prop}

/-- What follows goes through one. -/
theorem passes_bind {q : Co C A X α} {f : α → Co C A X β} (hf : ∀ a, (f a).Passes good) : (q.bind f).Passes good := by
  induction q with
  | ret a => exact hf a
  | raise x => trivial
  | cmd c k ih => exact fun r => .inr (ih r)

/-- What comes first does. -/
theorem Passes.bind {q : Co C A X α} (hq : q.Passes good) (f : α → Co C A X β) : (q.bind f).Passes good := by
  induction q with
  | ret a => exact hq.elim
  | raise x => trivial
  | cmd c k ih => exact fun r => (hq r).imp_right (ih r)

end Passes

/-- Every value that the program can return meets `q`. -/
def Returns (q : α → Prop) : Co C A X α → Prop
  | .ret a => q a
  | .raise _ => True
  | .cmd _ k => ∀ r, (k r).Returns q

theorem returns_true (p : Co C A X α) : p.Returns fun _ => True := by
  induction p with
  | ret a => trivial
  | raise x => trivial
  | cmd c k ih => exact ih

theorem Returns.bind {p : Co C A X α} {q : α → Prop} {q' : β → Prop} {f : α → Co C A X β} (hp : p.Returns q)
    (hf : ∀ a, q a → (f a).Returns q') : (p.bind f).Returns q' := by
  induction p with
  | ret a => exact hf a hp
  | raise x => trivial
  | cmd c k ih => exact fun r => ih r (hp r)

end Co

/-- A step of a history: thread `i` ran `c` with outcome `r`, or the world moved. -/
inductive Entry (ι C : Type) (A : C → Type) (X ε : Type) where
  | did (i : ι) (c : C) (r : Except X (A c))
  | world (e : ε)

/-- What the shared memory does: `exec i c x m` is thread `i`'s command `c`, with `x`
    whatever the memory does not determine; `none` when it cannot run now. -/
structure Memory (ι C : Type) (A : C → Type) (X χ ε σ : Type) where
  exec : ι → (c : C) → χ → σ → Option (Except X (A c) × σ)
  env : ε → σ → Option σ

inductive Ev (ι χ ε : Type) where
  | run (i : ι) (x : χ)
  | env (e : ε)

structure Threads (ι C : Type) (A : C → Type) (X α ε σ : Type) where
  mem : σ
  thr : ι → Co C A X α
  log : List (Entry ι C A X ε)

section Threads

variable {ι C X α χ ε σ : Type} {A : C → Type} [DecidableEq ι]

def threads (M : Memory ι C A X χ ε σ) : Machine (Threads ι C A X α ε σ) (Ev ι χ ε) where
  step s
    | .run i x =>
      match s.thr i with
      | .cmd c k => (M.exec i c x s.mem).map fun rm =>
          ⟨rm.2, Function.update s.thr i (k rm.1), s.log ++ [.did i c rm.1]⟩
      | _ => none
    | .env e => (M.env e s.mem).map fun m => ⟨m, s.thr, s.log ++ [.world e]⟩

/-- The programs at the start, over memory `m`. -/
def start (m : σ) (thr : ι → Co C A X α) : Threads ι C A X α ε σ := ⟨m, thr, []⟩

variable {M : Memory ι C A X χ ε σ} {ok : Threads ι C A X α ε σ → Ev ι χ ε → Prop} {s s' : Threads ι C A X α ε σ}

/-- What a thread's step is: the command it awaited ran. -/
theorem threads_run {i : ι} {x : χ} (h : (threads M).step s (.run i x) = some s') :
    ∃ c k rm, s.thr i = .cmd c k ∧ M.exec i c x s.mem = some rm ∧
      s' = ⟨rm.2, Function.update s.thr i (k rm.1), s.log ++ [.did i c rm.1]⟩ := by
  simp only [threads] at h
  split at h
  · rename_i c k hk
    rw [Option.map_eq_some_iff] at h
    obtain ⟨rm, hrm, rfl⟩ := h
    exact ⟨c, k, rm, hk, hrm, rfl⟩
  · cases h

theorem threads_env {e : ε} (h : (threads M).step s (.env e) = some s') :
    ∃ m, M.env e s.mem = some m ∧ s' = ⟨m, s.thr, s.log ++ [.world e]⟩ := by
  simp only [threads, Option.map_eq_some_iff] at h
  obtain ⟨m, hm, rfl⟩ := h
  exact ⟨m, hm, rfl⟩

/-- Threads whose programs only use commands that meet `p` log no other commands. -/
theorem log_only {p : C → Prop} {m : σ} {thr : ι → Co C A X α} (hp : ∀ i, (thr i).Only p)
    (h : (threads M).Reach ok (start m thr) s) : ∀ i c r, .did i c r ∈ s.log → p c := by
  have hinv : (∀ i, (s.thr i).Only p) ∧ ∀ i c r, .did i c r ∈ s.log → p c := by
    refine h.invariant (P := fun s => (∀ i, (s.thr i).Only p) ∧ ∀ i c r, .did i c r ∈ s.log → p c)
      ⟨hp, fun i c r hm => by cases hm⟩ ?_
    intro s e s' hs _ hst
    cases e with
    | env e =>
      obtain ⟨m, -, rfl⟩ := threads_env hst
      refine ⟨hs.1, fun i c r hm => hs.2 i c r ?_⟩
      simpa using hm
    | run j x =>
      obtain ⟨c, k, rm, hk, -, rfl⟩ := threads_run hst
      have hj := hs.1 j
      rw [hk] at hj
      constructor
      · intro i
        by_cases e : i = j
        · subst e
          simpa using hj.2 rm.1
        · simpa [e] using hs.1 i
      · intro i d r hm
        rcases List.mem_append.mp hm with hm | hm
        · exact hs.2 i d r hm
        · cases List.mem_singleton.mp hm
          exact hj.1
  exact hinv.2

theorem filterMap_one {E F : Type} (proj : E → Option F) (e : E) : [e].filterMap proj = (proj e).toList := by
  cases h : proj e <;> simp [h]

/-- When every command `p` allows moves the view `f` of memory as the machine `N` does
    for the event `proj` makes of it, the log is a run of `N` to the view of memory. -/
theorem log_runs {T F : Type} {N : Machine T F} {f : σ → T} {proj : Entry ι C A X ε → Option F} {p : C → Prop}
    (hrun : ∀ i c x m rm, p c → M.exec i c x m = some rm →
      N.run (f m) (proj (.did i c rm.1)).toList = some (f rm.2))
    (henv : ∀ e m m', M.env e m = some m' → N.run (f m) (proj (.world e)).toList = some (f m'))
    {m : σ} {thr : ι → Co C A X α} (hp : ∀ i, (thr i).Only p) (h : (threads M).Reach ok (start m thr) s) :
    N.run (f m) (s.log.filterMap proj) = some (f s.mem) := by
  induction h with
  | init => rfl
  | step e hr ho hst ih =>
    have honly := log_only hp (.step e hr ho hst)
    cases e with
    | env e =>
      obtain ⟨m', hm, rfl⟩ := threads_env hst
      rw [List.filterMap_append, Machine.run_append, ih, filterMap_one]
      exact henv e _ _ hm
    | run i x =>
      obtain ⟨c, k, rm, -, hrm, rfl⟩ := threads_run hst
      have hc : p c := honly i c rm.1 (by simp)
      rw [List.filterMap_append, Machine.run_append, ih, filterMap_one]
      exact hrun i c x _ _ hc hrm

/-- The program run by itself as thread `i`, command `c` with the chance `pick c`: its
    outcome, the memory it leaves and the commands it ran. `none` when a command cannot
    run, as nobody else is there to make it so. -/
def Co.alone (M : Memory ι C A X χ ε σ) (i : ι) (pick : C → χ) : Co C A X α → σ → Option (Except X α × σ × List C)
  | .ret a, m => some (.ok a, m, [])
  | .raise x, m => some (.error x, m, [])
  | .cmd c k, m => (M.exec i c (pick c) m).bind fun rm =>
      ((k rm.1).alone M i pick rm.2).map fun t => (t.1, t.2.1, c :: t.2.2)

/-- A run by itself is a run of the threads in which only that one moves. -/
theorem alone_reach {i : ι} {pick : C → χ} {p : Co C A X α} {r : Except X α} {m : σ} {cs : List C}
    (hp : s.thr i = p) (h : p.alone M i pick s.mem = some (r, m, cs)) : ∃ log,
    (threads M).Reach Machine.any s ⟨m, Function.update s.thr i (Co.resume r), s.log ++ log⟩ ∧
      log.filterMap (fun | .did _ c _ => some c | .world _ => none) = cs := by
  induction p generalizing s cs with
  | ret a =>
    cases h
    have hs : Function.update s.thr i (Co.ret a) = s.thr := by rw [← hp, Function.update_eq_self]
    refine ⟨[], ?_, rfl⟩
    rw [List.append_nil, Co.resume, hs]
    exact .init
  | raise x =>
    cases h
    have hs : Function.update s.thr i (Co.raise x) = s.thr := by rw [← hp, Function.update_eq_self]
    refine ⟨[], ?_, rfl⟩
    rw [List.append_nil, Co.resume, hs]
    exact .init
  | cmd c k ih =>
    simp only [Co.alone, Option.bind_eq_some_iff, Option.map_eq_some_iff] at h
    obtain ⟨rm, hx, ⟨r', m', cs'⟩, hrest, heq⟩ := h
    cases heq
    have hstep : (threads M).step s (.run i (pick c)) =
        some ⟨rm.2, Function.update s.thr i (k rm.1), s.log ++ [.did i c rm.1]⟩ := by
      simp only [threads, hp, hx, Option.map_some]
    obtain ⟨log, hlog, hcs⟩ := ih rm.1 (s := ⟨rm.2, Function.update s.thr i (k rm.1), s.log ++ [.did i c rm.1]⟩)
      (Function.update_self ..) hrest
    refine ⟨.did i c rm.1 :: log, ?_, by rw [← hcs]; rfl⟩
    have hfirst : (threads M).Reach Machine.any s
        ⟨rm.2, Function.update s.thr i (k rm.1), s.log ++ [.did i c rm.1]⟩ := .step _ .init trivial hstep
    have := hfirst.trans hlog
    simpa using this

end Threads

/-! ## Flow charts -/

/-- What a phase does next: end, or run a command and go to the phase it leads to. -/
inductive Head (C : Type) (A : C → Type) (X α P : Type) where
  | ended (r : Except X α)
  | goes (c : C) (k : Except X (A c) → P)

/-- The program of a phase, from the programs of the phases it leads to. -/
def Head.code {C X α P : Type} {A : C → Type} (f : P → Co C A X α) : Head C A X α P → Co C A X α
  | .ended r => Co.resume r
  | .goes c k => .cmd c fun r => f (k r)

/-- A flow chart for the programs of a family: the program left in each phase is the
    phase's command, followed by the program of the phase it leads to. -/
structure Flow (ι C : Type) (A : C → Type) (X α P : Type) where
  code : ι → P → Co C A X α
  head : ι → P → Head C A X α P
  unfolds : ∀ i p, code i p = (head i p).code (code i)

/-- A state of the flow chart's threads. -/
structure Phases (ι C : Type) (A : C → Type) (X ε σ P : Type) where
  mem : σ
  ph : ι → P
  log : List (Entry ι C A X ε)

namespace Phases

variable {ι C X ε σ P : Type} {A : C → Type} [DecidableEq ι]

/-- Thread `i` ran `c` with outcome `r`, which left memory `m`, and is in phase `p`. -/
def did (t : Phases ι C A X ε σ P) (i : ι) (c : C) (r : Except X (A c)) (m : σ) (p : P) : Phases ι C A X ε σ P :=
  ⟨m, Function.update t.ph i p, t.log ++ [.did i c r]⟩

/-- The world moved by `e`, which left memory `m`. -/
def moved (t : Phases ι C A X ε σ P) (e : ε) (m : σ) : Phases ι C A X ε σ P := ⟨m, t.ph, t.log ++ [.world e]⟩

variable (t : Phases ι C A X ε σ P) (i : ι) (c : C) (r : Except X (A c)) (m : σ) (p : P) (e : ε)

@[simp] theorem did_mem : (t.did i c r m p).mem = m := rfl
@[simp] theorem did_log : (t.did i c r m p).log = t.log ++ [.did i c r] := rfl
@[simp] theorem did_ph_same : (t.did i c r m p).ph i = p := by simp [did]
@[simp] theorem did_ph_ne {j : ι} (h : j ≠ i) : (t.did i c r m p).ph j = t.ph j := by simp [did, h]

/-- What holds of every thread's phase after a step: of the new phase, and of those of
    the threads that did not move. -/
theorem forall_did {Q : ι → P → Prop} {t : Phases ι C A X ε σ P} {i : ι} {c : C} {r : Except X (A c)} {m : σ} {p : P} :
    (∀ j, Q j ((t.did i c r m p).ph j)) ↔ Q i p ∧ ∀ j, j ≠ i → Q j (t.ph j) :=
  Function.forall_update_iff t.ph Q

omit [DecidableEq ι] in
@[simp] theorem moved_mem : (t.moved e m).mem = m := rfl
omit [DecidableEq ι] in
@[simp] theorem moved_log : (t.moved e m).log = t.log ++ [.world e] := rfl
omit [DecidableEq ι] in
@[simp] theorem moved_ph : (t.moved e m).ph = t.ph := rfl

end Phases

namespace Flow

variable {ι C X α χ ε σ P : Type} {A : C → Type} [DecidableEq ι] (fl : Flow ι C A X α P)

def phases (M : Memory ι C A X χ ε σ) : Machine (Phases ι C A X ε σ P) (Ev ι χ ε) where
  step t
    | .run i x =>
      match fl.head i (t.ph i) with
      | .goes c k => (M.exec i c x t.mem).map fun rm => t.did i c rm.1 rm.2 (k rm.1)
      | .ended _ => none
    | .env e => (M.env e t.mem).map fun m => t.moved e m

/-- What a thread's step is: its phase's command ran, and it is in the phase that the
    outcome leads to. -/
theorem step_run {M : Memory ι C A X χ ε σ} {t t' : Phases ι C A X ε σ P} {i : ι} {x : χ}
    (h : (fl.phases M).step t (.run i x) = some t') :
    ∃ c k rm, fl.head i (t.ph i) = .goes c k ∧ M.exec i c x t.mem = some rm ∧ t' = t.did i c rm.1 rm.2 (k rm.1) := by
  simp only [phases] at h
  split at h
  · rename_i c k hk
    rw [Option.map_eq_some_iff] at h
    obtain ⟨rm, hrm, rfl⟩ := h
    exact ⟨c, k, rm, hk, hrm, rfl⟩
  · cases h

/-- A phase whose command can run takes that step. -/
theorem step_of_head {M : Memory ι C A X χ ε σ} {t : Phases ι C A X ε σ P} {i : ι} {x : χ} {c : C}
    {k : Except X (A c) → P} {rm : Except X (A c) × σ} (hh : fl.head i (t.ph i) = .goes c k)
    (hx : M.exec i c x t.mem = some rm) :
    (fl.phases M).step t (.run i x) = some (t.did i c rm.1 rm.2 (k rm.1)) := by
  simp only [phases, hh, hx, Option.map_some]

theorem step_env {M : Memory ι C A X χ ε σ} {t t' : Phases ι C A X ε σ P} {e : ε}
    (h : (fl.phases M).step t (.env e) = some t') : ∃ m, M.env e t.mem = some m ∧ t' = t.moved e m := by
  simp only [phases, Option.map_eq_some_iff] at h
  obtain ⟨m, hm, rfl⟩ := h
  exact ⟨m, hm, rfl⟩

omit [DecidableEq ι] in
theorem head_of_ret {i : ι} {p : P} {a : α} (h : fl.code i p = .ret a) : fl.head i p = .ended (.ok a) := by
  rw [fl.unfolds] at h
  cases hp : fl.head i p with
  | goes c k => rw [hp] at h; cases h
  | ended r =>
    rw [hp] at h
    cases r <;> cases h
    rfl

omit [DecidableEq ι] in
theorem head_of_raise {i : ι} {p : P} {x : X} (h : fl.code i p = .raise x) : fl.head i p = .ended (.error x) := by
  rw [fl.unfolds] at h
  cases hp : fl.head i p with
  | goes c k => rw [hp] at h; cases h
  | ended r =>
    rw [hp] at h
    cases r <;> cases h
    rfl

omit [DecidableEq ι] in
theorem head_of_cmd {i : ι} {p : P} {c : C} {k : Except X (A c) → Co C A X α} (h : fl.code i p = .cmd c k) :
    ∃ k', fl.head i p = .goes c k' := by
  rw [fl.unfolds] at h
  cases hp : fl.head i p with
  | goes c' k' => rw [hp] at h; cases h; exact ⟨k', rfl⟩
  | ended r =>
    rw [hp] at h
    cases r <;> cases h

/-- The command a phase awaits. -/
def next (i : ι) (p : P) : Option C :=
  match fl.head i p with
  | .goes c _ => some c
  | .ended _ => none

omit [DecidableEq ι] in
theorem next_code (i : ι) (p : P) : (fl.code i p).next = fl.next i p := by
  rw [fl.unfolds, next]
  cases fl.head i p with
  | goes c k => rfl
  | ended r => cases r <;> rfl

omit [DecidableEq ι] in
/-- A program that awaits nothing has ended. -/
theorem head_of_next_none {i : ι} {p : P} (h : (fl.code i p).next = none) : ∃ r, fl.head i p = .ended r := by
  rw [next_code, next] at h
  split at h
  · cases h
  · exact ⟨_, ‹_›⟩

omit [DecidableEq ι] in
theorem next_of_head {i : ι} {p : P} {c : C} {k : Except X (A c) → P} (h : fl.head i p = .goes c k) :
    (fl.code i p).next = some c := by
  rw [next_code, next, h]

omit [DecidableEq ι] in
theorem cmd_of_head {i : ι} {p : P} {c : C} {k : Except X (A c) → P} (h : fl.head i p = .goes c k) :
    ∃ k', fl.code i p = .cmd c k' := by
  rw [fl.unfolds, h]
  exact ⟨_, rfl⟩

omit [DecidableEq ι] in
/-- By itself, a program runs its phase's command and then what the outcome leads to. -/
theorem alone_goes (M : Memory ι C A X χ ε σ) (i : ι) (pick : C → χ) (p : P) {c : C} {k : Except X (A c) → P} {m : σ}
    {rm : Except X (A c) × σ} (hh : fl.head i p = .goes c k) (hx : M.exec i c (pick c) m = some rm) :
    (fl.code i p).alone M i pick m =
      ((fl.code i (k rm.1)).alone M i pick rm.2).map fun t => (t.1, t.2.1, c :: t.2.2) := by
  rw [fl.unfolds, hh]
  simp only [Head.code, Co.alone, hx, Option.bind_some]

omit [DecidableEq ι] in
theorem alone_ended (M : Memory ι C A X χ ε σ) (i : ι) (pick : C → χ) (p : P) {m : σ} {r : Except X α}
    (hh : fl.head i p = .ended r) : (fl.code i p).alone M i pick m = some (r, m, []) := by
  rw [fl.unfolds, hh]
  cases r <;> rfl

/-- The threads a state of the flow chart stands for. -/
def threadsOf (t : Phases ι C A X ε σ P) : Threads ι C A X α ε σ := ⟨t.mem, fun i => fl.code i (t.ph i), t.log⟩

theorem code_update (t : ι → P) (i : ι) (p : P) :
    (fun j => fl.code j (Function.update t i p j)) = Function.update (fun j => fl.code j (t j)) i (fl.code i p) := by
  funext j
  by_cases e : j = i
  · subst e; simp
  · simp [e]

/-- A step of the programs is the same step of their flow chart, and back. -/
theorem step_threadsOf (M : Memory ι C A X χ ε σ) (t : Phases ι C A X ε σ P) (e : Ev ι χ ε) :
    (threads M).step (fl.threadsOf t) e = ((fl.phases M).step t e).map fl.threadsOf := by
  cases e with
  | env e => simp only [threads, phases, threadsOf, Option.map_map]; rfl
  | run i x =>
    simp only [threads, phases, threadsOf]
    rw [fl.unfolds]
    cases fl.head i (t.ph i) with
    | ended r => cases r <;> rfl
    | goes c k =>
      simp only [Head.code, Option.map_map]
      congr 1
      funext rm
      simp only [Function.comp, threadsOf, Phases.did, code_update]

/-- Every state the programs reach is the threads of a state the flow chart reaches. -/
theorem follows {M : Memory ι C A X χ ε σ} {ok : Threads ι C A X α ε σ → Ev ι χ ε → Prop}
    {t₀ : Phases ι C A X ε σ P} {s : Threads ι C A X α ε σ} (h : (threads M).Reach ok (fl.threadsOf t₀) s) :
    ∃ t, (fl.phases M).Reach (fun t e => ok (fl.threadsOf t) e) t₀ t ∧ s = fl.threadsOf t := by
  apply h.along (R := fun s t => s = fl.threadsOf t) rfl
  intro s t e s' hst ho hs
  subst hst
  rw [step_threadsOf, Option.map_eq_some_iff] at hs
  obtain ⟨t', ht', rfl⟩ := hs
  exact ⟨e, t', ho, ht', rfl⟩

end Flow

end Playground.Lib
