/-
  Playground.Lock.Calls — `acquire` and `release` of any number of `DistributedLock`
  objects on one resource, called at any time and in any order.

  A call is a thread: one object may be called any number of times, one call after
  the other or several at once, since its only state is `self.token`, memory of the
  client. `calls` is the flow chart of the two methods, `Move` what one step of it can
  be.
-/

import Playground.Lock.History

namespace Playground.Lock.Calls

open Playground.Lib Playground.Redis

/-- What a lock object was made with; Redis refuses a `PX` of 0. -/
structure Config where
  ttlMs : Nat := 5000
  retryDelayMs : Nat := 50
  maxRetries : Nat := 20
  ttl_pos : 0 < ttlMs := by decide

inductive Call (O : Type) where
  | acquire (self : O) (token : Token)
  | release (self : O)

section Calls

variable {ι O : Type} (resource : String) (cfg : O → Config)

def lockOf (self : O) : DistributedLock O :=
  { self := self, resource := resource, ttlMs := (cfg self).ttlMs, retryDelayMs := (cfg self).retryDelayMs,
    maxRetries := (cfg self).maxRetries }

def perform : Call O → Prog O Bool
  | .acquire self token => (lockOf resource cfg self).acquire token
  | .release self => (lockOf resource cfg self).release

/-! ## The flow chart -/

inductive Phase (O : Type) where
  /-- `n` attempts of `acquire` left. -/
  | trying (o : O) (t : Token) (n : Nat)
  | resting (o : O) (t : Token) (n : Nat)
  /-- The key is taken; `self.token` is not set yet. -/
  | storing (o : O) (t : Token)
  | loading (o : O)
  | releasing (o : O) (t : Token)
  | ended (r : Except Exc Bool)

def Phase.begin : Call O → Phase O
  | .acquire self token => .trying self token (cfg self).maxRetries
  | .release self => .loading self

/-- Go on with an answer; the call ends with an exception of the command. -/
def Phase.on {α : Type} (k : α → Phase O) : Except Exc α → Phase O
  | .ok a => k a
  | .error x => .ended (.error x)

/-- The program left in a phase. -/
def codeOf (_ : ι) : Phase O → Prog O Bool
  | .trying o t n => (lockOf resource cfg o).acquireLoop t n
  | .resting o t n => (await (.sleep (cfg o).retryDelayMs)).bind fun _ => (lockOf resource cfg o).acquireLoop t n
  | .storing o t => (await (.storeToken o t)).bind fun _ => .ret true
  | .loading o => (lockOf resource cfg o).release
  | .releasing _ t => (await (.evalRelease (lockKeyOf resource) t.1)).bind fun n => .ret (n != 0)
  | .ended r => Co.resume r

def headOf (_ : ι) : Phase O → Head (Cmd O) Ans Exc Bool (Phase O)
  | .trying _ _ 0 => .ended (.ok false)
  | .trying o t (n + 1) => .goes (.setNxPx (lockKeyOf resource) t.1 (cfg o).ttlMs)
    (.on fun acquired => if acquired then .storing o t else .resting o t n)
  | .resting o t n => .goes (.sleep (cfg o).retryDelayMs) (.on fun _ => .trying o t n)
  | .storing o t => .goes (.storeToken o t) (.on fun _ => .ended (.ok true))
  | .loading o => .goes (.loadToken o) (.on fun
    | none => .ended (.ok false)
    | some t => .releasing o t)
  | .releasing _ t => .goes (.evalRelease (lockKeyOf resource) t.1) (.on fun n => .ended (.ok (n != 0)))
  | .ended r => .ended r

theorem unfolds (i : ι) (p : Phase O) :
    codeOf resource cfg i p = (headOf resource cfg i p).code (codeOf resource cfg i) := by
  cases p with
  | trying o t n =>
    cases n with
    | zero => rfl
    | succ n =>
      refine Co.cmd_congr ?_ (fun _ => rfl)
      intro acquired
      cases acquired with
      | true => exact Co.cmd_congr (fun _ => rfl) (fun _ => rfl)
      | false => exact Co.cmd_congr (fun _ => rfl) (fun _ => rfl)
  | resting o t n => exact Co.cmd_congr (fun _ => rfl) (fun _ => rfl)
  | storing o t => exact Co.cmd_congr (fun _ => rfl) (fun _ => rfl)
  | loading o =>
    refine Co.cmd_congr ?_ (fun _ => rfl)
    intro t
    cases t with
    | none => rfl
    | some t => exact Co.cmd_congr (fun _ => rfl) (fun _ => rfl)
  | releasing o t => exact Co.cmd_congr (fun _ => rfl) (fun _ => rfl)
  | ended r => rfl

def calls : Flow ι (Cmd O) Ans Exc Bool (Phase O) := ⟨codeOf resource cfg, headOf resource cfg, unfolds resource cfg⟩

/-- The calls being performed. -/
abbrev Performing (ι O : Type) := Threads ι (Cmd O) Ans Exc Bool World (Mem O)

abbrev St (ι O : Type) := Phases ι (Cmd O) Ans Exc World (Mem O) (Phase O)

theorem calls_start (m : Mem O) (call : ι → Call O) :
    (calls resource cfg).threadsOf (⟨m, fun i => .begin cfg (call i), []⟩ : St ι O) =
      start m fun i => perform resource cfg (call i) := by
  unfold Flow.threadsOf start
  congr 1
  funext i
  show codeOf resource cfg i (.begin cfg (call i)) = _
  cases call i <;> rfl

theorem perform_spares (key : String) (c : Call O) : (perform resource cfg c).Only (Spares key) := by
  cases c with
  | acquire o t => exact DistributedLock.acquireLoop_spares _ _ _ _
  | release o => exact DistributedLock.release_spares _ _

/-! ## What one step can be -/

def Mem.lock (m : Mem O) : Option String := m.redis.get (lockKeyOf resource)

variable [DecidableEq ι] [DecidableEq O]

/-- What one step can be: which call, what it ran and was answered, and what changed
    but for the lock key. -/
inductive Move (s : St ι O) : St ι O → Prop
  | take (i : ι) (o : O) (t : Token) (n : Nat) (m : Mem O) : s.ph i = .trying o t (n + 1) → m.token = s.mem.token →
      Move s (s.did i (.setNxPx (lockKeyOf resource) t.1 (cfg o).ttlMs) (.ok true) m (.storing o t))
  | busy (i : ι) (o : O) (t : Token) (n : Nat) : s.ph i = .trying o t (n + 1) →
      Move s (s.did i (.setNxPx (lockKeyOf resource) t.1 (cfg o).ttlMs) (.ok false) s.mem (.resting o t n))
  | rest (i : ι) (o : O) (t : Token) (n : Nat) : s.ph i = .resting o t n →
      Move s (s.did i (.sleep (cfg o).retryDelayMs) (.ok ()) s.mem (.trying o t n))
  | store (i : ι) (o : O) (t : Token) : s.ph i = .storing o t →
      Move s (s.did i (.storeToken o t) (.ok ()) { s.mem with token := Function.update s.mem.token o (some t) }
        (.ended (.ok true)))
  | load (i : ι) (o : O) (t : Token) : s.ph i = .loading o → s.mem.token o = some t →
      Move s (s.did i (.loadToken o) (.ok (some t)) s.mem (.releasing o t))
  | loadBare (i : ι) (o : O) : s.ph i = .loading o → s.mem.token o = none →
      Move s (s.did i (.loadToken o) (.ok none) s.mem (.ended (.ok false)))
  | free (i : ι) (o : O) (t : Token) (n : Nat) (m : Mem O) : s.ph i = .releasing o t → m.token = s.mem.token →
      Move s (s.did i (.evalRelease (lockKeyOf resource) t.1) (.ok n) m (.ended (.ok (n != 0))))
  | expire (e : World) (m : Mem O) : m.token = s.mem.token → Move s (s.moved e m)

theorem step_move {s s' : St ι O} {e : Ev ι Unit World}
    (h : ((calls resource cfg).phases memory).step s e = some s') : Move resource cfg s s' := by
  cases e with
  | env e =>
    obtain ⟨m, hm, rfl⟩ := Flow.step_env _ h
    obtain ⟨r⟩ := e
    simp only [memory, Option.map_eq_some_iff] at hm
    obtain ⟨_, -, rfl⟩ := hm
    exact .expire _ _ rfl
  | run i x =>
    obtain ⟨c, k, rm, hk, hrm, rfl⟩ := Flow.step_run _ h
    change headOf resource cfg i (s.ph i) = .goes c k at hk
    cases hp : s.ph i with
    | trying o t n =>
      cases n with
      | zero => rw [hp] at hk; cases hk
      | succ n =>
        rw [hp] at hk; cases hk; cases hrm
        by_cases hl : s.mem.redis.get (lockKeyOf resource) = none
        · have hb := (Strings.setNxPx_fst s.mem.redis (lockKeyOf resource) t.1 (cfg o).ttlMs).mpr hl
          simp only [hb, Phase.on, if_true]
          exact .take i o t n _ hp rfl
        · have hb := Strings.setNxPx_denied s.mem.redis (lockKeyOf resource) t.1 (cfg o).ttlMs hl
          simp only [hb, Phase.on, Bool.false_eq_true, if_false]
          exact .busy i o t n hp
    | resting o t n =>
      rw [hp] at hk; cases hk; cases hrm
      exact .rest i o t n hp
    | storing o t =>
      rw [hp] at hk; cases hk; cases hrm
      exact .store i o t hp
    | loading o =>
      rw [hp] at hk; cases hk; cases hrm
      cases ht : s.mem.token o with
      | none => exact .loadBare i o hp ht
      | some t => exact .load i o t hp ht
    | releasing o t =>
      rw [hp] at hk; cases hk; cases hrm
      exact .free i o t _ _ hp rfl
    | ended r => rw [hp] at hk; cases hk

end Calls

end Playground.Lock.Calls
