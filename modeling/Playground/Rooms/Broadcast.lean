/-
  Playground.Rooms.Broadcast — a broadcast reaches the members that stay.

  A broadcast iterates over the room's live set, so a connect or a disconnect at one of
  its awaits changes what it iterates over. The iterator then raises at its next step,
  and the reader that runs the broadcast swallows the exception.
  - `staying_sent_once`: as long as the set is changed only when a socket has been taken
    from the iterator, and not changed back, that socket is sent the message once.
  - `connect_cuts_off`: one that connects any earlier leaves the others without it.
-/

import Playground.Rooms.PubSubManager

namespace Playground.Rooms

open Playground.Lib

variable {R W : Type}

/-! ## What a connect and a disconnect do to a set -/

namespace Manager

variable {m m' : Manager R W} {room : R} {ws : W} {layout : PySet W} {a : Nat}

@[simp] theorem put_sets_self (m : Manager R W) (a : Nat) (s : PySet W) : (m.put a s).sets a = s :=
  Function.update_self ..

theorem put_sets_ne {b : Nat} (h : a ≠ b) (s : PySet W) : (m.put b s).sets a = m.sets a :=
  Function.update_of_ne h ..

variable [DecidableEq R] [DecidableEq W]

/-- A connect leaves a set as it is, or adds the socket to it, if it is the room's. -/
theorem connect_sets (h : m.connect room ws layout = some m') (ha : a < m.fresh) :
    m.fresh ≤ m'.fresh ∧ (m'.sets a = m.sets a ∨
      (m.localRooms room = some a ∧ (m.sets a).add ws layout = some (m'.sets a))) := by
  simp only [connect, entry] at h
  split at h
  · rename_i b hb
    obtain ⟨s, hs, rfl⟩ := Option.map_eq_some_iff.mp h
    refine ⟨Nat.le_refl _, ?_⟩
    by_cases e : a = b
    · subst e
      exact .inr ⟨hb, by simpa using hs⟩
    · exact .inl (put_sets_ne e s)
  · obtain ⟨s, -, rfl⟩ := Option.map_eq_some_iff.mp h
    have hne : a ≠ m.fresh := by omega
    refine ⟨Nat.le_succ _, .inl ?_⟩
    rw [put_sets_ne hne]
    exact Function.update_of_ne hne ..

/-- A disconnect leaves a set as it is, or discards the socket, if it is the room's. -/
theorem disconnect_sets (m : Manager R W) (room : R) (ws : W) (a : Nat) :
    m.fresh ≤ (m.disconnect room ws).fresh ∧ ((m.disconnect room ws).sets a = m.sets a ∨
      (m.localRooms room = some a ∧ (m.disconnect room ws).sets a = (m.sets a).discard ws)) := by
  simp only [disconnect]
  split
  · exact ⟨Nat.le_refl _, .inl rfl⟩
  · rename_i b hb
    have hsets : ∀ m' : Manager R W, m'.sets = (m.put b ((m.sets b).discard ws)).sets →
        m'.sets a = m.sets a ∨ (m.localRooms room = some a ∧ m'.sets a = (m.sets a).discard ws) := by
      intro m' hm
      rw [hm]
      by_cases e : a = b
      · subst e
        exact .inr ⟨hb, put_sets_self ..⟩
      · exact .inl (put_sets_ne e _)
    split <;> exact ⟨Nat.le_refl _, hsets _ rfl⟩

end Manager

/-! ## Sent once -/

variable [DecidableEq R] [DecidableEq W]

/-- If `ws` was registered in the room when the broadcast began, has not been
    disconnected from it since, and no send to it failed, it was sent the message
    exactly once. -/
def SentOnce (room : R) (m : Manager R W) (t : Broadcast R W) (ws : W) : Prop :=
  ws ∈ m.registered room → (room, ws) ∉ t.left → (ws, false) ∉ t.sends →
    t.sends.filter (·.1 == ws) = [(ws, true)]

/-- A connect or disconnect that changes the set being iterated comes when the iterator
    has `ws` behind it, and takes the set's size no nearer to what it was. -/
def Behind (ws : W) (t : Broadcast R W) (e : Event R W) : Prop :=
  match t.task, e with
  | .sending a it _ _, .connect room x _ => t.mgr.localRooms room = some a → x ∉ t.mgr.sets a →
      ws ∉ (t.mgr.sets a).unvisited it.pos ∧ it.used ≤ (t.mgr.sets a).used
  | .sending a it _ _, .disconnect room x => t.mgr.localRooms room = some a → x ∈ t.mgr.sets a →
      ws ∉ (t.mgr.sets a).unvisited it.pos ∧ (t.mgr.sets a).used ≤ it.used
  | _, _ => True

instance (ws : W) (t : Broadcast R W) (e : Event R W) : Decidable (Behind ws t e) :=
  match t, e with
  | ⟨_, .sending .., _, _⟩, .connect .. => inferInstanceAs (Decidable (_ → _ → _ ∧ _))
  | ⟨_, .sending .., _, _⟩, .disconnect .. => inferInstanceAs (Decidable (_ → _ → _ ∧ _))
  | ⟨_, .sending .., _, _⟩, .sent _ => instDecidableTrue
  | ⟨_, .finished, _, _⟩, _ => instDecidableTrue
  | ⟨_, .raised, _, _⟩, _ => instDecidableTrue

/-- The socket whose send is awaited. -/
def Task.current : Task W → List W
  | .sending _ _ _ ws => [ws]
  | _ => []

/-- The sockets taken from the iterator so far. -/
def Broadcast.taken (t : Broadcast R W) : List W := t.sends.map (·.1) ++ t.task.current

/-- The iterator takes `ws` once: it has, or will if the set has the size it had. -/
def Tracks (ws : W) (taken : List W) (it : PySet.Iter) (s : PySet W) : Prop :=
  if it.used = s.used then (taken ++ s.unvisited it.pos).count ws = 1 else taken.count ws = 1

def OnTrack (ws : W) (t : Broadcast R W) : Prop :=
  match t.task with
  | .sending a it _ _ => a < t.mgr.fresh ∧ Tracks ws t.taken it (t.mgr.sets a)
  | _ => t.taken.count ws = 1

variable {room : R} {ws : W} {m m' : Manager R W} {t t' : Broadcast R W} {a : Nat} {it : PySet.Iter} {dead : List W}
  {cur : W} {sends : List (W × Bool)} {left left' : List (R × W)}

/-- The iterator moves on over the sockets it has still to take. -/
theorem onTrack_advance (ha : a < m.fresh) (h : Tracks ws (sends.map (·.1)) it (m.sets a)) :
    OnTrack ws ⟨(advance room m a it dead).1, (advance room m a it dead).2, sends, left⟩ := by
  cases hn : it.next (m.sets a) with
  | raised =>
    have hraised : (sends.map (·.1)).count ws = 1 := by rwa [Tracks, if_neg (PySet.next_raised hn)] at h
    simpa [advance, hn, OnTrack, Broadcast.taken, Task.current] using hraised
  | stop =>
    obtain ⟨he, hnone⟩ := PySet.next_stop hn
    have hall : (sends.map (·.1)).count ws = 1 := by
      rwa [Tracks, if_pos he, hnone, List.append_nil] at h
    simpa [advance, hn, OnTrack, Broadcast.taken, Task.current] using hall
  | item x it' =>
    obtain ⟨he, he', hrest⟩ := PySet.next_item hn
    have hnext : Tracks ws (sends.map (·.1) ++ [x]) it' (m.sets a) := by
      rw [Tracks, if_pos he, hrest] at h
      rwa [Tracks, if_pos (he'.trans he), List.append_assoc, List.singleton_append]
    simpa [advance, hn, OnTrack, Broadcast.taken, Task.current, ha] using hnext

/-- The set changes behind the iterator: from then on it has another size. -/
theorem Tracks.changed {taken : List W} {s s' : PySet W} (h : Tracks ws taken it s)
    (hbehind : ws ∉ s.unvisited it.pos) (hsize : it.used ≠ s'.used) : Tracks ws taken it s' := by
  rw [Tracks, if_neg hsize]
  rw [Tracks] at h
  split at h
  · rwa [List.count_append, List.count_eq_zero.mpr hbehind, Nat.add_zero] at h
  · exact h

omit [DecidableEq R] in
/-- At an await the rooms change, and the set being iterated stays or changes behind the
    iterator. -/
theorem OnTrack.awaiting (h : OnTrack ws ⟨m, .sending a it dead cur, sends, left⟩) (hm : m.fresh ≤ m'.fresh)
    (hset : m'.sets a = m.sets a ∨ (ws ∉ (m.sets a).unvisited it.pos ∧ it.used ≠ (m'.sets a).used)) :
    OnTrack ws ⟨m', .sending a it dead cur, sends, left'⟩ := by
  obtain ⟨ha, htrack⟩ := h
  refine ⟨Nat.lt_of_lt_of_le ha hm, ?_⟩
  rcases hset with hsame | ⟨hbehind, hsize⟩
  · show Tracks ws _ it (m'.sets a)
    rw [hsame]
    exact htrack
  · exact htrack.changed hbehind hsize

theorem OnTrack.step {e : Event R W} (hi : OnTrack ws t) (hok : Behind ws t e)
    (hs : (broadcasting room).step t e = some t') : OnTrack ws t' := by
  obtain ⟨m, task, sends, left⟩ := t
  cases e with
  | sent ok =>
    cases task with
    | finished | raised => cases hs
    | sending a it dead cur =>
      cases hs
      exact onTrack_advance hi.1 (by simpa [Broadcast.taken, Task.current] using hi.2)
  | connect r x layout =>
    obtain ⟨m', hc, rfl⟩ := Option.map_eq_some_iff.mp hs
    cases task with
    | finished | raised => exact hi
    | sending a it dead cur =>
      obtain ⟨hfresh, hsame | ⟨hroom, hadd⟩⟩ := Manager.connect_sets hc hi.1
      · exact hi.awaiting hfresh (.inl hsame)
      · rcases PySet.add_cases hadd with ⟨-, hsame⟩ | ⟨hx, -⟩
        · exact hi.awaiting hfresh (.inl hsame)
        · obtain ⟨hbehind, hsize⟩ := hok hroom hx
          have hused : (m'.sets a).used = (m.sets a).used + 1 := PySet.used_add hadd hx
          have hne : it.used ≠ (m'.sets a).used := by
            rw [hused]
            change it.used ≤ (m.sets a).used at hsize
            omega
          exact hi.awaiting hfresh (.inr ⟨hbehind, hne⟩)
  | disconnect r x =>
    cases hs
    cases task with
    | finished | raised => exact hi
    | sending a it dead cur =>
      obtain ⟨hfresh, hsame | ⟨hroom, hdis⟩⟩ := Manager.disconnect_sets m r x a
      · exact hi.awaiting hfresh (.inl hsame)
      · by_cases hx : x ∈ m.sets a
        · obtain ⟨hbehind, hsize⟩ := hok hroom hx
          have hused : ((m.disconnect r x).sets a).used + 1 = (m.sets a).used := by rw [hdis, PySet.used_discard hx]
          have hne : it.used ≠ ((m.disconnect r x).sets a).used := by
            intro he
            rw [← he] at hused
            change (m.sets a).used ≤ it.used at hsize
            omega
          exact hi.awaiting hfresh (.inr ⟨hbehind, hne⟩)
        · exact hi.awaiting hfresh (.inl (hdis.trans (PySet.discard_of_not_mem hx)))

theorem onTrack_start (h : ws ∈ m.registered room) : OnTrack ws (broadcastLocally m room) := by
  simp only [Manager.registered] at h
  simp only [broadcastLocally]
  split at h
  · cases h
  · rename_i a ha
    apply onTrack_advance (m.known ha)
    show Tracks ws [] ⟨(m.sets a).used, 0⟩ (m.sets a)
    rw [Tracks, if_pos rfl]
    exact List.count_eq_one_of_mem (m.sets a).members_nodup h

/-- A socket that was sent to once, and not in vain, was sent the message once. -/
theorem sent_of_count (hcount : (sends.map (·.1)).count ws = 1) (hfail : (ws, false) ∉ sends) :
    sends.filter (·.1 == ws) = [(ws, true)] := by
  rw [List.count_eq_countP, List.countP_map, List.countP_eq_length_filter, List.length_eq_one_iff] at hcount
  obtain ⟨⟨x, ok⟩, hone⟩ := hcount
  have hmem : (x, ok) ∈ sends ∧ x = ws := by
    have hin : (x, ok) ∈ sends.filter ((· == ws) ∘ (·.1)) := by rw [hone]; exact List.mem_singleton.mpr rfl
    simpa using hin
  obtain ⟨hsent, rfl⟩ := hmem
  cases ok with
  | false => exact absurd hsent hfail
  | true => simpa [Function.comp_def] using hone

/-- In every run in which the set is changed only behind the iterator, as `ws` sees it,
    a broadcast that is over has sent `ws` the message once, if it stayed. -/
theorem staying_sent_once (h : (broadcasting room).Reach (Behind ws) (broadcastLocally m room) t)
    (hover : t.task.over) : SentOnce room m t ws := by
  intro hreg _ hfail
  have htrack : OnTrack ws t := h.invariant (onTrack_start hreg) fun _ _ _ hi hok hs => hi.step hok hs
  refine sent_of_count ?_ hfail
  cases htask : t.task with
  | sending a it dead cur => rw [htask] at hover; cases hover
  | finished | raised => simpa [OnTrack, Broadcast.taken, Task.current, htask] using htrack

/-! ## Two sockets and a third -/

def table (l : List Nat) (h : (l.map some).reduceOption.Nodup) : PySet Nat := ⟨l.map some, h⟩

theorem one_nodup : (([1] : List Nat).map some).reduceOption.Nodup := List.nodup_singleton 1

theorem two_nodup : (([1, 2] : List Nat).map some).reduceOption.Nodup := by decide

/-- A room with two sockets. -/
def lobby : Manager Nat Nat :=
  ((Manager.init.connect 0 1 (table [1] (by decide))).bind (·.connect 0 2 (table [1, 2] (by decide)))).get rfl

/-- A third connects while the broadcast sends to the last of the two. -/
def lateArrival : List (Event Nat Nat) := [.sent true, .connect 0 3 (table [3, 1, 2] (by decide)), .sent true]

def afterLate : Broadcast Nat Nat := ((broadcasting 0).runIf (Behind 2) (broadcastLocally lobby 0) lateArrival).get rfl

/-- The iterator raises, but both have been sent the message. -/
theorem late_arrival_sent : 2 ∈ lobby.registered 0 ∧ afterLate.task = .raised ∧
    afterLate.sends = [(1, true), (2, true)] ∧ SentOnce 0 lobby afterLate 2 :=
  have h : (broadcasting 0).Reach (Behind 2) (broadcastLocally lobby 0) afterLate :=
    Machine.reach_of_runIf _ (Option.some_get rfl).symm
  ⟨by decide, rfl, rfl, staying_sent_once h rfl⟩

/-- A third connects while the broadcast sends to the first of the two. -/
def earlyArrival : List (Event Nat Nat) := [.connect 0 3 (table [1, 2, 3] (by decide)), .sent true]

def afterEarly : Broadcast Nat Nat := ((broadcasting 0).run (broadcastLocally lobby 0) earlyArrival).get rfl

/-- The iterator raises with the second socket, which stays throughout, never sent to. -/
theorem connect_cuts_off : (broadcasting 0).Reach Machine.any (broadcastLocally lobby 0) afterEarly ∧
    afterEarly.task = .raised ∧ 2 ∈ afterEarly.mgr.registered 0 ∧ ¬ SentOnce 0 lobby afterEarly 2 :=
  ⟨Machine.reach_any_of_run _ (Option.some_get rfl).symm, rfl, by decide,
    fun h => nomatch h (by decide) (by decide) (by decide)⟩

end Playground.Rooms
