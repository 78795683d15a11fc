/-
  Playground.Rooms.Registry — the rooms under any number of connects, disconnects and
  broadcasts.

  A connect awaits the socket's accept and a broadcast each of its sends; whatever else
  the server does runs at these awaits. The log keeps the connects that completed and
  the disconnects that ran, a broadcast's own clean-up included.
  - `registry_exact`: no room is kept empty, a room holds the sockets connected to it
    and not disconnected since, and a clean-up removes only sockets it failed to reach.
  - `seen_alone`: one broadcast sees the others as connects and disconnects at its awaits.
-/

import Playground.Rooms.Broadcast

namespace Playground.Rooms

open Playground.Lib

variable {ι R W : Type}

/-! ## The server's tasks -/

/-- A call that has run. -/
inductive Call (R W : Type) where
  | connected (room : R) (ws : W)
  | disconnected (room : R) (ws : W)
deriving DecidableEq

/-- Where a task is: awaiting the accept of `connect`, or in a `broadcast_locally` with
    the sends it has awaited; `Task.raised` is also what a cancelled one is. -/
inductive Job (R W : Type) where
  | idle
  | accepting (room : R) (ws : W)
  | broadcasting (room : R) (task : Task W) (sends : List (W × Bool))
deriving DecidableEq

structure Registry (ι R W : Type) where
  mgr : Manager R W
  jobs : ι → Job R W
  log : List (Call R W)

inductive RegistryEvent (ι R W : Type) where
  | connect (i : ι) (room : R) (ws : W)
  | accepted (i : ι) (layout : PySet W)
  | refused (i : ι)
  | disconnect (room : R) (ws : W)
  | broadcast (i : ι) (room : R)
  | sent (i : ι) (ok : Bool)
  | cancelled (i : ι)

namespace Registry

/-- A new server, no task begun. -/
def init : Registry ι R W := ⟨.init, fun _ => .idle, []⟩

section Steps

variable [DecidableEq ι] [DecidableEq R] [DecidableEq W]

def goes (t : Registry ι R W) (i : ι) (job : Job R W) : Registry ι R W :=
  { t with jobs := Function.update t.jobs i job }

/-- `connect` after its await. -/
def connect (t : Registry ι R W) (room : R) (ws : W) (layout : PySet W) : Option (Registry ι R W) :=
  (t.mgr.connect room ws layout).map fun m => { t with mgr := m, log := t.log ++ [.connected room ws] }

/-- `disconnect`. -/
def disconnect (t : Registry ι R W) (room : R) (ws : W) : Registry ι R W :=
  { t with mgr := t.mgr.disconnect room ws, log := t.log ++ [.disconnected room ws] }

/-- `for dead in dead_connections: self.disconnect(room_id, dead)`. -/
def cleanup (t : Registry ι R W) (room : R) (dead : List W) : Registry ι R W :=
  dead.foldl (fun t ws => t.disconnect room ws) t

/-- The broadcast of task `i` goes on to the next member, or ends. -/
def advance (t : Registry ι R W) (i : ι) (room : R) (a : Nat) (it : PySet.Iter) (dead : List W)
    (sends : List (W × Bool)) : Registry ι R W :=
  match it.next (t.mgr.sets a) with
  | .raised => t.goes i (.broadcasting room .raised sends)
  | .stop => (t.cleanup room dead).goes i (.broadcasting room .finished sends)
  | .item ws it => t.goes i (.broadcasting room (.sending a it dead ws) sends)

end Steps

end Registry

variable [DecidableEq ι] [DecidableEq R] [DecidableEq W]

def registry : Machine (Registry ι R W) (RegistryEvent ι R W) where
  step t
    | .connect i room ws => if t.jobs i = .idle then some (t.goes i (.accepting room ws)) else none
    | .accepted i layout =>
      match t.jobs i with
      | .accepting room ws => (t.connect room ws layout).map fun t => t.goes i .idle
      | _ => none
    | .refused i =>
      match t.jobs i with
      | .accepting .. => some (t.goes i .idle)
      | _ => none
    | .disconnect room ws => some (t.disconnect room ws)
    | .broadcast i room =>
      if t.jobs i = .idle then
        match t.mgr.localRooms room with
        | none => some (t.goes i (.broadcasting room .finished []))
        | some a => some (t.advance i room a (t.mgr.sets a).iter [] [])
      else none
    | .sent i ok =>
      match t.jobs i with
      | .broadcasting room (.sending a it dead ws) sends =>
        some (t.advance i room a it (if ok then dead else dead.insert ws) (sends ++ [(ws, ok)]))
      | _ => none
    | .cancelled i =>
      match t.jobs i with
      | .accepting .. => some (t.goes i .idle)
      | .broadcasting room (.sending ..) sends => some (t.goes i (.broadcasting room .raised sends))
      | _ => none

/-! ## What a connect and a disconnect do to the rooms -/

namespace Manager

variable {m m' : Manager R W} {room r : R} {ws x : W} {layout : PySet W}

/-- No room is stored with an empty set. -/
def NoneEmpty (m : Manager R W) : Prop := ∀ r a, m.localRooms r = some a → (m.sets a).members ≠ []

omit [DecidableEq R] [DecidableEq W] in
theorem registered_of_some {a : Nat} (h : m.localRooms r = some a) : m.registered r = (m.sets a).members := by
  simp only [registered, h]

omit [DecidableEq R] [DecidableEq W] in
theorem registered_of_none (h : m.localRooms r = none) : m.registered r = [] := by
  simp only [registered, h]

omit [DecidableEq R] [DecidableEq W] in
/-- Without empty rooms, a room is stored when it has a member. -/
theorem NoneEmpty.absent (h : m.NoneEmpty) (hr : m.registered r = []) : m.localRooms r = none := by
  cases hl : m.localRooms r with
  | none => rfl
  | some a => exact absurd (registered_of_some hl ▸ hr) (h r a hl)

omit [DecidableEq R] [DecidableEq W] in
/-- Two rooms have two set objects. -/
theorem objects_ne {a b : Nat} (hr : r ≠ room) (hb : m.localRooms r = some b) (ha : m.localRooms room = some a) :
    b ≠ a := by
  rintro rfl
  exact hr (m.apart hb ha)

/-- A connect stores the room with a set that has the socket too, and leaves the others. -/
theorem connect_room (h : m.connect room ws layout = some m') :
    (∃ a, m'.localRooms room = some a ∧ ∀ x, x ∈ m'.sets a ↔ x = ws ∨ x ∈ m.registered room) ∧
      ∀ r, r ≠ room → m'.localRooms r = m.localRooms r ∧ ∀ a, m.localRooms r = some a → m'.sets a = m.sets a := by
  have hadd : ∀ {s s' : PySet W}, s.add ws layout = some s' → ∀ x, x ∈ s' ↔ x = ws ∨ x ∈ s := by
    intro s s' hs x
    rcases PySet.add_cases hs with ⟨hmem, rfl⟩ | ⟨-, hp⟩
    · constructor
      · exact .inr
      · rintro (rfl | hx)
        · exact hmem
        · exact hx
    · show x ∈ s'.members ↔ _
      rw [hp.mem_iff, List.mem_cons]
      rfl
  simp only [connect, entry] at h
  split at h
  · rename_i a ha
    obtain ⟨s, hs, rfl⟩ := Option.map_eq_some_iff.mp h
    refine ⟨⟨a, ha, fun x => ?_⟩, fun r hr => ⟨rfl, fun b hb => ?_⟩⟩
    · rw [put_sets_self, hadd hs, registered_of_some ha]
      rfl
    · exact put_sets_ne (objects_ne hr hb ha) s
  · rename_i hnone
    obtain ⟨s, hs, rfl⟩ := Option.map_eq_some_iff.mp h
    refine ⟨⟨m.fresh, Function.update_self .., fun x => ?_⟩, fun r hr => ⟨Function.update_of_ne hr .., fun b hb => ?_⟩⟩
    · rw [put_sets_self, hadd hs, registered_of_none hnone]
      simp [PySet.empty, Membership.mem, PySet.members]
    · have hne : b ≠ m.fresh := Nat.ne_of_lt (m.known hb)
      rw [put_sets_ne hne]
      exact Function.update_of_ne hne ..

theorem mem_registered_connect (h : m.connect room ws layout = some m') :
    x ∈ m'.registered r ↔ (r = room ∧ x = ws) ∨ x ∈ m.registered r := by
  obtain ⟨⟨a, ha, hmem⟩, hother⟩ := connect_room h
  by_cases hr : r = room
  · subst hr
    rw [registered_of_some ha]
    simp only [true_and]
    exact hmem x
  · obtain ⟨hl, hs⟩ := hother r hr
    simp only [hr, false_and, false_or, registered, hl]
    cases hm : m.localRooms r with
    | none => rfl
    | some b => simp only [hs b hm]

theorem NoneEmpty.connect (hne : m.NoneEmpty) (h : m.connect room ws layout = some m') : m'.NoneEmpty := by
  obtain ⟨⟨a, ha, hmem⟩, hother⟩ := connect_room h
  intro r b hb
  by_cases hr : r = room
  · subst hr
    cases ha.symm.trans hb
    exact List.ne_nil_of_mem ((hmem ws).mpr (.inl rfl))
  · obtain ⟨hl, hs⟩ := hother r hr
    rw [hl] at hb
    rw [hs b hb]
    exact hne r b hb

/-- A disconnect discards the socket from the room, which goes when that empties it. -/
theorem disconnect_room (m : Manager R W) (room : R) (ws : W) :
    (m.disconnect room ws).registered room = (m.registered room).filter (· ≠ ws) ∧
      (∀ a, (m.disconnect room ws).localRooms room = some a → ((m.disconnect room ws).sets a).members ≠ []) ∧
      ∀ r, r ≠ room → (m.disconnect room ws).localRooms r = m.localRooms r ∧
        ∀ a, m.localRooms r = some a → (m.disconnect room ws).sets a = m.sets a := by
  simp only [disconnect]
  split
  · rename_i hnone
    refine ⟨by rw [registered_of_none hnone, List.filter_nil], ?_, fun r _ => ⟨rfl, fun _ _ => rfl⟩⟩
    intro a ha
    rw [hnone] at ha
    cases ha
  · rename_i a ha
    have hother : ∀ r, r ≠ room → ∀ b, m.localRooms r = some b →
        (m.put a ((m.sets a).discard ws)).sets b = m.sets b :=
      fun r hr b hb => put_sets_ne (objects_ne hr hb ha) _
    have hleft : ((m.put a ((m.sets a).discard ws)).sets a).members = (m.registered room).filter (· ≠ ws) := by
      rw [put_sets_self, PySet.members_discard, registered_of_some ha]
    split
    · rename_i hempty
      have hgone : ((m.put a ((m.sets a).discard ws)).delete room).localRooms room = none := Function.update_self ..
      refine ⟨?_, ?_, fun r hr => ⟨Function.update_of_ne hr .., hother r hr⟩⟩
      · rw [registered_of_none hgone, ← hleft]
        exact (List.length_eq_zero_iff.mp hempty).symm
      · intro b hb
        rw [hgone] at hb
        cases hb
    · rename_i hsome
      have hkept : (m.put a ((m.sets a).discard ws)).localRooms room = some a := ha
      refine ⟨by rw [registered_of_some hkept, hleft], ?_, fun r hr => ⟨rfl, hother r hr⟩⟩
      intro b hb
      cases hkept.symm.trans hb
      exact fun he => hsome (List.length_eq_zero_iff.mpr he)

theorem mem_registered_disconnect :
    x ∈ (m.disconnect room ws).registered r ↔ x ∈ m.registered r ∧ ¬ (r = room ∧ x = ws) := by
  obtain ⟨hroom, -, hother⟩ := disconnect_room m room ws
  by_cases hr : r = room
  · subst hr
    rw [hroom, List.mem_filter]
    simp
  · obtain ⟨hl, hs⟩ := hother r hr
    simp only [hr, false_and, not_false_eq_true, and_true, registered, hl]
    cases hm : m.localRooms r with
    | none => rfl
    | some b => simp only [hs b hm]

theorem NoneEmpty.disconnect (hne : m.NoneEmpty) (room : R) (ws : W) : (m.disconnect room ws).NoneEmpty := by
  obtain ⟨-, hroom, hother⟩ := disconnect_room m room ws
  intro r b hb
  by_cases hr : r = room
  · subst hr
    exact hroom b hb
  · obtain ⟨hl, hs⟩ := hother r hr
    rw [hl] at hb
    rw [hs b hb]
    exact hne r b hb

end Manager

/-! ## The log -/

/-- A connect of `ws` to `room` completed, and no disconnect of it from there ran since. -/
def Stays (log : List (Call R W)) (room : R) (ws : W) : Prop :=
  ∃ before after, log = before ++ .connected room ws :: after ∧ .disconnected room ws ∉ after

omit [DecidableEq R] [DecidableEq W] in
theorem stays_snoc {log : List (Call R W)} {call : Call R W} {room : R} {ws : W} :
    Stays (log ++ [call]) room ws ↔
      call = .connected room ws ∨ (Stays log room ws ∧ call ≠ .disconnected room ws) := by
  constructor
  · rintro ⟨before, after, hlog, hafter⟩
    rcases split_snoc hlog with ⟨rest, rfl, hrest⟩ | ⟨-, hcall, -⟩
    · rw [List.mem_append, not_or] at hafter
      exact .inr ⟨⟨before, rest, hrest, hafter.1⟩, fun e => hafter.2 (List.mem_singleton.mpr e.symm)⟩
    · exact .inl hcall.symm
  · rintro (rfl | ⟨⟨before, after, rfl, hafter⟩, hne⟩)
    · exact ⟨log, [], rfl, List.not_mem_nil⟩
    · refine ⟨before, after ++ [call], by simp, ?_⟩
      rw [List.mem_append, not_or, List.mem_singleton]
      exact ⟨hafter, fun e => hne e.symm⟩

namespace Registry

variable {t t' : Registry ι R W} {i j : ι} {room r : R} {ws x : W} {layout : PySet W} {dead : List W}
  {sends : List (W × Bool)} {a : Nat} {it : PySet.Iter}

/-- No room is stored empty, and each holds the sockets that the log says stay in it. -/
structure Exact (t : Registry ι R W) : Prop where
  noneEmpty : t.mgr.NoneEmpty
  stays : ∀ room ws, ws ∈ t.mgr.registered room ↔ Stays t.log room ws

omit [DecidableEq ι] in
theorem exact_connect (h : t.Exact) (hc : t.connect room ws layout = some t') : t'.Exact := by
  obtain ⟨m, hm, rfl⟩ := Option.map_eq_some_iff.mp hc
  refine ⟨h.noneEmpty.connect hm, fun r x => ?_⟩
  rw [Manager.mem_registered_connect hm, stays_snoc, h.stays]
  constructor
  · rintro (⟨rfl, rfl⟩ | hx)
    · exact .inl rfl
    · exact .inr ⟨hx, nofun⟩
  · rintro (he | ⟨hx, -⟩)
    · cases he
      exact .inl ⟨rfl, rfl⟩
    · exact .inr hx

omit [DecidableEq ι] in
theorem exact_disconnect (h : t.Exact) (room : R) (ws : W) : (t.disconnect room ws).Exact := by
  refine ⟨h.noneEmpty.disconnect room ws, fun r x => ?_⟩
  show x ∈ (t.mgr.disconnect room ws).registered r ↔ Stays (t.log ++ [_]) r x
  rw [Manager.mem_registered_disconnect, stays_snoc, h.stays]
  constructor
  · rintro ⟨hx, hne⟩
    refine .inr ⟨hx, fun e => hne ?_⟩
    cases e
    exact ⟨rfl, rfl⟩
  · rintro (he | ⟨hx, hne⟩)
    · cases he
    · refine ⟨hx, ?_⟩
      rintro ⟨rfl, rfl⟩
      exact hne rfl

omit [DecidableEq ι] in
theorem exact_cleanup (h : t.Exact) (room : R) (dead : List W) : (t.cleanup room dead).Exact := by
  induction dead generalizing t with
  | nil => exact h
  | cons ws dead ih => exact ih (exact_disconnect h room ws)

omit [DecidableEq ι] in
/-- In whatever order a clean-up takes the dead connections. -/
theorem mem_cleanup : x ∈ (t.cleanup room dead).mgr.registered r ↔
    x ∈ t.mgr.registered r ∧ ¬ (r = room ∧ x ∈ dead) := by
  induction dead generalizing t with
  | nil => simp [cleanup]
  | cons ws dead ih =>
    have hnext : x ∈ ((t.disconnect room ws).cleanup room dead).mgr.registered r ↔ _ := ih
    show x ∈ ((t.disconnect room ws).cleanup room dead).mgr.registered r ↔ _
    rw [hnext]
    show x ∈ (t.mgr.disconnect room ws).registered r ∧ _ ↔ _
    rw [Manager.mem_registered_disconnect, List.mem_cons]
    grind

omit [DecidableEq R] [DecidableEq W] in
theorem exact_goes (h : t.Exact) (i : ι) (job : Job R W) : (t.goes i job).Exact := ⟨h.noneEmpty, h.stays⟩

theorem exact_advance (h : t.Exact) : (t.advance i room a it dead sends).Exact := by
  simp only [advance]
  split
  · exact exact_goes h ..
  · exact exact_goes (exact_cleanup h room dead) ..
  · exact exact_goes h ..

/-- What a broadcast removes as it goes on are its dead connections. -/
theorem advance_removes (hx : x ∈ t.mgr.registered r)
    (hgone : x ∉ (t.advance i room a it dead sends).mgr.registered r) : r = room ∧ x ∈ dead := by
  simp only [advance] at hgone
  split at hgone
  · exact absurd hx hgone
  · by_contra hne
    exact hgone (mem_cleanup.mpr ⟨hx, hne⟩)
  · exact absurd hx hgone

omit [DecidableEq ι] in
theorem cleanup_mgr (t : Registry ι R W) (room : R) (dead : List W) :
    (t.cleanup room dead).mgr = dead.foldl (fun m ws => m.disconnect room ws) t.mgr ∧
      (t.cleanup room dead).jobs = t.jobs := by
  induction dead generalizing t with
  | nil => exact ⟨rfl, rfl⟩
  | cons ws dead ih => exact ih (t.disconnect room ws)

/-- A broadcast goes on as it does by itself, and the other tasks are where they were. -/
theorem advance_eq : (t.advance i room a it dead sends).mgr = (Rooms.advance room t.mgr a it dead).1 ∧
    (t.advance i room a it dead sends).jobs =
      Function.update t.jobs i (.broadcasting room (Rooms.advance room t.mgr a it dead).2 sends) := by
  obtain ⟨hmgr, hjobs⟩ := cleanup_mgr t room dead
  cases hn : it.next (t.mgr.sets a) with
  | raised | item ws it' => simp only [advance, Rooms.advance, hn, goes, and_self]
  | stop => simp only [advance, Rooms.advance, hn, goes, hmgr, hjobs, and_self]

/-- What a step can do. -/
theorem step_cases {e : RegistryEvent ι R W} (h : registry.step t e = some t') :
    (∃ i job, t' = t.goes i job ∧ (∀ room task sends, job = .broadcasting room task sends → task.over) ∧
      ∀ room task sends, t.jobs i = .broadcasting room task sends → e = .cancelled i) ∨
    (∃ i room ws layout t₁, t.jobs i = .accepting room ws ∧ t.connect room ws layout = some t₁ ∧
      t' = t₁.goes i .idle) ∨
    (∃ room ws, e = .disconnect room ws ∧ t' = t.disconnect room ws) ∨
    (∃ i room a, t.jobs i = .idle ∧ t' = t.advance i room a (t.mgr.sets a).iter [] []) ∨
    (∃ i ok room a it dead ws sends, e = .sent i ok ∧
      t.jobs i = .broadcasting room (.sending a it dead ws) sends ∧
      t' = t.advance i room a it (if ok then dead else dead.insert ws) (sends ++ [(ws, ok)])) := by
  cases e with
  | connect i room ws =>
    obtain ⟨hidle, he⟩ := Option.ite_none_right_eq_some.mp h
    cases he
    exact .inl ⟨i, _, rfl, nofun, fun _ _ _ hj => nomatch hidle.symm.trans hj⟩
  | accepted i layout =>
    simp only [registry] at h
    split at h
    · obtain ⟨t₁, hc, rfl⟩ := Option.map_eq_some_iff.mp h
      exact .inr (.inl ⟨i, _, _, layout, t₁, ‹_›, hc, rfl⟩)
    · cases h
  | refused i =>
    simp only [registry] at h
    split at h
    · rename_i hj
      cases h
      exact .inl ⟨i, _, rfl, nofun, fun _ _ _ hj' => nomatch hj.symm.trans hj'⟩
    · cases h
  | disconnect room ws =>
    cases h
    exact .inr (.inr (.inl ⟨room, ws, rfl, rfl⟩))
  | broadcast i room =>
    obtain ⟨hidle, he⟩ := Option.ite_none_right_eq_some.mp h
    split at he
    · cases he
      refine .inl ⟨i, _, rfl, ?_, fun _ _ _ hj => nomatch hidle.symm.trans hj⟩
      intro _ _ _ hjob
      cases hjob
      rfl
    · cases he
      exact .inr (.inr (.inr (.inl ⟨i, room, _, hidle, rfl⟩)))
  | sent i ok =>
    simp only [registry] at h
    split at h
    · cases h
      exact .inr (.inr (.inr (.inr ⟨i, ok, _, _, _, _, _, _, rfl, ‹_›, rfl⟩)))
    · cases h
  | cancelled i =>
    simp only [registry] at h
    split at h
    · cases h
      exact .inl ⟨i, _, rfl, nofun, fun _ _ _ _ => rfl⟩
    · cases h
      refine .inl ⟨i, _, rfl, ?_, fun _ _ _ _ => rfl⟩
      intro _ _ _ hjob
      cases hjob
      rfl
    · cases h

/-! ## The invariant -/

/-- The dead connections of a broadcast are sockets whose send in it failed. -/
def DeadFailed (job : Job R W) : Prop :=
  ∀ room a it dead ws sends, job = .broadcasting room (.sending a it dead ws) sends → ∀ x ∈ dead, (x, false) ∈ sends

structure Inv (t : Registry ι R W) : Prop where
  exact : t.Exact
  dead : ∀ i, DeadFailed (t.jobs i)

omit [DecidableEq R] [DecidableEq W] in
theorem deadFailed_goes (h : ∀ j, DeadFailed (t.jobs j)) {job : Job R W} (hjob : DeadFailed job) (j : ι) :
    DeadFailed ((t.goes i job).jobs j) := by
  show DeadFailed (Function.update t.jobs i job j)
  by_cases e : j = i
  · subst e
    rwa [Function.update_self]
  · rw [Function.update_of_ne e]
    exact h j

theorem deadFailed_advance (h : ∀ j, DeadFailed (t.jobs j)) (hdead : ∀ x ∈ dead, (x, false) ∈ sends) (j : ι) :
    DeadFailed ((t.advance i room a it dead sends).jobs j) := by
  rw [advance_eq.2]
  by_cases e : j = i
  · subst e
    rw [Function.update_self]
    intro r b it' dead' ws sends' he
    obtain ⟨-, htask, rfl⟩ := Job.broadcasting.inj he
    simp only [Rooms.advance] at htask
    split at htask <;> cases htask
    exact hdead
  · rw [Function.update_of_ne e]
    exact h j

/-- A failed send makes its socket a dead connection. -/
theorem dead_insert {ok : Bool} (h : ∀ x ∈ dead, (x, false) ∈ sends) :
    ∀ x ∈ (if ok then dead else dead.insert ws), (x, false) ∈ sends ++ [(ws, ok)] := by
  intro x hx
  cases ok with
  | true => exact List.mem_append_left _ (h x hx)
  | false =>
    rcases List.mem_insert_iff.mp hx with rfl | hx
    · exact List.mem_append_right _ (List.mem_singleton.mpr rfl)
    · exact List.mem_append_left _ (h x hx)

omit [DecidableEq R] [DecidableEq W] in
theorem deadFailed_over {job : Job R W} (h : ∀ room task sends, job = .broadcasting room task sends → task.over) :
    DeadFailed job := by
  rintro room a it dead ws sends rfl
  exact nomatch h _ _ _ rfl

theorem Inv.step {e : RegistryEvent ι R W} (h : t.Inv) (hs : registry.step t e = some t') : t'.Inv := by
  rcases step_cases hs with ⟨i, job, rfl, hover, -⟩ | ⟨i, room, ws, layout, t₁, -, hc, rfl⟩ | ⟨room, ws, -, rfl⟩ |
    ⟨i, room, a, -, rfl⟩ | ⟨i, ok, room, a, it, dead, ws, sends, -, hj, rfl⟩
  · exact ⟨exact_goes h.exact .., deadFailed_goes h.dead (deadFailed_over hover)⟩
  · have hjobs : t₁.jobs = t.jobs := by
      obtain ⟨m, -, rfl⟩ := Option.map_eq_some_iff.mp hc
      rfl
    exact ⟨exact_goes (exact_connect h.exact hc) .., deadFailed_goes (hjobs ▸ h.dead) (deadFailed_over nofun)⟩
  · exact ⟨exact_disconnect h.exact room ws, h.dead⟩
  · exact ⟨exact_advance h.exact, deadFailed_advance h.dead nofun⟩
  · exact ⟨exact_advance h.exact, deadFailed_advance h.dead (dead_insert (h.dead i _ _ _ _ _ _ hj))⟩

omit [DecidableEq ι] [DecidableEq R] [DecidableEq W] in
theorem inv_init : (init : Registry ι R W).Inv := by
  refine ⟨⟨nofun, fun room ws => ?_⟩, fun i => deadFailed_over nofun⟩
  constructor
  · intro h
    cases h
  · rintro ⟨before, after, hlog, -⟩
    cases before <;> cases hlog

/-- What takes a socket out of a room is a disconnect, or the clean-up of a broadcast
    there that failed to send to it. -/
theorem Inv.removed {e : RegistryEvent ι R W} (h : t.Inv) (hs : registry.step t e = some t')
    (hx : x ∈ t.mgr.registered r) (hgone : x ∉ t'.mgr.registered r) :
    e = .disconnect r x ∨ ∃ i ok task sends, e = .sent i ok ∧ t'.jobs i = .broadcasting r task sends ∧
      (x, false) ∈ sends := by
  rcases step_cases hs with ⟨i, job, rfl, -, -⟩ | ⟨i, room, ws, layout, t₁, -, hc, rfl⟩ | ⟨room, ws, rfl, rfl⟩ |
    ⟨i, room, a, -, rfl⟩ | ⟨i, ok, room, a, it, dead, ws, sends, rfl, hj, rfl⟩
  · exact absurd hx hgone
  · obtain ⟨m, hm, rfl⟩ := Option.map_eq_some_iff.mp hc
    exact absurd ((Manager.mem_registered_connect hm).mpr (.inr hx)) hgone
  · have hboth : r = room ∧ x = ws := by
      by_contra hne
      exact hgone (Manager.mem_registered_disconnect.mpr ⟨hx, hne⟩)
    obtain ⟨rfl, rfl⟩ := hboth
    exact .inl rfl
  · exact nomatch (advance_removes hx hgone).2
  · obtain ⟨rfl, hdead⟩ := advance_removes hx hgone
    have hfailed := dead_insert (h.dead i _ _ _ _ _ _ hj) x hdead
    exact .inr ⟨i, ok, _, _, rfl, by rw [advance_eq.2, Function.update_self], hfailed⟩

/-- Whatever connects, disconnects and broadcasts run side by side, with any accepts and
    sends failing:
    - no room is stored with an empty set;
    - a room's set is the sockets whose connect to it completed and that have not been
      disconnected from it since, directly or by a clean-up;
    - a step takes a socket out of a room only if it is its disconnect, or the clean-up
      of a broadcast to that room in which the send to it failed;
    - when nobody stays, no room is stored. -/
theorem registry_exact (h : registry.Reach Machine.any (init : Registry ι R W) t) :
    (∀ room a, t.mgr.localRooms room = some a → (t.mgr.sets a).members ≠ []) ∧
    (∀ room ws, ws ∈ t.mgr.registered room ↔ Stays t.log room ws) ∧
    (∀ e t', registry.step t e = some t' →
      ∀ room ws, ws ∈ t.mgr.registered room → ws ∉ t'.mgr.registered room →
        e = .disconnect room ws ∨ ∃ i ok task sends, e = .sent i ok ∧
          t'.jobs i = .broadcasting room task sends ∧ (ws, false) ∈ sends) ∧
    ((∀ room ws, ¬ Stays t.log room ws) → ∀ room, t.mgr.localRooms room = none) := by
  have hi : t.Inv := h.invariant inv_init fun _ _ _ hi _ hs => hi.step hs
  refine ⟨hi.exact.noneEmpty, hi.exact.stays, fun e t' hs room ws hx hgone => hi.removed hs hx hgone, ?_⟩
  intro hnone room
  apply hi.exact.noneEmpty.absent
  rw [List.eq_nil_iff_forall_not_mem]
  intro ws hws
  exact hnone room ws ((hi.exact.stays room ws).mp hws)

/-- A room with two sockets. One disconnects and connects again while a broadcast sends
    to it, and that send fails. -/
def rejoin : List (RegistryEvent Nat Nat Nat) :=
  [.connect 0 0 1, .accepted 0 (table [1] one_nodup), .connect 0 0 2, .accepted 0 (table [1, 2] two_nodup),
   .broadcast 1 0, .disconnect 0 1, .connect 0 0 1, .accepted 0 (table [1, 2] two_nodup),
   .sent 1 false, .sent 1 true]

def afterRejoin : Registry Nat Nat Nat := (registry.run init rejoin).get rfl

/-- The clean-up takes it out again, the other stays. -/
theorem rejoined_removed : afterRejoin.mgr.registered 0 = [2] ∧ Stays afterRejoin.log 0 2 ∧
    ¬ Stays afterRejoin.log 0 1 :=
  have h := registry_exact (Machine.reach_any_of_run rejoin (Option.some_get (x := registry.run init rejoin) rfl).symm)
  ⟨rfl, (h.2.1 0 2).mp (by decide), fun hs => absurd ((h.2.1 0 1).mpr hs) (by decide)⟩

/-! ## One broadcast among them -/

omit [DecidableEq ι] in
/-- A clean-up is a row of disconnects. -/
theorem cleanup_seen (room : R) (b : Broadcast R W) (hb : b.mgr = t.mgr) (r : R) (dead : List W) :
    ∃ b', (broadcasting room).Reach Machine.any b b' ∧ b'.mgr = (t.cleanup r dead).mgr ∧ b'.task = b.task ∧
      b'.sends = b.sends := by
  induction dead generalizing t b with
  | nil => exact ⟨b, .init, hb, rfl, rfl⟩
  | cons ws dead ih =>
    have hstep : (broadcasting room).step b (.disconnect r ws) =
        some { b with mgr := b.mgr.disconnect r ws, left := b.left ++ [(r, ws)] } := rfl
    obtain ⟨b', hreach, hmgr, htask, hsends⟩ :=
      ih (t := t.disconnect r ws) { b with mgr := b.mgr.disconnect r ws, left := b.left ++ [(r, ws)] }
        (congrArg (·.disconnect r ws) hb)
    have hfirst : (broadcasting room).Reach Machine.any b
        { b with mgr := b.mgr.disconnect r ws, left := b.left ++ [(r, ws)] } := .step _ .init trivial hstep
    exact ⟨b', hfirst.trans hreach, hmgr, htask, hsends⟩

/-- Another task's broadcast goes on: at most, that is its clean-up. -/
theorem advance_seen (room : R) (b : Broadcast R W) (hb : b.mgr = t.mgr) :
    ∃ b', (broadcasting room).Reach Machine.any b b' ∧ b'.mgr = (t.advance j r a it dead sends).mgr ∧
      b'.task = b.task ∧ b'.sends = b.sends := by
  cases hn : it.next (t.mgr.sets a) with
  | raised | item ws it' => exact ⟨b, .init, by simpa [advance, hn, goes] using hb, rfl, rfl⟩
  | stop => simpa [advance, hn, goes] using cleanup_seen room b hb r dead

/-- The registry as the broadcast of task `i` sees it. -/
def Sees (i : ι) (room : R) (t : Registry ι R W) (b : Broadcast R W) : Prop :=
  b.mgr = t.mgr ∧ t.jobs i = .broadcasting room b.task b.sends

theorem Sees.advance {b : Broadcast R W} (h : Sees i room t b) (hne : i ≠ j) :
    ∃ b', (broadcasting room).Reach Machine.any b b' ∧ Sees i room (t.advance j r a it dead sends) b' := by
  obtain ⟨b', hreach, hmgr, htask, hsends⟩ := advance_seen room b h.1
  refine ⟨b', hreach, hmgr, ?_⟩
  rw [advance_eq.2, Function.update_of_ne hne, htask, hsends]
  exact h.2

theorem Sees.step {b : Broadcast R W} {e : RegistryEvent ι R W} (h : Sees i room t b) (he : e ≠ .cancelled i)
    (hs : registry.step t e = some t') :
    ∃ b', (broadcasting room).Reach Machine.any b b' ∧ Sees i room t' b' := by
  obtain ⟨hmgr, hjob⟩ := h
  rcases step_cases hs with ⟨k, job, rfl, -, hk⟩ | ⟨k, r, ws, layout, t₁, hk, hc, rfl⟩ | ⟨r, ws, -, rfl⟩ |
    ⟨k, r, a, hk, rfl⟩ | ⟨k, ok, r, a, it, dead, ws, sends, -, hk, rfl⟩
  · have hne : i ≠ k := by
      rintro rfl
      exact he (hk _ _ _ hjob)
    exact ⟨b, .init, hmgr, (Function.update_of_ne hne ..).trans hjob⟩
  · obtain ⟨m, hm, rfl⟩ := Option.map_eq_some_iff.mp hc
    have hne : i ≠ k := by
      rintro rfl
      cases hk.symm.trans hjob
    have hstep : (broadcasting room).step b (.connect r ws layout) = some { b with mgr := m } := by
      simp only [broadcasting, hmgr, hm, Option.map_some]
    exact ⟨_, .step _ .init trivial hstep, rfl, (Function.update_of_ne hne ..).trans hjob⟩
  · have hstep : (broadcasting room).step b (.disconnect r ws) =
        some { b with mgr := b.mgr.disconnect r ws, left := b.left ++ [(r, ws)] } := rfl
    exact ⟨_, .step _ .init trivial hstep, congrArg (·.disconnect r ws) hmgr, hjob⟩
  · have hne : i ≠ k := by
      rintro rfl
      cases hk.symm.trans hjob
    exact Sees.advance ⟨hmgr, hjob⟩ hne
  · by_cases hki : i = k
    · subst hki
      obtain ⟨rfl, htask, hsends⟩ := Job.broadcasting.inj (hk.symm.trans hjob)
      have hstep : (broadcasting r).step b (.sent ok) = some ⟨(Rooms.advance r t.mgr a it (if ok then dead else
          dead.insert ws)).1, (Rooms.advance r t.mgr a it (if ok then dead else dead.insert ws)).2,
          sends ++ [(ws, ok)], b.left⟩ := by
        simp only [broadcasting, ← htask, hmgr, hsends]
      exact ⟨_, .step _ .init trivial hstep, advance_eq.1.symm, by rw [advance_eq.2, Function.update_self]⟩
    · exact Sees.advance ⟨hmgr, hjob⟩ hki

/-- As long as it is not cancelled, a broadcast among any others is in a state that it
    could be in with connects and disconnects alone at its awaits. -/
theorem seen_alone {b : Broadcast R W} (h0 : Sees i room t b)
    (h : registry.Reach (fun _ e => e ≠ .cancelled i) t t') :
    ∃ b', (broadcasting room).Reach Machine.any b b' ∧ Sees i room t' b' := by
  induction h with
  | init => exact ⟨b, .init, h0⟩
  | step e _ he hs ih =>
    obtain ⟨b₁, hreach, hsees⟩ := ih
    obtain ⟨b₂, hnext, hsees'⟩ := hsees.step he hs
    exact ⟨b₂, hreach.trans hnext, hsees'⟩

end Registry

end Playground.Rooms
