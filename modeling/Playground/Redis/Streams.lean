/-
  Playground.Redis.Streams — a Redis stream with one consumer group: `XADD`,
  `XGROUP CREATE ... 0 MKSTREAM`, `XREADGROUP ... >`, `XACK`.

  Entries are never trimmed, so an entry's id is its position in the stream. The group
  keeps how many entries it has handed out, and the pending list: which consumer each
  unacknowledged entry was handed to. A read with the id `>` hands out entries that no
  read has handed out before, to one reader.
-/

namespace Playground.Redis

structure Group where
  /-- The entries before it have been handed out. -/
  cursor : Nat
  pending : List (Nat × String)
  deriving DecidableEq, Repr

structure Stream (μ : Type) where
  entries : List μ
  group : Option Group
  deriving DecidableEq, Repr

namespace Stream

variable {μ : Type} (s : Stream μ)

def empty : Stream μ := ⟨[], none⟩

/-- How many entries have been handed out. -/
def cursor : Nat := (s.group.map (·.cursor)).getD 0

def pending : List (Nat × String) := (s.group.map (·.pending)).getD []

/-- `XADD`: the id of the new entry, and the stream after. -/
def xadd (m : μ) : Nat × Stream μ := (s.entries.length, { s with entries := s.entries ++ [m] })

/-- `XGROUP CREATE ... 0 MKSTREAM`; `none` for the reply `BUSYGROUP`. -/
def xgroupCreate : Option (Stream μ) :=
  match s.group with
  | none => some { s with group := some ⟨0, []⟩ }
  | some _ => none

/-- `XGROUP CREATE ... $ MKSTREAM`: the group starts behind the last entry. -/
def xgroupCreateLatest : Option (Stream μ) :=
  match s.group with
  | none => some { s with group := some ⟨s.entries.length, []⟩ }
  | some _ => none

/-- The first `count` entries from position `pos` on, with their ids. -/
def entriesFrom (pos count : Nat) : List (Nat × μ) :=
  (((s.entries.drop pos).take count).zipIdx pos).map Prod.swap

/-- `XREADGROUP ... COUNT count STREAMS ... >`: the entries handed to the consumer, and
    the stream after; `none` for the reply `NOGROUP`. -/
def xreadgroup (consumer : String) (count : Nat) : Option (List (Nat × μ) × Stream μ) :=
  s.group.map fun g =>
    let new := s.entriesFrom g.cursor count
    (new, { s with group := some ⟨g.cursor + new.length, g.pending ++ new.map fun e => (e.1, consumer)⟩ })

/-- `XACK ... id`. -/
def xack (id : Nat) : Stream μ :=
  { s with group := s.group.map fun g => { g with pending := g.pending.filter fun e => e.1 ≠ id } }

variable {s}

@[simp] theorem xadd_entries (m : μ) : (s.xadd m).2.entries = s.entries ++ [m] := rfl
@[simp] theorem xack_entries (id : Nat) : (s.xack id).entries = s.entries := rfl

@[simp] theorem xack_cursor (id : Nat) : (s.xack id).cursor = s.cursor := by
  cases h : s.group <;> simp [xack, cursor, h]

@[simp] theorem mem_pending_xack {id : Nat} {e : Nat × String} :
    e ∈ (s.xack id).pending ↔ e ∈ s.pending ∧ e.1 ≠ id := by
  cases h : s.group <;> simp [xack, pending, h]

/-- A new group has handed out nothing, as none has. -/
theorem xgroupCreate_same {s' : Stream μ} (h : s.xgroupCreate = some s') :
    s'.entries = s.entries ∧ s'.cursor = s.cursor ∧ s'.pending = s.pending := by
  unfold xgroupCreate at h
  split at h
  · rename_i hg
    cases h
    simp [cursor, pending, hg]
  · cases h

/-- A new group that starts behind the last entry passes over those there are. -/
theorem xgroupCreateLatest_same {s' : Stream μ} (h : s.xgroupCreateLatest = some s') :
    s.group = none ∧ s'.entries = s.entries ∧ s'.cursor = s.entries.length := by
  unfold xgroupCreateLatest at h
  split at h
  · cases h
    exact ⟨‹_›, rfl, rfl⟩
  · cases h

/-- A read leaves the entries, and moves the cursor no way but on. -/
theorem xreadgroup_grows {consumer : String} {count : Nat} {new : List (Nat × μ)} {s' : Stream μ}
    (h : s.xreadgroup consumer count = some (new, s')) : s'.entries = s.entries ∧ s.cursor ≤ s'.cursor := by
  obtain ⟨g, hg, hs⟩ := Option.map_eq_some_iff.mp h
  cases hs
  exact ⟨rfl, by simp [cursor, hg]⟩

/-- A read takes nothing off the pending list. -/
theorem pending_xreadgroup {consumer : String} {count : Nat} {new : List (Nat × μ)} {s' : Stream μ}
    (h : s.xreadgroup consumer count = some (new, s')) {e : Nat × String} (he : e ∈ s.pending) : e ∈ s'.pending := by
  obtain ⟨g, hg, hs⟩ := Option.map_eq_some_iff.mp h
  cases hs
  simp only [pending, hg] at he
  exact List.mem_append_left _ he

/-- A read of one entry gets the one at the cursor, or there is none. -/
theorem entriesFrom_one (pos : Nat) : (s.entriesFrom pos 1 = [] ∧ s.entries.length ≤ pos) ∨
    ∃ m, s.entries[pos]? = some m ∧ s.entriesFrom pos 1 = [(pos, m)] := by
  unfold entriesFrom
  cases h : s.entries.drop pos with
  | nil => exact .inl ⟨rfl, by simpa using h⟩
  | cons m rest =>
    have hm : s.entries[pos]? = some m := by
      rw [← List.head?_drop, h, List.head?_cons]
    exact .inr ⟨m, hm, rfl⟩

/-- What a read of one entry does: nothing new, or the entry at the cursor is handed
    out and pending. -/
theorem xreadgroup_one {consumer : String} {new : List (Nat × μ)} {s' : Stream μ}
    (h : s.xreadgroup consumer 1 = some (new, s')) :
    (new = [] ∧ s' = s ∧ s.entries.length ≤ s.cursor) ∨
      ∃ m, s.entries[s.cursor]? = some m ∧ new = [(s.cursor, m)] ∧ s'.entries = s.entries ∧
        s'.cursor = s.cursor + 1 ∧ s'.pending = s.pending ++ [(s.cursor, consumer)] := by
  obtain ⟨g, hg, he⟩ := Option.map_eq_some_iff.mp h
  have hcur : s.cursor = g.cursor := by simp [cursor, hg]
  have hpend : s.pending = g.pending := by simp [pending, hg]
  rcases s.entriesFrom_one g.cursor with ⟨hnew, hlen⟩ | ⟨m, hm, hnew⟩
  · simp only [hnew, Prod.mk.injEq] at he
    obtain ⟨rfl, rfl⟩ := he
    refine .inl ⟨rfl, ?_, hcur ▸ hlen⟩
    cases s
    simpa using hg.symm
  · simp only [hnew, Prod.mk.injEq] at he
    obtain ⟨rfl, rfl⟩ := he
    exact .inr ⟨m, hcur ▸ hm, by rw [hcur], rfl, by simp [cursor, hg], by simp [pending, hg, hcur]⟩

end Stream

end Playground.Redis
