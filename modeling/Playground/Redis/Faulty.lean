/-
  Playground.Redis.Faulty — commands whose client may be thrown an exception.

  A command that goes wrong may have taken effect: the connection is lost before it
  reaches Redis, or before its answer comes back. A `fault` says which, and what is
  thrown (`faulty`).
-/

namespace Playground.Redis

variable {X α σ δ : Type}

/-- What comes of a command that by itself answers and leaves the database as in `r`. -/
def faulty (fault : Option (Bool × X)) (m : σ) (r : α × σ) : Except X α × σ :=
  match fault with
  | none => (.ok r.1, r.2)
  | some (effect, e) => (.error e, if effect then r.2 else m)

variable {fault : Option (Bool × X)} {m : σ} {r : α × σ}

/-- Seen through `f`, it is such a command on what `f` shows. -/
theorem faulty_seen (f : σ → δ) (fault : Option (Bool × X)) (m : σ) (r : α × σ) :
    faulty fault (f m) (r.1, f r.2) = ((faulty fault m r).1, f (faulty fault m r).2) := by
  rcases fault with - | ⟨_ | _, e⟩ <;> rfl

/-- What the command leaves as it was, it leaves so when it goes wrong. -/
theorem faulty_keeps {f : σ → δ} (h : f r.2 = f m) : f (faulty fault m r).2 = f m := by
  rcases fault with - | ⟨_ | _, e⟩
  · exact h
  · rfl
  · exact h

/-- An answer shows that nothing went wrong. -/
theorem faulty_ok {a : α} (h : (faulty fault m r).1 = .ok a) : r.1 = a ∧ (faulty fault m r).2 = r.2 := by
  cases fault with
  | none => exact ⟨Except.ok.inj h, rfl⟩
  | some x => cases h

end Playground.Redis
