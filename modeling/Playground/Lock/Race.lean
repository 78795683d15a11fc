/-
  Playground.Lock.Race — what purchases without the lock can sell
  (`purchase_without_lock`).

  The endpoint is there to show a race: the buyers that read the stock before any of them
  writes it are all sold from the same stock.
  - `oversold`: however many buyers there are, each content with the stock by itself, they
    may all be told that they have bought, and the stock is down by one purchase only.

  `Range` says what no race can do: take the stock below zero.
-/

import Mathlib.Data.Fintype.Basic
import Playground.Lib.Round
import Playground.Lock.Range

namespace Playground.Lock

open Playground.Lib Playground.Redis

variable {ι : Type} (py : IntText) (item : String)

/-! ## An unlocked purchase between its commands -/

/-- A purchase that is to leave `new` in stock: from its `SET` on. -/
def setting (new : Int) : Prog ι Reply :=
  (await (.set (stockKey item) (py.str new))).bind fun _ => .ret (some ⟨true, "Purchase successful", new⟩)

/-- From its sleep on. -/
def delaying (new : Int) : Prog ι Reply := (await (.sleep 10)).bind fun _ => setting py item new

variable {py item} {n q : Int} {i : ι}

section Turns

variable [DecidableEq ι]

theorem turns_reading (hq : q ≤ n) :
    Turns memory (fun m => m.stock item = some (py.str n)) i (serve py item i (.withoutLock q))
      (delaying py item (n - q)) := by
  refine ⟨.get (stockKey item), _, (), .ok (some (py.str n)), rfl, ?_, fun m hm => ⟨m, ?_, hm⟩⟩
  · show ((readStock py (some (py.str n))).bind _).bind _ = _
    simp only [readStock, py.int_str, pure, Co.ret_bind, if_neg (Int.not_lt.mpr hq), Co.bind_eq, Co.bind_assoc]
    rfl
  · exact congrArg (fun val => some (Except.ok val, m)) hm

theorem turns_delaying (inv : Mem ι → Prop) (new : Int) :
    Turns memory inv i (delaying py item new) (setting py item new) :=
  ⟨.sleep 10, _, (), .ok (), rfl, rfl, fun m hm => ⟨m, rfl, hm⟩⟩

theorem turns_setting (new : Int) :
    Turns memory (fun _ : Mem ι => True) i (setting py item new) (.ret (some ⟨true, "Purchase successful", new⟩)) :=
  ⟨.set (stockKey item) (py.str new), _, (), .ok (), rfl, rfl, fun m _ => ⟨m.setStock item (py.str new), rfl, trivial⟩⟩

/-- The last `SET` is the one that stays. -/
theorem last_set {new : Int} {s : Serving ι} (hi : s.thr i = setting py item new) :
    ∃ s', (threads memory).Reach Machine.any s s' ∧ s'.mem.stock item = some (py.str new) ∧
      s'.thr i = .ret (some ⟨true, "Purchase successful", new⟩) ∧ ∀ j, j ≠ i → s'.thr j = s.thr j := by
  have hstep : (threads memory).step s (.run i ()) = some ⟨s.mem.setStock item (py.str new),
      Function.update s.thr i (.ret (some ⟨true, "Purchase successful", new⟩)),
      s.log ++ [.did i (.set (stockKey item) (py.str new)) (.ok ())]⟩ := by
    simp only [threads, hi]
    rfl
  exact ⟨_, .step _ .init trivial hstep, Mem.stock_setStock .., Function.update_self ..,
    fun j hj => Function.update_of_ne hj ..⟩

end Turns

/-! ## The race -/

variable [DecidableEq ι] {req : ι → Request}

/-- Any number of buyers without the lock, each of no more than is in stock: they may all
    buy, and any one of them may be the one whose purchase the stock shows. -/
theorem oversold {m : Mem ι} (hm : m.stock item = some (py.str n)) (buyers : Finset ι)
    (hreq : ∀ i ∈ buyers, ∃ q ≤ n, req i = .withoutLock q) {last : ι} (hlast : last ∈ buyers) :
    ∃ s : Serving ι, (threads memory).Reach Machine.any (start m fun i => serve py item i (req i)) s ∧
      (∀ i ∈ buyers, s.thr i = .ret (some ⟨true, "Purchase successful", n - (req i).quantity⟩)) ∧
      s.mem.stock item = some (py.str (n - (req last).quantity)) := by
  have hq : ∀ i ∈ buyers, (req i).quantity ≤ n ∧ req i = .withoutLock (req i).quantity := by
    intro i hi
    obtain ⟨q, hq, h⟩ := hreq i hi
    rw [h]
    exact ⟨hq, rfl⟩
  -- all of them read, and all of them sleep
  obtain ⟨s₁, hreach₁, -, hread, -⟩ := threads_round (M := memory (O := ι))
    (fun m => m.stock item = some (py.str n)) (fun i => delaying py item (n - (req i).quantity)) buyers.nodup_toList
    (s := start m fun i => serve py item i (req i)) hm fun i hi => by
      obtain ⟨hle, heq⟩ := hq i (Finset.mem_toList.mp hi)
      change Turns memory _ i (serve py item i (req i)) _
      rw [heq]
      exact turns_reading hle
  obtain ⟨s₂, hreach₂, -, hslept, -⟩ := threads_round (M := memory (O := ι)) (s := s₁) (fun _ => True)
    (fun i => setting py item (n - (req i).quantity)) buyers.nodup_toList trivial fun i hi => by
      rw [hread i hi]
      exact turns_delaying _ _
  -- all but the last write, and then it does
  obtain ⟨s₃, hreach₃, -, hwrote, hrest⟩ := threads_round (M := memory (O := ι)) (s := s₂) (fun _ => True)
    (fun i => .ret (some ⟨true, "Purchase successful", n - (req i).quantity⟩)) (buyers.erase last).nodup_toList
    trivial fun i hi => by
      rw [hslept i (Finset.mem_toList.mpr (Finset.mem_of_mem_erase (Finset.mem_toList.mp hi)))]
      exact turns_setting _
  have hwriting : s₃.thr last = setting py item (n - (req last).quantity) :=
    (hrest last (by simp)).trans (hslept last (Finset.mem_toList.mpr hlast))
  obtain ⟨s₄, hreach₄, hstock, hsold, hothers⟩ := last_set hwriting
  refine ⟨s₄, ((hreach₁.trans hreach₂).trans hreach₃).trans hreach₄, fun i hi => ?_, hstock⟩
  by_cases e : i = last
  · subst e
    exact hsold
  · exact (hothers i e).trans (hwrote i (Finset.mem_toList.mpr (Finset.mem_erase.mpr ⟨e, hi⟩)))

/-! ## Three buyers of one item -/

def oneOfOne (_ : Client) : Request := .withoutLock 1

def oneInStock : Mem Client := ⟨Strings.set (fun _ => none) (stockKey "x") "1", fun _ => none⟩

def everyone : Finset Client := {.admin, .careful, .hasty}

theorem three_sold : ∃ s : Serving Client,
    (threads memory).Reach Machine.any (start oneInStock fun i => serve .decimal "x" i (oneOfOne i)) s ∧
      (∀ i ∈ everyone, s.thr i = .ret (some ⟨true, "Purchase successful", 1 - (oneOfOne i).quantity⟩)) ∧
      s.mem.stock "x" = some (IntText.decimal.str (1 - (oneOfOne .hasty).quantity)) := by
  have hm : oneInStock.stock "x" = some (IntText.decimal.str 1) := by decide
  have hlast : Client.hasty ∈ everyone := by decide
  exact oversold hm everyone (fun i _ => ⟨1, Int.le_refl 1, rfl⟩) hlast

end Playground.Lock
