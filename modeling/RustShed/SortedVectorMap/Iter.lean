import Mathlib.Data.List.Basic
import Mathlib.Algebra.Group.Nat.Basic

/- Rust iterators as states with a `next` function.

   Every iterator of `set.rs` is finite: each call of `next` that yields consumes input. An
   `Iter σ α` is a `next : σ → Option (α × σ)` together with a measure it shrinks, so that
   `collect` (every item, in order) is a function. The adapters the source writes by hand,
   a `for` loop over an inner iterator that returns the first item a `match` keeps, are
   `Iterator::find_map`, and `filterMap` makes one an iterator again; collecting it is
   filtering the inner collection (`collect_filterMap`).

   `advance it s n` is the state after `n` calls of `next`, and `HintSound` says what a
   `size_hint` promises about the items still to come.

   A `Peekable` over a slice or vector iterator, once peeked, holds the peeked item and
   the rest; both are the items not yet given out, and its `size_hint` counts them exactly.
   Such a `Peekable` is the list of its remaining items here. -/
namespace SortedVectorMap

/-- An iterator: `next` from a state, with a measure that every step shrinks. -/
structure Iter (σ α : Type) where
  next : σ → Option (α × σ)
  size : σ → Nat
  next_size : ∀ s a s', next s = some (a, s') → size s' < size s

namespace Iter

variable {σ α β : Type} (it : Iter σ β)

/-- `Iterator::collect` into a vector. -/
def collect (s : σ) : List β :=
  match _h : it.next s with
  | none => []
  | some (a, s') => a :: collect s'
termination_by it.size s
decreasing_by exact it.next_size _ _ _ ‹_›

variable {it}

theorem collect_of_next_none {s : σ} (h : it.next s = none) : it.collect s = [] := by
  rw [collect]; split <;> simp_all

theorem collect_of_next_some {s s' : σ} {a : β} (h : it.next s = some (a, s')) :
    it.collect s = a :: it.collect s' := by
  rw [collect]; split <;> simp_all

theorem next_eq_none_iff {s : σ} : it.next s = none ↔ it.collect s = [] := by
  cases h : it.next s with
  | none => exact iff_of_true rfl (collect_of_next_none h)
  | some as' => exact iff_of_false (by simp) (by rw [collect_of_next_some h]; simp)

/-- Induction along a run: what holds where `next` stops, and holds before a step whenever
it holds after it, holds everywhere. -/
theorem induction {motive : σ → Prop} (done : ∀ s, it.next s = none → motive s)
    (step : ∀ s a s', it.next s = some (a, s') → motive s' → motive s) (s : σ) : motive s := by
  generalize hn : it.size s = n
  induction n using Nat.strong_induction_on generalizing s with
  | _ n ih =>
    cases hs : it.next s with
    | none => exact done s hs
    | some as' => exact step s as'.1 as'.2 hs (ih _ (hn ▸ it.next_size s _ _ hs) _ rfl)

/-- Two states with the same `next` yield the same items. -/
theorem collect_congr {s₁ s₂ : σ} (h : it.next s₁ = it.next s₂) : it.collect s₁ = it.collect s₂ := by
  cases h₂ : it.next s₂ with
  | none => rw [collect_of_next_none (h.trans h₂), collect_of_next_none h₂]
  | some as' => rw [collect_of_next_some (h.trans h₂), collect_of_next_some h₂]

variable (it)

/-- `Iterator::find_map`: the first item `f` keeps, and the state after it. -/
def findMap (f : β → Option α) (s : σ) : Option (α × σ) :=
  match _h : it.next s with
  | none => none
  | some (b, s') =>
    match f b with
    | some a => some (a, s')
    | none => findMap f s'
termination_by it.size s
decreasing_by exact it.next_size _ _ _ ‹_›

variable {it} {f : β → Option α} {s s' : σ} {a : α} {b : β}

theorem findMap_of_next_none (h : it.next s = none) : it.findMap f s = none := by
  rw [findMap]; split <;> simp_all

theorem findMap_of_keep (h : it.next s = some (b, s')) (hf : f b = some a) :
    it.findMap f s = some (a, s') := by
  rw [findMap]; split <;> simp_all

theorem findMap_of_skip (h : it.next s = some (b, s')) (hf : f b = none) :
    it.findMap f s = it.findMap f s' := by
  rw [findMap]; split <;> simp_all

theorem findMap_size (h : it.findMap f s = some (a, s')) : it.size s' < it.size s := by
  induction s using it.induction with
  | done s hs => rw [findMap_of_next_none hs] at h; cases h
  | step s b s₁ hs ih =>
    have h₁ := it.next_size s b s₁ hs
    cases hf : f b with
    | none => rw [findMap_of_skip hs hf] at h; exact lt_trans (ih h) h₁
    | some a' =>
      rw [findMap_of_keep hs hf] at h
      obtain ⟨-, rfl⟩ := Prod.mk.inj (Option.some.inj h)
      exact h₁

variable (it)

/-- The iterator yielding the items of `it` that `f` keeps: a `next` written as a `for` loop
returning the first kept item. -/
def filterMap (f : β → Option α) : Iter σ α :=
  ⟨it.findMap f, it.size, fun _ _ _ h => findMap_size h⟩

theorem collect_filterMap (f : β → Option α) (s : σ) :
    (it.filterMap f).collect s = (it.collect s).filterMap f := by
  induction s using it.induction with
  | done s hs =>
    rw [collect_of_next_none hs, collect_of_next_none
      (show (it.filterMap f).next s = none from findMap_of_next_none hs)]
    rfl
  | step s b s' hs ih =>
    rw [collect_of_next_some hs, List.filterMap_cons]
    cases hf : f b with
    | none => rw [← ih]; exact collect_congr (findMap_of_skip hs hf)
    | some a =>
      rw [← ih]
      exact collect_of_next_some
        (show (it.filterMap f).next s = some (a, s') from findMap_of_keep hs hf)

/-- The state after `n` calls of `next`; a call on an exhausted iterator changes nothing. -/
def advance (s : σ) : Nat → σ
  | 0 => s
  | n + 1 =>
    match it.next s with
    | none => s
    | some (_, s') => advance s' n

variable {it}

/-- Every item costs a step of the measure. -/
theorem length_collect_le (s : σ) : (it.collect s).length ≤ it.size s := by
  induction s using it.induction with
  | done s hs => rw [collect_of_next_none hs]; exact Nat.zero_le _
  | step s b s' hs ih =>
    rw [collect_of_next_some hs, List.length_cons]
    exact lt_of_le_of_lt ih (it.next_size s b s' hs)

/-- What every step keeps holds after any number of steps. -/
theorem advance_invariant {P : σ → Prop} (hstep : ∀ s b s', it.next s = some (b, s') → P s → P s') :
    ∀ {s : σ} (n : Nat), P s → P (it.advance s n)
  | _, 0, hs => hs
  | s, n + 1, hs => by
    rw [advance]
    split
    · exact hs
    · exact advance_invariant hstep n (hstep _ _ _ ‹_› hs)

/-- Once it has given out every item, an iterator returns `None`. -/
theorem next_advance_length (s : σ) : it.next (it.advance s (it.collect s).length) = none := by
  induction s using it.induction with
  | done s hs => rw [collect_of_next_none hs]; exact hs
  | step s b s' hs ih =>
    rw [collect_of_next_some hs, List.length_cons, advance, hs]
    exact ih

variable (it)

/-- A `size_hint` is sound at `s`: its low bound is at most the number of items still to
come and its high bound, when there is one, at least that number. -/
def HintSound (hint : σ → Nat × Option Nat) (s : σ) : Prop :=
  (hint s).1 ≤ (it.collect s).length ∧ ∀ h, (hint s).2 = some h → (it.collect s).length ≤ h

/-- The exact `size_hint` of a `Peekable` over a slice or vector iterator. -/
def exactHint {T : Type} (l : List T) : Nat × Option Nat := (l.length, some l.length)

/-- `usize::checked_add` on a 64-bit target. -/
def checkedAdd (a b : Nat) : Option Nat := if a + b < 2 ^ 64 then some (a + b) else none

theorem checkedAdd_eq_some {a b c : Nat} (h : checkedAdd a b = some c) : c = a + b := by
  rw [checkedAdd] at h
  split at h
  · exact (Option.some.inj h).symm
  · cases h

end Iter

end SortedVectorMap
