import Mathlib.Algebra.Order.BigOperators.Group.Finset
import Mathlib.Data.Prod.Lex
import RustShed.Sqlite.Protocol

/- Termination of the connection guard of `sql/common/sqlite.rs`.

   A move of a caller in `new` or `drop` (`Proceed`) takes it past a stage, or puts it to
   sleep within its stage. The stages left (`Pc.stage`) and the callers awake in `new`
   (`Pc.awake`), each summed over the callers and ordered lexicographically, give a
   `weight` that every such move lowers. The wakeups of `drop` raise the second sum, but the
   caller in `drop` then leaves its last stage.

   1. `proceed_terminates`: with finitely many callers, every run of moves in `new` and
      `drop` is finite. Only new callers or spurious wakeups can make a run go on for ever.
   2. `drain`: from every reachable state, the callers already started can all finish
      through `Advance` moves. No new caller, spurious wakeup or sleep is needed, and the
      run ends at `init` (`idle_eq_init`). -/
namespace Sqlite

namespace Pc

variable {ι C : Type}

/-- The stages a caller has still to pass: the gate, the connection, setting the flag
again, and putting the connection back. -/
def stage : Pc ι C → Nat
  | idle => 0
  | dropping _ _ => 1
  | guard _ _ => 2
  | takeConn _ | sleepConn _ => 3
  | lockGlobal _ | sleepGlobal _ => 4

/-- A caller awake in `new`, which may still go to sleep within its stage. -/
def awake : Pc ι C → Nat
  | lockGlobal _ | takeConn _ => 1
  | _ => 0

@[simp] theorem stage_wake (q : Pc ι C) : q.wake.stage = q.stage := by cases q <;> rfl

end Pc

variable {ι θ C : Type} [DecidableEq θ]

@[simp] theorem stage_wakeAt (pc : θ → Pc ι C) (w : Option θ) (u : θ) :
    (wakeAt pc w u).stage = (pc u).stage := by
  unfold wakeAt
  split <;> simp

variable [Fintype θ]

/-- What the callers have still to do: the stages left, then the callers that may sleep. -/
def weight (pc : θ → Pc ι C) : Nat ×ₗ Nat :=
  toLex (∑ t, (pc t).stage, ∑ t, (pc t).awake)

section Weight

variable {pc : θ → Pc ι C} {t : θ} {p : Pc ι C} {f : Pc ι C → Nat}

theorem sum_update_lt (h : f p < f (pc t)) :
    ∑ u, f (Function.update pc t p u) < ∑ u, f (pc u) := by
  refine Finset.sum_lt_sum (fun u _ => ?_) ⟨t, Finset.mem_univ t, by simpa using h⟩
  rw [Function.update_apply]
  split_ifs with hu
  · subst hu
    exact h.le
  · exact le_rfl

theorem sum_update_eq (h : f p = f (pc t)) :
    ∑ u, f (Function.update pc t p u) = ∑ u, f (pc u) :=
  Finset.sum_congr rfl fun u _ => by
    rw [Function.update_apply]
    split_ifs with hu
    · subst hu
      exact h
    · rfl

/-- A caller passing a stage lowers the weight. -/
theorem weight_update_lt (h : p.stage < (pc t).stage) :
    weight (Function.update pc t p) < weight pc :=
  (Prod.Lex.lt_iff _ _).2 (.inl (sum_update_lt h))

/-- A caller going to sleep within its stage lowers the weight. -/
theorem weight_update_lt_of_sleep (hs : p.stage = (pc t).stage) (ha : p.awake < (pc t).awake) :
    weight (Function.update pc t p) < weight pc :=
  (Prod.Lex.lt_iff _ _).2 (.inr ⟨sum_update_eq hs, sum_update_lt ha⟩)

/-- The end of `drop` lowers the weight, whoever it wakes. -/
theorem weight_putBack (ht : (pc t).stage = 1) (w₁ w₂ : Option θ) :
    weight (wakeAt (wakeAt (Function.update pc t .idle) w₁) w₂) < weight pc := by
  refine (Prod.Lex.lt_iff _ _).2 (.inl ?_)
  calc ∑ u, (wakeAt (wakeAt (Function.update pc t .idle) w₁) w₂ u).stage
      = ∑ u, (Function.update pc t .idle u).stage := by simp only [stage_wakeAt]
    _ < ∑ u, (pc u).stage := sum_update_lt (by rw [ht]; exact Nat.zero_lt_one)

end Weight

variable [DecidableEq ι] {s s' : State ι θ C}

theorem Proceed.weight_lt (hs : Proceed s s') : weight s'.pc < weight s.pc := by
  cases hs with
  | advance ha =>
    cases ha with
    | pass ht _ _ | take ht _ | release ht _ => exact weight_update_lt (by simp [ht, Pc.stage])
    | putBack ht _ _ => exact weight_putBack (by simp [ht, Pc.stage]) _ _
  | block ht _ _ | sleep ht _ =>
    exact weight_update_lt_of_sleep (by simp [ht, Pc.stage]) (by simp [ht, Pc.awake])

/-- Every run of moves in `new` and `drop` is finite. -/
theorem proceed_terminates : WellFounded fun s' s : State ι θ C => Proceed s s' :=
  (InvImage.wf (fun s : State ι θ C => weight s.pc) wellFounded_lt).mono
    fun _ _ h => h.weight_lt

/-- From every reachable state, the callers already started can all finish by `Advance`
moves, and the state is then the initial one. -/
theorem drain {conn₀ : ι → C} (hr : Reachable conn₀ s) :
    Relation.ReflTransGen Advance s (init conn₀) := by
  induction s using (InvImage.wf (fun s : State ι θ C => weight s.pc) wellFounded_lt).induction
    with
  | _ s ih =>
    have h := hr.inv
    by_cases hb : ∃ t, s.pc t ≠ .idle
    · obtain ⟨t, ht⟩ := hb
      obtain ⟨s', hs'⟩ := h.advance_of_busy ht
      exact .head hs' (ih s' (Proceed.advance hs').weight_lt (hr.step (.proceed (.advance hs'))))
    · push_neg at hb
      rw [h.eq_init hb]

/-- The guard holder drops its guard, and the caller it wakes at the gate goes through. -/
theorem drain_guardWithSleeper :
    Reachable (fun _ : Unit => ()) guardWithSleeper ∧
      Relation.ReflTransGen Advance guardWithSleeper (init fun _ : Unit => ()) :=
  ⟨reachable_guardWithSleeper, drain reachable_guardWithSleeper⟩

end Sqlite
