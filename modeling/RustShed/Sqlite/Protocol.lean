import Mathlib.Logic.Function.Basic

/- The connection guard of `sql/common/sqlite.rs`: every `SqliteMultithreaded` has one
   connection, and at most one caller at a time is past the global gate, from clearing the
   flag in `new` to setting it again in `drop`.

   `SqliteConnectionGuard::new` first passes the global gate, `CONN_CONDVAR.wait_while` on
   `CONN_LOCK`, which clears the flag it finds set and keeps the lock. It then waits on its
   inner's `condvar` until the connection is there, and takes it. When `new` returns it
   releases `CONN_LOCK`. `drop` sets the flag again, puts the connection back with
   `get_or_insert`, and calls `notify_one` on each condition variable.

   The model:
   - `θ` are callers of `acquire_sqlite_connection`, each on a thread of its own. They work
     on inners `ι` whose connections have type `C`.
   - A caller's place is a `Pc`. The shared `State` is the flag, the holder of `CONN_LOCK`,
     and each inner's `connection`.
   - A `Step` is a caller's move in `new` or `drop` (`Proceed`), a new caller, or a spurious
     wakeup, which `Condvar` allows.
   - Each step is atomic. The code reads and writes shared data only while holding the
     mutex that guards it, and holds an inner's mutex for a single read or write of its
     slot.
   - `notify_one` wakes one waiter whenever there is one (`NotifyOne`).

   1. `Inv` holds of every reachable state (`Reachable.inv`). It is a token argument:
      the flag, or the one caller past the gate, holds the global token; each inner's
      connection is either in the inner or held by one caller.
   2. At most one caller is past the gate. So while a caller holds a guard it has not begun
      to drop, no other caller holds a guard outside `drop`, holds `CONN_LOCK`, or waits for
      a connection (`guard_exclusive`). `drop` sets the flag before it puts the connection
      back, so a guard in `drop` may overlap the next caller's guard of another inner
      (`guardOverDrop`).
   3. Each inner's connection is the one it was made with. It is in the inner or held by
      exactly one caller. `drop` finds the inner empty, so `get_or_insert` never discards a
      connection (`connection_conserved`).
   4. While some caller has started and not finished, some caller can get on (`Advance`):
      through the gate, to a connection, or through `drop`. It needs no new caller and no
      spurious wakeup (`progress`). So there is no deadlock and no lost wakeup.
   5. Once every caller is idle the state is `init` again: nothing leaks (`idle_eq_init`).
   6. Dropping a guard never blocks: its holder sets the flag and puts the connection back
      at once (`drop_completes`).

   Two states some run reaches serve as concrete cases: `guardWithSleeper`, one caller
   holding the guard and a second asleep at the gate, and `guardOverDrop`.

   The documentation warns against holding a guard across an await on a thread that then
   blocks in `acquire_sqlite_connection`. That puts two callers on one thread; callers here
   have a thread each. -/
namespace Sqlite

/-- Where a caller is. -/
inductive Pc (ι C : Type)
  /-- Outside `new`, with no guard. -/
  | idle
  /-- In `new` for inner `i`, locking `CONN_LOCK` to read the flag. -/
  | lockGlobal (i : ι)
  /-- Asleep on `CONN_CONDVAR`. -/
  | sleepGlobal (i : ι)
  /-- Past the gate, holding `CONN_LOCK`, reading inner `i`'s connection. -/
  | takeConn (i : ι)
  /-- Asleep on inner `i`'s `condvar`, still holding `CONN_LOCK`. -/
  | sleepConn (i : ι)
  /-- Holding a `SqliteConnectionGuard` of inner `i` with connection `c`. -/
  | guard (i : ι) (c : C)
  /-- In `drop`, past `*(CONN_LOCK.lock()) = true`, the connection not yet back. -/
  | dropping (i : ι) (c : C)

namespace Pc

variable {ι C : Type}

/-- Past the gate: the flag was cleared for this caller and is not set again yet. -/
def InSession : Pc ι C → Prop
  | takeConn _ | sleepConn _ | guard _ _ => True
  | _ => False

/-- Holds `CONN_LOCK`: the `_global_lock` of `new`. -/
def HoldsLock : Pc ι C → Prop
  | takeConn _ | sleepConn _ => True
  | _ => False

/-- Has inner `i`'s connection. -/
def Has (i : ι) : Pc ι C → Prop
  | guard j _ | dropping j _ => j = i
  | _ => False

def AsleepGlobal : Pc ι C → Prop
  | sleepGlobal _ => True
  | _ => False

def Asleep : Pc ι C → Prop
  | sleepGlobal _ | sleepConn _ => True
  | _ => False

def LockingGlobal : Pc ι C → Prop
  | lockGlobal _ => True
  | _ => False

def Dropping : Pc ι C → Prop
  | dropping _ _ => True
  | _ => False

/-- Woken from a wait: back to locking the wait's mutex. -/
def wake : Pc ι C → Pc ι C
  | sleepGlobal i => lockGlobal i
  | sleepConn i => takeConn i
  | p => p

theorem HoldsLock.inSession {q : Pc ι C} (h : q.HoldsLock) : q.InSession := by
  cases q <;> simp_all [HoldsLock, InSession]

theorem inSession_wake (q : Pc ι C) : q.wake.InSession ↔ q.InSession := by
  cases q <;> exact Iff.rfl

theorem holdsLock_wake (q : Pc ι C) : q.wake.HoldsLock ↔ q.HoldsLock := by
  cases q <;> exact Iff.rfl

theorem has_wake (j : ι) (q : Pc ι C) : q.wake.Has j ↔ q.Has j := by cases q <;> exact Iff.rfl

theorem held_wake (j : ι) (d : C) (q : Pc ι C) :
    (q.wake = guard j d ∨ q.wake = dropping j d) ↔ (q = guard j d ∨ q = dropping j d) := by
  cases q <;> simp [wake]

theorem wake_ne_sleepConn (j : ι) (q : Pc ι C) : q.wake ≠ sleepConn j := by
  cases q <;> simp [wake]

theorem not_asleepGlobal_wake (q : Pc ι C) : ¬q.wake.AsleepGlobal := by
  cases q <;> simp [wake, AsleepGlobal]

theorem lockingGlobal_wake {q : Pc ι C} (h : q.AsleepGlobal) : q.wake.LockingGlobal := by
  cases q <;> simp_all [wake, AsleepGlobal, LockingGlobal]

end Pc

/-- The shared data. -/
@[ext] structure State (ι θ C : Type) where
  /-- The `bool` in `CONN_LOCK`: a caller may pass the gate. -/
  allowed : Bool
  /-- The caller holding the mutex `CONN_LOCK`. -/
  owner : Option θ
  /-- `inner.connection` of each inner. -/
  connection : ι → Option C
  pc : θ → Pc ι C

variable {ι θ C : Type} [DecidableEq θ]

def State.setPc (s : State ι θ C) (t : θ) (p : Pc ι C) : State ι θ C :=
  { s with pc := Function.update s.pc t p }

/-- `notify_one` on a condition variable whose waiters are the callers at `waiting`: it
wakes `w`, and wakes nobody only when nobody waits. -/
def NotifyOne (pc : θ → Pc ι C) (waiting : Pc ι C → Prop) : Option θ → Prop
  | some u => waiting (pc u)
  | none => ∀ u, ¬waiting (pc u)

/-- The callers once `w` is woken. -/
def wakeAt (pc : θ → Pc ι C) (w : Option θ) (u : θ) : Pc ι C :=
  if w = some u then (pc u).wake else pc u

section Model

variable [DecidableEq ι]

/-- `SqliteMultithreaded::new(conn₀ i)` for every inner, `CONN_LOCK` at `true`, no caller. -/
def init (conn₀ : ι → C) : State ι θ C := ⟨true, none, fun i => some (conn₀ i), fun _ => .idle⟩

/-- A move that gets a caller on: through the gate, to a connection, or through `drop`. -/
inductive Advance : State ι θ C → State ι θ C → Prop
  /-- The gate finds the flag set: clears it and keeps `CONN_LOCK`. -/
  | pass {s : State ι θ C} {t : θ} {i : ι} : s.pc t = .lockGlobal i → s.owner = none →
    s.allowed = true →
    Advance s { s with allowed := false, owner := some t, pc := Function.update s.pc t (.takeConn i) }
  /-- The connection is there: `take` it; `new` returns the guard and releases `CONN_LOCK`. -/
  | take {s : State ι θ C} {t : θ} {i : ι} {c : C} : s.pc t = .takeConn i →
    s.connection i = some c →
    Advance s { s with
      owner := none
      connection := Function.update s.connection i none
      pc := Function.update s.pc t (.guard i c) }
  /-- `drop`: `*(CONN_LOCK.lock()) = true`. -/
  | release {s : State ι θ C} {t : θ} {i : ι} {c : C} : s.pc t = .guard i c → s.owner = none →
    Advance s { s with allowed := true, pc := Function.update s.pc t (.dropping i c) }
  /-- `drop`: `get_or_insert` the connection, then `notify_one` on the inner's `condvar` and
  on `CONN_CONDVAR`. -/
  | putBack {s : State ι θ C} {t : θ} {i : ι} {c : C} {w₁ w₂ : Option θ} :
    s.pc t = .dropping i c → NotifyOne s.pc (fun p => p = .sleepConn i) w₁ →
    NotifyOne s.pc Pc.AsleepGlobal w₂ →
    Advance s { s with
      connection := Function.update s.connection i (some ((s.connection i).getD c))
      pc := wakeAt (wakeAt (Function.update s.pc t .idle) w₁) w₂ }

/-- A move of a caller in `new` or `drop`. -/
inductive Proceed : State ι θ C → State ι θ C → Prop
  | advance {s s' : State ι θ C} : Advance s s' → Proceed s s'
  /-- The gate finds the flag cleared: sleeps on `CONN_CONDVAR`, releasing `CONN_LOCK`. -/
  | block {s : State ι θ C} {t : θ} {i : ι} : s.pc t = .lockGlobal i → s.owner = none →
    s.allowed = false → Proceed s (s.setPc t (.sleepGlobal i))
  /-- The connection is out: sleeps on the inner's `condvar`, keeping `CONN_LOCK`. -/
  | sleep {s : State ι θ C} {t : θ} {i : ι} : s.pc t = .takeConn i → s.connection i = none →
    Proceed s (s.setPc t (.sleepConn i))

/-- Every move: a new caller, a spurious wakeup, or a move in `new` or `drop`. -/
inductive Step : State ι θ C → State ι θ C → Prop
  /-- `acquire_sqlite_connection` on inner `i` calls `SqliteConnectionGuard::new`. -/
  | acquire {s : State ι θ C} {t : θ} (i : ι) : s.pc t = .idle → Step s (s.setPc t (.lockGlobal i))
  /-- A waiter wakes up with no notification. -/
  | spurious {s : State ι θ C} {t : θ} : (s.pc t).Asleep → Step s (s.setPc t (s.pc t).wake)
  | proceed {s s' : State ι θ C} : Proceed s s' → Step s s'

/-- The states some run reaches from `init`. -/
inductive Reachable (conn₀ : ι → C) : State ι θ C → Prop
  | init : Reachable conn₀ (init conn₀)
  | step {s s' : State ι θ C} : Reachable conn₀ s → Step s s' → Reachable conn₀ s'

end Model

/-- At most one caller is at a place where `P` holds. -/
def AtMostOne (P : Pc ι C → Prop) (pc : θ → Pc ι C) : Prop :=
  ∀ t u, P (pc t) → P (pc u) → t = u

/-- The global token is the flag or the one caller past the gate; each inner's connection
is the inner's own, in the inner or with one caller; a sleeper is woken by somebody. -/
structure Inv (conn₀ : ι → C) (s : State ι θ C) : Prop where
  /-- At most one caller is past the gate. -/
  session : AtMostOne Pc.InSession s.pc
  /-- The flag is cleared exactly while a caller is past the gate. -/
  allowed : s.allowed = false ↔ ∃ t, (s.pc t).InSession
  /-- `CONN_LOCK` is held exactly by a caller in `new` past the gate. -/
  owner : ∀ t, s.owner = some t ↔ (s.pc t).HoldsLock
  /-- At most one caller has an inner's connection. -/
  holder : ∀ i, AtMostOne (Pc.Has i) s.pc
  /-- An inner is empty exactly while a caller has its connection. -/
  slot : ∀ i, s.connection i = none ↔ ∃ t, (s.pc t).Has i
  own : ∀ i c, s.connection i = some c → c = conn₀ i
  held : ∀ t i c, s.pc t = .guard i c ∨ s.pc t = .dropping i c → c = conn₀ i
  /-- A caller asleep on an inner's `condvar` sleeps while the inner is empty. -/
  sleeper : ∀ t i, s.pc t = .sleepConn i → s.connection i = none
  /-- A caller asleep at the gate has somebody to wake it: the caller past the gate, a
  caller at the gate, or one in `drop`. -/
  wakeup : (∃ t, (s.pc t).AsleepGlobal) →
    s.allowed = false ∨ (∃ t, (s.pc t).LockingGlobal) ∨ ∃ t, (s.pc t).Dropping

section Update

variable {P : Pc ι C → Prop} {pc pc' : θ → Pc ι C} {t : θ} {p : Pc ι C}

theorem AtMostOne.update (h : AtMostOne P pc) (hp : P p → ∀ u, u ≠ t → ¬P (pc u)) :
    AtMostOne P (Function.update pc t p) := by
  intro u v hu hv
  simp only [Function.update_apply] at hu hv
  split_ifs at hu hv with hut hvt hvt
  · exact hut.trans hvt.symm
  · exact absurd hv (hp hu v hvt)
  · exact absurd hu (hp hv u hut)
  · exact h u v hu hv

/-- A caller that keeps its kind of place keeps at most one caller there. -/
theorem AtMostOne.update_of_imp (h : AtMostOne P pc) (hp : P p → P (pc t)) :
    AtMostOne P (Function.update pc t p) :=
  h.update fun hpp u hu hpu => hu (h u t hpu (hp hpp))

omit [DecidableEq θ] in
theorem AtMostOne.mono (h : AtMostOne P pc) (hp : ∀ u, P (pc' u) → P (pc u)) :
    AtMostOne P pc' :=
  fun u v hu hv => h u v (hp u hu) (hp v hv)

theorem exists_update_iff_of_iff (hp : P p ↔ P (pc t)) :
    (∃ u, P (Function.update pc t p u)) ↔ ∃ u, P (pc u) := by
  rw [Function.exists_update_iff pc fun _ q => P q, hp]
  exact ⟨fun h => h.elim (⟨t, ·⟩) fun ⟨u, _, hu⟩ => ⟨u, hu⟩,
    fun ⟨u, hu⟩ => (eq_or_ne u t).elim (fun e => .inl (e ▸ hu)) fun hne => .inr ⟨u, hne, hu⟩⟩

theorem of_update_idle (hi : ¬P .idle) {u : θ} (hu : P (Function.update pc t .idle u)) :
    P (pc u) := by
  rw [Function.update_apply] at hu
  split_ifs at hu
  · exact absurd hu hi
  · exact hu

theorem wakeAt_of_ne {w : Option θ} {u : θ} (hw : w ≠ some u) : wakeAt pc w u = pc u :=
  if_neg hw

theorem wakeAt_eq_sleepConn {w : Option θ} {u : θ} {j : ι} (h : wakeAt pc w u = .sleepConn j) :
    pc u = .sleepConn j ∧ w ≠ some u := by
  unfold wakeAt at h
  split at h
  · exact absurd h (Pc.wake_ne_sleepConn j _)
  · exact ⟨h, ‹_›⟩

theorem wakeAt_asleepGlobal {w : Option θ} {u : θ} (h : (wakeAt pc w u).AsleepGlobal) :
    (pc u).AsleepGlobal ∧ w ≠ some u := by
  unfold wakeAt at h
  split at h
  · exact absurd h (Pc.not_asleepGlobal_wake _)
  · exact ⟨h, ‹_›⟩

/-- A kind of place waking keeps. -/
theorem wakeAt_idle {w : Option θ} {u : θ} (h : pc u = .idle) : wakeAt pc w u = .idle := by
  unfold wakeAt
  split <;> simp [h, Pc.wake]

theorem wakeAt_iff (hP : ∀ q : Pc ι C, P q.wake ↔ P q) (w : Option θ) (u : θ) :
    P (wakeAt pc w u) ↔ P (pc u) := by
  unfold wakeAt
  split
  · exact hP _
  · exact Iff.rfl

@[simp] theorem setPc_pc (s : State ι θ C) (p : Pc ι C) :
    (s.setPc t p).pc = Function.update s.pc t p := rfl
@[simp] theorem setPc_allowed (s : State ι θ C) (p : Pc ι C) :
    (s.setPc t p).allowed = s.allowed := rfl
@[simp] theorem setPc_owner (s : State ι θ C) (p : Pc ι C) : (s.setPc t p).owner = s.owner := rfl
@[simp] theorem setPc_connection (s : State ι θ C) (p : Pc ι C) :
    (s.setPc t p).connection = s.connection := rfl

end Update

/-! ## Each step keeps the invariant -/

section Steps

variable {conn₀ : ι → C} {s : State ι θ C} {t : θ} {i : ι} {c : C}

theorem Inv.owner_update (h : Inv conn₀ s) {p : Pc ι C} (hp : s.owner = some t ↔ p.HoldsLock) :
    ∀ u, s.owner = some u ↔ (Function.update s.pc t p u).HoldsLock :=
  (Function.forall_update_iff _ fun u (q : Pc ι C) => s.owner = some u ↔ q.HoldsLock).2
    ⟨hp, fun u _ => h.owner u⟩

theorem Inv.held_update (h : Inv conn₀ s) {p : Pc ι C}
    (hp : ∀ j d, p = .guard j d ∨ p = .dropping j d → d = conn₀ j) (u : θ) (j : ι) (d : C)
    (hu : Function.update s.pc t p u = .guard j d ∨ Function.update s.pc t p u = .dropping j d) :
    d = conn₀ j :=
  (Function.forall_update_iff _
    fun _ (q : Pc ι C) => ∀ j d, q = .guard j d ∨ q = .dropping j d → d = conn₀ j).2
    ⟨hp, fun u _ => h.held u⟩ u j d hu

theorem Inv.sleeper_update (h : Inv conn₀ s) {p : Pc ι C}
    (hp : ∀ j, p = .sleepConn j → s.connection j = none) (u : θ) (j : ι)
    (hu : Function.update s.pc t p u = .sleepConn j) : s.connection j = none :=
  (Function.forall_update_iff _
    fun _ (q : Pc ι C) => ∀ j, q = .sleepConn j → s.connection j = none).2
    ⟨hp, fun u _ => h.sleeper u⟩ u j hu

/-- A move of one caller that keeps what it holds: the token, `CONN_LOCK` and its
connection. -/
theorem Inv.setPc (h : Inv conn₀ s) {p : Pc ι C} (hs : p.InSession ↔ (s.pc t).InSession)
    (hl : p.HoldsLock ↔ (s.pc t).HoldsLock) (hh : ∀ j, p.Has j ↔ (s.pc t).Has j)
    (hg : ∀ j d, ¬(p = .guard j d ∨ p = .dropping j d))
    (hc : ∀ j, p = .sleepConn j → s.connection j = none)
    (hw : (∃ u, (Function.update s.pc t p u).AsleepGlobal) → s.allowed = false ∨
      (∃ u, (Function.update s.pc t p u).LockingGlobal) ∨
        ∃ u, (Function.update s.pc t p u).Dropping) :
    Inv conn₀ (s.setPc t p) where
  session := h.session.update_of_imp hs.1
  allowed := h.allowed.trans (exists_update_iff_of_iff hs).symm
  owner := h.owner_update ((h.owner t).trans hl.symm)
  holder j := (h.holder j).update_of_imp (hh j).1
  slot j := (h.slot j).trans (exists_update_iff_of_iff (hh j)).symm
  own := h.own
  held := h.held_update fun j d hd => absurd hd (hg j d)
  sleeper := h.sleeper_update hc
  wakeup := hw

/-- The `wakeup` field for a move that neither sleeps on, locks, nor leaves the gate. -/
theorem Inv.wakeup_update (h : Inv conn₀ s) {p : Pc ι C}
    (ha : p.AsleepGlobal ↔ (s.pc t).AsleepGlobal) (hl : p.LockingGlobal ↔ (s.pc t).LockingGlobal)
    (hd : p.Dropping ↔ (s.pc t).Dropping) (hw : ∃ u, (Function.update s.pc t p u).AsleepGlobal) :
    s.allowed = false ∨ (∃ u, (Function.update s.pc t p u).LockingGlobal) ∨
      ∃ u, (Function.update s.pc t p u).Dropping := by
  rw [exists_update_iff_of_iff hl, exists_update_iff_of_iff hd]
  exact h.wakeup ((exists_update_iff_of_iff ha).1 hw)

theorem Inv.acquire (h : Inv conn₀ s) (ht : s.pc t = .idle) (i : ι) :
    Inv conn₀ (s.setPc t (.lockGlobal i)) :=
  h.setPc (by simp [ht, Pc.InSession]) (by simp [ht, Pc.HoldsLock]) (by simp [ht, Pc.Has])
    (by simp) (by simp) fun _ => .inr (.inl ⟨t, by simp [Pc.LockingGlobal]⟩)

theorem Inv.spurious (h : Inv conn₀ s) (ht : (s.pc t).Asleep) :
    Inv conn₀ (s.setPc t (s.pc t).wake) := by
  cases hp : s.pc t with
  | sleepGlobal i =>
    exact h.setPc (by simp [hp, Pc.wake, Pc.InSession]) (by simp [hp, Pc.wake, Pc.HoldsLock])
      (by simp [hp, Pc.wake, Pc.Has]) (by simp [hp, Pc.wake]) (by simp [hp, Pc.wake])
      fun _ => .inr (.inl ⟨t, by simp [hp, Pc.wake, Pc.LockingGlobal]⟩)
  | sleepConn i =>
    exact h.setPc (by simp [hp, Pc.wake, Pc.InSession]) (by simp [hp, Pc.wake, Pc.HoldsLock])
      (by simp [hp, Pc.wake, Pc.Has]) (by simp [hp, Pc.wake]) (by simp [hp, Pc.wake])
      (h.wakeup_update (by simp [hp, Pc.wake, Pc.AsleepGlobal])
        (by simp [hp, Pc.wake, Pc.LockingGlobal]) (by simp [hp, Pc.wake, Pc.Dropping]))
  | _ => simp [hp, Pc.Asleep] at ht

theorem Inv.block (h : Inv conn₀ s) (ht : s.pc t = .lockGlobal i) (ha : s.allowed = false) :
    Inv conn₀ (s.setPc t (.sleepGlobal i)) :=
  h.setPc (by simp [ht, Pc.InSession]) (by simp [ht, Pc.HoldsLock]) (by simp [ht, Pc.Has])
    (by simp) (by simp) fun _ => .inl ha

theorem Inv.sleep (h : Inv conn₀ s) (ht : s.pc t = .takeConn i) (hn : s.connection i = none) :
    Inv conn₀ (s.setPc t (.sleepConn i)) :=
  h.setPc (by simp [ht, Pc.InSession]) (by simp [ht, Pc.HoldsLock]) (by simp [ht, Pc.Has])
    (by simp) (by rintro j ⟨⟩; exact hn)
    (h.wakeup_update (by simp [ht, Pc.AsleepGlobal]) (by simp [ht, Pc.LockingGlobal])
      (by simp [ht, Pc.Dropping]))

theorem Inv.pass (h : Inv conn₀ s) (ht : s.pc t = .lockGlobal i) (ho : s.owner = none)
    (ha : s.allowed = true) :
    Inv conn₀
      { s with allowed := false, owner := some t, pc := Function.update s.pc t (.takeConn i) } where
  session := h.session.update fun _ u _ hu => absurd (h.allowed.2 ⟨u, hu⟩) (by simp [ha])
  allowed := iff_of_true rfl ⟨t, by simp [Pc.InSession]⟩
  owner := (Function.forall_update_iff _ fun u (q : Pc ι C) => some t = some u ↔ q.HoldsLock).2
    ⟨iff_of_true rfl trivial, fun u hu =>
      iff_of_false (fun e => hu (Option.some.inj e).symm) fun hl => by
        simpa [ho] using (h.owner u).2 hl⟩
  holder j := (h.holder j).update_of_imp False.elim
  slot j := (h.slot j).trans (exists_update_iff_of_iff (by simp [ht, Pc.Has])).symm
  own := h.own
  held := h.held_update (by simp)
  sleeper := h.sleeper_update (by simp)
  wakeup _ := .inl rfl

theorem Inv.release (h : Inv conn₀ s) (ht : s.pc t = .guard i c) (ho : s.owner = none) :
    Inv conn₀ { s with allowed := true, pc := Function.update s.pc t (.dropping i c) } where
  session := h.session.update_of_imp False.elim
  allowed := iff_of_false (by simp) fun ⟨u, hu⟩ => by
    by_cases hut : u = t
    · subst hut
      simp [Pc.InSession] at hu
    · simp only [Function.update_noteq hut] at hu
      exact hut (h.session u t hu (by simp [ht, Pc.InSession]))
  owner := h.owner_update (by simp [ho, Pc.HoldsLock])
  holder j := (h.holder j).update_of_imp fun hj => by rw [ht]; exact hj
  slot j := (h.slot j).trans (exists_update_iff_of_iff (by simp [ht, Pc.Has])).symm
  own := h.own
  held := h.held_update (by rintro j d (he | he) <;> cases he; exact h.held t i c (.inl ht))
  sleeper := h.sleeper_update (by simp)
  wakeup _ := .inr (.inr ⟨t, by simp [Pc.Dropping]⟩)

end Steps

variable [DecidableEq ι]

section Connection

variable {conn₀ : ι → C} {s : State ι θ C} {t : θ} {i : ι} {c : C}

theorem Inv.take (h : Inv conn₀ s) (ht : s.pc t = .takeConn i) (hc : s.connection i = some c) :
    Inv conn₀ { s with
      owner := none
      connection := Function.update s.connection i none
      pc := Function.update s.pc t (.guard i c) } where
  session := h.session.update_of_imp fun _ => by simp [ht, Pc.InSession]
  allowed := h.allowed.trans (exists_update_iff_of_iff (by simp [ht, Pc.InSession])).symm
  owner := (Function.forall_update_iff _
    fun u (q : Pc ι C) => (none : Option θ) = some u ↔ q.HoldsLock).2
    ⟨by simp [Pc.HoldsLock], fun u hu => iff_of_false (by simp) fun hl => hu (Option.some.inj
      (((h.owner u).2 hl).symm.trans ((h.owner t).2 (by simp [ht, Pc.HoldsLock]))))⟩
  holder j := (h.holder j).update fun hj u _ hu => by
    obtain rfl : i = j := hj
    simp [(h.slot i).2 ⟨u, hu⟩] at hc
  slot j := by
    dsimp only
    by_cases hji : j = i
    · subst hji
      simp only [Function.update_same, true_iff]
      exact ⟨t, by simp [Pc.Has]⟩
    · rw [Function.update_noteq hji, h.slot j]
      exact (exists_update_iff_of_iff (by simp [ht, Pc.Has, Ne.symm hji])).symm
  own j d hd := by
    dsimp only at hd
    by_cases hji : j = i
    · subst hji
      simp at hd
    · rw [Function.update_noteq hji] at hd
      exact h.own j d hd
  held := h.held_update (by rintro j d (he | he) <;> cases he; exact h.own i c hc)
  sleeper u j hj := by
    dsimp only
    rw [Function.update_apply]
    split_ifs
    · rfl
    · exact h.sleeper_update (by simp) u j hj
  wakeup := h.wakeup_update (by simp [ht, Pc.AsleepGlobal]) (by simp [ht, Pc.LockingGlobal])
    (by simp [ht, Pc.Dropping])

/-- `drop` puts the connection back into an empty inner, wakes the caller waiting for it,
and wakes a caller at the gate if there is one. -/
theorem Inv.putBack (h : Inv conn₀ s) (ht : s.pc t = .dropping i c) {w₁ w₂ : Option θ}
    (h₁ : NotifyOne s.pc (fun p => p = .sleepConn i) w₁)
    (h₂ : NotifyOne s.pc Pc.AsleepGlobal w₂) :
    Inv conn₀ { s with
      connection := Function.update s.connection i (some ((s.connection i).getD c))
      pc := wakeAt (wakeAt (Function.update s.pc t .idle) w₁) w₂ } := by
  have hn : s.connection i = none := (h.slot i).2 ⟨t, by simp [ht, Pc.Has]⟩
  have hc : c = conn₀ i := h.held t i c (.inr ht)
  -- what waking keeps and the idle caller lacks was there before
  have back : ∀ {P : Pc ι C → Prop}, (∀ q : Pc ι C, P q.wake ↔ P q) → ¬P .idle →
      ∀ {u}, P (wakeAt (wakeAt (Function.update s.pc t .idle) w₁) w₂ u) → P (s.pc u) :=
    fun hP hi _ hu => of_update_idle hi ((wakeAt_iff hP _ _).1 ((wakeAt_iff hP _ _).1 hu))
  -- and what `t` lacks too is there after
  have keep : ∀ {P : Pc ι C → Prop}, (∀ q : Pc ι C, P q.wake ↔ P q) → ¬P .idle → ¬P (s.pc t) →
      ∀ u, P (wakeAt (wakeAt (Function.update s.pc t .idle) w₁) w₂ u) ↔ P (s.pc u) := by
    intro P hP hi hpt u
    refine ⟨back hP hi, fun hu => ?_⟩
    rw [wakeAt_iff hP, wakeAt_iff hP, Function.update_noteq fun e => hpt (by subst e; exact hu)]
    exact hu
  have hsess := keep Pc.inSession_wake (by simp [Pc.InSession]) (by simp [ht, Pc.InSession])
  refine ⟨h.session.mono fun u => (hsess u).1, h.allowed.trans (exists_congr hsess).symm,
    fun u => (h.owner u).trans
      (keep Pc.holdsLock_wake (by simp [Pc.HoldsLock]) (by simp [ht, Pc.HoldsLock]) u).symm,
    fun j => (h.holder j).mono fun u => back (Pc.has_wake j) (by simp [Pc.Has]),
    fun j => ?_, fun j d hd => ?_,
    fun u j d hd => h.held u j d
      (back (P := fun q => q = .guard j d ∨ q = .dropping j d) (Pc.held_wake j d) (by simp) hd),
    fun u j hj => ?_, fun ⟨u, hu⟩ => ?_⟩
  · -- the inner is full again, and nobody else has its connection
    dsimp only
    by_cases hji : j = i
    · subst hji
      refine iff_of_false (by simp) fun ⟨u, hu⟩ => ?_
      obtain rfl := h.holder j u t (back (Pc.has_wake j) (by simp [Pc.Has]) hu)
        (by simp [ht, Pc.Has])
      rw [wakeAt_idle (wakeAt_idle (Function.update_same _ _ _))] at hu
      exact absurd hu (by simp [Pc.Has])
    · rw [Function.update_noteq hji, h.slot j]
      exact (exists_congr (keep (Pc.has_wake j) (by simp [Pc.Has])
        (by simp [ht, Pc.Has, Ne.symm hji]))).symm
  · -- what `get_or_insert` leaves is the connection taken from this inner
    dsimp only at hd
    by_cases hji : j = i
    · subst hji
      simp only [Function.update_same, hn, Option.getD_none, Option.some.injEq] at hd
      exact hd ▸ hc
    · rw [Function.update_noteq hji] at hd
      exact h.own j d hd
  · -- a caller still asleep on an inner's `condvar` is not the one just woken
    obtain ⟨hu₁, hw₂⟩ := wakeAt_eq_sleepConn hj
    obtain ⟨hu₀, hw₁⟩ := wakeAt_eq_sleepConn hu₁
    have hut : u ≠ t := fun e => by subst e; simp at hu₀
    rw [Function.update_noteq hut] at hu₀
    dsimp only
    by_cases hji : j = i
    · subst hji
      cases w₁ with
      | none => exact absurd hu₀ (h₁ u)
      | some v =>
        have hv : s.pc v = .sleepConn j := h₁
        exact absurd (congrArg some (h.session v u (by simp [hv, Pc.InSession])
          (by simp [hu₀, Pc.InSession]))) hw₁
    · rw [Function.update_noteq hji]
      exact h.sleeper u j hu₀
  · -- the caller `notify_one` woke at the gate now locks it
    obtain ⟨hu₁, -⟩ := wakeAt_asleepGlobal hu
    obtain ⟨hu₀, -⟩ := wakeAt_asleepGlobal hu₁
    have hs := of_update_idle (by simp [Pc.AsleepGlobal]) hu₀
    cases w₂ with
    | none => exact absurd hs (h₂ u)
    | some v =>
      have hv : (s.pc v).AsleepGlobal := h₂
      have hvt : v ≠ t := fun e => by subst e; simp [ht, Pc.AsleepGlobal] at hv
      have hv₁ : w₁ ≠ some v := fun e => by
        subst e
        have : s.pc v = .sleepConn i := h₁
        simp [this, Pc.AsleepGlobal] at hv
      refine .inr (.inl ⟨v, ?_⟩)
      simp only [wakeAt, if_pos rfl, if_neg hv₁, Function.update_noteq hvt]
      exact Pc.lockingGlobal_wake hv

theorem Inv.advance (h : Inv conn₀ s) {s' : State ι θ C} (hs : Advance s s') :
    Inv conn₀ s' := by
  cases hs with
  | pass ht ho ha => exact h.pass ht ho ha
  | take ht hc => exact h.take ht hc
  | release ht ho => exact h.release ht ho
  | putBack ht h₁ h₂ => exact h.putBack ht h₁ h₂

theorem Inv.proceed (h : Inv conn₀ s) {s' : State ι θ C} (hs : Proceed s s') :
    Inv conn₀ s' := by
  cases hs with
  | advance ha => exact h.advance ha
  | block ht _ ha => exact h.block ht ha
  | sleep ht hn => exact h.sleep ht hn

theorem Inv.step (h : Inv conn₀ s) {s' : State ι θ C} (hs : Step s s') : Inv conn₀ s' := by
  cases hs with
  | acquire i ht => exact h.acquire ht i
  | spurious ht => exact h.spurious ht
  | proceed hp => exact h.proceed hp

end Connection

omit [DecidableEq θ] [DecidableEq ι] in
theorem inv_init (conn₀ : ι → C) : Inv conn₀ (init (θ := θ) conn₀) where
  session _ _ h := False.elim h
  allowed := iff_of_false (by simp [init]) fun ⟨_, h⟩ => h
  owner _ := iff_of_false (by simp [init]) id
  holder _ _ _ h := False.elim h
  slot _ := iff_of_false (by simp [init]) fun ⟨_, h⟩ => h
  own _ _ h := (Option.some.inj h).symm
  held _ _ _ h := by simp [init] at h
  sleeper _ _ h := by simp [init] at h
  wakeup := fun ⟨_, h⟩ => False.elim h

theorem Reachable.inv {conn₀ : ι → C} {s : State ι θ C} (hr : Reachable conn₀ s) :
    Inv conn₀ s := by
  induction hr with
  | init => exact inv_init conn₀
  | step _ hs ih => exact ih.step hs

/-! ## Two runs -/

/-- Caller `true` holds the guard of the one inner; caller `false` came after it and sleeps
at the gate. -/
def guardWithSleeper : State Unit Bool Unit :=
  ⟨false, none, fun _ => none, fun | true => .guard () () | false => .sleepGlobal ()⟩

theorem reachable_guardWithSleeper : Reachable (fun _ : Unit => ()) guardWithSleeper := by
  have h : Reachable (fun _ : Unit => ()) (init (θ := Bool) fun _ : Unit => ()) := .init
  -- caller `true` passes the gate and takes the connection
  replace h := h.step (.acquire (t := true) () rfl)
  replace h := h.step (.proceed (.advance (.pass (t := true) (i := ()) rfl rfl rfl)))
  replace h := h.step (.proceed (.advance (.take (t := true) (i := ()) (c := ()) rfl rfl)))
  -- caller `false` finds the flag cleared and sleeps
  replace h := h.step (.acquire (t := false) () rfl)
  replace h := h.step (.proceed (.block (t := false) (i := ()) rfl rfl rfl))
  refine Eq.subst (motive := Reachable _) ?_ h
  exact State.ext rfl rfl (funext fun _ => rfl) (funext fun b => by cases b <;> rfl)

/-- Two inners: caller `true` is in `drop` of its guard of inner `true`, and caller `false`,
through the gate that `drop` opened, holds a guard of inner `false`. -/
def guardOverDrop : State Bool Bool Unit :=
  ⟨false, none, fun _ => none, fun | true => .dropping true () | false => .guard false ()⟩

theorem reachable_guardOverDrop : Reachable (fun _ : Bool => ()) guardOverDrop := by
  have h : Reachable (fun _ : Bool => ()) (init (θ := Bool) fun _ : Bool => ()) := .init
  -- caller `true` takes inner `true`'s connection and sets the flag again in `drop`
  replace h := h.step (.acquire (t := true) true rfl)
  replace h := h.step (.proceed (.advance (.pass (t := true) (i := true) rfl rfl rfl)))
  replace h := h.step (.proceed (.advance (.take (t := true) (i := true) (c := ()) rfl rfl)))
  replace h := h.step (.proceed (.advance (.release (t := true) (i := true) (c := ()) rfl rfl)))
  -- caller `false` passes the gate and takes inner `false`'s connection
  replace h := h.step (.acquire (t := false) false rfl)
  replace h := h.step (.proceed (.advance (.pass (t := false) (i := false) rfl rfl rfl)))
  replace h := h.step (.proceed (.advance (.take (t := false) (i := false) (c := ()) rfl rfl)))
  refine Eq.subst (motive := Reachable _) ?_ h
  exact State.ext rfl rfl (funext fun b => by cases b <;> rfl) (funext fun b => by cases b <;> rfl)

/-! ## Exclusion and conservation -/

section Safety

variable {conn₀ : ι → C} {s : State ι θ C} {t u : θ} {i : ι} {c : C}

/-- While a caller holds a guard it has not begun to drop, it is the only caller past the
global gate: no other caller holds a guard outside `drop`, holds `CONN_LOCK`, or waits for a
connection. A guard in `drop` is not excluded. -/
theorem guard_exclusive (hr : Reachable conn₀ s) (ht : s.pc t = .guard i c) (hu : (s.pc u).InSession) :
    u = t :=
  hr.inv.session u t hu (by simp [ht, Pc.InSession])

/-- Caller `false` holds a guard while caller `true` is still in `drop`. -/
theorem guard_exclusive_overDrop :
    Reachable (fun _ : Bool => ()) guardOverDrop ∧ guardOverDrop.pc true = .dropping true () ∧
      guardOverDrop.pc false = .guard false () ∧ (guardOverDrop.pc false).InSession ∧
      false = false :=
  ⟨reachable_guardOverDrop, rfl, rfl, trivial,
    guard_exclusive reachable_guardOverDrop (t := false) (u := false) rfl trivial⟩

/-- Each inner's connection is the one it was made with, in the inner or with exactly one
caller; a caller in `drop` finds the inner empty, so `get_or_insert` puts its connection
back. -/
theorem connection_conserved (hr : Reachable conn₀ s) (i : ι) :
    ((s.connection i = some (conn₀ i) ∧ ∀ t, ¬(s.pc t).Has i) ∨
      (s.connection i = none ∧ ∃ t, (s.pc t).Has i ∧ ∀ u, (s.pc u).Has i → u = t)) ∧
    (∀ t c, s.pc t = .guard i c ∨ s.pc t = .dropping i c → c = conn₀ i) ∧
    ∀ t c, s.pc t = .dropping i c → s.connection i = none := by
  have h := hr.inv
  refine ⟨?_, fun t c => h.held t i c, fun t c ht => (h.slot i).2 ⟨t, by simp [ht, Pc.Has]⟩⟩
  cases hc : s.connection i with
  | none =>
    obtain ⟨t, ht⟩ := (h.slot i).1 hc
    exact .inr ⟨rfl, t, ht, fun u hu => h.holder i u t hu ht⟩
  | some c =>
    refine .inl ⟨by rw [h.own i c hc], fun t ht => ?_⟩
    simp [(h.slot i).2 ⟨t, ht⟩] at hc

/-- The connection is out with caller `true`, and caller `false` sleeps at the gate. -/
theorem connection_conserved_guardWithSleeper :
    Reachable (fun _ : Unit => ()) guardWithSleeper ∧
      ((guardWithSleeper.connection () = some () ∧ ∀ t, ¬(guardWithSleeper.pc t).Has ()) ∨
        (guardWithSleeper.connection () = none ∧
          ∃ t, (guardWithSleeper.pc t).Has () ∧ ∀ u, (guardWithSleeper.pc u).Has () → u = t)) ∧
      (∀ t c, guardWithSleeper.pc t = .guard () c ∨ guardWithSleeper.pc t = .dropping () c →
        c = ()) ∧
      ∀ t c, guardWithSleeper.pc t = .dropping () c → guardWithSleeper.connection () = none :=
  ⟨reachable_guardWithSleeper, connection_conserved reachable_guardWithSleeper ()⟩

omit [DecidableEq θ] [DecidableEq ι] in
/-- With every caller idle the tokens are all back: the flag is set, `CONN_LOCK` is free
and each inner holds its own connection. -/
theorem Inv.eq_init (h : Inv conn₀ s) (hq : ∀ t, s.pc t = .idle) : s = init conn₀ := by
  obtain ⟨allowed, owner, connection, pc⟩ := s
  obtain rfl : pc = fun _ => .idle := funext hq
  have ha : allowed = true := by
    cases hb : allowed
    · obtain ⟨_, ht⟩ := h.allowed.1 hb
      exact ht.elim
    · rfl
  have ho : owner = none := by
    cases hb : owner with
    | none => rfl
    | some u => exact ((h.owner u).1 hb).elim
  have hc : connection = fun i => some (conn₀ i) := funext fun i => by
    cases hb : connection i with
    | none => exact ((h.slot i).1 hb).elim fun _ ht => ht.elim
    | some c => rw [h.own i c hb]
  subst ha ho hc
  rfl

/-- Nothing leaks: once every caller is idle, the state is the initial one. -/
theorem idle_eq_init (hr : Reachable conn₀ s) (hq : ∀ t, s.pc t = .idle) : s = init conn₀ :=
  hr.inv.eq_init hq

theorem idle_eq_init_init :
    Reachable (fun _ : Unit => ()) (init (θ := Unit) fun _ : Unit => ()) ∧
      (∀ t, (init (θ := Unit) fun _ : Unit => ()).pc t = .idle) ∧
      (init (θ := Unit) fun _ : Unit => ()) = init fun _ : Unit => () :=
  ⟨.init, fun _ => rfl, idle_eq_init .init fun _ => rfl⟩

end Safety

/-! ## No deadlock and no lost wakeup -/

section Progress

variable {conn₀ : ι → C} {s : State ι θ C} {t : θ} {i : ι} {c : C}

omit [DecidableEq θ] [DecidableEq ι] in
theorem exists_notifyOne (pc : θ → Pc ι C) (waiting : Pc ι C → Prop) :
    ∃ w, NotifyOne pc waiting w := by
  by_cases hw : ∃ u, waiting (pc u)
  · obtain ⟨u, hu⟩ := hw
    exact ⟨some u, hu⟩
  · exact ⟨none, fun u hu => hw ⟨u, hu⟩⟩

theorem advance_of_dropping (ht : s.pc t = .dropping i c) : ∃ s', Advance s s' :=
  have ⟨_, h₁⟩ := exists_notifyOne s.pc (fun p => p = .sleepConn i)
  have ⟨_, h₂⟩ := exists_notifyOne s.pc Pc.AsleepGlobal
  ⟨_, .putBack ht h₁ h₂⟩

/-- The caller holding `CONN_LOCK` that finds its inner empty waits for a caller in
`drop`, which can move. -/
theorem Inv.advance_of_empty (h : Inv conn₀ s) (ht : (s.pc t).HoldsLock)
    (hn : s.connection i = none) :
    ∃ s', Advance s s' := by
  obtain ⟨u, hu⟩ := (h.slot i).1 hn
  cases hp : s.pc u with
  | guard j d =>
    obtain rfl := h.session t u ht.inSession (by simp [hp, Pc.InSession])
    simp [hp, Pc.HoldsLock] at ht
  | dropping j d => exact advance_of_dropping hp
  | _ => simp [hp, Pc.Has] at hu

theorem Inv.advance_of_holdsLock (h : Inv conn₀ s) (ht : (s.pc t).HoldsLock) :
    ∃ s', Advance s s' := by
  cases hp : s.pc t with
  | takeConn i =>
    cases hc : s.connection i with
    | none => exact h.advance_of_empty (t := t) (by simp [hp, Pc.HoldsLock]) hc
    | some c => exact ⟨_, .take hp hc⟩
  | sleepConn i => exact h.advance_of_empty (t := t) (by simp [hp, Pc.HoldsLock]) (h.sleeper t i hp)
  | _ => simp [hp, Pc.HoldsLock] at ht

theorem Inv.advance_of_inSession (h : Inv conn₀ s) (ht : (s.pc t).InSession) :
    ∃ s', Advance s s' := by
  cases ho : s.owner with
  | some u => exact h.advance_of_holdsLock ((h.owner u).1 ho)
  | none =>
    cases hp : s.pc t with
    | guard i c => exact ⟨_, .release hp ho⟩
    | takeConn i | sleepConn i =>
      exact absurd ((h.owner t).2 (by simp [hp, Pc.HoldsLock])) (by simp [ho])
    | _ => simp [hp, Pc.InSession] at ht

/-- The flag is set, or the caller past the gate can move. -/
theorem Inv.advance_of_lockGlobal (h : Inv conn₀ s) (ht : s.pc t = .lockGlobal i) :
    ∃ s', Advance s s' := by
  cases ha : s.allowed with
  | false =>
    obtain ⟨u, hu⟩ := h.allowed.1 ha
    exact h.advance_of_inSession hu
  | true =>
    cases ho : s.owner with
    | none => exact ⟨_, .pass ht ho ha⟩
    | some u => exact h.advance_of_holdsLock ((h.owner u).1 ho)

/-- A caller asleep at the gate is woken by somebody: the caller past the gate, one at the
gate, or one in `drop`. -/
theorem Inv.advance_of_asleepGlobal (h : Inv conn₀ s) (ht : (s.pc t).AsleepGlobal) :
    ∃ s', Advance s s' := by
  rcases h.wakeup ⟨t, ht⟩ with ha | ⟨u, hu⟩ | ⟨u, hu⟩
  · obtain ⟨u, hu⟩ := h.allowed.1 ha
    exact h.advance_of_inSession hu
  · cases hp : s.pc u with
    | lockGlobal i => exact h.advance_of_lockGlobal hp
    | _ => simp [hp, Pc.LockingGlobal] at hu
  · cases hp : s.pc u with
    | dropping i c => exact advance_of_dropping hp
    | _ => simp [hp, Pc.Dropping] at hu

theorem Inv.advance_of_busy (h : Inv conn₀ s) (ht : s.pc t ≠ .idle) : ∃ s', Advance s s' := by
  cases hp : s.pc t with
  | idle => exact absurd hp ht
  | lockGlobal i => exact h.advance_of_lockGlobal hp
  | sleepGlobal i => exact h.advance_of_asleepGlobal (t := t) (by simp [hp, Pc.AsleepGlobal])
  | takeConn i | sleepConn i | guard i c =>
    exact h.advance_of_inSession (t := t) (by simp [hp, Pc.InSession])
  | dropping i c => exact advance_of_dropping hp

/-- While some caller has started and not finished, some caller can get on: through the
gate, to a connection, or through `drop`, with no new caller and no spurious wakeup. -/
theorem progress (hr : Reachable conn₀ s) (ht : s.pc t ≠ .idle) : ∃ s', Advance s s' :=
  hr.inv.advance_of_busy ht

/-- The caller asleep at the gate is not stuck: somebody can get on. -/
theorem progress_sleeper :
    Reachable (fun _ : Unit => ()) guardWithSleeper ∧ guardWithSleeper.pc false ≠ .idle ∧
      ∃ s', Advance guardWithSleeper s' :=
  ⟨reachable_guardWithSleeper, Pc.noConfusion,
    progress reachable_guardWithSleeper (t := false) Pc.noConfusion⟩

/-- Dropping a guard never blocks: its holder can set the flag at once, then put the
connection back and finish. -/
theorem drop_completes (hr : Reachable conn₀ s) (ht : s.pc t = .guard i c) :
    ∃ s₁ s₂, Advance s s₁ ∧ Advance s₁ s₂ ∧ s₁.pc t = .dropping i c ∧ s₂.pc t = .idle := by
  have h := hr.inv
  -- `CONN_LOCK` is free: only a caller past the gate holds it, and that is `t`
  have ho : s.owner = none := by
    cases hb : s.owner with
    | none => rfl
    | some u =>
      have hu := (h.owner u).1 hb
      obtain rfl := h.session u t hu.inSession (by simp [ht, Pc.InSession])
      simp [ht, Pc.HoldsLock] at hu
  let s₁ : State ι θ C := { s with allowed := true, pc := Function.update s.pc t (.dropping i c) }
  have hd : s₁.pc t = .dropping i c := Function.update_same _ _ _
  obtain ⟨w₁, h₁⟩ := exists_notifyOne s₁.pc (fun p => p = .sleepConn i)
  obtain ⟨w₂, h₂⟩ := exists_notifyOne s₁.pc Pc.AsleepGlobal
  exact ⟨s₁, _, .release ht ho, .putBack hd h₁ h₂, hd,
    wakeAt_idle (wakeAt_idle (Function.update_same _ _ _))⟩

/-- The guard holder drops its guard while the other caller sleeps at the gate. -/
theorem drop_completes_guardWithSleeper :
    Reachable (fun _ : Unit => ()) guardWithSleeper ∧ guardWithSleeper.pc true = .guard () () ∧
      ∃ s₁ s₂, Advance guardWithSleeper s₁ ∧ Advance s₁ s₂ ∧ s₁.pc true = .dropping () () ∧
        s₂.pc true = .idle :=
  ⟨reachable_guardWithSleeper, rfl, drop_completes reachable_guardWithSleeper rfl⟩

end Progress

end Sqlite
