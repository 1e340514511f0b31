import Mathlib.Data.List.Chain
import RustShed.SortedVectorMap.Operation

/- Invariant I1 over whole programs: every set a program builds from the public API keeps
   a strictly ascending vector.

   A program holds a list of sets and makes calls on them (`Op`): a constructor adds a
   set; a method changes the set it is called on, and `append` both sets; `split_off` and
   the operators `&`, `-`, `^`, `|` add the set they return. `step` is one call and `run`
   a program from no sets. A call names its sets by position; naming one the program does
   not hold, or the same set twice for `append`, which the borrow checker refuses, changes
   nothing.

   1. every constructor builds, and every method keeps, a strictly ascending vector; the
      operators collect through `from_iter`, which builds one whatever it is given;
   2. so one call keeps I1 on all sets held (`step_inv`), and so does a whole program
      (`run_inv`). -/
namespace SortedVectorMap

variable {T K : Type} [LinearOrder K] (key : T → K)

/-! ## Each call keeps I1 -/

namespace SortedVectorSet

variable {key} {s other : SortedVectorSet T}

theorem strictAsc_insert (hs : StrictAsc key s.inner) (value : T) :
    StrictAsc key (s.insert key value).2.inner :=
  (insert_spec hs value).1

theorem strictAsc_replace (hs : StrictAsc key s.inner) (value : T) :
    StrictAsc key (s.replace key value).2.inner :=
  strictAsc_insert hs value

theorem strictAsc_take (hs : StrictAsc key s.inner) (q : K) : StrictAsc key (s.take key q).2.inner := by
  unfold take
  split
  · exact hs.sublist (List.eraseIdx_sublist _ _)
  · exact hs

theorem strictAsc_splitOff (hs : StrictAsc key s.inner) (q : K) :
    StrictAsc key (s.splitOff key q).1.inner ∧ StrictAsc key (s.splitOff key q).2.inner :=
  ⟨hs.sublist (List.drop_sublist _ _), hs.sublist (List.take_sublist _ _)⟩

theorem strictAsc_append (hs : StrictAsc key s.inner) (ho : StrictAsc key other.inner) :
    StrictAsc key (s.append key other).1.inner ∧ StrictAsc key (s.append key other).2.inner := by
  rw [append_eq ho]
  exact ⟨strictAsc_unionRight hs ho, strictAsc_nil⟩

theorem strictAsc_extendWithVec (hs : StrictAsc key s.inner) (new : List T) :
    StrictAsc key (s.extendWithVec key new).inner :=
  (extendWithVec_spec hs new).1

theorem strictAsc_fromIter (iter : List T) : StrictAsc key (fromIter key iter).inner :=
  strictAsc_extendWithVec strictAsc_nil iter

end SortedVectorSet

/-! ## Programs -/

/-- A call on the sets a program holds, by their positions. -/
inductive Op
  | new
  | withCapacity (capacity : Nat)
  | default
  | fromIter (iter : List T)
  | fromBTreeSet (bset : BTreeSet key)
  | insert (i : Nat) (value : T)
  | replace (i : Nat) (value : T)
  | remove (i : Nat) (q : K)
  | take (i : Nat) (q : K)
  | retain (i : Nat) (f : T → Bool)
  | append (i j : Nat)
  | splitOff (i : Nat) (q : K)
  | extend (i : Nat) (iter : List T)
  | extendWithVec (i : Nat) (new : List T)
  | clear (i : Nat)
  | popLast (i : Nat)
  | bitand (i j : Nat)
  | sub (i j : Nat)
  | bitxor (i j : Nat)
  | bitor (i j : Nat)

/-- A method call on set `i`, leaving `f` of it in its place. -/
def update (sets : List (SortedVectorSet T)) (i : Nat) (f : SortedVectorSet T → SortedVectorSet T) :
    List (SortedVectorSet T) :=
  match sets[i]? with
  | some s => sets.set i (f s)
  | none => sets

/-- An operator on sets `i` and `j`, adding the set it returns. -/
def operator (sets : List (SortedVectorSet T)) (i j : Nat)
    (f : SortedVectorSet T → SortedVectorSet T → SortedVectorSet T) : List (SortedVectorSet T) :=
  match sets[i]?, sets[j]? with
  | some s, some rhs => sets ++ [f s rhs]
  | _, _ => sets

open SortedVectorSet in
/-- One call. -/
def step (sets : List (SortedVectorSet T)) : Op key → List (SortedVectorSet T)
  | .new => sets ++ [new]
  | .withCapacity capacity => sets ++ [withCapacity capacity]
  | .default => sets ++ [default]
  | .fromIter iter => sets ++ [fromIter key iter]
  | .fromBTreeSet bset => sets ++ [fromBTreeSet key bset]
  | .insert i value => update sets i fun s => (s.insert key value).2
  | .replace i value => update sets i fun s => (s.replace key value).2
  | .remove i q => update sets i fun s => (s.remove key q).2
  | .take i q => update sets i fun s => (s.take key q).2
  | .retain i f => update sets i fun s => s.retain f
  | .append i j =>
    match sets[i]?, sets[j]? with
    | some s, some other =>
      if i = j then sets else (sets.set i (s.append key other).1).set j (s.append key other).2
    | _, _ => sets
  | .splitOff i q =>
    match sets[i]? with
    | some s => sets.set i (s.splitOff key q).2 ++ [(s.splitOff key q).1]
    | none => sets
  | .extend i iter => update sets i fun s => s.extend key iter
  | .extendWithVec i new => update sets i fun s => s.extendWithVec key new
  | .clear i => update sets i clear
  | .popLast i => update sets i fun s => s.popLast.2
  | .bitand i j => operator sets i j (bitand key)
  | .sub i j => operator sets i j (sub key)
  | .bitxor i j => operator sets i j (bitxor key)
  | .bitor i j => operator sets i j (bitor key)

/-- A program, from no sets. -/
def run (ops : List (Op key)) : List (SortedVectorSet T) := ops.foldl (step key) []

/-- Invariant I1 on every set held. -/
def Inv (sets : List (SortedVectorSet T)) : Prop := ∀ s ∈ sets, StrictAsc key s.inner

/-! ## I1 along a run -/

variable {key} {sets : List (SortedVectorSet T)}

theorem Inv.push (h : Inv key sets) {s : SortedVectorSet T} (hs : StrictAsc key s.inner) :
    Inv key (sets ++ [s]) := by
  intro t ht
  rcases List.mem_append.1 ht with ht | ht
  · exact h t ht
  · rw [List.mem_singleton.1 ht]; exact hs

theorem Inv.set (h : Inv key sets) (i : Nat) {s : SortedVectorSet T} (hs : StrictAsc key s.inner) :
    Inv key (sets.set i s) := fun t ht =>
  (List.mem_or_eq_of_mem_set ht).elim (h t) fun e => e ▸ hs

theorem Inv.update (h : Inv key sets) (i : Nat) {f : SortedVectorSet T → SortedVectorSet T}
    (hf : ∀ s, StrictAsc key s.inner → StrictAsc key (f s).inner) : Inv key (update sets i f) := by
  unfold SortedVectorMap.update
  split
  · rename_i s hi
    exact h.set i (hf s (h s (List.getElem?_mem hi)))
  · exact h

theorem Inv.operator (h : Inv key sets) (i j : Nat) {f : SortedVectorSet T → SortedVectorSet T → SortedVectorSet T}
    (hf : ∀ s rhs, StrictAsc key (f s rhs).inner) : Inv key (operator sets i j f) := by
  unfold SortedVectorMap.operator
  split
  · exact h.push (hf _ _)
  · exact h

open SortedVectorSet in
/-- One call keeps I1 on every set held. -/
theorem step_inv (h : Inv key sets) : ∀ op : Op key, Inv key (step key sets op)
  | .new | .withCapacity _ | .default => h.push strictAsc_nil
  | .fromIter iter => h.push (strictAsc_fromIter iter)
  | .fromBTreeSet bset => h.push bset.ascending
  | .insert i value => h.update i fun _ hs => strictAsc_insert hs value
  | .replace i value => h.update i fun _ hs => strictAsc_replace hs value
  | .remove i q | .take i q => h.update i fun _ hs => strictAsc_take hs q
  | .retain i f => h.update i fun _ hs => hs.filter f
  | .append i j => by
    simp only [step]
    split
    · rename_i s other hi hj
      have hs := strictAsc_append (h s (List.getElem?_mem hi)) (h other (List.getElem?_mem hj))
      split
      · exact h
      · exact (h.set i hs.1).set j hs.2
    · exact h
  | .splitOff i q => by
    simp only [step]
    split
    · rename_i s hi
      have hs := strictAsc_splitOff (h s (List.getElem?_mem hi)) q
      exact (h.set i hs.2).push hs.1
    · exact h
  | .extend i iter => h.update i fun _ hs => strictAsc_extendWithVec hs iter
  | .extendWithVec i new => h.update i fun _ hs => strictAsc_extendWithVec hs new
  | .clear i => h.update i fun _ _ => strictAsc_nil
  | .popLast i => h.update i fun _ hs => hs.sublist (List.dropLast_sublist _)
  | .bitand i j | .sub i j | .bitxor i j | .bitor i j => h.operator i j fun _ _ => strictAsc_fromIter _

theorem foldl_step_inv (h : Inv key sets) (ops : List (Op key)) : Inv key (ops.foldl (step key) sets) := by
  induction ops generalizing sets with
  | nil => exact h
  | cons op ops ih => exact ih (step_inv h op)

/-- A whole program keeps I1 on every set it holds. -/
theorem run_inv (ops : List (Op key)) : Inv key (run key ops) :=
  foldl_step_inv (fun _ h => absurd h (List.not_mem_nil _)) ops

/-- Every set a program builds has a vector whose adjacent elements ascend strictly, and
so no two equal elements. -/
theorem chain_lt_of_mem_run (ops : List (Op key)) :
    ∀ s ∈ run key ops, s.inner.Chain' (fun a b => key a < key b) ∧
      s.inner.Pairwise (fun a b => key a ≠ key b) := fun s hs =>
  ⟨List.Pairwise.chain' (run_inv ops s hs), List.Pairwise.imp ne_of_lt (run_inv ops s hs)⟩

/-- Two sets from `from_iter`, changed by `insert`, `append`, `split_off` and `extend`, then
joined by `|`. -/
def mutatorRun : List (Op (id : Nat → Nat)) :=
  [.fromIter [3, 1, 2], .fromIter [5, 2], .insert 0 4, .append 0 1, .splitOff 0 3,
    .extend 1 [7, 6, 7], .bitor 0 2]

theorem chain_lt_of_mem_run_mutatorRun :
    (run id mutatorRun).headD SortedVectorSet.new ∈ run id mutatorRun ∧
      ((run id mutatorRun).headD SortedVectorSet.new).inner.Chain' (fun a b => id a < id b) ∧
      ((run id mutatorRun).headD SortedVectorSet.new).inner.Pairwise (fun a b => id a ≠ id b) :=
  have h : (run id mutatorRun).headD SortedVectorSet.new ∈ run id mutatorRun :=
    List.mem_cons_self _ _
  ⟨h, chain_lt_of_mem_run _ _ h⟩

end SortedVectorMap
