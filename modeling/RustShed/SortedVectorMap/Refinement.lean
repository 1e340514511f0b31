import RustShed.SortedVectorMap.Invariant

/- The set API refines finite sets: what every program does to the sets it holds.

   A `SortedVectorSet` keeping I1 stands for a finite map from keys to elements, its
   `contents` (the `lookup` of its vector), and is determined by it (`eq_of_lookup`). The
   abstract semantics (`Abs`) says what each call does to that map, with no vector, index
   or search in it:

   1. `insert` and `replace` put the value under its key; `take` and `remove` erase a key;
      `retain` keeps the elements the predicate admits; `extend`, `extend_with_vec` and
      `from_iter` insert a batch in order; `append` is the union in which `other`'s element
      wins, and empties `other`; `split_off` cuts at a key; `pop_last` erases the greatest
      key; `&`, `-`, `^` and `|` are intersection, difference, symmetric difference and
      union;
   2. on a vector keeping I1 each operation moves its contents so (`contents_insert`,
      `contents_take`, ..., `popsLast_popLast`);
   3. one call moves the contents of the sets a program holds by an abstract step
      (`step_refines`), and a whole program by an abstract run of the same calls
      (`run_refines`). -/
namespace SortedVectorMap

variable {T K : Type} [LinearOrder K] (key : T → K)

/-! ## Finite sets by key -/

namespace Abs

/-- The empty set. -/
def empty : K → Option T := fun _ => none

/-- `v` under its key, in place of the element there. -/
def insert (v : T) (m : K → Option T) : K → Option T :=
  fun k => if key v = k then some v else m k

/-- Nothing under `q`. -/
def erase (q : K) (m : K → Option T) : K → Option T := fun k => if k = q then none else m k

def retain (f : T → Bool) (m : K → Option T) : K → Option T := fun k => (m k).filter f

/-- The elements of the keys below `q`. -/
def below (q : K) (m : K → Option T) : K → Option T := fun k => if k < q then m k else none

/-- The elements of the keys at or above `q`. -/
def atOrAbove (q : K) (m : K → Option T) : K → Option T := fun k => if k < q then none else m k

/-- The union, in which `n`'s element wins on a shared key. -/
def union (m n : K → Option T) : K → Option T := fun k => (n k).or (m k)

/-- `m`'s elements of the keys `n` has. -/
def inter (m n : K → Option T) : K → Option T := fun k => if (n k).isSome then m k else none

/-- `m`'s elements of the keys `n` lacks. -/
def diff (m n : K → Option T) : K → Option T := fun k => if (n k).isSome then none else m k

def symmDiff (m n : K → Option T) : K → Option T := union (diff m n) (diff n m)

/-- The elements of `v` inserted one by one. -/
def extend (v : List T) (m : K → Option T) : K → Option T :=
  v.foldl (fun m x => insert key x m) m

/-- `x` is the element of the greatest key. -/
def IsLast (m : K → Option T) (x : T) : Prop :=
  m (key x) = some x ∧ ∀ k y, m k = some y → k ≤ key x

/-- `pop_last` gives out `out` and leaves `m'`: the element of the greatest key, erased,
or nothing from the empty set. -/
def PopsLast (m m' : K → Option T) : Option T → Prop
  | none => (∀ k, m k = none) ∧ m' = m
  | some x => IsLast key m x ∧ m' = erase (key x) m

variable {key}

theorem insert_apply (v : T) (m : K → Option T) (k : K) :
    insert key v m k = (lookup key [v] k).or (m k) := by
  by_cases hk : key v = k <;> simp [insert, lookup_cons, hk]

/-- Inserting a batch leaves, for every key, the batch's last element of it, or else the
set's. -/
theorem extend_apply (v : List T) (m : K → Option T) (k : K) :
    extend key v m k = (lookup key v.reverse k).or (m k) := by
  induction v generalizing m with
  | nil => rfl
  | cons x v ih =>
    show extend key v (insert key x m) k = _
    rw [ih, insert_apply, List.reverse_cons, lookup_append, Option.or_assoc]

end Abs

/-! ## Programs on contents -/

/-- A method call on the contents of set `i`. -/
def absUpdate (ms : List (K → Option T)) (i : Nat) (f : (K → Option T) → K → Option T) :
    List (K → Option T) :=
  match ms[i]? with
  | some m => ms.set i (f m)
  | none => ms

/-- An operator on the contents of sets `i` and `j`. -/
def absOperator (ms : List (K → Option T)) (i j : Nat)
    (f : (K → Option T) → (K → Option T) → K → Option T) : List (K → Option T) :=
  match ms[i]?, ms[j]? with
  | some m, some n => ms ++ [f m n]
  | _, _ => ms

/-- One call on the contents of the sets held. -/
def AbsStep (ms : List (K → Option T)) : Op key → List (K → Option T) → Prop
  | .new, ms' | .withCapacity _, ms' | .default, ms' => ms' = ms ++ [Abs.empty]
  | .fromIter iter, ms' => ms' = ms ++ [Abs.extend key iter Abs.empty]
  | .fromBTreeSet bset, ms' => ms' = ms ++ [lookup key bset.iter]
  | .insert i value, ms' | .replace i value, ms' => ms' = absUpdate ms i (Abs.insert key value)
  | .remove i q, ms' | .take i q, ms' => ms' = absUpdate ms i (Abs.erase q)
  | .retain i f, ms' => ms' = absUpdate ms i (Abs.retain f)
  | .append i j, ms' => ms' =
    match ms[i]?, ms[j]? with
    | some m, some n => if i = j then ms else (ms.set i (Abs.union m n)).set j Abs.empty
    | _, _ => ms
  | .splitOff i q, ms' => ms' =
    match ms[i]? with
    | some m => ms.set i (Abs.below q m) ++ [Abs.atOrAbove q m]
    | none => ms
  | .extend i iter, ms' | .extendWithVec i iter, ms' => ms' = absUpdate ms i (Abs.extend key iter)
  | .clear i, ms' => ms' = absUpdate ms i fun _ => Abs.empty
  | .popLast i, ms' =>
    match ms[i]? with
    | some m => ∃ m' out, Abs.PopsLast key m m' out ∧ ms' = ms.set i m'
    | none => ms' = ms
  | .bitand i j, ms' => ms' = absOperator ms i j Abs.inter
  | .sub i j, ms' => ms' = absOperator ms i j Abs.diff
  | .bitxor i j, ms' => ms' = absOperator ms i j Abs.symmDiff
  | .bitor i j, ms' => ms' = absOperator ms i j Abs.union

/-- `AbsRun ms ops ms'`: the calls `ops` can take the contents `ms` to `ms'`. -/
inductive AbsRun : List (K → Option T) → List (Op key) → List (K → Option T) → Prop
  | nil (ms : List (K → Option T)) : AbsRun ms [] ms
  | cons {ms ms' ms'' : List (K → Option T)} {op : Op key} {ops : List (Op key)} :
    AbsStep key ms op ms' → AbsRun ms' ops ms'' → AbsRun ms (op :: ops) ms''

/-! ## Lookup after each change of the vector -/

section Lookup

variable {key} {l A B : List T} {x : T} {k : K}

theorem lookup_isSome_iff : (lookup key l k).isSome ↔ ∃ y ∈ l, key y = k := by
  cases h : lookup key l k with
  | none => simpa using lookup_eq_none.1 h
  | some y => exact ⟨fun _ => ⟨y, lookup_eq_some h⟩, fun _ => rfl⟩

/-- Filtering by a property of the key keeps the keys that have it. -/
theorem lookup_filter_key (P : K → Bool) (l : List T) (k : K) :
    lookup key (l.filter fun x => P (key x)) k = if P k then lookup key l k else none := by
  induction l with
  | nil => simp
  | cons a l ih =>
    by_cases hk : key a = k
    · subst hk
      by_cases hP : P (key a) <;> simp [List.filter_cons, lookup_cons, hP, ih]
    · by_cases hP : P (key a) <;> simp [List.filter_cons, lookup_cons, hP, hk, ih]

theorem lookup_filter_mem (A B : List T) (k : K) :
    lookup key (A.filter fun x => ∃ y ∈ B, key y = key x) k =
      Abs.inter (lookup key A) (lookup key B) k := by
  rw [lookup_filter_key (fun k => decide (∃ y ∈ B, key y = k))]
  simp [Abs.inter, lookup_isSome_iff]

theorem lookup_filter_not_mem (A B : List T) (k : K) :
    lookup key (A.filter fun x => ∀ y ∈ B, key y ≠ key x) k =
      Abs.diff (lookup key A) (lookup key B) k := by
  rw [lookup_filter_key (fun k => decide (∀ y ∈ B, key y ≠ k)), Abs.diff]
  simp only [decide_eq_true_eq]
  by_cases h : ∀ y ∈ B, key y ≠ k
  · rw [if_pos h, lookup_eq_none.2 h]
    rfl
  · rw [if_neg h, if_pos (lookup_isSome_iff.2 (by simpa using h))]

/-- On a strictly ascending vector, `retain` keeps the element of a key exactly when the
predicate admits it. -/
theorem StrictAsc.lookup_filter (h : StrictAsc key l) (f : T → Bool) (k : K) :
    lookup key (l.filter f) k = (lookup key l k).filter f := by
  induction l with
  | nil => rfl
  | cons a l ih =>
    rw [strictAsc_cons] at h
    by_cases hk : key a = k
    · subst hk
      have hn : lookup key l (key a) = none := lookup_eq_none_of_lt h.1
      by_cases hf : f a <;> simp [List.filter_cons, lookup_cons, Option.filter, hf, ih h.2, hn]
    · by_cases hf : f a <;> simp [List.filter_cons, lookup_cons, hf, hk, ih h.2]

/-- Removing an element of a strictly ascending vector erases its key and nothing else. -/
theorem StrictAsc.lookup_remove (h : StrictAsc key (A ++ x :: B)) (k : K) :
    lookup key (A ++ B) k = if k = key x then none else lookup key (A ++ x :: B) k := by
  rw [StrictAsc, List.pairwise_append, List.pairwise_cons] at h
  rw [lookup_append, lookup_append, lookup_cons]
  by_cases hk : k = key x
  · subst hk
    rw [if_pos rfl, lookup_eq_none_of_lt h.2.1.1,
      lookup_eq_none.2 fun a ha => ne_of_lt (h.2.2 a ha x (List.mem_cons_self _ _))]
    rfl
  · rw [if_neg hk, if_neg (Ne.symm hk)]

theorem StrictAsc.lookup_eraseIdx (h : StrictAsc key l) {i : Nat} (hi : l[i]? = some x) (k : K) :
    lookup key (l.eraseIdx i) k = if k = key x then none else lookup key l k := by
  have e : l.take i ++ x :: l.drop (i + 1) = l := by
    obtain ⟨hlt, hx⟩ := List.getElem?_eq_some_iff.1 hi
    rw [← hx, ← List.drop_eq_getElem_cons hlt, List.take_append_drop]
  have h' : StrictAsc key (l.take i ++ x :: l.drop (i + 1)) := by rwa [e]
  rw [List.eraseIdx_eq_take_drop_succ, h'.lookup_remove, e]

theorem StrictAsc.lookup_dropLast (h : StrictAsc key l) (hx : l.getLast? = some x) (k : K) :
    lookup key l.dropLast k = if k = key x then none else lookup key l k := by
  have e : l.dropLast ++ [x] = l := List.dropLast_append_getLast? x hx
  have h' : StrictAsc key (l.dropLast ++ [x]) := by rwa [e]
  have := h'.lookup_remove k
  rwa [List.append_nil, e] at this

end Lookup

/-! ## Each operation on contents -/

namespace SortedVectorSet

/-- The set a vector stands for. -/
def contents (s : SortedVectorSet T) : K → Option T := lookup key s.inner

variable {key} {s other : SortedVectorSet T}

theorem contents_insert (hs : StrictAsc key s.inner) (v : T) :
    contents key (s.insert key v).2 = Abs.insert key v (contents key s) :=
  funext fun k => by rw [Abs.insert_apply, contents, (insert_spec hs v).2]; rfl

theorem contents_take (hs : StrictAsc key s.inner) (q : K) :
    contents key (s.take key q).2 = Abs.erase q (contents key s) := funext fun k => by
  by_cases hm : ∃ x ∈ s.inner, key x = q
  · obtain ⟨x, hx, rfl⟩ := hm
    rw [take_of_mem hs hx rfl]
    exact hs.lookup_eraseIdx (getElem?_length_filter hs hx rfl) k
  · rw [take_of_not_mem hs fun x hx hk => hm ⟨x, hx, hk⟩]
    by_cases hk : k = q
    · subst hk
      exact (lookup_eq_none.2 fun x hx hk => hm ⟨x, hx, hk⟩).trans (if_pos rfl).symm
    · exact (if_neg hk).symm

theorem contents_retain (hs : StrictAsc key s.inner) (f : T → Bool) :
    contents key (s.retain f) = Abs.retain f (contents key s) :=
  funext (hs.lookup_filter f)

theorem contents_splitOff (hs : StrictAsc key s.inner) (q : K) :
    contents key (s.splitOff key q).2 = Abs.below q (contents key s) ∧
      contents key (s.splitOff key q).1 = Abs.atOrAbove q (contents key s) := by
  rw [splitOff_eq hs]
  refine ⟨funext fun k => ?_, funext fun k => ?_⟩
  · refine (lookup_filter_key (fun k => decide (k < q)) s.inner k).trans ?_
    simp [Abs.below, contents]
  · refine (lookup_filter_key (fun k => !decide (k < q)) s.inner k).trans ?_
    by_cases hk : k < q <;> simp [Abs.atOrAbove, contents, hk]

theorem contents_append (hs : StrictAsc key s.inner) (ho : StrictAsc key other.inner) :
    contents key (s.append key other).1 = Abs.union (contents key s) (contents key other) ∧
      contents key (s.append key other).2 = Abs.empty := by
  rw [append_eq ho]
  exact ⟨funext (lookup_unionRight hs ho), rfl⟩

theorem contents_extendWithVec (hs : StrictAsc key s.inner) (v : List T) :
    contents key (s.extendWithVec key v) = Abs.extend key v (contents key s) :=
  funext fun k => by rw [Abs.extend_apply]; exact (extendWithVec_spec hs v).2 k

theorem contents_fromIter (iter : List T) :
    contents key (fromIter key iter) = Abs.extend key iter Abs.empty :=
  contents_extendWithVec (s := new) strictAsc_nil iter

/-- `pop_last` gives out the element of the greatest key and erases it. -/
theorem popsLast_popLast (hs : StrictAsc key s.inner) :
    Abs.PopsLast key (contents key s) (contents key s.popLast.2) s.popLast.1 := by
  dsimp only [popLast]
  cases hl : s.inner.getLast? with
  | none =>
    have he := List.getLast?_eq_none_iff.1 hl
    simp [Abs.PopsLast, contents, he]
  | some x =>
    refine ⟨⟨hs.lookup_of_mem (List.mem_of_getLast?_eq_some hl), fun k y hy => ?_⟩,
      funext (hs.lookup_dropLast hl)⟩
    obtain ⟨hy, hk⟩ := lookup_eq_some (l := s.inner) hy
    exact hk ▸ hs.le_of_getLast? hl hy

theorem contents_bitand (hs : StrictAsc key s.inner) (ho : StrictAsc key other.inner) :
    contents key (s.bitand key other) = Abs.inter (contents key s) (contents key other) :=
  funext fun k => by
    rw [bitand, collect_intersection hs ho, fromIter_of_strictAsc (hs.filter _)]
    exact lookup_filter_mem _ _ k

theorem contents_sub (hs : StrictAsc key s.inner) (ho : StrictAsc key other.inner) :
    contents key (s.sub key other) = Abs.diff (contents key s) (contents key other) :=
  funext fun k => by
    rw [sub, collect_difference hs ho, fromIter_of_strictAsc (hs.filter _)]
    exact lookup_filter_not_mem _ _ k

theorem contents_bitxor (hs : StrictAsc key s.inner) (ho : StrictAsc key other.inner) :
    contents key (s.bitxor key other) = Abs.symmDiff (contents key s) (contents key other) :=
  funext fun k => by
    have hl := hs.filter fun x => ∀ y ∈ other.inner, key y ≠ key x
    have hr := ho.filter fun x => ∀ y ∈ s.inner, key y ≠ key x
    rw [bitxor, collect_symmetricDifference hs ho,
      fromIter_of_strictAsc (strictAsc_unionRight hl hr)]
    show lookup key (unionRight key _ _) k = _
    rw [lookup_unionRight hl hr, lookup_filter_not_mem, lookup_filter_not_mem]
    rfl

theorem contents_bitor (hs : StrictAsc key s.inner) (ho : StrictAsc key other.inner) :
    contents key (s.bitor key other) = Abs.union (contents key s) (contents key other) :=
  funext fun k => by
    rw [bitor, collect_union, fromIter_of_strictAsc (strictAsc_unionRight hs ho)]
    exact lookup_unionRight hs ho k

end SortedVectorSet

/-! ## Programs -/

open SortedVectorSet

variable {key} {sets : List (SortedVectorSet T)}

theorem map_update (h : Inv key sets) (i : Nat) {f : SortedVectorSet T → SortedVectorSet T}
    {g : (K → Option T) → K → Option T}
    (hf : ∀ s, StrictAsc key s.inner → contents key (f s) = g (contents key s)) :
    (update sets i f).map (contents key) = absUpdate (sets.map (contents key)) i g := by
  unfold SortedVectorMap.update absUpdate
  rw [List.getElem?_map]
  cases hi : sets[i]? with
  | none => rfl
  | some s => simp only [Option.map_some', List.map_set, hf s (h s (List.getElem?_mem hi))]

theorem map_operator (h : Inv key sets) (i j : Nat)
    {f : SortedVectorSet T → SortedVectorSet T → SortedVectorSet T}
    {g : (K → Option T) → (K → Option T) → K → Option T}
    (hf : ∀ s t, StrictAsc key s.inner → StrictAsc key t.inner →
      contents key (f s t) = g (contents key s) (contents key t)) :
    (operator sets i j f).map (contents key) = absOperator (sets.map (contents key)) i j g := by
  unfold SortedVectorMap.operator absOperator
  rw [List.getElem?_map, List.getElem?_map]
  cases hi : sets[i]? with
  | none => rfl
  | some s =>
    cases hj : sets[j]? with
    | none => rfl
    | some t =>
      simp only [Option.map_some', List.map_append, List.map_cons, List.map_nil,
        hf s t (h s (List.getElem?_mem hi)) (h t (List.getElem?_mem hj))]

/-- One call on sets keeping I1 moves their contents by an abstract step. -/
theorem step_refines (h : Inv key sets) :
    ∀ op : Op key,
      AbsStep key (sets.map (contents key)) op ((step key sets op).map (contents key))
  | .new | .withCapacity _ | .default | .fromBTreeSet _ => List.map_append _ _ _
  | .fromIter iter => by
    show List.map _ (sets ++ [_]) = _
    rw [List.map_append, List.map_singleton, contents_fromIter]
  | .insert i value | .replace i value => map_update h i fun _ hs => contents_insert hs value
  | .remove i q | .take i q => map_update h i fun _ hs => contents_take hs q
  | .retain i f => map_update h i fun _ hs => contents_retain hs f
  | .append i j => by
    simp only [AbsStep, step, List.getElem?_map]
    cases hi : sets[i]? with
    | none => rfl
    | some s =>
      cases hj : sets[j]? with
      | none => rfl
      | some other =>
        obtain ⟨h₁, h₂⟩ :=
          contents_append (h s (List.getElem?_mem hi)) (h other (List.getElem?_mem hj))
        by_cases hij : i = j <;> simp [hij, h₁, h₂]
  | .splitOff i q => by
    simp only [AbsStep, step, List.getElem?_map]
    cases hi : sets[i]? with
    | none => rfl
    | some s =>
      obtain ⟨h₁, h₂⟩ := contents_splitOff (h s (List.getElem?_mem hi)) q
      simp [h₁, h₂]
  | .extend i iter | .extendWithVec i iter =>
    map_update h i fun _ hs => contents_extendWithVec hs iter
  | .clear i => map_update h i fun _ _ => rfl
  | .popLast i => by
    simp only [AbsStep, step, SortedVectorMap.update, List.getElem?_map]
    cases hi : sets[i]? with
    | none => rfl
    | some s =>
      exact ⟨_, _, popsLast_popLast (h s (List.getElem?_mem hi)), List.map_set⟩
  | .bitand i j => map_operator h i j fun _ _ hs ho => contents_bitand hs ho
  | .sub i j => map_operator h i j fun _ _ hs ho => contents_sub hs ho
  | .bitxor i j => map_operator h i j fun _ _ hs ho => contents_bitxor hs ho
  | .bitor i j => map_operator h i j fun _ _ hs ho => contents_bitor hs ho

theorem foldl_step_refines (h : Inv key sets) (ops : List (Op key)) :
    AbsRun key (sets.map (contents key)) ops ((ops.foldl (step key) sets).map (contents key)) := by
  induction ops generalizing sets with
  | nil => exact .nil _
  | cons op ops ih => exact .cons (step_refines h op) (ih (step_inv h op))

/-- Every program's sets stand for the contents the abstract semantics reaches by the same
calls from no sets. -/
theorem run_refines (ops : List (Op key)) : AbsRun key [] ops ((run key ops).map (contents key)) :=
  foldl_step_refines (fun _ h => absurd h (List.not_mem_nil _)) ops

end SortedVectorMap
