import RustShed.SortedVectorMap.BinarySearch
import Mathlib.Data.List.InsertIdx

/- `SortedVectorSet<T>(Vec<T>)` and its operations on one element (`set.rs`, the first
   `impl` block up to `pop_last`; `range` is in `Range`, the merges in `Extend`).

   A method that mutates `self` returns its result together with the new `self`. Indexing
   that would panic out of bounds (`self.0[index]`) is `[index]?` here; the indices come
   from `find_index`, which are in bounds (`findIndex_eq`).

   On a vector that keeps invariant I1, for every value `v` and key `q`:
   1. `replace` overwrites the element equal to `v` in place and returns it
      (`replace_of_mem`), and otherwise inserts `v` where `List.orderedInsert` puts it, on
      the push fast path and on the search path alike (`replace_of_not_mem`);
   2. `take` removes the element of key `q` at its position (`take_of_mem`) and otherwise
      changes nothing;
   3. `contains` and `get` find exactly the element of key `q`;
   4. `split_off` cuts the vector below `q` (`splitOff_eq`).

   Correspondence (Rust ↔ Lean):
     `SortedVectorSet<T>` ↔ `SortedVectorSet T`, its `.0` ↔ `inner`
     `find_index`         ↔ `findIndex`
     `Vec::insert`, `Vec::remove`, `Vec::split_off` ↔ `List.insertIdx`, `List.eraseIdx`,
                                                     `List.take`/`List.drop` -/
namespace SortedVectorMap

/-- `SortedVectorSet<T>`: a set kept in a vector. -/
@[ext] structure SortedVectorSet (T : Type) where
  inner : List T

variable {T K : Type} [LinearOrder K] (key : T → K)

/-- A set whose vector keeps invariant I1: the `OrderedSet<T>` of the spec's data model. -/
structure OrderedSet where
  toSet : SortedVectorSet T
  strictAsc : StrictAsc key toSet.inner

section Lists

variable {key}

/-- Sorted insertion puts `v` after the elements below it. -/
theorem orderedInsert_eq {l : List T} (hl : Ascending key l) (v : T) :
    l.orderedInsert (fun a b => key a ≤ key b) v =
      l.filter (fun x => key x < key v) ++ v :: l.filter (fun x => !decide (key x < key v)) := by
  induction l with
  | nil => rfl
  | cons a l ih =>
    rw [Ascending, List.pairwise_cons] at hl
    by_cases ha : key a < key v
    · simp [List.orderedInsert, not_le.2 ha, ha, ih hl.2]
    · have hl' : ∀ y ∈ l, ¬key y < key v := fun y hy =>
        not_lt.2 (le_trans (not_lt.1 ha) (hl.1 y hy))
      have h₁ : l.filter (fun x => key x < key v) = [] :=
        List.filter_eq_nil_iff.2 fun y hy => by simpa using hl' y hy
      have h₂ : l.filter (fun x => !decide (key x < key v)) = l :=
        List.filter_eq_self.2 fun y hy => by simpa using hl' y hy
      simp [List.orderedInsert, not_lt.1 ha, ha, h₁, h₂]

theorem insertIdx_eq_take_drop (a : T) :
    ∀ (n : Nat) (l : List T), n ≤ l.length → List.insertIdx n a l = l.take n ++ a :: l.drop n
  | 0, l, _ => List.insertIdx_zero l a
  | n + 1, [], h => absurd h (by simp)
  | n + 1, b :: l, h => by
    simp [List.insertIdx_succ_cons, insertIdx_eq_take_drop a n l (by simpa using h)]

end Lists

namespace SortedVectorSet

/-- `SortedVectorSet::new`. -/
def new : SortedVectorSet T := ⟨[]⟩

/-- `SortedVectorSet::with_capacity`: the capacity is an allocation hint only. -/
def withCapacity (_capacity : Nat) : SortedVectorSet T := ⟨[]⟩

def intoInner (s : SortedVectorSet T) : List T := s.inner

def clear (_s : SortedVectorSet T) : SortedVectorSet T := ⟨[]⟩

def isEmpty (s : SortedVectorSet T) : Bool := s.inner.isEmpty

/-- `find_index`: `binary_search_by(|e| e.borrow().cmp(q))`. -/
def findIndex (s : SortedVectorSet T) (q : K) : Except Nat Nat :=
  binarySearchBy s.inner (fun e => compare (key e) q)

def contains (s : SortedVectorSet T) (q : K) : Bool := (s.findIndex key q).toBool

def get (s : SortedVectorSet T) (q : K) : Option T :=
  (s.findIndex key q).toOption.bind (fun index => s.inner[index]?)

/-- `replace`: push when the vector is empty or `value` is above its last element;
otherwise swap with the equal element, or insert at the search's insertion point. -/
def replace (s : SortedVectorSet T) (value : T) : Option T × SortedVectorSet T :=
  if s.inner.isEmpty || s.inner.getLast?.any (fun last => key last < key value) then
    (none, ⟨s.inner ++ [value]⟩)
  else
    match s.findIndex key (key value) with
    | .ok index => (s.inner[index]?, ⟨s.inner.set index value⟩)
    | .error index => (none, ⟨List.insertIdx index value s.inner⟩)

def insert (s : SortedVectorSet T) (value : T) : Bool × SortedVectorSet T :=
  ((s.replace key value).1.isNone, (s.replace key value).2)

def take (s : SortedVectorSet T) (q : K) : Option T × SortedVectorSet T :=
  match s.findIndex key q with
  | .ok index => (s.inner[index]?, ⟨s.inner.eraseIdx index⟩)
  | .error _ => (none, s)

def remove (s : SortedVectorSet T) (q : K) : Bool × SortedVectorSet T :=
  ((s.take key q).1.isSome, (s.take key q).2)

def retain (s : SortedVectorSet T) (f : T → Bool) : SortedVectorSet T := ⟨s.inner.filter f⟩

/-- `split_off`: the returned set, then `self`. -/
def splitOff (s : SortedVectorSet T) (q : K) : SortedVectorSet T × SortedVectorSet T :=
  let index := match s.findIndex key q with
    | .ok index => index
    | .error index => index
  (⟨s.inner.drop index⟩, ⟨s.inner.take index⟩)

def iter (s : SortedVectorSet T) : List T := s.inner

def len (s : SortedVectorSet T) : Nat := s.inner.length

def first (s : SortedVectorSet T) : Option T := s.inner.head?

def last (s : SortedVectorSet T) : Option T := s.inner.getLast?

/-- `pop_last`: `Vec::pop`. -/
def popLast (s : SortedVectorSet T) : Option T × SortedVectorSet T :=
  (s.inner.getLast?, ⟨s.inner.dropLast⟩)

/-- The derived `PartialEq`: `self.0 == other.0`, that is equal lengths and `==` pairwise,
which a lawful `Ord` makes equality of keys. -/
def eq (s other : SortedVectorSet T) : Bool :=
  s.inner.length == other.inner.length && (s.inner.zip other.inner).all fun p => key p.1 == key p.2

/-! ## Where the search lands -/

variable {key} {s : SortedVectorSet T} {x v : T} {q : K}

theorem findIndex_eq (hs : StrictAsc key s.inner) (q : K) :
    s.findIndex key q = if ∃ x ∈ s.inner, key x = q
      then .ok (s.inner.filter (fun x => key x < q)).length
      else .error (s.inner.filter (fun x => key x < q)).length :=
  binarySearchBy_compare hs q

/-- The element of key `q` sits at the count of elements below `q`. -/
theorem getElem?_length_filter (hs : StrictAsc key s.inner) (hx : x ∈ s.inner) (hk : key x = q) :
    s.inner[(s.inner.filter (fun x => key x < q)).length]? = some x := by
  rw [← List.head?_drop, hs.ascending.drop_length_filter (lt_closed q)]
  refine (hs.sublist (List.filter_sublist _)).head?_eq (by simp [hx, hk]) fun y hy => ?_
  simpa [hk] using (List.mem_filter.1 hy).2

theorem findIndex_of_mem (hs : StrictAsc key s.inner) (hx : x ∈ s.inner) (hk : key x = q) :
    s.findIndex key q = .ok (s.inner.filter (fun x => key x < q)).length := by
  rw [findIndex_eq hs, if_pos ⟨x, hx, hk⟩]

theorem findIndex_of_not_mem (hs : StrictAsc key s.inner) (h : ∀ x ∈ s.inner, key x ≠ q) :
    s.findIndex key q = .error (s.inner.filter (fun x => key x < q)).length := by
  rw [findIndex_eq hs, if_neg (by simpa using h)]

/-- `replace` takes the push fast path exactly when every element is below `v`. -/
theorem pushes_iff (hs : StrictAsc key s.inner) :
    (s.inner.isEmpty || s.inner.getLast?.any (fun last => key last < key v)) = true ↔
      ∀ x ∈ s.inner, key x < key v := by
  cases hl : s.inner.getLast? with
  | none => simp_all
  | some b =>
    have hb := List.mem_of_getLast?_eq_some hl
    have hne : s.inner.isEmpty = false := by cases h : s.inner <;> simp_all
    simp only [hne, Option.any_some, decide_eq_true_eq, Bool.false_or]
    exact ⟨fun h x hx => lt_of_le_of_lt (hs.le_of_getLast? hl hx) h, fun h => h b hb⟩

theorem replace_of_mem (hs : StrictAsc key s.inner) (hx : x ∈ s.inner) (hk : key x = key v) :
    s.replace key v =
      (some x, ⟨s.inner.set (s.inner.filter (fun y => key y < key v)).length v⟩) := by
  have hpush : ¬(s.inner.isEmpty || s.inner.getLast?.any (fun last => key last < key v)) = true :=
    fun h => absurd ((pushes_iff hs).1 h x hx) (by rw [hk]; exact lt_irrefl _)
  simp only [replace, if_neg hpush, findIndex_of_mem hs hx hk, getElem?_length_filter hs hx hk]

theorem replace_of_not_mem (hs : StrictAsc key s.inner) (h : ∀ x ∈ s.inner, key x ≠ key v) :
    s.replace key v = (none, ⟨s.inner.orderedInsert (fun a b => key a ≤ key b) v⟩) := by
  rw [orderedInsert_eq hs.ascending, replace]
  split
  · rename_i hpush
    have hlt := (pushes_iff hs).1 hpush
    rw [List.filter_eq_self.2 (by simpa using hlt), List.filter_eq_nil_iff.2 (by simpa using hlt)]
  · simp only [findIndex_of_not_mem hs h]
    rw [insertIdx_eq_take_drop _ _ _ (List.length_filter_le _ _),
      hs.ascending.take_length_filter (lt_closed _), hs.ascending.drop_length_filter (lt_closed _)]

theorem take_of_mem (hs : StrictAsc key s.inner) (hx : x ∈ s.inner) (hk : key x = q) :
    s.take key q = (some x, ⟨s.inner.eraseIdx (s.inner.filter (fun y => key y < q)).length⟩) := by
  simp only [take, findIndex_of_mem hs hx hk, getElem?_length_filter hs hx hk]

theorem take_of_not_mem (hs : StrictAsc key s.inner) (h : ∀ x ∈ s.inner, key x ≠ q) :
    s.take key q = (none, s) := by
  simp only [take, findIndex_of_not_mem hs h]

theorem get_of_mem (hs : StrictAsc key s.inner) (hx : x ∈ s.inner) (hk : key x = q) :
    s.get key q = some x := by
  simp [get, findIndex_of_mem hs hx hk, Except.toOption, getElem?_length_filter hs hx hk]

theorem get_of_not_mem (hs : StrictAsc key s.inner) (h : ∀ x ∈ s.inner, key x ≠ q) :
    s.get key q = none := by
  simp [get, findIndex_of_not_mem hs h, Except.toOption]

/-! `replace`, `take` and `get` give out the element of the key, when there is one. -/

theorem replace_fst (hs : StrictAsc key s.inner) (v : T) :
    (s.replace key v).1 = lookup key s.inner (key v) :=
  eq_lookup (fun _ hy hk => by rw [replace_of_mem hs hy hk]) fun h => by rw [replace_of_not_mem hs h]

theorem take_fst (hs : StrictAsc key s.inner) (q : K) : (s.take key q).1 = lookup key s.inner q :=
  eq_lookup (fun _ hy hk => by rw [take_of_mem hs hy hk]) fun h => by rw [take_of_not_mem hs h]

theorem get_eq_lookup (hs : StrictAsc key s.inner) (q : K) : s.get key q = lookup key s.inner q :=
  eq_lookup (fun _ hy hk => get_of_mem hs hy hk) (get_of_not_mem hs)

theorem splitOff_eq (hs : StrictAsc key s.inner) (q : K) :
    s.splitOff key q = (⟨s.inner.filter (fun x => !decide (key x < q))⟩,
      ⟨s.inner.filter (fun x => key x < q)⟩) := by
  have hi : (match s.findIndex key q with
      | .ok index => index
      | .error index => index) = (s.inner.filter (fun x => key x < q)).length := by
    rw [findIndex_eq hs]; by_cases h : ∃ x ∈ s.inner, key x = q <;> simp [h]
  simp only [splitOff, hi, hs.ascending.take_length_filter (lt_closed q),
    hs.ascending.drop_length_filter (lt_closed q)]

end SortedVectorSet

/-! ## The point operations on a set keeping I1 -/

namespace OrderedSet

variable {key}

open SortedVectorSet

/-- `replace`, `insert`, `take`, `remove`, `contains` and `get` against the element of the
given key, on every set and every value and key. -/
theorem replace_take_contains_spec (s : OrderedSet key) (v : T) (q : K) :
    (∀ x, (s.toSet.replace key v).1 = some x ↔ x ∈ s.toSet.inner ∧ key x = key v) ∧
    (∀ x, (s.toSet.replace key v).1 = some x → ∃ i, s.toSet.inner[i]? = some x ∧
      (s.toSet.replace key v).2.inner = s.toSet.inner.set i v) ∧
    ((∀ x ∈ s.toSet.inner, key x ≠ key v) → (s.toSet.replace key v).1 = none ∧
      (s.toSet.replace key v).2.inner = s.toSet.inner.orderedInsert (fun a b => key a ≤ key b) v) ∧
    ((s.toSet.insert key v).1 = true ↔ (s.toSet.replace key v).1 = none) ∧
    (∀ x, (s.toSet.take key q).1 = some x ↔ x ∈ s.toSet.inner ∧ key x = q) ∧
    (∀ x, (s.toSet.take key q).1 = some x → ∃ i, s.toSet.inner[i]? = some x ∧
      (s.toSet.take key q).2.inner = s.toSet.inner.eraseIdx i) ∧
    ((∀ x ∈ s.toSet.inner, key x ≠ q) → s.toSet.take key q = (none, s.toSet)) ∧
    (s.toSet.remove key q = ((s.toSet.take key q).1.isSome, (s.toSet.take key q).2)) ∧
    (s.toSet.contains key q = true ↔ ∃ x ∈ s.toSet.inner, key x = q) ∧
    (∀ x, s.toSet.get key q = some x ↔ x ∈ s.toSet.inner ∧ key x = q) := by
  obtain ⟨s, hs⟩ := s
  have hrep (x : T) : (s.replace key v).1 = some x ↔ x ∈ s.inner ∧ key x = key v := by
    rw [replace_fst hs]; exact hs.lookup_eq_some_iff
  have htake (x : T) : (s.take key q).1 = some x ↔ x ∈ s.inner ∧ key x = q := by
    rw [take_fst hs]; exact hs.lookup_eq_some_iff
  refine ⟨hrep, fun x hx => ?_, fun h => by simp [replace_of_not_mem hs h], by simp [SortedVectorSet.insert],
    htake, fun x hx => ?_, take_of_not_mem hs, rfl, ?_,
    fun x => by rw [get_eq_lookup hs]; exact hs.lookup_eq_some_iff⟩
  · obtain ⟨hx, hk⟩ := (hrep x).1 hx
    rw [replace_of_mem hs hx hk]
    exact ⟨_, getElem?_length_filter hs hx hk, rfl⟩
  · obtain ⟨hx, hk⟩ := (htake x).1 hx
    rw [take_of_mem hs hx hk]
    exact ⟨_, getElem?_length_filter hs hx hk, rfl⟩
  · rw [contains, findIndex_eq hs]
    split <;> simp_all [Except.toBool]

/-- `split_off` leaves the elements below `q` and returns the rest, and the two vectors
make up the original one. -/
theorem splitOff_spec (s : OrderedSet key) (q : K) :
    (s.toSet.splitOff key q).2.inner = s.toSet.inner.filter (fun x => key x < q) ∧
    (s.toSet.splitOff key q).1.inner = s.toSet.inner.filter (fun x => q ≤ key x) ∧
    s.toSet.inner = (s.toSet.splitOff key q).2.inner ++ (s.toSet.splitOff key q).1.inner := by
  rw [splitOff_eq s.strictAsc]
  refine ⟨rfl, List.filter_congr fun x _ => by simp only [← decide_not, not_lt], ?_⟩
  exact (s.strictAsc.ascending.filter_append_filter_not (lt_closed q)).symm

end OrderedSet

end SortedVectorMap
