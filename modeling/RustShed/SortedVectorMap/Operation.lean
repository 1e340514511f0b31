import RustShed.SortedVectorMap.Extend

/- The set algebra (`set.rs`): `OperationInner`, the four iterators over it, the operators
   `&`, `-`, `^`, `|` and the tests `is_disjoint`, `is_subset`, `is_superset`.

   `OperationInner` peeks at both sets and gives out a tagged item: `(Some(a), None)` for a
   left element below the right head, `(None, Some(b))` the other way, `(Some(a), Some(b))`
   for equal keys. `Difference`, `SymmetricDifference`, `Intersection` and `Union` loop over
   it and return the first item their `match` keeps: each is `Iter.filterMap` of its own
   `pick`, so what it yields is the scan's items filtered (`Iter.collect_filterMap`).

   On two sets keeping I1:
   1. the scan gives out, in ascending order, one item per key of the union, tagged with
      the left and the right element of that key (`collect_scan`);
   2. `Difference` and `Intersection` yield the left set's elements with no, resp. some,
      equal element on the right; `SymmetricDifference` the merge of both differences;
      `Union` the right-biased merge `unionRight`, the same vector `append` builds;
   3. the operators collect these through `from_iter`, which leaves a strictly ascending
      vector as it is (`fromIter_of_strictAsc`);
   4. `is_subset` tests `other.difference(self)`, so it holds when `other`'s elements are
      in `self`, the converse of its documentation (`isSubset_iff`).

   Correspondence (Rust ↔ Lean):
     `OperationInner`, its `next`         ↔ `OperationInner`, `OperationInner.next`
     `Difference` … `Union`, their `next` ↔ `Difference.toIter` … `Union.toIter`
     the `match` in each `next`           ↔ `pickDifference` … `pickUnion`
     `BitAnd`, `Sub`, `BitXor`, `BitOr`   ↔ `bitand`, `sub`, `bitxor`, `bitor` -/
namespace SortedVectorMap

variable {T K : Type} [LinearOrder K] (key : T → K)

/-- `OperationInner`: both `Peekable` slice iterators, by their remaining items. -/
structure OperationInner (T : Type) where
  left : List T
  right : List T

namespace OperationInner

/-- `OperationInner::next`: the smaller head, tagged with its side; on equal keys both. -/
def next (it : OperationInner T) : Option ((Option T × Option T) × OperationInner T) := do
  let res ← match it.left.head?, it.right.head? with
    | some left, some right => some (compare (key left) (key right))
    | some _, none => some .lt
    | none, some _ => some .gt
    | none, none => none
  match res with
  | .lt => some ((it.left.head?, none), ⟨it.left.tail, it.right⟩)
  | .gt => some ((none, it.right.head?), ⟨it.left, it.right.tail⟩)
  | .eq => some ((it.left.head?, it.right.head?), ⟨it.left.tail, it.right.tail⟩)

variable {key}

@[simp] theorem next_nil_nil : next key (⟨[], []⟩ : OperationInner T) = none := rfl

@[simp] theorem next_cons_nil (a : T) (l : List T) :
    next key ⟨a :: l, []⟩ = some ((some a, none), ⟨l, []⟩) := rfl

@[simp] theorem next_nil_cons (b : T) (r : List T) :
    next key ⟨[], b :: r⟩ = some ((none, some b), ⟨[], r⟩) := rfl

theorem next_cons_cons (a b : T) (l r : List T) :
    next key ⟨a :: l, b :: r⟩ = match compare (key a) (key b) with
      | .lt => some ((some a, none), ⟨l, b :: r⟩)
      | .gt => some ((none, some b), ⟨a :: l, r⟩)
      | .eq => some ((some a, some b), ⟨l, r⟩) := by
  cases h : compare (key a) (key b) <;> simp [next, h, Bind.bind, Option.bind]

variable (key)

def toIter : Iter (OperationInner T) (Option T × Option T) where
  next := next key
  size it := it.left.length + it.right.length
  next_size it a it' h := by
    rcases it with ⟨_ | ⟨x, l⟩, _ | ⟨y, r⟩⟩
    · cases h
    · cases h; simp
    · cases h; simp
    · rw [next_cons_cons] at h
      split at h <;> cases h <;> simp only [List.length_cons] <;> omega

end OperationInner

namespace OperationInner

variable {key} {a b : T} {l r : List T}

@[simp] theorem toIter_next (it : OperationInner T) : (toIter key).next it = next key it := rfl

@[simp] theorem collect_nil_nil : (toIter key).collect (⟨[], []⟩ : OperationInner T) = [] :=
  Iter.collect_of_next_none rfl

@[simp] theorem collect_cons_nil :
    (toIter key).collect ⟨a :: l, []⟩ = (some a, none) :: (toIter key).collect ⟨l, []⟩ :=
  Iter.collect_of_next_some rfl

@[simp] theorem collect_nil_cons :
    (toIter key).collect ⟨[], b :: r⟩ = (none, some b) :: (toIter key).collect ⟨[], r⟩ :=
  Iter.collect_of_next_some rfl

theorem collect_lt (h : key a < key b) :
    (toIter key).collect ⟨a :: l, b :: r⟩ = (some a, none) :: (toIter key).collect ⟨l, b :: r⟩ :=
  Iter.collect_of_next_some (by rw [toIter_next, next_cons_cons, compare_lt_iff_lt.2 h])

theorem collect_gt (h : key b < key a) :
    (toIter key).collect ⟨a :: l, b :: r⟩ = (none, some b) :: (toIter key).collect ⟨a :: l, r⟩ :=
  Iter.collect_of_next_some (by rw [toIter_next, next_cons_cons, compare_gt_iff_gt.2 h])

theorem collect_eq (h : key a = key b) :
    (toIter key).collect ⟨a :: l, b :: r⟩ = (some a, some b) :: (toIter key).collect ⟨l, r⟩ :=
  Iter.collect_of_next_some (by rw [toIter_next, next_cons_cons, compare_eq_iff_eq.2 h])

end OperationInner

/-! ## The four iterators -/

/-- The `match` of `Difference::next`. -/
def pickDifference : Option T × Option T → Option T
  | (some left, none) => some left
  | _ => none

/-- The `match` of `SymmetricDifference::next`. -/
def pickSymmetricDifference : Option T × Option T → Option T
  | (some left, none) => some left
  | (none, some right) => some right
  | _ => none

/-- The `match` of `Intersection::next`. -/
def pickIntersection : Option T × Option T → Option T
  | (some left, some _) => some left
  | _ => none

/-- The `match` of `Union::next`. -/
def pickUnion : Option T × Option T → Option T
  | (_, some right) => some right
  | (some left, none) => some left
  | _ => none

def Difference.toIter : Iter (OperationInner T) T :=
  (OperationInner.toIter key).filterMap pickDifference

def SymmetricDifference.toIter : Iter (OperationInner T) T :=
  (OperationInner.toIter key).filterMap pickSymmetricDifference

def Intersection.toIter : Iter (OperationInner T) T :=
  (OperationInner.toIter key).filterMap pickIntersection

def Union.toIter : Iter (OperationInner T) T :=
  (OperationInner.toIter key).filterMap pickUnion

def Difference.sizeHint (it : OperationInner T) : Nat × Option Nat :=
  let leftHint := Iter.exactHint it.left
  let rightHint := Iter.exactHint it.right
  let low := match rightHint.2 with
    | some rightHigh => leftHint.1 - rightHigh
    | none => 0
  let high := leftHint.2
  (low, high)

def SymmetricDifference.sizeHint (it : OperationInner T) : Nat × Option Nat :=
  let leftHint := Iter.exactHint it.left
  let rightHint := Iter.exactHint it.right
  let low := 0
  let high := match leftHint.2, rightHint.2 with
    | some leftHigh, some rightHigh => Iter.checkedAdd leftHigh rightHigh
    | _, _ => none
  (low, high)

def Intersection.sizeHint (it : OperationInner T) : Nat × Option Nat :=
  let leftHint := Iter.exactHint it.left
  let rightHint := Iter.exactHint it.right
  let low := 0
  let high := match leftHint.2, rightHint.2 with
    | some leftHigh, some rightHigh => some (min leftHigh rightHigh)
    | _, _ => none
  (low, high)

def Union.sizeHint (it : OperationInner T) : Nat × Option Nat :=
  let leftHint := Iter.exactHint it.left
  let rightHint := Iter.exactHint it.right
  let low := max leftHint.1 rightHint.1
  let high := match leftHint.2, rightHint.2 with
    | some leftHigh, some rightHigh => Iter.checkedAdd leftHigh rightHigh
    | _, _ => none
  (low, high)

/-! ## What the four iterators yield -/

section Yield

open OperationInner

variable {key} {a b x : T} {l r : List T}

/-- Whether no element of `r` has the key of `x`. -/
theorem filter_noMatch_cons (l : List T) (h : ∀ x ∈ l, key b ≠ key x) :
    l.filter (fun x => ∀ y ∈ b :: r, key y ≠ key x) = l.filter (fun x => ∀ y ∈ r, key y ≠ key x) :=
  List.filter_congr fun x hx => by simp [h x hx]

theorem filter_match_cons (l : List T) (h : ∀ x ∈ l, key b ≠ key x) :
    l.filter (fun x => ∃ y ∈ b :: r, key y = key x) = l.filter (fun x => ∃ y ∈ r, key y = key x) :=
  List.filter_congr fun x hx => by simp [h x hx]

theorem union_collect : ∀ l r : List T,
    ((toIter key).collect ⟨l, r⟩).filterMap pickUnion = unionRight key l r
  | [], [] => by simp
  | a :: l, [] => by simp [pickUnion, union_collect l []]
  | [], b :: r => by simp [pickUnion, union_collect [] r]
  | a :: l, b :: r => by
    rcases lt_trichotomy (key a) (key b) with h | h | h
    · simp [collect_lt h, unionRight_lt h, pickUnion, union_collect l (b :: r)]
    · simp [collect_eq h, unionRight_eq h, pickUnion, union_collect l r]
    · simp [collect_gt h, unionRight_gt h, pickUnion, union_collect (a :: l) r]
termination_by l r => l.length + r.length

theorem difference_collect : ∀ l r : List T, StrictAsc key l → StrictAsc key r →
    ((toIter key).collect ⟨l, r⟩).filterMap pickDifference =
      l.filter (fun x => ∀ y ∈ r, key y ≠ key x)
  | [], [], _, _ => by simp
  | a :: l, [], hl, hr => by
    simp [pickDifference, difference_collect l [] (strictAsc_cons.1 hl).2 hr]
  | [], b :: r, hl, hr => by
    simp [pickDifference, difference_collect [] r hl (strictAsc_cons.1 hr).2]
  | a :: l, b :: r, hl, hr => by
    have hl' := strictAsc_cons.1 hl
    have hr' := strictAsc_cons.1 hr
    rcases lt_trichotomy (key a) (key b) with h | h | h
    · simp only [collect_lt h, List.filterMap_cons, pickDifference]
      rw [difference_collect l (b :: r) hl'.2 hr, List.filter_cons_of_pos]
      simpa using ⟨ne_of_gt h, fun y hy => ne_of_gt (h.trans (hr'.1 y hy))⟩
    · simp only [collect_eq h, List.filterMap_cons, pickDifference]
      rw [difference_collect l r hl'.2 hr'.2, List.filter_cons_of_neg (by simp [h]),
        filter_noMatch_cons l fun x hx => h ▸ ne_of_lt (hl'.1 x hx)]
    · simp only [collect_gt h, List.filterMap_cons, pickDifference]
      rw [difference_collect (a :: l) r hl hr'.2,
        filter_noMatch_cons (a :: l) fun x hx => ne_of_lt (lt_of_lt_of_le h (hl.head_le hx))]
termination_by l r => l.length + r.length

theorem intersection_collect : ∀ l r : List T, StrictAsc key l → StrictAsc key r →
    ((toIter key).collect ⟨l, r⟩).filterMap pickIntersection =
      l.filter (fun x => ∃ y ∈ r, key y = key x)
  | [], [], _, _ => by simp
  | a :: l, [], hl, hr => by
    simp [pickIntersection, intersection_collect l [] (strictAsc_cons.1 hl).2 hr]
  | [], b :: r, hl, hr => by
    simp [pickIntersection, intersection_collect [] r hl (strictAsc_cons.1 hr).2]
  | a :: l, b :: r, hl, hr => by
    have hl' := strictAsc_cons.1 hl
    have hr' := strictAsc_cons.1 hr
    rcases lt_trichotomy (key a) (key b) with h | h | h
    · simp only [collect_lt h, List.filterMap_cons, pickIntersection]
      rw [intersection_collect l (b :: r) hl'.2 hr, List.filter_cons_of_neg]
      simpa using ⟨ne_of_gt h, fun y hy => ne_of_gt (h.trans (hr'.1 y hy))⟩
    · simp only [collect_eq h, List.filterMap_cons, pickIntersection]
      rw [intersection_collect l r hl'.2 hr'.2, List.filter_cons_of_pos (by simp [h]),
        filter_match_cons l fun x hx => h ▸ ne_of_lt (hl'.1 x hx)]
    · simp only [collect_gt h, List.filterMap_cons, pickIntersection]
      rw [intersection_collect (a :: l) r hl hr'.2,
        filter_match_cons (a :: l) fun x hx => ne_of_lt (lt_of_lt_of_le h (hl.head_le hx))]
termination_by l r => l.length + r.length

/-- The symmetric difference is the merge of the two differences. -/
theorem symmetricDifference_collect : ∀ l r : List T, StrictAsc key l → StrictAsc key r →
    ((toIter key).collect ⟨l, r⟩).filterMap pickSymmetricDifference =
      unionRight key (l.filter (fun x => ∀ y ∈ r, key y ≠ key x))
        (r.filter (fun x => ∀ y ∈ l, key y ≠ key x))
  | [], [], _, _ => by simp
  | a :: l, [], hl, hr => by
    simp [pickSymmetricDifference, symmetricDifference_collect l [] (strictAsc_cons.1 hl).2 hr]
  | [], b :: r, hl, hr => by
    simp [pickSymmetricDifference, symmetricDifference_collect [] r hl (strictAsc_cons.1 hr).2]
  | a :: l, b :: r, hl, hr => by
    have hl' := strictAsc_cons.1 hl
    have hr' := strictAsc_cons.1 hr
    rcases lt_trichotomy (key a) (key b) with h | h | h
    · have e : (a :: l).filter (fun x => ∀ y ∈ b :: r, key y ≠ key x) =
          a :: l.filter (fun x => ∀ y ∈ b :: r, key y ≠ key x) :=
        List.filter_cons_of_pos (decide_eq_true fun _ hy => ne_of_gt (lt_of_lt_of_le h (hr.head_le hy)))
      simp only [collect_lt h, List.filterMap_cons, pickSymmetricDifference]
      rw [symmetricDifference_collect l (b :: r) hl'.2 hr, e,
        filter_noMatch_cons (r := l) (b :: r) fun x hx => ne_of_lt (lt_of_lt_of_le h (hr.head_le hx)),
        unionRight_cons_left fun y hy => lt_of_lt_of_le h (hr.head_le (List.mem_of_mem_filter hy))]
    · simp only [collect_eq h, List.filterMap_cons, pickSymmetricDifference]
      rw [symmetricDifference_collect l r hl'.2 hr'.2, List.filter_cons_of_neg (by simp [h]),
        List.filter_cons_of_neg (by simp [h]),
        filter_noMatch_cons l fun x hx => h ▸ ne_of_lt (hl'.1 x hx),
        filter_noMatch_cons r fun x hx => h ▸ ne_of_lt (hr'.1 x hx)]
    · have e : (b :: r).filter (fun x => ∀ y ∈ a :: l, key y ≠ key x) =
          b :: r.filter (fun x => ∀ y ∈ a :: l, key y ≠ key x) :=
        List.filter_cons_of_pos (decide_eq_true fun _ hy => ne_of_gt (lt_of_lt_of_le h (hl.head_le hy)))
      simp only [collect_gt h, List.filterMap_cons, pickSymmetricDifference]
      rw [symmetricDifference_collect (a :: l) r hl hr'.2, e,
        filter_noMatch_cons (r := r) (a :: l) fun x hx => ne_of_lt (lt_of_lt_of_le h (hl.head_le hx)),
        unionRight_cons_right fun y hy => lt_of_lt_of_le h (hl.head_le (List.mem_of_mem_filter hy))]
termination_by l r => l.length + r.length

end Yield

namespace SortedVectorSet

/-- The state `difference`, `symmetric_difference`, `intersection` and `union` start in:
the iterators of `self` and `other`. -/
def operation (s other : SortedVectorSet T) : OperationInner T := ⟨s.inner, other.inner⟩

def difference (s other : SortedVectorSet T) : OperationInner T := operation s other

def symmetricDifference (s other : SortedVectorSet T) : OperationInner T := operation s other

def intersection (s other : SortedVectorSet T) : OperationInner T := operation s other

def union (s other : SortedVectorSet T) : OperationInner T := operation s other

def isDisjoint (s other : SortedVectorSet T) : Bool :=
  ((Intersection.toIter key).next (s.intersection other)).isNone

/-- `is_subset`: `other.difference(self).next().is_none()`. -/
def isSubset (s other : SortedVectorSet T) : Bool :=
  ((Difference.toIter key).next (other.difference s)).isNone

def isSuperset (s other : SortedVectorSet T) : Bool := other.isSubset key s

/-- `&self & rhs`: `self.intersection(rhs).cloned().collect()`. -/
def bitand (s rhs : SortedVectorSet T) : SortedVectorSet T :=
  fromIter key ((Intersection.toIter key).collect (s.intersection rhs))

/-- `&self - rhs`. -/
def sub (s rhs : SortedVectorSet T) : SortedVectorSet T :=
  fromIter key ((Difference.toIter key).collect (s.difference rhs))

/-- `&self ^ rhs`. -/
def bitxor (s rhs : SortedVectorSet T) : SortedVectorSet T :=
  fromIter key ((SymmetricDifference.toIter key).collect (s.symmetricDifference rhs))

/-- `&self | rhs`. -/
def bitor (s rhs : SortedVectorSet T) : SortedVectorSet T :=
  fromIter key ((Union.toIter key).collect (s.union rhs))

/-! ## What the tests and operators compute -/

variable {key} {s other : SortedVectorSet T}

theorem next_eq_none_iff {f : Option T × Option T → Option T} {it : OperationInner T} :
    ((OperationInner.toIter key).filterMap f).next it = none ↔
      ((OperationInner.toIter key).collect it).filterMap f = [] := by
  rw [Iter.next_eq_none_iff, Iter.collect_filterMap]

/-- `is_disjoint` holds when no element of `self` equals one of `other`. -/
theorem isDisjoint_iff (hs : StrictAsc key s.inner) (ho : StrictAsc key other.inner) :
    s.isDisjoint key other = true ↔ ∀ a ∈ s.inner, ∀ b ∈ other.inner, key a ≠ key b := by
  rw [isDisjoint, Option.isNone_iff_eq_none, Intersection.toIter, next_eq_none_iff,
    intersection, operation, intersection_collect _ _ hs ho, List.filter_eq_nil_iff]
  simp only [decide_eq_true_eq, not_exists, not_and]
  exact forall₂_congr fun a _ => forall₂_congr fun b _ => ne_comm

/-- `is_subset` holds when every element of `other` equals one of `self`: the converse of
what its documentation says. -/
theorem isSubset_iff (hs : StrictAsc key s.inner) (ho : StrictAsc key other.inner) :
    s.isSubset key other = true ↔ ∀ b ∈ other.inner, ∃ a ∈ s.inner, key a = key b := by
  rw [isSubset, Option.isNone_iff_eq_none, Difference.toIter, next_eq_none_iff,
    difference, operation, difference_collect _ _ ho hs, List.filter_eq_nil_iff]
  simp

/-- `is_superset` holds when every element of `self` equals one of `other`. -/
theorem isSuperset_iff (hs : StrictAsc key s.inner) (ho : StrictAsc key other.inner) :
    s.isSuperset key other = true ↔ ∀ a ∈ s.inner, ∃ b ∈ other.inner, key b = key a :=
  isSubset_iff ho hs

/-- The empty set is not a subset of `{1}`, and is a superset of it. -/
theorem isSubset_empty_singleton :
    (∀ a ∈ ([] : List Nat), ∃ b ∈ [1], b = a) ∧
      isSubset id (⟨[]⟩ : SortedVectorSet Nat) ⟨[1]⟩ = false ∧
    ¬ (∀ b ∈ [1], ∃ a ∈ ([] : List Nat), a = b) ∧
      isSuperset id (⟨[]⟩ : SortedVectorSet Nat) ⟨[1]⟩ = true := by
  have hs : StrictAsc id ([] : List Nat) := strictAsc_nil
  have ho : StrictAsc id [1] := List.pairwise_singleton _ _
  refine ⟨by simp, ?_, by simp, (isSuperset_iff hs ho).2 (by simp)⟩
  rw [← Bool.not_eq_true, isSubset_iff hs ho]
  simp

theorem collect_difference (hs : StrictAsc key s.inner) (ho : StrictAsc key other.inner) :
    (Difference.toIter key).collect (s.difference other) =
      s.inner.filter (fun x => ∀ y ∈ other.inner, key y ≠ key x) := by
  rw [Difference.toIter, Iter.collect_filterMap]
  exact difference_collect _ _ hs ho

theorem collect_intersection (hs : StrictAsc key s.inner) (ho : StrictAsc key other.inner) :
    (Intersection.toIter key).collect (s.intersection other) =
      s.inner.filter (fun x => ∃ y ∈ other.inner, key y = key x) := by
  rw [Intersection.toIter, Iter.collect_filterMap]
  exact intersection_collect _ _ hs ho

theorem collect_symmetricDifference (hs : StrictAsc key s.inner) (ho : StrictAsc key other.inner) :
    (SymmetricDifference.toIter key).collect (s.symmetricDifference other) =
      unionRight key (s.inner.filter (fun x => ∀ y ∈ other.inner, key y ≠ key x))
        (other.inner.filter (fun x => ∀ y ∈ s.inner, key y ≠ key x)) := by
  rw [SymmetricDifference.toIter, Iter.collect_filterMap]
  exact symmetricDifference_collect _ _ hs ho

theorem collect_union (s other : SortedVectorSet T) :
    (Union.toIter key).collect (s.union other) = unionRight key s.inner other.inner := by
  rw [Union.toIter, Iter.collect_filterMap]
  exact union_collect _ _

end SortedVectorSet

namespace OrderedSet

open SortedVectorSet

variable {key}

/-- `union` and `|` yield what `append` leaves: the strictly ascending vector of the right
operand's elements and the left operand's elements equal to none of them. -/
theorem union_eq_append (A B : OrderedSet key) :
    (Union.toIter key).collect (A.toSet.union B.toSet) = (A.toSet.append key B.toSet).1.inner ∧
    (A.toSet.bitor key B.toSet).inner = (A.toSet.append key B.toSet).1.inner ∧
    StrictAsc key (A.toSet.append key B.toSet).1.inner ∧
    ∀ x, x ∈ (A.toSet.append key B.toSet).1.inner ↔
      x ∈ B.toSet.inner ∨ (x ∈ A.toSet.inner ∧ ∀ y ∈ B.toSet.inner, key y ≠ key x) := by
  have hu := strictAsc_unionRight A.strictAsc B.strictAsc
  rw [append_eq B.strictAsc, bitor, collect_union]
  exact ⟨rfl, congrArg SortedVectorSet.inner (fromIter_of_strictAsc hu), hu,
    fun x => mem_unionRight_iff A.strictAsc B.strictAsc⟩

/-- `difference` and `intersection` yield, in `A`'s order, `A`'s elements equal to none,
resp. some, element of `B`; `symmetric_difference` yields, strictly ascending, the elements
of either set equal to none of the other; `-`, `&` and `^` hold exactly these. -/
theorem difference_intersection_symmetricDifference_spec (A B : OrderedSet key) :
    (Difference.toIter key).collect (A.toSet.difference B.toSet) =
      A.toSet.inner.filter (fun x => ∀ y ∈ B.toSet.inner, key y ≠ key x) ∧
    (Intersection.toIter key).collect (A.toSet.intersection B.toSet) =
      A.toSet.inner.filter (fun x => ∃ y ∈ B.toSet.inner, key y = key x) ∧
    StrictAsc key ((SymmetricDifference.toIter key).collect (A.toSet.symmetricDifference B.toSet)) ∧
    (∀ x, x ∈ (SymmetricDifference.toIter key).collect (A.toSet.symmetricDifference B.toSet) ↔
      (x ∈ A.toSet.inner ∧ ∀ y ∈ B.toSet.inner, key y ≠ key x) ∨
      (x ∈ B.toSet.inner ∧ ∀ y ∈ A.toSet.inner, key y ≠ key x)) ∧
    (A.toSet.sub key B.toSet).inner = (Difference.toIter key).collect (A.toSet.difference B.toSet) ∧
    (A.toSet.bitand key B.toSet).inner =
      (Intersection.toIter key).collect (A.toSet.intersection B.toSet) ∧
    (A.toSet.bitxor key B.toSet).inner =
      (SymmetricDifference.toIter key).collect (A.toSet.symmetricDifference B.toSet) := by
  have hA := A.strictAsc
  have hB := B.strictAsc
  have hl := hA.filter fun x => ∀ y ∈ B.toSet.inner, key y ≠ key x
  have hr := hB.filter fun x => ∀ y ∈ A.toSet.inner, key y ≠ key x
  have hi := hA.filter fun x => ∃ y ∈ B.toSet.inner, key y = key x
  have hu := strictAsc_unionRight hl hr
  rw [sub, bitand, bitxor, collect_difference hA hB, collect_intersection hA hB,
    collect_symmetricDifference hA hB, fromIter_of_strictAsc hl, fromIter_of_strictAsc hi,
    fromIter_of_strictAsc hu]
  refine ⟨rfl, rfl, hu, fun x => ?_, rfl, rfl, rfl⟩
  rw [mem_unionRight_iff hl hr, or_comm]
  simp only [List.mem_filter, decide_eq_true_eq]
  exact or_congr_left ⟨And.left, fun h => ⟨h, fun y hy => (hy.2 x h.1).symm⟩⟩

end OrderedSet

end SortedVectorMap
