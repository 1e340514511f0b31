import RustShed.SortedVectorMap.Set
import RustShed.SortedVectorMap.Merge

/- The bulk operations (`set.rs`): `extend_with_vec`, `append`, and the `Extend`,
   `FromIterator`, `From<BTreeSet>` and `sorted_vector_set!` constructions over them.

   `extend_with_vec` has four branches: an empty batch, a single item handed to `insert`,
   and, after a stable sort of the batch, either taking the batch (deduplicated from its
   first adjacent duplicate on) into an empty set or after the set's last element, or
   merging it with `MergeIter`. `append` swaps when one side is empty and merges
   otherwise.

   What each does to the set it stands for (`lookup`):
   1. `insert` sets the key of its value to that value (`insert_spec`), so inserting a
      batch in order leaves, for every key, the batch's last element of that key, or the
      set's element if the batch has none (`foldl_insert_spec`);
   2. the stable sort keeps the order of equal elements (`filter_sort`), the duplicate
      scan only saves work (`dedupTail_eq`), and every branch of `extend_with_vec` ends
      in the same set as that fold (`extendWithVec_spec`): being strictly ascending, the
      vectors are then equal;
   3. `append` is the merge in which the other set's elements win ties.

   Correspondence (Rust ↔ Lean):
     `new.sort()`                                      ↔ `sort` (`List.mergeSort`, stable)
     `new.iter().tuple_windows().position(|(a, b)| a == b)` ↔ `firstDup`
     the `split_off`/`DedupIter` tail of the two fast paths ↔ `dedupTail` -/
namespace SortedVectorMap

variable {T K : Type} [LinearOrder K] (key : T → K)

/-- A `BTreeSet<T>`, by its iteration order, which is strictly ascending for a lawful order. -/
structure BTreeSet where
  iter : List T
  ascending : StrictAsc key iter

namespace SortedVectorSet

/-- `<[T]>::sort`. The standard library's sort is stable and a stable sort's result is
unique, so it is `List.mergeSort`, which is stable (`List.sublist_mergeSort`). -/
def sort (v : List T) : List T := v.mergeSort (fun a b => key a ≤ key b)

/-- `new.iter().tuple_windows().position(|(a, b)| a == b)`. -/
def firstDup (new : List T) : Option Nat :=
  (new.zip new.tail).findIdx? (fun ab => key ab.1 = key ab.2)

/-- The fast paths' tail: the batch up to its first adjacent duplicate, then a `DedupIter`
over the rest. -/
def dedupTail (new : List T) : List T :=
  match firstDup key new with
  | some firstDupIndex => new.take firstDupIndex ++ dedup key (new.drop firstDupIndex)
  | none => new

/-- `extend_with_vec`. -/
def extendWithVec (s : SortedVectorSet T) (new : List T) : SortedVectorSet T :=
  match new with
  | [] => s
  | [item] => (s.insert key item).2
  | new =>
    let new := sort key new
    if s.inner.isEmpty then ⟨dedupTail key new⟩
    else
      let allAfter := match s.inner.getLast?, new.head? with
        | some selfLast, some newFirst => decide (key selfLast < key newFirst)
        | _, _ => false
      if allAfter then ⟨s.inner ++ dedupTail key new⟩
      else ⟨(MergeIter.toIter key).collect (MergeIter.new s.inner new)⟩

/-- `append`: `self`, then `other`, after the call. -/
def append (s other : SortedVectorSet T) : SortedVectorSet T × SortedVectorSet T :=
  if other.isEmpty then (s, other)
  else if s.isEmpty then (other, s)
  else (⟨(MergeIter.toIter key).collect (MergeIter.new s.inner other.inner)⟩, ⟨[]⟩)

/-- `Extend::extend`, over owned items and over copied ones alike: collect the items, then
`extend_with_vec`. -/
def extend (s : SortedVectorSet T) (iter : List T) : SortedVectorSet T := s.extendWithVec key iter

/-- `FromIterator::from_iter`: extend a new set. -/
def fromIter (iter : List T) : SortedVectorSet T := new.extend key iter

def default : SortedVectorSet T := new

/-- `From<BTreeSet<T>>`: the tree's items in its order, without a sort. -/
def fromBTreeSet (bset : BTreeSet key) : SortedVectorSet T := ⟨bset.iter⟩

/-- `sorted_vector_set!`: insert the literals one by one into a set of their capacity. -/
def sortedVectorSet (values : List T) : SortedVectorSet T :=
  values.foldl (fun set value => (set.insert key value).2) (withCapacity values.length)

/-! ## `insert` and a run of inserts -/

variable {key} {s : SortedVectorSet T} {l A B : List T} {x y : T} {k : K}

/-- An element strictly between the two parts of a strictly ascending vector keeps I1 and
sets its own key. -/
theorem insert_between (h : StrictAsc key (A ++ B)) (hA : ∀ a ∈ A, key a < key x)
    (hB : ∀ b ∈ B, key x < key b) :
    StrictAsc key (A ++ x :: B) ∧
      ∀ k, lookup key (A ++ x :: B) k = (lookup key [x] k).or (lookup key (A ++ B) k) := by
  rw [StrictAsc, List.pairwise_append] at h
  refine ⟨List.pairwise_append.2 ⟨h.1, List.pairwise_cons.2 ⟨hB, h.2.1⟩, fun a ha b hb => ?_⟩,
    fun k => ?_⟩
  · rcases List.mem_cons.1 hb with rfl | hb
    · exact hA a ha
    · exact h.2.2 a ha b hb
  · rw [lookup_append, lookup_append, lookup_cons, lookup_cons, lookup_nil]
    by_cases hk : key x = k
    · rw [if_pos hk, if_pos hk, lookup_eq_none.2 fun a ha => hk ▸ ne_of_lt (hA a ha)]
      rfl
    · rw [if_neg hk, if_neg hk]
      rfl

/-- `insert` sets the key of its value to that value and keeps I1. -/
theorem insert_spec (hs : StrictAsc key s.inner) (x : T) :
    StrictAsc key (s.insert key x).2.inner ∧ ∀ k,
      lookup key (s.insert key x).2.inner k = (lookup key [x] k).or (lookup key s.inner k) := by
  have hsplit := hs.ascending.filter_append_filter_not (lt_closed (key x))
  set A := s.inner.filter fun y => key y < key x
  have hA : ∀ a ∈ A, key a < key x := fun a ha => by simpa using (List.mem_filter.1 ha).2
  by_cases hm : ∃ y ∈ s.inner, key y = key x
  · obtain ⟨y, hy, hk⟩ := hm
    have hget := getElem?_length_filter hs hy hk
    rw [← List.head?_drop, hs.ascending.drop_length_filter (lt_closed _)] at hget
    obtain ⟨B, hC⟩ := List.head?_eq_some_iff.1 hget
    have e : s.inner = A ++ y :: B := by rw [← hC, hsplit]
    have hs' := e ▸ hs
    have hyB := (List.pairwise_cons.1 (List.pairwise_append.1 hs').2.1).1
    obtain ⟨h₁, h₂⟩ := insert_between (x := x) (hs'.sublist ((List.Sublist.refl A).append
      (List.sublist_cons_self y B))) hA fun b hb => hk ▸ hyB b hb
    have hset : s.inner.set (s.inner.filter fun y => key y < key x).length x = A ++ x :: B :=
      calc s.inner.set (s.inner.filter fun y => key y < key x).length x
          = (A ++ y :: B).set A.length x := by rw [← e]
        _ = A ++ x :: B := by
          rw [List.set_append_right _ _ (le_refl _), Nat.sub_self, List.set_cons_zero]
    simp only [SortedVectorSet.insert, replace_of_mem hs hy hk, hset]
    refine ⟨h₁, fun k => ?_⟩
    rw [h₂, e, lookup_append, lookup_append, lookup_cons y]
    by_cases hkx : key x = k
    · simp [lookup_cons, hkx]
    · rw [if_neg (hk ▸ hkx)]
  · have hC : ∀ b ∈ s.inner.filter (fun z => !decide (key z < key x)), key x < key b :=
      fun b hb => by
        have := (List.mem_filter.1 hb)
        exact lt_of_le_of_ne (by simpa using this.2) fun h => hm ⟨b, this.1, h.symm⟩
    obtain ⟨h₁, h₂⟩ := insert_between (by rw [hsplit]; exact hs) hA hC
    simp only [SortedVectorSet.insert, replace_of_not_mem hs (by simpa using hm),
      orderedInsert_eq hs.ascending]
    exact ⟨h₁, fun k => by rw [h₂, hsplit]⟩

/-- Inserting a batch in order leaves, for every key, the batch's last element of it, or
else the set's. -/
theorem foldl_insert_spec (hs : StrictAsc key s.inner) (v : List T) :
    StrictAsc key (v.foldl (fun t x => (t.insert key x).2) s).inner ∧ ∀ k,
      lookup key (v.foldl (fun t x => (t.insert key x).2) s).inner k =
        (lookup key v.reverse k).or (lookup key s.inner k) := by
  induction v generalizing s with
  | nil => exact ⟨hs, fun k => rfl⟩
  | cons x v ih =>
    obtain ⟨h₁, h₂⟩ := insert_spec hs x
    obtain ⟨h₃, h₄⟩ := ih h₁
    refine ⟨h₃, fun k => ?_⟩
    rw [List.foldl_cons, h₄, h₂, List.reverse_cons, lookup_append, Option.or_assoc]

/-! ## The stable sort and the duplicate scan -/

theorem ascending_sort (v : List T) : Ascending key (sort key v) := by
  have : (sort key v).Pairwise (fun a b => decide (key a ≤ key b)) := List.sorted_mergeSort
    (fun a b c hab hbc => by simpa using le_trans (by simpa using hab) (by simpa using hbc))
    (fun a b => by simpa using le_total (key a) (key b)) v
  exact this.imp fun h => by simpa using h

/-- Stability: the sort keeps the elements of each key in their order. -/
theorem filter_sort (v : List T) (k : K) :
    (sort key v).filter (fun x => key x = k) = v.filter (fun x => key x = k) := by
  have hc : (v.filter fun x => key x = k).Pairwise (fun a b => decide (key a ≤ key b) = true) :=
    List.pairwise_of_forall_mem_list fun a ha b hb => by
      simp [(by simpa using (List.mem_filter.1 ha).2 : key a = k),
        (by simpa using (List.mem_filter.1 hb).2 : key b = k)]
  have hsub := (List.sublist_mergeSort
    (fun a b c hab hbc => by simpa using le_trans (by simpa using hab) (by simpa using hbc))
    (fun a b => by simpa using le_total (key a) (key b)) hc (List.filter_sublist v)).filter
      (fun x => key x = k)
  rw [List.filter_filter] at hsub
  simp only [Bool.and_self] at hsub
  have hlen : ((sort key v).filter fun x => key x = k).length = (v.filter fun x => key x = k).length := by
    simp only [← List.countP_eq_length_filter]
    exact (List.mergeSort_perm v _).countP_eq _
  exact (hsub.eq_of_length hlen.symm).symm

theorem firstDup_cons_cons (a b : T) (l : List T) :
    firstDup key (a :: b :: l) =
      if key a = key b then some 0 else (firstDup key (b :: l)).map (· + 1) := by
  simp only [firstDup, List.tail_cons, List.zip_cons_cons, List.findIdx?_cons, decide_eq_true_eq,
    List.findIdx?_succ]

/-- Without an adjacent duplicate an ascending vector is strictly ascending. -/
theorem strictAsc_of_firstDup_none {w : List T} (hw : Ascending key w)
    (h : firstDup key w = none) : StrictAsc key w := by
  induction w with
  | nil => exact strictAsc_nil
  | cons a w ih =>
    rw [Ascending, List.pairwise_cons] at hw
    cases w with
    | nil => exact List.pairwise_singleton _ a
    | cons b w =>
      rw [firstDup_cons_cons] at h
      split at h
      · cases h
      · have hab : key a < key b := lt_of_le_of_ne (hw.1 b (List.mem_cons_self b w)) ‹_›
        have ih' := ih hw.2 (Option.map_eq_none'.1 h)
        exact strictAsc_cons.2 ⟨fun y hy => lt_of_lt_of_le hab (ih'.head_le hy), ih'⟩

/-- Up to its first adjacent duplicate an ascending vector is already deduplicated. -/
theorem take_append_dedup_drop {w : List T} (hw : Ascending key w) {i : Nat}
    (h : firstDup key w = some i) : w.take i ++ dedup key (w.drop i) = dedup key w := by
  induction w generalizing i with
  | nil => cases h
  | cons a w ih =>
    rw [Ascending, List.pairwise_cons] at hw
    cases w with
    | nil => cases h
    | cons b w =>
      rw [firstDup_cons_cons] at h
      split at h
      · cases h; rfl
      · obtain ⟨j, hj, rfl⟩ := Option.map_eq_some'.1 h
        have hab : key a < key b := lt_of_le_of_ne (hw.1 b (List.mem_cons_self b w)) ‹_›
        rw [dedup_cons_cons, if_pos hab, List.take_succ_cons, List.drop_succ_cons,
          List.cons_append, ih hw.2 hj]

theorem dedupTail_eq {w : List T} (hw : Ascending key w) : dedupTail key w = dedup key w := by
  unfold dedupTail
  split
  · exact take_append_dedup_drop hw ‹_›
  · exact ((strictAsc_of_firstDup_none hw ‹_›).dedup_eq).symm

/-! ## `extend_with_vec` -/

/-- The test of the appending fast path: the set's last element is below the batch's first,
so below the whole ascending batch. -/
theorem lt_of_allAfter {w : List T} (hs : StrictAsc key s.inner) (hw : Ascending key w)
    (h : (match s.inner.getLast?, w.head? with
      | some selfLast, some newFirst => decide (key selfLast < key newFirst)
      | _, _ => false) = true) :
    ∀ x ∈ s.inner, ∀ y ∈ w, key x < key y := by
  intro x hx y hy
  cases hl : s.inner.getLast? with
  | none => simp [hl] at h
  | some last =>
    cases w with
    | nil => cases hy
    | cons first tl =>
      simp only [hl, List.head?_cons, decide_eq_true_eq] at h
      exact lt_of_le_of_lt (hs.le_of_getLast? hl hx) (lt_of_lt_of_le h (hw.head_le hy))

/-- Every branch of `extend_with_vec` keeps I1 and leaves, for every key, the batch's last
element of it, or else the set's. -/
theorem extendWithVec_spec (hs : StrictAsc key s.inner) (v : List T) :
    StrictAsc key (s.extendWithVec key v).inner ∧ ∀ k,
      lookup key (s.extendWithVec key v).inner k = (lookup key v.reverse k).or (lookup key s.inner k) := by
  match v with
  | [] => exact ⟨hs, fun k => rfl⟩
  | [x] => exact insert_spec hs x
  | a :: b :: rest =>
    have hw : Ascending key (sort key (a :: b :: rest)) := ascending_sort _
    have hd := hw.strictAsc_dedup
    have hlk : ∀ k, lookup key (dedup key (sort key (a :: b :: rest))) k =
        lookup key (a :: b :: rest).reverse k := fun k => by
      rw [hw.lookup_dedup, lookup_reverse_congr (filter_sort _ k)]
    simp only [extendWithVec]
    split
    · -- an empty set takes the deduplicated batch
      rename_i hempty
      rw [List.isEmpty_iff.1 hempty, dedupTail_eq hw]
      exact ⟨hd, fun k => by rw [hlk]; simp⟩
    · split
      · -- the batch is above the set's last element: append it
        rename_i hafter
        rw [dedupTail_eq hw]
        have hlt : ∀ x ∈ s.inner, ∀ y ∈ dedup key (sort key (a :: b :: rest)), key x < key y :=
          fun x hx y hy => lt_of_allAfter hs hw hafter x hx y (mem_of_mem_dedup hy)
        refine ⟨List.pairwise_append.2 ⟨hs, hd, hlt⟩, fun k => ?_⟩
        rw [lookup_append_of_lt hlt, hlk]
      · -- otherwise merge
        erw [MergeIter.collect_eq _ _ hw]
        exact ⟨strictAsc_unionRight hs hd, fun k => by rw [lookup_unionRight hs hd, hlk]⟩

/-- A set keeping I1 is determined by the set it stands for. -/
theorem eq_of_lookup {t : SortedVectorSet T} (hs : StrictAsc key s.inner) (ht : StrictAsc key t.inner)
    (h : ∀ k, lookup key s.inner k = lookup key t.inner k) : s = t :=
  SortedVectorSet.ext (hs.ext ht h)

theorem extendWithVec_eq_foldl (hs : StrictAsc key s.inner) (v : List T) :
    s.extendWithVec key v = v.foldl (fun t x => (t.insert key x).2) s :=
  eq_of_lookup (extendWithVec_spec hs v).1 (foldl_insert_spec hs v).1 fun k => by
    rw [(extendWithVec_spec hs v).2, (foldl_insert_spec hs v).2]

/-- When `other` keeps I1, `append` leaves the right-biased merge and an empty `other`. -/
theorem append_eq {other : SortedVectorSet T} (ho : StrictAsc key other.inner) :
    s.append key other = (⟨unionRight key s.inner other.inner⟩, ⟨[]⟩) := by
  unfold append
  split
  · rename_i h
    rw [List.isEmpty_iff.1 h, unionRight_nil_right]
    exact Prod.ext rfl (SortedVectorSet.ext (List.isEmpty_iff.1 h))
  · split
    · rename_i _ h
      rw [List.isEmpty_iff.1 h, unionRight_nil_left]
      exact Prod.ext rfl (SortedVectorSet.ext (List.isEmpty_iff.1 h))
    · erw [MergeIter.collect_eq _ _ ho.ascending, ho.dedup_eq]

/-- `from_iter` of a strictly ascending sequence is that sequence. -/
theorem fromIter_of_strictAsc {v : List T} (hv : StrictAsc key v) : fromIter key v = ⟨v⟩ :=
  have h := extendWithVec_spec (s := new) strictAsc_nil v
  eq_of_lookup h.1 hv fun k => by
    rw [fromIter, extend, h.2, hv.lookup_reverse]
    exact Option.or_none

end SortedVectorSet

namespace OrderedSet

open SortedVectorSet

variable {key}

/-- `extend_with_vec`, hence `extend` and `from_iter`, ends where inserting the batch in
order ends: for every key the batch's last element of it wins, then the set's. -/
theorem extend_eq_insert_fold (s : OrderedSet key) (v : List T) :
    s.toSet.extendWithVec key v = v.foldl (fun t x => (t.insert key x).2) s.toSet ∧
    s.toSet.extend key v = v.foldl (fun t x => (t.insert key x).2) s.toSet ∧
    fromIter key v = v.foldl (fun t x => (t.insert key x).2) SortedVectorSet.new ∧
    ∀ k, lookup key (s.toSet.extendWithVec key v).inner k =
      (lookup key v.reverse k).or (lookup key s.toSet.inner k) :=
  ⟨extendWithVec_eq_foldl s.strictAsc v, extendWithVec_eq_foldl s.strictAsc v,
    extendWithVec_eq_foldl strictAsc_nil v, (extendWithVec_spec s.strictAsc v).2⟩

/-- `append` empties `other` and leaves what inserting `other`'s elements in order leaves:
the union in which `other`'s element replaces an equal one. -/
theorem append_spec (A B : OrderedSet key) :
    (A.toSet.append key B.toSet).2.inner = [] ∧
    (A.toSet.append key B.toSet).1 = B.toSet.inner.foldl (fun t x => (t.insert key x).2) A.toSet ∧
    StrictAsc key (A.toSet.append key B.toSet).1.inner ∧
    ∀ k, lookup key (A.toSet.append key B.toSet).1.inner k =
      (lookup key B.toSet.inner k).or (lookup key A.toSet.inner k) := by
  have hlk := lookup_unionRight A.strictAsc B.strictAsc
  have hu := strictAsc_unionRight A.strictAsc B.strictAsc
  rw [append_eq B.strictAsc]
  refine ⟨rfl, eq_of_lookup hu (foldl_insert_spec A.strictAsc _).1 fun k => ?_, hu, hlk⟩
  rw [hlk, (foldl_insert_spec A.strictAsc _).2, B.strictAsc.lookup_reverse]

end OrderedSet

end SortedVectorMap
