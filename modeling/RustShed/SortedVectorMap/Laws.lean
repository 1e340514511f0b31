import RustShed.SortedVectorMap.Range
import RustShed.SortedVectorMap.Refinement
import RustShed.SortedVectorMap.SizeHint

/- How the set's operations compose, on sets keeping invariant I1.

   1. `split_off` then `append` of the returned set gives the set back
      (`splitOff_append`), and `range` with one bound at `q` returns what `split_off(q)`
      leaves or returns (`range_splitOff`);
   2. the operators satisfy the set laws that hold of their elements, not only of their
      keys: `(A - B) | (A & B) = A`, `A ^ B = (A - B) | (B - A)` and `A - (A - B) = A & B`
      (`operator_laws`);
   3. `sorted_vector_set!`, `From<BTreeSet>` and `from_iter` build the same set
      (`constructors_agree`);
   4. `len` moves by one exactly when `replace`, `insert`, `take` or `remove` report a new
      or a found element (`len_insert_take`);
   5. `first` and `last` are the least and the greatest element (`first_last_spec`);
   6. `find_index` is `Ok` at the element of the key, and otherwise `Err` at the insertion
      point (`findIndex_spec`);
   7. the derived `==` holds exactly of sets with elements of the same keys
      (`eq_iff_same_keys`);
   8. a set is the map it stands for, and `get`, `contains` and `is_empty` read that map
      (`queries_read_contents`);
   9. on the maps, `A.is_subset(B)` holds when every key of `B` is one of `A`, the reverse
      of its documentation, and `is_disjoint` when no key is in both
      (`subset_tests_spec`);
  10. the quickcheck properties of the tests hold of every input: a set built by inserting
      a `BTreeSet`'s items in order is empty, long and iterated like it, and a set
      collected into a `BTreeSet` (`BTreeSet.fromIter`, the standard library's sort and
      deduplication) and converted back is unchanged (`like_btreeset`);
  11. the sizes of the operators' results obey inclusion-exclusion (`len_operators`). -/
namespace SortedVectorMap

variable {T K : Type} [LinearOrder K] {key : T → K}

section Lists

variable {l : List T} {x : T} {i : Nat}

/-- The index of an element of a strictly ascending vector counts the elements below it. -/
theorem StrictAsc.length_filter_of_getElem? (h : StrictAsc key l) (hi : l[i]? = some x) :
    (l.filter fun y => key y < key x).length = i := by
  obtain ⟨hlt, hx⟩ := List.getElem?_eq_some_iff.1 hi
  have e : l.take i ++ x :: l.drop (i + 1) = l := by
    rw [← hx, ← List.drop_eq_getElem_cons hlt, List.take_append_drop]
  have h' : StrictAsc key (l.take i ++ x :: l.drop (i + 1)) := by rwa [e]
  rw [StrictAsc, List.pairwise_append, List.pairwise_cons] at h'
  rw [← e, List.filter_append, List.filter_cons_of_neg (by simp),
    List.filter_eq_self.2 fun y hy => by simpa using h'.2.2 y hy x (List.mem_cons_self _ _),
    List.filter_eq_nil_iff.2 fun y hy => by simpa using le_of_lt (h'.2.1.1 y hy)]
  simp [Nat.min_eq_left (Nat.le_of_lt hlt)]

end Lists

namespace SortedVectorSet

variable {s t : SortedVectorSet T}

theorem eq_of_contents (hs : StrictAsc key s.inner) (ht : StrictAsc key t.inner)
    (h : contents key s = contents key t) : s = t :=
  eq_of_lookup hs ht (congrFun h)

theorem eq_iff_map : ∀ l r : List T,
    (l.length == r.length && (l.zip r).all fun p => key p.1 == key p.2) = true ↔
      l.map key = r.map key
  | [], [] => by simp
  | [], _ :: _ => by simp
  | _ :: _, [] => by simp
  | a :: l, b :: r => by
    have ih := eq_iff_map l r
    simp only [Bool.and_eq_true, beq_iff_eq, List.all_eq_true] at ih
    simp only [List.length_cons, List.zip_cons_cons, List.all_cons, List.map_cons,
      List.cons.injEq, Bool.and_eq_true, beq_iff_eq, List.all_eq_true, Nat.add_right_cancel_iff,
      ← ih]
    tauto

theorem contains_eq_isSome (hs : StrictAsc key s.inner) (q : K) :
    s.contains key q = (contents key s q).isSome := by
  by_cases h : ∃ x ∈ s.inner, key x = q
  · obtain ⟨x, hx, hk⟩ := h
    simp [contains, findIndex_of_mem hs hx hk, Except.toBool, contents,
      lookup_isSome_iff.2 ⟨x, hx, hk⟩]
  · push_neg at h
    simp [contains, findIndex_of_not_mem hs h, Except.toBool, contents, lookup_eq_none.2 h]

theorem isEmpty_iff_contents : s.isEmpty = true ↔ ∀ k, contents key s k = none := by
  simp only [isEmpty, List.isEmpty_iff, contents, lookup_eq_none]
  exact ⟨by rintro h k x hx; simp [h] at hx,
    fun h => List.eq_nil_iff_forall_not_mem.2 fun x hx => h (key x) x hx rfl⟩

/-- `from_iter` keeps a strictly ascending sequence, so the set has its length. -/
theorem len_fromIter {v : List T} (hv : StrictAsc key v) : (fromIter key v).len = v.length := by
  rw [fromIter_of_strictAsc hv]
  rfl

/-- The tests' `svset_from_btreeset`: `with_capacity(b.len())`, then `insert` of each item
of `b` in its order. -/
def svsetFromBTreeSet (key : T → K) (b : BTreeSet key) : SortedVectorSet T :=
  b.iter.foldl (fun t v => (t.insert key v).2) (withCapacity b.iter.length)

end SortedVectorSet

namespace BTreeSet

/-- `BTreeSet::from_iter` of the standard library: collect the items into a `Vec`, sort it
stably, and build the tree through a `DedupSortedIter`, which of each run of equal items
keeps the last. An empty batch gives `BTreeSet::new()`, as the formula does. -/
def fromIter (key : T → K) (v : List T) : BTreeSet key :=
  ⟨dedup key (SortedVectorSet.sort key v), (SortedVectorSet.ascending_sort v).strictAsc_dedup⟩

/-- A strictly ascending batch is sorted already and has no duplicates, so the tree iterates
it as it came. -/
theorem iter_fromIter {v : List T} (hv : StrictAsc key v) : (fromIter key v).iter = v := by
  show dedup key (v.mergeSort fun a b => key a ≤ key b) = v
  rw [List.mergeSort_of_sorted (hv.ascending.imp fun h => decide_eq_true h), hv.dedup_eq]

end BTreeSet

namespace OrderedSet

open SortedVectorSet

/-- `split_off(q)` then `append` of the returned set gives the set back, and leaves the
returned set empty. -/
theorem splitOff_append (s : OrderedSet key) (q : K) :
    ((s.toSet.splitOff key q).2.append key (s.toSet.splitOff key q).1).1 = s.toSet ∧
    ((s.toSet.splitOff key q).2.append key (s.toSet.splitOff key q).1).2 = new := by
  obtain ⟨s, hs⟩ := s
  obtain ⟨hhi, hlo⟩ := strictAsc_splitOff hs q
  obtain ⟨hbelow, habove⟩ := contents_splitOff hs q
  refine ⟨eq_of_contents (strictAsc_append hlo hhi).1 hs ?_, by rw [append_eq hhi]; rfl⟩
  rw [(contents_append hlo hhi).1, hbelow, habove]
  funext k
  by_cases hk : k < q <;> simp [Abs.union, Abs.below, Abs.atOrAbove, hk]

/-- `range(..q)` is what `split_off(q)` leaves, and `range(q..)` what it returns. -/
theorem range_splitOff (s : OrderedSet key) (q : K) :
    s.toSet.range key .unbounded (.excluded q) = .ok (s.toSet.splitOff key q).2.inner ∧
    s.toSet.range key (.included q) .unbounded = .ok (s.toSet.splitOff key q).1.inner := by
  have hs := s.strictAsc
  have h₁ : ¬Bound.Inverted .unbounded (.excluded q) := not_false
  have h₂ : ¬Bound.Inverted (.included q) .unbounded := not_false
  rw [range_eq hs, range_eq hs, splitOff_eq hs,
    if_neg (not_lt.2 (rangeIndexStart_le_rangeIndexEnd hs h₁)),
    if_neg (not_lt.2 (rangeIndexStart_le_rangeIndexEnd hs h₂))]
  refine ⟨rfl, congrArg Except.ok (List.filter_congr fun x _ => ?_)⟩
  simp [Bound.startAdmits, Bound.endAdmits, ← decide_not]

/-- The operators obey the set laws of their elements: `A - B` and `A & B` split `A`,
`A ^ B` is the union of the two differences, and `A - (A - B)` is `A & B`. -/
theorem operator_laws (A B : OrderedSet key) :
    (A.toSet.sub key B.toSet).bitor key (A.toSet.bitand key B.toSet) = A.toSet ∧
    A.toSet.bitxor key B.toSet = (A.toSet.sub key B.toSet).bitor key (B.toSet.sub key A.toSet) ∧
    A.toSet.sub key (A.toSet.sub key B.toSet) = A.toSet.bitand key B.toSet := by
  have hA := A.strictAsc
  have hB := B.strictAsc
  have hAB : StrictAsc key (A.toSet.sub key B.toSet).inner := strictAsc_fromIter _
  have hBA : StrictAsc key (B.toSet.sub key A.toSet).inner := strictAsc_fromIter _
  have hi : StrictAsc key (A.toSet.bitand key B.toSet).inner := strictAsc_fromIter _
  refine ⟨eq_of_contents (strictAsc_fromIter _) hA ?_, eq_of_contents (strictAsc_fromIter _)
    (strictAsc_fromIter _) ?_, eq_of_contents (strictAsc_fromIter _) hi ?_⟩
  · rw [contents_bitor hAB hi, contents_sub hA hB, contents_bitand hA hB]
    funext k
    cases hb : (contents key B.toSet k).isSome <;> simp [Abs.union, Abs.diff, Abs.inter, hb]
  · rw [contents_bitxor hA hB, contents_bitor hAB hBA, contents_sub hA hB, contents_sub hB hA]
    rfl
  · rw [contents_sub hA hAB, contents_sub hA hB, contents_bitand hA hB]
    funext k
    cases hb : (contents key B.toSet k).isSome <;> cases ha : contents key A.toSet k <;>
      simp [Abs.diff, Abs.inter, hb, ha]

/-- `sorted_vector_set!` inserts its values one by one and `From<BTreeSet>` copies the
tree's order; both build what `from_iter` builds. -/
theorem constructors_agree (v : List T) (bset : BTreeSet key) :
    sortedVectorSet key v = fromIter key v ∧ fromBTreeSet key bset = fromIter key bset.iter :=
  ⟨(extendWithVec_eq_foldl (s := new) strictAsc_nil v).symm,
    (fromIter_of_strictAsc bset.ascending).symm⟩

/-- `len` grows by one exactly when `replace` and `insert` report a new element, and shrinks
by one exactly when `take` and `remove` report a found one. -/
theorem len_insert_take (s : OrderedSet key) (v : T) (q : K) :
    (s.toSet.replace key v).2.len =
      s.toSet.len + (if (s.toSet.replace key v).1.isNone then 1 else 0) ∧
    (s.toSet.insert key v).2.len = s.toSet.len + (if (s.toSet.insert key v).1 then 1 else 0) ∧
    (s.toSet.take key q).2.len + (if (s.toSet.take key q).1.isSome then 1 else 0) = s.toSet.len ∧
    (s.toSet.remove key q).2.len + (if (s.toSet.remove key q).1 then 1 else 0) = s.toSet.len := by
  obtain ⟨s, hs⟩ := s
  have hrep : (s.replace key v).2.len = s.len + (if (s.replace key v).1.isNone then 1 else 0) := by
    by_cases hm : ∃ x ∈ s.inner, key x = key v
    · obtain ⟨x, hx, hk⟩ := hm
      simp [replace_of_mem hs hx hk, len]
    · simp [replace_of_not_mem hs (by simpa using hm), len, List.orderedInsert_length]
  have htake : (s.take key q).2.len + (if (s.take key q).1.isSome then 1 else 0) = s.len := by
    by_cases hm : ∃ x ∈ s.inner, key x = q
    · obtain ⟨x, hx, hk⟩ := hm
      have hi := getElem?_length_filter hs hx hk
      rw [take_of_mem hs hx hk]
      simp [len, List.length_eraseIdx_add_one (List.getElem?_eq_some_iff.1 hi).1]
    · simp [take_of_not_mem hs (by simpa using hm)]
  exact ⟨hrep, hrep, htake, htake⟩

/-- `first` is the element of the least key and `last` the element of the greatest. -/
theorem first_last_spec (s : OrderedSet key) (x : T) :
    (s.toSet.first = some x ↔ x ∈ s.toSet.inner ∧ ∀ y ∈ s.toSet.inner, key x ≤ key y) ∧
    (s.toSet.last = some x ↔ x ∈ s.toSet.inner ∧ ∀ y ∈ s.toSet.inner, key y ≤ key x) := by
  obtain ⟨⟨l⟩, hs⟩ := s
  refine ⟨⟨fun h => ?_, fun ⟨hx, hmin⟩ => hs.head?_eq hx hmin⟩,
    ⟨fun h => ⟨List.mem_of_getLast?_eq_some h, fun y hy => hs.le_of_getLast? h hy⟩,
      fun ⟨hx, hmax⟩ => ?_⟩⟩
  · obtain ⟨l', rfl⟩ := List.head?_eq_some_iff.1 h
    exact ⟨List.mem_cons_self _ _, fun y hy => hs.head_le hy⟩
  · cases hl : l.getLast? with
    | none => simp_all
    | some a =>
      have ha := List.mem_of_getLast?_eq_some hl
      rw [show x = a from hs.eq_of_key_eq hx ha (le_antisymm (hs.le_of_getLast? hl hx) (hmax a ha))]
      exact hl

/-- `find_index` is `Ok(i)` exactly at the element of key `q`, and otherwise `Err(i)` at
the insertion point: the elements before `i` are below `q` and the rest above it. -/
theorem findIndex_spec (s : OrderedSet key) (q : K) (i : Nat) :
    (s.toSet.findIndex key q = .ok i ↔ ∃ x, s.toSet.inner[i]? = some x ∧ key x = q) ∧
    (s.toSet.findIndex key q = .error i ↔ (∀ x ∈ s.toSet.inner, key x ≠ q) ∧
      i ≤ s.toSet.len ∧ (∀ x ∈ s.toSet.inner.take i, key x < q) ∧
      ∀ x ∈ s.toSet.inner.drop i, q < key x) := by
  obtain ⟨s, hs⟩ := s
  dsimp only
  rw [findIndex_eq hs]
  by_cases hm : ∃ x ∈ s.inner, key x = q
  · rw [if_pos hm]
    obtain ⟨x, hx, rfl⟩ := hm
    refine ⟨⟨fun e => ⟨x, ?_, rfl⟩, fun ⟨y, hy, hk⟩ => ?_⟩,
      iff_of_false (by simp) fun h => h.1 x hx rfl⟩
    · rw [← Except.ok.inj e]
      exact getElem?_length_filter hs hx rfl
    · rw [← hk, hs.length_filter_of_getElem? hy]
  · rw [if_neg hm]
    have hn : ∀ x ∈ s.inner, key x ≠ q := fun x hx hk => hm ⟨x, hx, hk⟩
    refine ⟨iff_of_false (by simp) fun ⟨y, hy, hk⟩ => hn y (List.getElem?_mem hy) hk,
      fun e => ?_, fun ⟨_, hi, hlt, hgt⟩ => ?_⟩
    · cases e
      rw [hs.ascending.take_length_filter (lt_closed q),
        hs.ascending.drop_length_filter (lt_closed q)]
      refine ⟨hn, List.length_filter_le _ _, fun y hy => by simpa using (List.mem_filter.1 hy).2,
        fun y hy => ?_⟩
      have := List.mem_filter.1 hy
      exact lt_of_le_of_ne (by simpa using this.2) (hn y this.1).symm
    · have e : s.inner.filter (fun x => key x < q) = s.inner.take i := by
        conv_lhs => rw [← List.take_append_drop i s.inner]
        rw [List.filter_append, List.filter_eq_self.2 fun y hy => by simpa using hlt y hy,
          List.filter_eq_nil_iff.2 fun y hy => by simpa using le_of_lt (hgt y hy), List.append_nil]
      rw [e, List.length_take]
      exact congrArg Except.error (Nat.min_eq_left hi)

/-- The derived `==` holds of two sets exactly when they have elements of the same keys. -/
theorem eq_iff_same_keys (A B : OrderedSet key) :
    A.toSet.eq key B.toSet = true ↔ ∀ k, (∃ x ∈ A.toSet.inner, key x = k) ↔ ∃ y ∈ B.toSet.inner, key y = k := by
  rw [SortedVectorSet.eq, eq_iff_map]
  refine ⟨fun h k => by simp only [← List.mem_map, h], fun h => ?_⟩
  have hA : (A.toSet.inner.map key).Sorted (· < ·) := List.pairwise_map.2 A.strictAsc
  have hB : (B.toSet.inner.map key).Sorted (· < ·) := List.pairwise_map.2 B.strictAsc
  exact List.eq_of_perm_of_sorted
    ((List.perm_ext_iff_of_nodup hA.nodup hB.nodup).2 fun k => by simpa only [List.mem_map] using h k)
    hA hB

/-- A set is the map it stands for: sets of the same map are equal, `get` and `contains`
look the key up in the map, and `is_empty` holds of the empty map. -/
theorem queries_read_contents (A B : OrderedSet key) (q : K) :
    (contents key A.toSet = contents key B.toSet → A = B) ∧
    A.toSet.get key q = contents key A.toSet q ∧
    A.toSet.contains key q = (contents key A.toSet q).isSome ∧
    (A.toSet.isEmpty = true ↔ ∀ k, contents key A.toSet k = none) := by
  refine ⟨fun h => ?_, get_eq_lookup A.strictAsc q, contains_eq_isSome A.strictAsc q,
    isEmpty_iff_contents⟩
  obtain ⟨a, ha⟩ := A
  obtain ⟨b, hb⟩ := B
  obtain rfl := eq_of_contents ha hb h
  rfl

/-- What the subset tests compute on the maps: `A.is_subset(B)` holds when every key of `B`
is a key of `A`, `A.is_superset(B)` the converse, and `is_disjoint` when no key is in both. -/
theorem subset_tests_spec (A B : OrderedSet key) :
    (A.toSet.isSubset key B.toSet = true ↔
      ∀ k, (contents key B.toSet k).isSome → (contents key A.toSet k).isSome) ∧
    (A.toSet.isSuperset key B.toSet = true ↔
      ∀ k, (contents key A.toSet k).isSome → (contents key B.toSet k).isSome) ∧
    (A.toSet.isDisjoint key B.toSet = true ↔
      ∀ k, ¬((contents key A.toSet k).isSome ∧ (contents key B.toSet k).isSome)) := by
  -- each test reads "every element of one side has its key on the other" off the keys
  have keys : ∀ l r : List T, (∀ b ∈ r, ∃ a ∈ l, key a = key b) ↔
      ∀ k, (lookup key r k).isSome → (lookup key l k).isSome := fun l r => by
    simp only [lookup_isSome_iff]
    exact ⟨fun h k ⟨b, hb, hk⟩ => hk ▸ h b hb, fun h b hb => h _ ⟨b, hb, rfl⟩⟩
  refine ⟨(isSubset_iff A.strictAsc B.strictAsc).trans (keys _ _),
    (isSuperset_iff A.strictAsc B.strictAsc).trans (keys _ _),
    (isDisjoint_iff A.strictAsc B.strictAsc).trans ?_⟩
  simp only [contents, lookup_isSome_iff]
  exact ⟨fun h k ⟨⟨a, ha, hak⟩, ⟨b, hb, hbk⟩⟩ => h a ha b hb (hak.trans hbk.symm),
    fun h a ha b hb hab => h (key a) ⟨⟨a, ha, rfl⟩, ⟨b, hb, hab.symm⟩⟩⟩

/-- `like_btreeset_is_empty`, `like_btreeset_len`, `like_btreeset_iter` and
`roundtrip_via_btreeset`. The round trip collects the set's items into a `BTreeSet`, which
sorts and deduplicates them, and converts it back with `From<BTreeSet>`. -/
theorem like_btreeset (b : BTreeSet key) (s : OrderedSet key) :
    (svsetFromBTreeSet key b).isEmpty = b.iter.isEmpty ∧
    (svsetFromBTreeSet key b).len = b.iter.length ∧
    (svsetFromBTreeSet key b).iter = b.iter ∧
    (fromBTreeSet key (BTreeSet.fromIter key s.toSet.intoInner)).iter = s.toSet.iter := by
  -- inserting the ascending items one by one gives them back
  have h : (svsetFromBTreeSet key b).inner = b.iter := by
    obtain ⟨hs, hl⟩ := foldl_insert_spec (s := withCapacity b.iter.length)
      (strictAsc_nil : StrictAsc key []) b.iter
    exact hs.ext b.ascending fun k => by rw [hl, b.ascending.lookup_reverse]; exact Option.or_none
  exact ⟨congrArg List.isEmpty h, congrArg List.length h, h, BTreeSet.iter_fromIter s.strictAsc⟩

/-- The sizes of the operators' results obey inclusion-exclusion: `|A | B| + |A & B|` and
`|A ^ B| + 2 |A & B|` are `|A| + |B|`, and `|A - B| + |A & B|` is `|A|`. -/
theorem len_operators (A B : OrderedSet key) :
    (A.toSet.bitor key B.toSet).len + (A.toSet.bitand key B.toSet).len =
      A.toSet.len + B.toSet.len ∧
    (A.toSet.sub key B.toSet).len + (A.toSet.bitand key B.toSet).len = A.toSet.len ∧
    (A.toSet.bitxor key B.toSet).len + 2 * (A.toSet.bitand key B.toSet).len =
      A.toSet.len + B.toSet.len := by
  have hA := A.strictAsc
  have hB := B.strictAsc
  -- each operator collects a strictly ascending sequence, which `from_iter` keeps
  have hu : (A.toSet.bitor key B.toSet).len =
      ((Union.toIter key).collect (A.toSet.union B.toSet)).length :=
    len_fromIter (by rw [collect_union]; exact strictAsc_unionRight hA hB)
  have hi : (A.toSet.bitand key B.toSet).len =
      ((Intersection.toIter key).collect (A.toSet.intersection B.toSet)).length :=
    len_fromIter (by rw [collect_intersection hA hB]; exact hA.filter _)
  have hd : (A.toSet.sub key B.toSet).len =
      ((Difference.toIter key).collect (A.toSet.difference B.toSet)).length :=
    len_fromIter (by rw [collect_difference hA hB]; exact hA.filter _)
  have hx : (A.toSet.bitxor key B.toSet).len =
      ((SymmetricDifference.toIter key).collect (A.toSet.symmetricDifference B.toSet)).length :=
    len_fromIter (by
      rw [collect_symmetricDifference hA hB]
      exact strictAsc_unionRight (hA.filter _) (hB.filter _))
  obtain ⟨h₁, h₂, h₃, -⟩ := length_picks_collect key (operation A.toSet B.toSet)
  simp only [Union.toIter, Intersection.toIter, Difference.toIter, SymmetricDifference.toIter,
    Iter.collect_filterMap] at hu hi hd hx
  simp only [len, union, intersection, difference, symmetricDifference, operation] at *
  omega

end OrderedSet

end SortedVectorMap
