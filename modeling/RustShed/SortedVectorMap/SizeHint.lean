import RustShed.SortedVectorMap.Operation

/- The `size_hint` of every iterator of `set.rs`, against what the iterator still yields.

   The scan gives out each remaining left element in exactly one item, as its first
   component, each remaining right element as the second component of exactly one item, and
   no item empty (`collect_components`). Which items each of the four iterators keeps is
   then a matter of counting tags (`length_picks`), and each hint is sound at every state of
   the scan, reached or not:
   1. `Difference`: between `left - right` and `left`;
   2. `SymmetricDifference`: at most `left + right`;
   3. `Intersection`: at most `min left right`;
   4. `Union`: between `max left right` and `left + right`, the same bounds as for any
      `unionRight` (`length_unionRight`).
   `DedupIter` yields at least one item when its input is not empty and at most one per
   input item. `MergeIter` yields the merge of its left input and the deduplicated right
   one, so its hint is sound whenever its right input is ascending, which every step keeps
   (`MergeIter.next_right_sublist`) and which `append` and `extend_with_vec` start from.

   Correspondence (Rust ↔ Lean):
     `Difference::size_hint` … `Union::size_hint` ↔ `Difference.sizeHint` … `Union.sizeHint`
     `DedupIter::size_hint`, `MergeIter::size_hint` ↔ `DedupIter.sizeHint`, `MergeIter.sizeHint` -/
namespace SortedVectorMap

variable {T K : Type} [LinearOrder K] (key : T → K)

/-! ## The scan's items -/

namespace OperationInner

variable {key} {it it' : OperationInner T} {p : Option T × Option T}

/-- One step of the scan gives out the heads it consumes, at least one of them. -/
theorem next_eq_some (h : next key it = some (p, it')) :
    it.left = p.1.toList ++ it'.left ∧ it.right = p.2.toList ++ it'.right ∧ p ≠ (none, none) := by
  rcases it with ⟨_ | ⟨a, l⟩, _ | ⟨b, r⟩⟩
  · cases h
  · cases h; simp
  · cases h; simp
  · rw [next_cons_cons] at h
    split at h <;> cases h <;> simp

theorem next_eq_none (h : next key it = none) : it.left = [] ∧ it.right = [] := by
  rcases it with ⟨_ | ⟨a, l⟩, _ | ⟨b, r⟩⟩
  · exact ⟨rfl, rfl⟩
  · cases h
  · cases h
  · rw [next_cons_cons] at h
    split at h <;> cases h

variable (key)

/-- The scan's items carry the left vector in their first components and the right one in
their second, and none is empty. -/
theorem collect_components (it : OperationInner T) :
    ((toIter key).collect it).filterMap Prod.fst = it.left ∧
    ((toIter key).collect it).filterMap Prod.snd = it.right ∧
    (none, none) ∉ (toIter key).collect it := by
  induction it using (toIter key).induction with
  | done it h =>
    obtain ⟨hl, hr⟩ := next_eq_none h
    rw [Iter.collect_of_next_none h, hl, hr]
    simp
  | step it p it' h ih =>
    obtain ⟨hl, hr, hp⟩ := next_eq_some h
    rw [Iter.collect_of_next_some h, hl, hr, ← ih.1, ← ih.2.1]
    rcases p with ⟨_ | a, _ | b⟩ <;> simp_all

end OperationInner

variable {key}

/-- What each iterator keeps of a run of the scan: every left element is left alone or
matched, `Union` keeps the left-alone items and every right one, and `SymmetricDifference`
every item but the matched ones. -/
theorem length_picks (c : List (Option T × Option T)) (hc : (none, none) ∉ c) :
    (c.filterMap Prod.fst).length =
      (c.filterMap pickDifference).length + (c.filterMap pickIntersection).length ∧
    (c.filterMap pickUnion).length = (c.filterMap pickDifference).length + (c.filterMap Prod.snd).length ∧
    (c.filterMap pickSymmetricDifference).length + (c.filterMap pickIntersection).length =
      (c.filterMap pickDifference).length + (c.filterMap Prod.snd).length ∧
    (c.filterMap pickIntersection).length ≤ (c.filterMap Prod.snd).length := by
  induction c with
  | nil => simp
  | cons p c ih =>
    rw [List.mem_cons, not_or] at hc
    have := ih hc.2
    rcases p with ⟨_ | a, _ | b⟩ <;>
      simp_all [pickDifference, pickIntersection, pickUnion, pickSymmetricDifference] <;> omega

variable (key)

/-- The counts of `length_picks` for the items a scan state still gives out. -/
theorem length_picks_collect (it : OperationInner T) :
    it.left.length = (((OperationInner.toIter key).collect it).filterMap pickDifference).length +
      (((OperationInner.toIter key).collect it).filterMap pickIntersection).length ∧
    (((OperationInner.toIter key).collect it).filterMap pickUnion).length =
      (((OperationInner.toIter key).collect it).filterMap pickDifference).length + it.right.length ∧
    (((OperationInner.toIter key).collect it).filterMap pickSymmetricDifference).length +
      (((OperationInner.toIter key).collect it).filterMap pickIntersection).length =
      (((OperationInner.toIter key).collect it).filterMap pickDifference).length + it.right.length ∧
    (((OperationInner.toIter key).collect it).filterMap pickIntersection).length ≤ it.right.length := by
  obtain ⟨hl, hr, hn⟩ := OperationInner.collect_components key it
  rw [← hl, ← hr]
  exact length_picks _ hn

/-! ## The four iterators -/

variable {key}

theorem Difference.hintSound (it : OperationInner T) :
    (Difference.toIter key).HintSound Difference.sizeHint it := by
  obtain ⟨h1, -, -, h4⟩ := length_picks_collect key it
  rw [Iter.HintSound, Difference.toIter, Iter.collect_filterMap]
  simp only [Difference.sizeHint, Iter.exactHint, Option.some.injEq]
  exact ⟨Nat.sub_le_iff_le_add.2 (by omega), fun h hh => by omega⟩

theorem SymmetricDifference.hintSound (it : OperationInner T) :
    (SymmetricDifference.toIter key).HintSound SymmetricDifference.sizeHint it := by
  obtain ⟨h1, -, h3, -⟩ := length_picks_collect key it
  rw [Iter.HintSound, SymmetricDifference.toIter, Iter.collect_filterMap]
  simp only [SymmetricDifference.sizeHint, Iter.exactHint]
  exact ⟨Nat.zero_le _, fun h hh => by rw [Iter.checkedAdd_eq_some hh]; omega⟩

theorem Intersection.hintSound (it : OperationInner T) :
    (Intersection.toIter key).HintSound Intersection.sizeHint it := by
  obtain ⟨h1, -, -, h4⟩ := length_picks_collect key it
  rw [Iter.HintSound, Intersection.toIter, Iter.collect_filterMap]
  simp only [Intersection.sizeHint, Iter.exactHint, Option.some.injEq]
  exact ⟨Nat.zero_le _, fun h hh => by omega⟩

theorem Union.hintSound (it : OperationInner T) :
    (Union.toIter key).HintSound Union.sizeHint it := by
  obtain ⟨h1, h2, -, h4⟩ := length_picks_collect key it
  rw [Iter.HintSound, Union.toIter, Iter.collect_filterMap]
  simp only [Union.sizeHint, Iter.exactHint]
  exact ⟨by omega, fun h hh => by rw [Iter.checkedAdd_eq_some hh]; omega⟩

variable (key)

/-- A merge in which the right side wins ties has at least as many items as either side
and at most as many as both. -/
theorem length_unionRight (l r : List T) :
    l.length ≤ (unionRight key l r).length ∧ r.length ≤ (unionRight key l r).length ∧
    (unionRight key l r).length ≤ l.length + r.length := by
  obtain ⟨h1, h2, -, h4⟩ := length_picks_collect key ⟨l, r⟩
  rw [union_collect] at h2
  dsimp only at h1 h2 h4
  omega

/-! ## `DedupIter` and `MergeIter` -/

/-- A `DedupIter` yields an item when its input is not empty, and at most one per input
item. -/
theorem DedupIter.hintSound (d : DedupIter T) : (toIter key).HintSound sizeHint d := by
  refine ⟨?_, fun h hh => ?_⟩
  · rcases d with ⟨_ | ⟨a, l⟩⟩
    · exact Nat.zero_le _
    · show min (a :: l).length 1 ≤ (dedup key (a :: l)).length
      rw [dedup_cons]
      simp
  · simp only [sizeHint, Iter.exactHint, Option.some.injEq] at hh
    exact hh ▸ Iter.length_collect_le d

variable {key}

/-- A step of `MergeIter` only consumes its right input. -/
theorem MergeIter.next_right_sublist {m m' : MergeIter T} {x : T} (h : next key m = some (x, m')) :
    m'.right.iter.Sublist m.right.iter := by
  rcases m with ⟨_ | ⟨a, l⟩, ⟨_ | ⟨b, r⟩⟩⟩
  · cases h
  · cases h; exact (dedupLoop_sublist b r).cons b
  · cases h; exact List.Sublist.refl _
  · rw [next_cons_cons] at h
    split at h <;> cases h
    · exact List.Sublist.refl _
    · exact (dedupLoop_sublist b r).cons b
    · exact (dedupLoop_sublist b r).cons b

/-- On an ascending right input, `MergeIter` yields at least as many items as each input
and at most as many as both. -/
theorem MergeIter.hintSound (m : MergeIter T) (hm : Ascending key m.right.iter) :
    (toIter key).HintSound sizeHint m := by
  rcases m with ⟨l, ⟨r⟩⟩
  have hu := length_unionRight key l (dedup key r)
  have hd := DedupIter.hintSound key ⟨r⟩
  rw [Iter.HintSound, collect_eq l r hm]
  simp only [Iter.HintSound, DedupIter.sizeHint, Iter.exactHint, Option.some.injEq,
    forall_eq'] at hd
  simp only [sizeHint, DedupIter.sizeHint, Iter.exactHint]
  refine ⟨max_le hu.1 (hd.1.trans hu.2.1), fun h hh => ?_⟩
  rw [Iter.checkedAdd_eq_some hh]
  exact hu.2.2.trans (Nat.add_le_add_left hd.2 _)

namespace OrderedSet

/-- Every `size_hint` is sound at every state a run of `next` reaches: on the four
iterators over two sets, on the `MergeIter` of `append` and of `extend_with_vec`, and on a
`DedupIter` over any input. -/
theorem sizeHint_sound (A B : OrderedSet key) (v : List T) (n : Nat) :
    (Difference.toIter key).HintSound Difference.sizeHint
      ((Difference.toIter key).advance (A.toSet.difference B.toSet) n) ∧
    (SymmetricDifference.toIter key).HintSound SymmetricDifference.sizeHint
      ((SymmetricDifference.toIter key).advance (A.toSet.symmetricDifference B.toSet) n) ∧
    (Intersection.toIter key).HintSound Intersection.sizeHint
      ((Intersection.toIter key).advance (A.toSet.intersection B.toSet) n) ∧
    (Union.toIter key).HintSound Union.sizeHint
      ((Union.toIter key).advance (A.toSet.union B.toSet) n) ∧
    (MergeIter.toIter key).HintSound MergeIter.sizeHint
      ((MergeIter.toIter key).advance (MergeIter.new A.toSet.inner B.toSet.inner) n) ∧
    (MergeIter.toIter key).HintSound MergeIter.sizeHint
      ((MergeIter.toIter key).advance (MergeIter.new A.toSet.inner (SortedVectorSet.sort key v)) n) ∧
    ∀ w : List T, (DedupIter.toIter key).HintSound DedupIter.sizeHint
      ((DedupIter.toIter key).advance ⟨w⟩ n) := by
  have hmerge : ∀ {r : List T}, Ascending key r → (MergeIter.toIter key).HintSound
      MergeIter.sizeHint ((MergeIter.toIter key).advance (MergeIter.new A.toSet.inner r) n) :=
    fun hr => MergeIter.hintSound _ (Iter.advance_invariant (P := fun m : MergeIter T => Ascending key m.right.iter)
      (fun _ _ _ h hm => hm.sublist (MergeIter.next_right_sublist h)) n hr)
  exact ⟨Difference.hintSound _, SymmetricDifference.hintSound _, Intersection.hintSound _,
    Union.hintSound _, hmerge B.strictAsc.ascending, hmerge (SortedVectorSet.ascending_sort v),
    fun _ => DedupIter.hintSound key _⟩

end OrderedSet

end SortedVectorMap
