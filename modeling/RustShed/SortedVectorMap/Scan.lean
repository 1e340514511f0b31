import RustShed.SortedVectorMap.SizeHint

/- The shared scan `OperationInner` (`set.rs`), exactly.

   On two strictly ascending vectors the scan gives out one item per key of their union, in
   ascending order of key, and the item of key `k` is the pair of elements of key `k` on the
   left and on the right (`collect_eq_map_tagged`): the union is `unionRight`, and `tagged`
   reads the two sides at the key of each of its elements. So:
   1. `(Some(a), Some(b))` comes out exactly for equal `a` on the left and `b` on the right;
   2. `(Some(a), None)` exactly for a left `a` equal to no right element;
   3. `(None, Some(b))` exactly for a right `b` equal to no left element;
   4. every element is in exactly one item, in its vector's order (`collect_components`),
      and after the last item `next` returns `None` (`Iter.next_advance_length`). -/
namespace SortedVectorMap

variable {T K : Type} [LinearOrder K] (key : T → K)

namespace OperationInner

/-- The item for the key of `x`: the element of that key on each side. -/
def tagged (l r : List T) (x : T) : Option T × Option T :=
  (lookup key l (key x), lookup key r (key x))

variable {key} {a b x : T} {l r u : List T}

theorem tagged_cons_left (h : key a ≠ key x) (l r : List T) :
    tagged key (a :: l) r x = tagged key l r x := by
  rw [tagged, tagged, lookup_cons, if_neg h]

theorem tagged_cons_right (h : key b ≠ key x) (l r : List T) :
    tagged key l (b :: r) x = tagged key l r x := by
  rw [tagged, tagged, lookup_cons b, if_neg h]

/-- Above a left head, the left head is not read. -/
theorem map_tagged_cons_left (h : ∀ x ∈ u, key a < key x) :
    u.map (tagged key (a :: l) r) = u.map (tagged key l r) :=
  List.map_congr_left fun x hx => tagged_cons_left (ne_of_lt (h x hx)) l r

theorem map_tagged_cons_right (h : ∀ x ∈ u, key b < key x) :
    u.map (tagged key l (b :: r)) = u.map (tagged key l r) :=
  List.map_congr_left fun x hx => tagged_cons_right (ne_of_lt (h x hx)) l r

/-- On two strictly ascending vectors the scan gives out, for each element of their merge,
the elements of its key on either side. -/
theorem collect_eq_map_tagged : ∀ l r : List T, StrictAsc key l → StrictAsc key r →
    (toIter key).collect ⟨l, r⟩ = (unionRight key l r).map (tagged key l r)
  | [], [], _, _ => by simp
  | a :: l, [], hl, _ => by
    have hl' := strictAsc_cons.1 hl
    rw [collect_cons_nil, collect_eq_map_tagged l [] hl'.2 strictAsc_nil, unionRight_nil_right,
      unionRight_nil_right, List.map_cons, map_tagged_cons_left hl'.1]
    simp [tagged, lookup_cons]
  | [], b :: r, _, hr => by
    have hr' := strictAsc_cons.1 hr
    rw [collect_nil_cons, collect_eq_map_tagged [] r strictAsc_nil hr'.2, unionRight_nil_left,
      unionRight_nil_left, List.map_cons, map_tagged_cons_right hr'.1]
    simp [tagged, lookup_cons]
  | a :: l, b :: r, hl, hr => by
    have hl' := strictAsc_cons.1 hl
    have hr' := strictAsc_cons.1 hr
    rcases lt_trichotomy (key a) (key b) with h | h | h
    · rw [collect_lt h, collect_eq_map_tagged l (b :: r) hl'.2 hr, unionRight_lt h, List.map_cons,
        map_tagged_cons_left fun x hx => (mem_of_mem_unionRight hx).elim (hl'.1 x)
          fun hx => lt_of_lt_of_le h (hr.head_le hx)]
      simp [tagged, lookup_cons, lookup_eq_none_of_lt fun y hy => lt_of_lt_of_le h (hr.head_le hy)]
    · rw [collect_eq h, collect_eq_map_tagged l r hl'.2 hr'.2, unionRight_eq h, List.map_cons,
        map_tagged_cons_left fun x hx => (mem_of_mem_unionRight hx).elim (hl'.1 x)
          fun hx => h ▸ hr'.1 x hx,
        map_tagged_cons_right fun x hx => (mem_of_mem_unionRight hx).elim
          (fun hx => h ▸ hl'.1 x hx) (hr'.1 x)]
      simp [tagged, lookup_cons, h]
    · rw [collect_gt h, collect_eq_map_tagged (a :: l) r hl hr'.2, unionRight_gt h, List.map_cons,
        map_tagged_cons_right fun x hx => (mem_of_mem_unionRight hx).elim
          (fun hx => lt_of_lt_of_le h (hl.head_le hx)) (hr'.1 x)]
      simp [tagged, lookup_cons, lookup_eq_none_of_lt fun y hy => lt_of_lt_of_le h (hl.head_le hy)]
termination_by l r => l.length + r.length

/-! ## The three kinds of item -/

section Items

variable (hl : StrictAsc key l) (hr : StrictAsc key r)
include hl hr

theorem some_some_mem_collect :
    (some a, some b) ∈ (toIter key).collect ⟨l, r⟩ ↔ a ∈ l ∧ b ∈ r ∧ key a = key b := by
  rw [collect_eq_map_tagged l r hl hr, List.mem_map]
  constructor
  · rintro ⟨x, -, he⟩
    simp only [tagged, Prod.mk.injEq, hl.lookup_eq_some_iff, hr.lookup_eq_some_iff] at he
    exact ⟨he.1.1, he.2.1, he.1.2.trans he.2.2.symm⟩
  · rintro ⟨ha, hb, hk⟩
    refine ⟨b, (mem_unionRight_iff hl hr).2 (.inl hb), ?_⟩
    simp only [tagged, Prod.mk.injEq, hl.lookup_eq_some_iff, hr.lookup_eq_some_iff]
    exact ⟨⟨ha, hk⟩, hb, trivial⟩

theorem some_none_mem_collect :
    (some a, none) ∈ (toIter key).collect ⟨l, r⟩ ↔ a ∈ l ∧ ∀ y ∈ r, key y ≠ key a := by
  rw [collect_eq_map_tagged l r hl hr, List.mem_map]
  constructor
  · rintro ⟨x, -, he⟩
    simp only [tagged, Prod.mk.injEq, hl.lookup_eq_some_iff, lookup_eq_none] at he
    exact ⟨he.1.1, he.1.2 ▸ he.2⟩
  · rintro ⟨ha, hn⟩
    refine ⟨a, (mem_unionRight_iff hl hr).2 (.inr ⟨ha, hn⟩), ?_⟩
    simp only [tagged, Prod.mk.injEq, hl.lookup_eq_some_iff, lookup_eq_none]
    exact ⟨⟨ha, trivial⟩, hn⟩

theorem none_some_mem_collect :
    (none, some b) ∈ (toIter key).collect ⟨l, r⟩ ↔ b ∈ r ∧ ∀ x ∈ l, key x ≠ key b := by
  rw [collect_eq_map_tagged l r hl hr, List.mem_map]
  constructor
  · rintro ⟨x, -, he⟩
    simp only [tagged, Prod.mk.injEq, hr.lookup_eq_some_iff, lookup_eq_none] at he
    exact ⟨he.2.1, he.2.2 ▸ he.1⟩
  · rintro ⟨hb, hn⟩
    refine ⟨b, (mem_unionRight_iff hl hr).2 (.inl hb), ?_⟩
    simp only [tagged, Prod.mk.injEq, hr.lookup_eq_some_iff, lookup_eq_none]
    exact ⟨hn, hb, trivial⟩

end Items

end OperationInner

namespace OrderedSet

open OperationInner

variable {key}

/-- The scan over two sets gives out exactly one item per element of either, in strictly
ascending order: both elements for equal ones, one element for an element equal to none on
the other side; then it returns `None`. -/
theorem operation_items (A B : OrderedSet key) :
    let items := (toIter key).collect (A.toSet.operation B.toSet)
    items = (unionRight key A.toSet.inner B.toSet.inner).map (tagged key A.toSet.inner B.toSet.inner) ∧
    (none, none) ∉ items ∧ StrictAsc key (items.filterMap pickUnion) ∧
    items.filterMap Prod.fst = A.toSet.inner ∧ items.filterMap Prod.snd = B.toSet.inner ∧
    (∀ a b, (some a, some b) ∈ items ↔ a ∈ A.toSet.inner ∧ b ∈ B.toSet.inner ∧ key a = key b) ∧
    (∀ a, (some a, none) ∈ items ↔ a ∈ A.toSet.inner ∧ ∀ b ∈ B.toSet.inner, key b ≠ key a) ∧
    (∀ b, (none, some b) ∈ items ↔ b ∈ B.toSet.inner ∧ ∀ a ∈ A.toSet.inner, key a ≠ key b) ∧
    (toIter key).next ((toIter key).advance (A.toSet.operation B.toSet) items.length) = none := by
  intro items
  have hA := A.strictAsc
  have hB := B.strictAsc
  obtain ⟨hl, hr, hn⟩ := collect_components key (A.toSet.operation B.toSet)
  refine ⟨collect_eq_map_tagged _ _ hA hB, hn, ?_, hl, hr, fun a b => some_some_mem_collect hA hB,
    fun a => some_none_mem_collect hA hB, fun b => none_some_mem_collect hA hB,
    Iter.next_advance_length _⟩
  show StrictAsc key (((toIter key).collect ⟨A.toSet.inner, B.toSet.inner⟩).filterMap pickUnion)
  rw [union_collect]
  exact strictAsc_unionRight hA hB

end OrderedSet

end SortedVectorMap
