import Mathlib.Data.List.Sort

/- The order a `SortedVectorSet` keeps, and the set its vector stands for.

   A lawful `Ord` on `T` is a total preorder that agrees with `PartialEq`. Such an order is
   the order of a key: a map `key : T → K` into a linear order, with
   `a.cmp(b) = compare (key a) (key b)` and `a == b` exactly when the keys are equal. Two
   elements may compare equal and still differ, so the operations below say which
   representative they keep. A query `&Q` with `T: Borrow<Q>` is compared through the
   borrow, and a lawful `Borrow` orders like `T`: queries are keys here.

   1. `StrictAsc` is invariant I1, keys strictly ascend; `Ascending` allows equal
      neighbours, which is what a sort leaves.
   2. `lookup l k` is the set a vector stands for: its first element with key `k`. A
      strictly ascending vector is determined by its lookups (`StrictAsc.ext`), so each
      operation is specified by what it does to `lookup`.
   3. On an ascending vector a predicate closed downwards holds exactly on a prefix
      (`Ascending.filter_append_filter_not`): the split point of every index the set
      computes. -/
namespace SortedVectorMap

variable {T K : Type} [LinearOrder K] (key : T → K)

/-- Invariant I1: every element's key is below every later element's key. -/
def StrictAsc (l : List T) : Prop := l.Pairwise (fun a b => key a < key b)

/-- Keys never descend. -/
def Ascending (l : List T) : Prop := l.Pairwise (fun a b => key a ≤ key b)

/-- The first element of `l` whose key is `k`. -/
def lookup (l : List T) (k : K) : Option T := l.find? (fun x => key x = k)

variable {key} {l l₁ l₂ : List T} {a x y : T} {k : K}

/-! ## Lookup -/

@[simp] theorem lookup_nil (k : K) : lookup key [] k = none := rfl

theorem lookup_cons (a : T) (l : List T) (k : K) :
    lookup key (a :: l) k = if key a = k then some a else lookup key l k := by
  by_cases h : key a = k <;> simp [lookup, List.find?_cons, h]

theorem lookup_append (l₁ l₂ : List T) (k : K) :
    lookup key (l₁ ++ l₂) k = (lookup key l₁ k).or (lookup key l₂ k) :=
  List.find?_append

theorem lookup_eq_none : lookup key l k = none ↔ ∀ x ∈ l, key x ≠ k := by
  simp [lookup, List.find?_eq_none]

theorem lookup_eq_some (h : lookup key l k = some x) : x ∈ l ∧ key x = k :=
  ⟨List.mem_of_find?_eq_some h, by simpa using List.find?_some h⟩

theorem lookup_eq_head?_filter (l : List T) (k : K) :
    lookup key l k = (l.filter (fun x => key x = k)).head? := by
  induction l with
  | nil => rfl
  | cons a l ih => by_cases h : key a = k <;> simp [lookup_cons, List.filter_cons, h, ih]

/-- A result that is the element of key `k` when `l` has one, and `none` otherwise, is the
lookup of `k`. -/
theorem eq_lookup {o : Option T} (hmem : ∀ y ∈ l, key y = k → o = some y)
    (hnot : (∀ y ∈ l, key y ≠ k) → o = none) : o = lookup key l k := by
  cases h : lookup key l k with
  | none => exact hnot (lookup_eq_none.1 h)
  | some y => exact hmem y (lookup_eq_some h).1 (lookup_eq_some h).2

/-- The last element of a key depends only on the elements of that key, in order. -/
theorem lookup_reverse_congr (h : l₁.filter (fun x => key x = k) = l₂.filter (fun x => key x = k)) :
    lookup key l₁.reverse k = lookup key l₂.reverse k := by
  rw [lookup_eq_head?_filter, lookup_eq_head?_filter, List.filter_reverse, List.filter_reverse, h]

/-- A vector whose first part is below its second stands for the disjoint union of the two. -/
theorem lookup_append_of_lt (h : ∀ x ∈ l₁, ∀ y ∈ l₂, key x < key y) (k : K) :
    lookup key (l₁ ++ l₂) k = (lookup key l₂ k).or (lookup key l₁ k) := by
  rw [lookup_append]
  cases h₁ : lookup key l₁ k with
  | none => simp
  | some x =>
    cases h₂ : lookup key l₂ k with
    | none => rfl
    | some y =>
      obtain ⟨hx, rfl⟩ := lookup_eq_some h₁
      obtain ⟨hy, hk⟩ := lookup_eq_some h₂
      exact absurd (h x hx y hy) (by rw [hk]; exact lt_irrefl _)

/-- No element of `l` has a key at or below `k`. -/
theorem lookup_eq_none_of_lt (h : ∀ y ∈ l, k < key y) : lookup key l k = none :=
  lookup_eq_none.2 fun y hy => (ne_of_lt (h y hy)).symm

/-! ## Strictly ascending vectors -/

theorem strictAsc_nil : StrictAsc key ([] : List T) := List.Pairwise.nil

theorem strictAsc_cons : StrictAsc key (a :: l) ↔ (∀ b ∈ l, key a < key b) ∧ StrictAsc key l :=
  List.pairwise_cons

theorem StrictAsc.ascending (h : StrictAsc key l) : Ascending key l := h.imp le_of_lt

/-- The head of an ascending vector is its least element. -/
theorem Ascending.head_le (h : Ascending key (a :: l)) (hx : x ∈ a :: l) : key a ≤ key x := by
  rcases List.mem_cons.1 hx with rfl | hx
  · exact le_refl _
  · exact List.rel_of_pairwise_cons h hx

theorem StrictAsc.head_le (h : StrictAsc key (a :: l)) (hx : x ∈ a :: l) : key a ≤ key x :=
  h.ascending.head_le hx

theorem StrictAsc.sublist (h : StrictAsc key l₂) (hs : l₁.Sublist l₂) : StrictAsc key l₁ :=
  List.Pairwise.sublist hs h

theorem StrictAsc.filter (h : StrictAsc key l) (p : T → Bool) : StrictAsc key (l.filter p) :=
  List.Pairwise.filter p h

theorem StrictAsc.lookup_of_mem (h : StrictAsc key l) (hx : x ∈ l) :
    lookup key l (key x) = some x := by
  induction l with
  | nil => cases hx
  | cons a l ih =>
    rw [strictAsc_cons] at h
    rcases List.mem_cons.mp hx with rfl | hx
    · simp [lookup_cons]
    · rw [lookup_cons, if_neg (ne_of_lt (h.1 x hx)), ih h.2 hx]

theorem StrictAsc.lookup_eq_some_iff (h : StrictAsc key l) :
    lookup key l k = some x ↔ x ∈ l ∧ key x = k :=
  ⟨lookup_eq_some, fun ⟨hx, hk⟩ => hk ▸ h.lookup_of_mem hx⟩

theorem StrictAsc.mem_iff_lookup (h : StrictAsc key l) : x ∈ l ↔ lookup key l (key x) = some x :=
  ⟨h.lookup_of_mem, fun hx => (lookup_eq_some hx).1⟩

/-- Elements of equal key in a strictly ascending vector are one element. -/
theorem StrictAsc.eq_of_key_eq (h : StrictAsc key l) (hx : x ∈ l) (hy : y ∈ l)
    (hk : key x = key y) : x = y :=
  Option.some_injective _ ((h.lookup_of_mem hx).symm.trans (hk ▸ h.lookup_of_mem hy))

theorem StrictAsc.nodup (h : StrictAsc key l) : l.Nodup :=
  h.imp fun hab heq => ne_of_lt hab (congrArg key heq)

/-- A strictly ascending vector is determined by the set it stands for. -/
theorem StrictAsc.ext (h₁ : StrictAsc key l₁) (h₂ : StrictAsc key l₂)
    (h : ∀ k, lookup key l₁ k = lookup key l₂ k) : l₁ = l₂ := by
  haveI : IsAntisymm T (fun a b => key a < key b) :=
    ⟨fun _ _ hab hba => absurd (hab.trans hba) (lt_irrefl _)⟩
  refine List.eq_of_perm_of_sorted ((List.perm_ext_iff_of_nodup h₁.nodup h₂.nodup).2 fun x => ?_) h₁ h₂
  rw [h₁.mem_iff_lookup, h₂.mem_iff_lookup, h]

/-- In a strictly ascending vector the last element of a key is its first. -/
theorem StrictAsc.lookup_reverse (h : StrictAsc key l) (k : K) :
    lookup key l.reverse k = lookup key l k := by
  cases hl : lookup key l k with
  | none => exact lookup_eq_none.2 fun y hy => lookup_eq_none.1 hl y (List.mem_reverse.1 hy)
  | some x =>
    obtain ⟨hx, rfl⟩ := lookup_eq_some hl
    cases hr : lookup key l.reverse (key x) with
    | none => exact absurd rfl (lookup_eq_none.1 hr x (List.mem_reverse.2 hx))
    | some y =>
      obtain ⟨hy, hk⟩ := lookup_eq_some hr
      rw [h.eq_of_key_eq (List.mem_reverse.1 hy) hx hk]

/-- The least element of a strictly ascending vector is its head. -/
theorem StrictAsc.head?_eq (h : StrictAsc key l) (hx : x ∈ l) (hmin : ∀ y ∈ l, key x ≤ key y) :
    l.head? = some x := by
  cases l with
  | nil => cases hx
  | cons a l =>
    rw [strictAsc_cons] at h
    rcases List.mem_cons.mp hx with rfl | hx'
    · rfl
    · exact absurd (h.1 x hx') (not_lt.2 (hmin a (List.mem_cons_self a l)))

/-- The last element of a strictly ascending vector is its greatest. -/
theorem StrictAsc.le_of_getLast? (h : StrictAsc key l) (hl : l.getLast? = some a) (hx : x ∈ l) :
    key x ≤ key a := by
  obtain ⟨ys, rfl⟩ := List.getLast?_eq_some_iff.1 hl
  rcases List.mem_append.1 hx with hx | hx
  · exact le_of_lt ((List.pairwise_append.1 h).2.2 x hx a (List.mem_singleton_self a))
  · rw [List.mem_singleton.1 hx]

/-! ## Prefixes cut by the order -/

/-- On an ascending vector, a predicate closed downwards holds on a prefix and fails on the
rest. -/
theorem Ascending.filter_append_filter_not (hl : Ascending key l) {P : T → Bool}
    (hP : ∀ x y, key x ≤ key y → P y = true → P x = true) :
    l.filter P ++ l.filter (fun x => !P x) = l := by
  induction l with
  | nil => rfl
  | cons a l ih =>
    rw [Ascending, List.pairwise_cons] at hl
    by_cases ha : P a = true
    · simp [List.filter_cons, ha, ih hl.2]
    · have hl' : ∀ y ∈ l, P y = false := fun y hy => by
        by_contra hy'
        exact ha (hP a y (hl.1 y hy) (by simpa using hy'))
      rw [List.filter_cons_of_neg ha, List.filter_cons_of_pos (by simpa using ha),
        List.filter_eq_nil_iff.2 (by simpa using hl'), List.filter_eq_self.2 (by simpa using hl')]
      rfl

theorem Ascending.take_length_filter (hl : Ascending key l) {P : T → Bool}
    (hP : ∀ x y, key x ≤ key y → P y = true → P x = true) :
    l.take (l.filter P).length = l.filter P :=
  calc l.take (l.filter P).length
      = (l.filter P ++ l.filter (fun x => !P x)).take (l.filter P).length := by
        rw [hl.filter_append_filter_not hP]
    _ = l.filter P := List.take_left' rfl

theorem Ascending.drop_length_filter (hl : Ascending key l) {P : T → Bool}
    (hP : ∀ x y, key x ≤ key y → P y = true → P x = true) :
    l.drop (l.filter P).length = l.filter (fun x => !P x) :=
  calc l.drop (l.filter P).length
      = (l.filter P ++ l.filter (fun x => !P x)).drop (l.filter P).length := by
        rw [hl.filter_append_filter_not hP]
    _ = l.filter (fun x => !P x) := List.drop_left' rfl

/-- Being below a key is closed downwards. -/
theorem lt_closed (q : K) (x y : T) (hxy : key x ≤ key y) (hy : decide (key y < q) = true) :
    decide (key x < q) = true := by
  simpa using lt_of_le_of_lt hxy (by simpa using hy)

/-- Being at most a key is closed downwards. -/
theorem le_closed (q : K) (x y : T) (hxy : key x ≤ key y) (hy : decide (key y ≤ q) = true) :
    decide (key x ≤ q) = true := by
  simpa using le_trans hxy (by simpa using hy)

end SortedVectorMap
