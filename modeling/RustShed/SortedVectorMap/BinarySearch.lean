import RustShed.SortedVectorMap.Order

/- `find_index` calls the standard library's `slice::binary_search_by`, and every index
   the set computes comes from it. This is that function as the standard library writes it
   since Rust 1.82: a loop that halves `size` until one candidate is left, moving `base`
   to the probe whenever the probe is not greater, and one comparison after the loop.

   `Splits v f p g` says how `f` orders the vector: less below `p`, greater from `g` on,
   equal in between. The loop keeps `g ≤ base + size` and `base = 0 ∨ base < g`
   (`searchLoop_inv`), so it stops at `g - 1`, and the search returns `Ok (g - 1)` when some
   element is equal and `Err p` otherwise (`binarySearchBy_eq`). For a comparison with a
   key on a strictly ascending vector, `p` is the number of elements below the key and
   `g ≤ p + 1` (`binarySearchBy_compare`).

   Correspondence (Rust ↔ Lean):
     `<[T]>::binary_search_by`   ↔ `binarySearchBy`
     its `while size > 1` loop   ↔ `searchLoop`
     `Result<usize, usize>`      ↔ `Except Nat Nat` (`Ok` is `.ok`, `Err` is `.error`) -/
namespace SortedVectorMap

variable {T : Type}

/-- The loop of `binary_search_by`, from `base` over `size` candidates. -/
def searchLoop (v : List T) (f : T → Ordering) (base size : Nat)
    (h : base + size ≤ v.length) : Nat :=
  if hs : 1 < size then
    let half := size / 2
    let mid := base + half
    let cmp := f (v.get ⟨mid, by omega⟩)
    searchLoop v f (if cmp = .gt then base else mid) (size - half) (by split <;> omega)
  else base
termination_by size

theorem searchLoop_add_one_le (v : List T) (f : T → Ordering) (base size : Nat)
    (h : base + size ≤ v.length) (hs : 1 ≤ size) : searchLoop v f base size h + 1 ≤ v.length := by
  induction base, size, h using searchLoop.induct v f with
  | case1 base size h h1 _ _ _ ih =>
    rw [searchLoop, dif_pos h1]
    exact ih (by omega)
  | case2 base size h h1 =>
    rw [searchLoop, dif_neg h1]
    omega

/-- `<[T]>::binary_search_by`: `Ok` of an index where `f` is `Equal`, else `Err` of the
index where such an element would be inserted. -/
def binarySearchBy (v : List T) (f : T → Ordering) : Except Nat Nat :=
  if h : v.length = 0 then .error 0
  else
    let base := searchLoop v f 0 v.length (by omega)
    let cmp := f (v.get ⟨base, searchLoop_add_one_le v f 0 v.length _ (by omega)⟩)
    if cmp = .eq then .ok base else .error (base + if cmp = .lt then 1 else 0)

/-- `f` orders `v`: `Less` exactly below index `p`, `Greater` exactly from index `g` on. -/
structure Splits (v : List T) (f : T → Ordering) (p g : Nat) : Prop where
  le : p ≤ g
  le_length : g ≤ v.length
  lt_iff : ∀ i (h : i < v.length), f v[i] = .lt ↔ i < p
  gt_iff : ∀ i (h : i < v.length), f v[i] = .gt ↔ g ≤ i

section Loop

variable {v : List T} {f : T → Ordering} {p g : Nat}

/-- The loop invariant: every candidate from `base + size` on is greater, and `base` is
`0` or not greater. -/
theorem searchLoop_inv (hv : Splits v f p g) (base size : Nat) (h : base + size ≤ v.length)
    (hs : 1 ≤ size) (hg : g ≤ base + size) (hb : base = 0 ∨ base < g) :
    g ≤ searchLoop v f base size h + 1 ∧ (searchLoop v f base size h = 0 ∨
      searchLoop v f base size h < g) := by
  induction base, size, h using searchLoop.induct v f with
  | case1 base size h h1 half mid cmp ih =>
    rw [searchLoop, dif_pos h1]
    have hmid : cmp = .gt ↔ g ≤ mid := hv.gt_iff (base + size / 2) (by omega)
    simp only [half, mid, cmp] at ih hmid ⊢
    refine ih (by omega) ?_ ?_ <;> split <;> simp_all <;> omega
  | case2 base size h h1 =>
    rw [searchLoop, dif_neg h1]
    omega

/-- The comparison after the loop, at a `base` where the invariant holds with one
candidate left. -/
theorem search_final (hv : Splits v f p g) (r : Nat) (hr : r < v.length) (hg : g ≤ r + 1)
    (hb : r = 0 ∨ r < g) :
    (if f v[r] = .eq then .ok r else .error (r + if f v[r] = .lt then 1 else 0) :
      Except Nat Nat) = if p < g then .ok (g - 1) else .error p := by
  have hlt := hv.lt_iff r hr
  have hgt := hv.gt_iff r hr
  have hle := hv.le
  cases hc : f v[r] with
  | lt =>
    obtain ⟨rfl, rfl⟩ : p = r + 1 ∧ g = r + 1 := by have := hlt.1 hc; omega
    simp
  | eq =>
    have : p < g ∧ g - 1 = r := by simp only [hc, reduceCtorEq, false_iff] at hlt hgt; omega
    simp [this]
  | gt =>
    obtain ⟨rfl, rfl, rfl⟩ : r = 0 ∧ g = 0 ∧ p = 0 := by
      simp only [hc, true_iff, reduceCtorEq, false_iff] at hlt hgt; omega
    rfl

/-- What `binary_search_by` returns on a vector `f` splits: the last equal index, or the
insertion point. -/
theorem binarySearchBy_eq (hv : Splits v f p g) :
    binarySearchBy v f = if p < g then .ok (g - 1) else .error p := by
  unfold binarySearchBy
  by_cases h : v.length = 0
  · obtain ⟨rfl, rfl⟩ : p = 0 ∧ g = 0 := by have := hv.le_length; have := hv.le; omega
    rw [dif_pos h]; rfl
  · rw [dif_neg h]
    have hinv := searchLoop_inv hv 0 v.length (by omega) (by omega)
      (by simpa using hv.le_length) (.inl rfl)
    exact search_final hv _ _ hinv.1 hinv.2

/-- Some element is equal exactly when the equal range is not empty. -/
theorem Splits.lt_iff_exists (hv : Splits v f p g) :
    p < g ↔ ∃ i, ∃ h : i < v.length, f v[i] = .eq := by
  have hg := hv.le_length
  constructor
  · intro h
    refine ⟨p, by omega, ?_⟩
    have h1 := hv.lt_iff p (by omega)
    have h2 := hv.gt_iff p (by omega)
    cases hc : f v[p] with
    | lt => exact absurd (h1.1 hc) (lt_irrefl p)
    | eq => rfl
    | gt => exact absurd (h2.1 hc) (by omega)
  · rintro ⟨i, hi, he⟩
    have h1 := hv.lt_iff i hi
    have h2 := hv.gt_iff i hi
    simp only [he, reduceCtorEq, false_iff, not_lt, not_le] at h1 h2
    omega

end Loop

/-! ## Searching by key -/

variable {K : Type} [LinearOrder K] {key : T → K} {v : List T}

theorem Ascending.getElem_iff_lt_length_filter (hv : Ascending key v) {P : T → Bool}
    (hP : ∀ x y, key x ≤ key y → P y = true → P x = true) (i : Nat) (hi : i < v.length) :
    P v[i] = true ↔ i < (v.filter P).length := by
  have e := hv.filter_append_filter_not hP
  rw [List.getElem_of_eq e.symm]
  by_cases h : i < (v.filter P).length
  · rw [List.getElem_append_left h]
    exact iff_of_true (List.of_mem_filter (List.getElem_mem h)) h
  · rw [List.getElem_append_right (by omega)]
    have := List.of_mem_filter (List.getElem_mem (l := v.filter (fun x => !P x))
      (n := i - (v.filter P).length) (by rw [← e, List.length_append] at hi; omega))
    simp_all

/-- A comparison with `q` splits an ascending vector at the counts of elements below `q`
and at most `q`. -/
theorem Ascending.splits_compare (hv : Ascending key v) (q : K) :
    Splits v (fun e => compare (key e) q) (v.filter (fun x => key x < q)).length
      (v.filter (fun x => key x ≤ q)).length where
  le := by
    simp only [← List.countP_eq_length_filter]
    exact List.countP_mono_left fun x _ h => by simpa using le_of_lt (by simpa using h)
  le_length := List.length_filter_le _ _
  lt_iff i hi := by
    rw [← hv.getElem_iff_lt_length_filter (lt_closed q) i hi]
    simp [compare_lt_iff_lt]
  gt_iff i hi := by
    rw [← not_lt, ← hv.getElem_iff_lt_length_filter (le_closed q) i hi]
    simp [compare_gt_iff_gt]

/-- On a strictly ascending vector at most one element has key `q`. -/
theorem StrictAsc.length_filter_le (hv : StrictAsc key v) (q : K) :
    (v.filter (fun x => key x ≤ q)).length =
      (v.filter (fun x => key x < q)).length + if ∃ x ∈ v, key x = q then 1 else 0 := by
  have hs := hv.ascending.splits_compare q
  set p := (v.filter (fun x => key x < q)).length
  set g := (v.filter (fun x => key x ≤ q)).length
  have hex : p < g ↔ ∃ x ∈ v, key x = q := by
    rw [hs.lt_iff_exists, List.exists_mem_iff_getElem]
    simp [compare_eq_iff_eq]
  have hg : g ≤ p + 1 := by
    by_contra hcon
    have hlen := hs.le_length
    have e₁ := (hs.lt_iff p (by omega)).not.2 (lt_irrefl p)
    have e₂ := (hs.gt_iff (p + 1) (by omega)).not.2 (by omega)
    have hpq := List.pairwise_iff_getElem.1 hv p (p + 1) (by omega) (by omega) (by omega)
    simp only [compare_lt_iff_lt, compare_gt_iff_gt, not_lt] at e₁ e₂
    exact absurd (lt_of_le_of_lt e₁ hpq) (not_lt.2 e₂)
  have := hs.le
  split <;> simp_all <;> omega

/-- On a strictly ascending vector, searching for a key finds the element of that key, at
the count of elements below it; with none, it returns that count. -/
theorem binarySearchBy_compare (hv : StrictAsc key v) (q : K) :
    binarySearchBy v (fun e => compare (key e) q) =
      if ∃ x ∈ v, key x = q then .ok (v.filter (fun x => key x < q)).length
      else .error (v.filter (fun x => key x < q)).length := by
  rw [binarySearchBy_eq (hv.ascending.splits_compare q), hv.length_filter_le q]
  split <;> simp

end SortedVectorMap
