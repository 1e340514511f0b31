import RustShed.SortedVectorMap.Set

/- `range` (`set.rs`, `range_index_start`, `range_index_end`, `range`).

   A bound is `Unbounded`, `Included(k)` or `Excluded(k)`. `range_index_start` and
   `range_index_end` turn the two bounds into slice indices through `find_index`, and
   `range` panics when the start index is past the end index; the slice `self.0[start..end]`
   itself panics when its end is past the vector or its start past its end. Panics are
   `Except.error` with their message.

   On a vector keeping I1, the start index counts the keys the start bound leaves out and
   the end index the keys the end bound lets in (`rangeIndexStart_eq`, `rangeIndexEnd_eq`),
   both cut a prefix of the vector, so:
   1. both indices are at most the length: the slice never panics;
   2. a range that returns holds exactly the elements both bounds admit, and a range whose
      bounds are not inverted returns (`range_spec`);
   3. a range panics exactly when some element lies below the start bound and past the end
      bound (`range_panics_iff`). Inverted bounds with no element between them give an
      empty range. -/
namespace SortedVectorMap

/-- `std::ops::Bound`. -/
inductive Bound (K : Type)
  | included (k : K)
  | excluded (k : K)
  | unbounded

namespace Bound

variable {K : Type} [LinearOrder K]

/-- Whether a start bound admits key `k`. -/
def startAdmits : Bound K → K → Bool
  | .included a, k => a ≤ k
  | .excluded a, k => a < k
  | .unbounded, _ => true

/-- Whether an end bound admits key `k`. -/
def endAdmits : Bound K → K → Bool
  | .included b, k => k ≤ b
  | .excluded b, k => k < b
  | .unbounded, _ => true

/-- The start key exceeds the end key, or both bounds exclude the same key. -/
def Inverted : Bound K → Bound K → Prop
  | .included a, .included b | .included a, .excluded b | .excluded a, .included b => b < a
  | .excluded a, .excluded b => b ≤ a
  | _, _ => False

@[simp] theorem not_startAdmits_included (a k : K) :
    (!(included a).startAdmits k) = decide (k < a) := by
  simp only [startAdmits, ← decide_not, not_le]

@[simp] theorem not_startAdmits_excluded (a k : K) :
    (!(excluded a).startAdmits k) = decide (k ≤ a) := by
  simp only [startAdmits, ← decide_not, not_lt]

/-- The keys a start bound leaves out are closed downwards. -/
theorem not_startAdmits_closed {T : Type} (key : T → K) (lower : Bound K) (x y : T)
    (hxy : key x ≤ key y) (hy : (!lower.startAdmits (key y)) = true) :
    (!lower.startAdmits (key x)) = true := by
  cases lower with
  | included a => simp only [not_startAdmits_included] at hy ⊢; exact lt_closed a x y hxy hy
  | excluded a => simp only [not_startAdmits_excluded] at hy ⊢; exact le_closed a x y hxy hy
  | unbounded => exact hy

theorem endAdmits_closed {T : Type} (key : T → K) (upper : Bound K) (x y : T)
    (hxy : key x ≤ key y) (hy : upper.endAdmits (key y) = true) :
    upper.endAdmits (key x) = true := by
  cases upper with
  | included b => exact le_closed b x y hxy hy
  | excluded b => exact lt_closed b x y hxy hy
  | unbounded => rfl

/-- Bounds that are not inverted admit at the end every key the start leaves out. -/
theorem endAdmits_of_not_startAdmits :
    ∀ {lower upper : Bound K}, ¬Inverted lower upper → ∀ k, (!lower.startAdmits k) = true →
      upper.endAdmits k = true
  | .included _, .included _, h, _, hk => by
    simp_all [Inverted, endAdmits]; exact le_of_lt (lt_of_lt_of_le hk h)
  | .included _, .excluded _, h, _, hk => by
    simp_all [Inverted, endAdmits]; exact lt_of_lt_of_le hk h
  | .excluded _, .included _, h, _, hk => by
    simp_all [Inverted, endAdmits]; exact le_trans hk h
  | .excluded _, .excluded _, h, _, hk => by
    simp_all [Inverted, endAdmits]; exact lt_of_le_of_lt hk h
  | _, .unbounded, _, _, _ => rfl
  | .unbounded, .included _, _, _, hk | .unbounded, .excluded _, _, _, hk => by
    simp [startAdmits] at hk

/-- Inverted bounds admit no key. -/
theorem not_admits_of_inverted :
    ∀ {lower upper : Bound K}, Inverted lower upper → ∀ k,
      (lower.startAdmits k && upper.endAdmits k) = false
  | .included _, .included _, h, _ => by
    simp [startAdmits, endAdmits]; exact fun hk => lt_of_lt_of_le h hk
  | .included _, .excluded _, h, _ => by
    simp [startAdmits, endAdmits]; exact fun hk => le_of_lt (lt_of_lt_of_le h hk)
  | .excluded _, .included _, h, _ => by
    simp [startAdmits, endAdmits]; exact fun hk => h.trans hk
  | .excluded _, .excluded _, h, _ => by
    simp [startAdmits, endAdmits]; exact fun hk => le_of_lt (lt_of_le_of_lt h hk)
  | .unbounded, _, h, _ | .included _, .unbounded, h, _ | .excluded _, .unbounded, h, _ => h.elim

end Bound

/-- `&v[start..stop]`: panics when the start is past the stop or the stop past the end. -/
def slice {T : Type} (v : List T) (start stop : Nat) : Except String (List T) :=
  let len := v.length
  if start > stop then .error s!"slice index starts at {start} but ends at {stop}"
  else if stop > len then .error s!"range end index {stop} out of range for slice of length {len}"
  else .ok ((v.take stop).drop start)

section Slice

variable {T K : Type} [LinearOrder K] {key : T → K} {v : List T}

/-- Between the prefix where `N` holds and the prefix where `D` holds, an ascending vector
holds the elements where `N` fails and `D` holds, once the first prefix is the shorter. -/
theorem Ascending.drop_take_length_filter (hv : Ascending key v) {N D : T → Bool}
    (hN : ∀ x y, key x ≤ key y → N y = true → N x = true)
    (hD : ∀ x y, key x ≤ key y → D y = true → D x = true)
    (hle : (v.filter N).length ≤ (v.filter D).length) :
    (v.take (v.filter D).length).drop (v.filter N).length = v.filter (fun x => !N x && D x) := by
  have hsplit := hv.filter_append_filter_not hD
  have hCE := hsplit ▸ hv
  rw [Ascending, List.pairwise_append] at hCE
  have hE : (v.filter fun x => !D x).filter N = [] := by
    refine List.filter_eq_nil_iff.2 fun x hx hNx => ?_
    have hC : (v.filter D).filter N = v.filter D :=
      List.filter_eq_self.2 fun c hc => hN c x (hCE.2.2 c hc x hx) hNx
    have hlen := congrArg (fun l => (l.filter N).length) hsplit
    simp only [List.filter_append, List.length_append, hC] at hlen
    have : 0 < ((v.filter fun x => !D x).filter N).length :=
      List.length_pos.2 (List.ne_nil_of_mem (List.mem_filter.2 ⟨hx, hNx⟩))
    omega
  have hN' : (v.filter N).length = ((v.filter D).filter N).length := by
    conv => lhs; rw [← hsplit]
    simp [List.filter_append, hE]
  rw [hv.take_length_filter hD, hN', Ascending.drop_length_filter hCE.1 hN, List.filter_filter]

/-- Of two kinds of elements closed downwards in key, the one with more elements in a list
has an element the other lacks. -/
theorem length_filter_lt_iff {N D : T → Bool}
    (hN : ∀ x y, key x ≤ key y → N y = true → N x = true)
    (hD : ∀ x y, key x ≤ key y → D y = true → D x = true) :
    (v.filter D).length < (v.filter N).length ↔ ∃ x ∈ v, N x = true ∧ D x = false := by
  simp only [← List.countP_eq_length_filter]
  constructor
  · intro hlt
    by_contra hno
    push_neg at hno
    exact absurd (List.countP_mono_left fun x hx hNx => by simpa using hno x hx hNx)
      (not_le.2 hlt)
  · rintro ⟨x, hx, hNx, hDx⟩
    -- every element of kind `D` lies below `x`, so it is of kind `N` too
    have hDN : ∀ y ∈ v.filter D, N y = true := fun y hy => by
      obtain ⟨-, hDy⟩ := List.mem_filter.1 hy
      rcases le_total (key x) (key y) with hxy | hyx
      · simp [hD x y hxy hDy] at hDx
      · exact hN y x hyx hNx
    have hpos : 0 < (v.filter fun a => !D a).countP N :=
      List.countP_pos_iff.2 ⟨x, List.mem_filter.2 ⟨hx, by simp [hDx]⟩, hNx⟩
    rw [List.countP_eq_countP_filter_add v N D, List.countP_eq_length.2 hDN,
      ← List.countP_eq_length_filter]
    omega

end Slice

namespace SortedVectorSet

variable {T K : Type} [LinearOrder K] (key : T → K)

/-- `range_index_start`: the slice index a start bound resolves to. -/
def rangeIndexStart (s : SortedVectorSet T) (b : Bound K) : Nat :=
  match b with
  | .unbounded => 0
  | .included q => match s.findIndex key q with
    | .ok index => index
    | .error index => index
  | .excluded q => match s.findIndex key q with
    | .ok index => index + 1
    | .error index => index

/-- `range_index_end`: the slice index an end bound resolves to. -/
def rangeIndexEnd (s : SortedVectorSet T) (b : Bound K) : Nat :=
  match b with
  | .unbounded => s.inner.length
  | .included q => match s.findIndex key q with
    | .ok index => index + 1
    | .error index => index
  | .excluded q => match s.findIndex key q with
    | .ok index => index
    | .error index => index

/-- `range`, over the bounds `range.start_bound()` and `range.end_bound()`. -/
def range (s : SortedVectorSet T) (startBound endBound : Bound K) : Except String (List T) :=
  let start := s.rangeIndexStart key startBound
  let stop := s.rangeIndexEnd key endBound
  if start > stop then .error "range start is greater than range end in SortedVectorSet"
  else slice s.inner start stop

variable {key} {s : SortedVectorSet T}

theorem rangeIndexStart_eq (hs : StrictAsc key s.inner) (b : Bound K) :
    s.rangeIndexStart key b = (s.inner.filter (fun x => !b.startAdmits (key x))).length := by
  cases b with
  | unbounded => simp [rangeIndexStart, Bound.startAdmits]
  | included q =>
    by_cases h : ∃ x ∈ s.inner, key x = q <;> simp [rangeIndexStart, findIndex_eq hs, h]
  | excluded q =>
    by_cases h : ∃ x ∈ s.inner, key x = q <;>
      simp [rangeIndexStart, findIndex_eq hs, h, hs.length_filter_le q]

theorem rangeIndexEnd_eq (hs : StrictAsc key s.inner) (b : Bound K) :
    s.rangeIndexEnd key b = (s.inner.filter (fun x => b.endAdmits (key x))).length := by
  cases b with
  | unbounded => simp [rangeIndexEnd, Bound.endAdmits]
  | included q =>
    by_cases h : ∃ x ∈ s.inner, key x = q <;>
      simp [rangeIndexEnd, findIndex_eq hs, h, hs.length_filter_le q, Bound.endAdmits]
  | excluded q =>
    by_cases h : ∃ x ∈ s.inner, key x = q <;> simp [rangeIndexEnd, findIndex_eq hs, h, Bound.endAdmits]

/-- Bounds that are not inverted resolve to a start at or before the end. -/
theorem rangeIndexStart_le_rangeIndexEnd (hs : StrictAsc key s.inner) {lower upper : Bound K}
    (h : ¬Bound.Inverted lower upper) : s.rangeIndexStart key lower ≤ s.rangeIndexEnd key upper := by
  rw [rangeIndexStart_eq hs, rangeIndexEnd_eq hs, ← List.countP_eq_length_filter,
    ← List.countP_eq_length_filter]
  exact List.countP_mono_left fun x _ => Bound.endAdmits_of_not_startAdmits h (key x)

theorem range_eq (hs : StrictAsc key s.inner) (lower upper : Bound K) :
    s.range key lower upper =
      if s.rangeIndexStart key lower > s.rangeIndexEnd key upper then
        .error "range start is greater than range end in SortedVectorSet"
      else .ok (s.inner.filter (fun x => lower.startAdmits (key x) && upper.endAdmits (key x))) := by
  rw [range]
  split
  · rfl
  · rename_i hle
    have hend : s.rangeIndexEnd key upper ≤ s.inner.length := by
      rw [rangeIndexEnd_eq hs]; exact List.length_filter_le _ _
    rw [slice, if_neg hle, if_neg (by omega)]
    rw [rangeIndexStart_eq hs, rangeIndexEnd_eq hs] at hle ⊢
    rw [hs.ascending.drop_take_length_filter (Bound.not_startAdmits_closed key lower)
      (Bound.endAdmits_closed key upper) (by omega)]
    simp

end SortedVectorSet

namespace OrderedSet

variable {T K : Type} [LinearOrder K] {key : T → K}

open SortedVectorSet

/-- `range` returns exactly the elements both bounds admit, panics only on inverted bounds,
and resolves the bounds to indices within the vector. -/
theorem range_spec (s : OrderedSet key) (lower upper : Bound K) :
    (∀ xs, s.toSet.range key lower upper = .ok xs →
      xs = s.toSet.inner.filter (fun x => lower.startAdmits (key x) && upper.endAdmits (key x))) ∧
    (∀ e, s.toSet.range key lower upper = .error e → Bound.Inverted lower upper) ∧
    (¬Bound.Inverted lower upper → ∃ xs, s.toSet.range key lower upper = .ok xs) ∧
    s.toSet.rangeIndexStart key lower ≤ s.toSet.len ∧
    s.toSet.rangeIndexEnd key upper ≤ s.toSet.len := by
  have hs := s.strictAsc
  have hne : ¬Bound.Inverted lower upper → s.toSet.range key lower upper =
      .ok (s.toSet.inner.filter (fun x => lower.startAdmits (key x) && upper.endAdmits (key x))) :=
    fun h => by rw [range_eq hs, if_neg (not_lt.2 (rangeIndexStart_le_rangeIndexEnd hs h))]
  refine ⟨fun xs h => ?_, fun e h => ?_, fun h => ⟨_, hne h⟩, ?_, ?_⟩
  · rw [range_eq hs] at h
    split at h
    · cases h
    · exact (Except.ok.inj h).symm
  · by_contra hi
    rw [hne hi] at h
    cases h
  · rw [rangeIndexStart_eq hs, len]; exact List.length_filter_le _ _
  · rw [rangeIndexEnd_eq hs, len]; exact List.length_filter_le _ _

/-- `range` panics exactly when an element lies beyond both bounds, below the start and
past the end. On inverted bounds with no element between them it returns nothing. -/
theorem range_panics_iff (s : OrderedSet key) (lower upper : Bound K) :
    (s.toSet.range key lower upper =
        .error "range start is greater than range end in SortedVectorSet" ↔
      ∃ x ∈ s.toSet.inner, lower.startAdmits (key x) = false ∧ upper.endAdmits (key x) = false) ∧
    (Bound.Inverted lower upper →
      (¬∃ x ∈ s.toSet.inner, lower.startAdmits (key x) = false ∧ upper.endAdmits (key x) = false) →
      s.toSet.range key lower upper = .ok []) := by
  have hs := s.strictAsc
  have hgt : s.toSet.rangeIndexStart key lower > s.toSet.rangeIndexEnd key upper ↔
      ∃ x ∈ s.toSet.inner, lower.startAdmits (key x) = false ∧ upper.endAdmits (key x) = false := by
    rw [rangeIndexStart_eq hs, rangeIndexEnd_eq hs, gt_iff_lt, length_filter_lt_iff
      (Bound.not_startAdmits_closed key lower) (Bound.endAdmits_closed key upper)]
    simp only [Bool.not_eq_true']
  rw [range_eq hs]
  refine ⟨?_, fun hinv hgap => ?_⟩
  · split_ifs with h
    · exact iff_of_true rfl (hgt.1 h)
    · exact iff_of_false (fun e => by cases e) (mt hgt.2 h)
  · rw [if_neg (mt hgt.1 hgap),
      List.filter_eq_nil_iff.2 fun x _ => by simp [Bound.not_admits_of_inverted hinv]]

end OrderedSet

end SortedVectorMap
