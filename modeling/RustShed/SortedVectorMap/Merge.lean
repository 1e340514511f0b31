import RustShed.SortedVectorMap.Iter
import RustShed.SortedVectorMap.Order

/- `DedupIter` and `MergeIter` (`set.rs`), the two iterators behind `append` and the merge
   path of `extend_with_vec`.

   `DedupIter` gives out an item, then skips ahead while the next item is not greater,
   each skipped item taking the place of the one before: on an ascending vector it yields
   the last element of every run of equal keys (`Ascending.lookup_dedup`), strictly
   ascending (`Ascending.strictAsc_dedup`), and a strictly ascending vector unchanged.

   `MergeIter` peeks at its left vector and at the `DedupIter` on its right one, gives out
   the smaller, and on equal keys drops the left item and gives out the right one. On an
   ascending right vector its items are `unionRight` of the left vector and the
   deduplicated right one (`MergeIter.collect_eq`). `unionRight` is the two-way merge in
   which the right side wins ties, written once as a plain recursion: on two strictly
   ascending vectors it is strictly ascending and stands for the union in which the
   right side's element replaces the left side's (`lookup_unionRight`).

   Correspondence (Rust ↔ Lean):
     `DedupIter::next`, its `while let` loop ↔ `DedupIter.next`, `dedupLoop`
     `MergeIter::new`, `MergeIter::next`     ↔ `MergeIter.new`, `MergeIter.next` -/
namespace SortedVectorMap

variable {T K : Type} [LinearOrder K] (key : T → K)

/-- `DedupIter`, by the items its `Peekable` has not given out. -/
structure DedupIter (T : Type) where
  iter : List T

/-- The `while let` loop of `DedupIter::next` from the item `next`: while the item after it
is not greater, that item becomes `next`. -/
def dedupLoop (next : T) : List T → T × List T
  | [] => (next, [])
  | after :: rest => if key after > key next then (next, after :: rest) else dedupLoop after rest

theorem length_dedupLoop_le (next : T) : ∀ rest : List T, (dedupLoop key next rest).2.length ≤ rest.length
  | [] => le_refl _
  | after :: rest => by
    rw [dedupLoop]
    split
    · exact le_refl _
    · exact Nat.le_succ_of_le (length_dedupLoop_le after rest)

namespace DedupIter

def next (d : DedupIter T) : Option (T × DedupIter T) :=
  match d.iter with
  | [] => none
  | next :: rest => some ((dedupLoop key next rest).1, ⟨(dedupLoop key next rest).2⟩)

def peek (d : DedupIter T) : Option T := d.iter.head?

def sizeHint (d : DedupIter T) : Nat × Option Nat :=
  let (low, high) := Iter.exactHint d.iter
  (min low 1, high)

def toIter : Iter (DedupIter T) T where
  next := next key
  size d := d.iter.length
  next_size d a d' h := by
    rcases d with ⟨_ | ⟨x, rest⟩⟩
    · cases h
    · cases h; exact Nat.lt_succ_of_le (length_dedupLoop_le key x rest)

end DedupIter

/-- The items a `DedupIter` over `l` yields. -/
def dedup (l : List T) : List T := (DedupIter.toIter key).collect ⟨l⟩

variable {key} {l r : List T} {a b x : T} {k : K}

@[simp] theorem dedup_nil : dedup key ([] : List T) = [] :=
  Iter.collect_of_next_none rfl

theorem dedup_cons (a : T) (l : List T) :
    dedup key (a :: l) = (dedupLoop key a l).1 :: dedup key (dedupLoop key a l).2 :=
  Iter.collect_of_next_some rfl

@[simp] theorem dedup_singleton (a : T) : dedup key [a] = [a] := by
  simp [dedup_cons, dedupLoop]

theorem dedup_cons_cons (a b : T) (l : List T) :
    dedup key (a :: b :: l) = if key a < key b then a :: dedup key (b :: l) else dedup key (b :: l) := by
  rw [dedup_cons, dedupLoop]
  split
  · rfl
  · rw [dedup_cons]

theorem mem_of_mem_dedup (h : x ∈ dedup key l) : x ∈ l := by
  induction l with
  | nil => simp at h
  | cons a l ih =>
    cases l with
    | nil => simpa using h
    | cons b l =>
      rw [dedup_cons_cons] at h
      split at h
      · rcases List.mem_cons.1 h with rfl | h
        · exact List.mem_cons_self _ _
        · exact List.mem_cons_of_mem _ (ih h)
      · exact List.mem_cons_of_mem _ (ih h)

theorem Ascending.strictAsc_dedup (hl : Ascending key l) : StrictAsc key (dedup key l) := by
  induction l with
  | nil => rw [dedup_nil]; exact strictAsc_nil
  | cons a l ih =>
    rw [Ascending, List.pairwise_cons] at hl
    cases l with
    | nil => rw [dedup_singleton]; exact List.pairwise_singleton _ a
    | cons b l =>
      rw [dedup_cons_cons]
      split
      · exact strictAsc_cons.2 ⟨fun y hy => lt_of_lt_of_le ‹_›
          (Ascending.head_le hl.2 (mem_of_mem_dedup hy)), ih hl.2⟩
      · exact ih hl.2

/-- Deduplicating an ascending vector keeps, for every key, its last element. -/
theorem Ascending.lookup_dedup (hl : Ascending key l) (k : K) :
    lookup key (dedup key l) k = lookup key l.reverse k := by
  induction l with
  | nil => simp
  | cons a l ih =>
    rw [Ascending, List.pairwise_cons] at hl
    cases l with
    | nil => simp
    | cons b l =>
      rw [dedup_cons_cons, List.reverse_cons, lookup_append, ← ih hl.2]
      split
      · rename_i hab
        rw [lookup_cons]
        by_cases hk : key a = k
        · rw [if_pos hk, lookup_eq_none_of_lt]
          · simp [lookup_cons, hk]
          · exact fun y hy => hk ▸ lt_of_lt_of_le hab (Ascending.head_le hl.2 (mem_of_mem_dedup hy))
        · simp [lookup_cons, hk]
      · rename_i hab
        have hba : key a = key b := le_antisymm (hl.1 b (List.mem_cons_self b l)) (not_lt.1 hab)
        by_cases hk : key a = k
        · have : lookup key (dedup key (b :: l)) k ≠ none := by
            rw [ih hl.2, Ne, lookup_eq_none]
            exact fun h => h b (by simp) (hba ▸ hk)
          obtain ⟨y, hy⟩ := Option.ne_none_iff_exists'.1 this
          simp [hy]
        · simp [lookup_cons, hk]

theorem StrictAsc.dedup_eq (hl : StrictAsc key l) : dedup key l = l := by
  induction l with
  | nil => simp
  | cons a l ih =>
    rw [strictAsc_cons] at hl
    cases l with
    | nil => simp
    | cons b l => rw [dedup_cons_cons, if_pos (hl.1 b (List.mem_cons_self b l)), ih hl.2]

/-- On an ascending vector the loop stops at an element of the key it started from. -/
theorem dedupLoop_key {b : T} : ∀ {r : List T}, Ascending key (b :: r) →
    key (dedupLoop key b r).1 = key b
  | [], _ => rfl
  | c :: r, h => by
    have h' := List.pairwise_cons.1 h
    have hbc : key b ≤ key c := h'.1 c (List.mem_cons_self c r)
    rw [dedupLoop]
    split
    · rfl
    · rw [dedupLoop_key h'.2]
      exact le_antisymm (not_lt.1 ‹_›) hbc

theorem dedupLoop_sublist (b : T) : ∀ r : List T, (dedupLoop key b r).2.Sublist r
  | [] => List.Sublist.refl _
  | c :: r => by
    rw [dedupLoop]
    split
    · exact List.Sublist.refl _
    · exact (dedupLoop_sublist c r).cons c

/-! ## What `DedupIter` keeps -/

variable (key)

/-- `x` ends a maximal run of consecutive elements of equal key in `l`: it sits in `l`, and
the element after it, if there is one, has another key. -/
def EndsRun (l : List T) (x : T) : Prop :=
  ∃ i, l[i]? = some x ∧ ∀ y, l[i + 1]? = some y → key x ≠ key y

variable {key}

omit [LinearOrder K] in
@[simp] theorem not_endsRun_nil : ¬EndsRun key [] x := fun ⟨_, h, _⟩ => by simp at h

omit [LinearOrder K] in
@[simp] theorem endsRun_singleton : EndsRun key [a] x ↔ x = a := by
  constructor
  · rintro ⟨_ | i, h, -⟩ <;> simp at h
    exact h.symm
  · rintro rfl
    exact ⟨0, rfl, fun y hy => by simp at hy⟩

omit [LinearOrder K] in
theorem endsRun_cons_cons :
    EndsRun key (a :: b :: l) x ↔ (x = a ∧ key a ≠ key b) ∨ EndsRun key (b :: l) x := by
  simp only [EndsRun]
  constructor
  · rintro ⟨_ | i, hi, hn⟩
    · obtain rfl : a = x := by simpa using hi
      exact .inl ⟨rfl, hn b (by simp)⟩
    · exact .inr ⟨i, by simpa using hi, fun y hy => hn y (by simpa using hy)⟩
  · rintro (⟨rfl, h⟩ | ⟨i, hi, hn⟩)
    · refine ⟨0, rfl, fun y hy => ?_⟩
      obtain rfl : b = y := by simpa using hy
      exact h
    · exact ⟨i + 1, by simpa using hi, fun y hy => hn y (by simpa using hy)⟩

/-- On an ascending vector, `DedupIter` yields exactly the elements that end a run. -/
theorem Ascending.mem_dedup_iff (hl : Ascending key l) (x : T) :
    x ∈ dedup key l ↔ EndsRun key l x := by
  induction l with
  | nil => simp
  | cons a l ih =>
    rw [Ascending, List.pairwise_cons] at hl
    cases l with
    | nil => simp
    | cons b l =>
      have hab := hl.1 b (List.mem_cons_self b l)
      rw [dedup_cons_cons, endsRun_cons_cons, ← ih hl.2]
      by_cases h : key a < key b
      · simp [h, ne_of_lt h]
      · simp [h, le_antisymm hab (not_lt.1 h)]

/-- `DedupIter` over a non-decreasing vector yields, strictly ascending, exactly the elements
that end a run of equal keys, and skips no key. -/
theorem dedup_spec (l : List T) (hl : Ascending key l) :
    StrictAsc key (dedup key l) ∧ (∀ x, x ∈ dedup key l ↔ EndsRun key l x) ∧
      ∀ x ∈ l, ∃ y ∈ dedup key l, key y = key x := by
  refine ⟨hl.strictAsc_dedup, hl.mem_dedup_iff, fun x hx => ?_⟩
  obtain ⟨y, hy⟩ : ∃ y, lookup key (dedup key l) (key x) = some y := by
    rw [hl.lookup_dedup]
    exact Option.ne_none_iff_exists'.1 fun h => lookup_eq_none.1 h x (List.mem_reverse.2 hx) rfl
  exact ⟨y, lookup_eq_some hy⟩

theorem dedup_spec_one_one_two :
    Ascending (id : Nat → Nat) [1, 1, 2] ∧ (StrictAsc id (dedup id [1, 1, 2]) ∧
      (∀ x, x ∈ dedup id [1, 1, 2] ↔ EndsRun id [1, 1, 2] x) ∧
        ∀ x ∈ [1, 1, 2], ∃ y ∈ dedup id [1, 1, 2], id y = id x) :=
  have h : Ascending (id : Nat → Nat) [1, 1, 2] := by unfold Ascending; decide
  ⟨h, dedup_spec [1, 1, 2] h⟩

/-! ## The merge in which the right side wins -/

variable (key)

/-- Two-way merge of two vectors: the smaller head first, and on equal keys the right head,
dropping the left one. -/
def unionRight : List T → List T → List T
  | [], r => r
  | a :: l, [] => a :: l
  | a :: l, b :: r =>
    match compare (key a) (key b) with
    | .lt => a :: unionRight l (b :: r)
    | .gt => b :: unionRight (a :: l) r
    | .eq => b :: unionRight l r

variable {key}

@[simp] theorem unionRight_nil_left (r : List T) : unionRight key [] r = r := by
  rw [unionRight]

@[simp] theorem unionRight_nil_right (l : List T) : unionRight key l [] = l := by
  cases l <;> rw [unionRight]

theorem unionRight_lt (h : key a < key b) (l r : List T) :
    unionRight key (a :: l) (b :: r) = a :: unionRight key l (b :: r) := by
  rw [unionRight, compare_lt_iff_lt.2 h]

theorem unionRight_gt (h : key b < key a) (l r : List T) :
    unionRight key (a :: l) (b :: r) = b :: unionRight key (a :: l) r := by
  rw [unionRight, compare_gt_iff_gt.2 h]

theorem unionRight_eq (h : key a = key b) (l r : List T) :
    unionRight key (a :: l) (b :: r) = b :: unionRight key l r := by
  rw [unionRight, compare_eq_iff_eq.2 h]

/-- A left head below the whole right vector comes first. -/
theorem unionRight_cons_left (h : ∀ y ∈ r, key a < key y) (l : List T) :
    unionRight key (a :: l) r = a :: unionRight key l r := by
  cases r with
  | nil => simp
  | cons b r => rw [unionRight_lt (h b (List.mem_cons_self b r))]

/-- A right head below the whole left vector comes first. -/
theorem unionRight_cons_right (h : ∀ y ∈ l, key b < key y) (r : List T) :
    unionRight key l (b :: r) = b :: unionRight key l r := by
  cases l with
  | nil => simp
  | cons a l => rw [unionRight_gt (h a (List.mem_cons_self a l))]

theorem mem_of_mem_unionRight : ∀ {l r : List T}, x ∈ unionRight key l r → x ∈ l ∨ x ∈ r
  | [], _, h => .inr (by simpa using h)
  | _ :: _, [], h => .inl (by simpa using h)
  | a :: l, b :: r, h => by
    rcases lt_trichotomy (key a) (key b) with hab | hab | hab
    · rw [unionRight_lt hab] at h
      rcases List.mem_cons.1 h with rfl | h
      · exact .inl (List.mem_cons_self _ _)
      · exact (mem_of_mem_unionRight h).imp (List.mem_cons_of_mem _) id
    · rw [unionRight_eq hab] at h
      rcases List.mem_cons.1 h with rfl | h
      · exact .inr (List.mem_cons_self _ _)
      · exact (mem_of_mem_unionRight h).imp (List.mem_cons_of_mem _) (List.mem_cons_of_mem _)
    · rw [unionRight_gt hab] at h
      rcases List.mem_cons.1 h with rfl | h
      · exact .inr (List.mem_cons_self _ _)
      · exact (mem_of_mem_unionRight h).imp id (List.mem_cons_of_mem _)

theorem strictAsc_unionRight : ∀ {l r : List T}, StrictAsc key l → StrictAsc key r →
    StrictAsc key (unionRight key l r)
  | [], _, _, hr => by simpa using hr
  | _ :: _, [], hl, _ => by simpa using hl
  | a :: l, b :: r, hl, hr => by
    have hl' := strictAsc_cons.1 hl
    have hr' := strictAsc_cons.1 hr
    rcases lt_trichotomy (key a) (key b) with hab | hab | hab
    · rw [unionRight_lt hab]
      refine strictAsc_cons.2 ⟨fun y hy => ?_, strictAsc_unionRight hl'.2 hr⟩
      exact (mem_of_mem_unionRight hy).elim (hl'.1 y) fun hy => lt_of_lt_of_le hab (hr.head_le hy)
    · rw [unionRight_eq hab]
      refine strictAsc_cons.2 ⟨fun y hy => ?_, strictAsc_unionRight hl'.2 hr'.2⟩
      rcases mem_of_mem_unionRight hy with hy | hy
      · exact hab ▸ hl'.1 y hy
      · exact hr'.1 y hy
    · rw [unionRight_gt hab]
      refine strictAsc_cons.2 ⟨fun y hy => ?_, strictAsc_unionRight hl hr'.2⟩
      exact (mem_of_mem_unionRight hy).elim (fun hy => lt_of_lt_of_le hab (hl.head_le hy)) (hr'.1 y)

/-- The merge stands for the union in which the right side's element wins. -/
theorem lookup_unionRight : ∀ {l r : List T}, StrictAsc key l → StrictAsc key r →
    ∀ k, lookup key (unionRight key l r) k = (lookup key r k).or (lookup key l k)
  | [], _, _, _, k => by simp
  | _ :: _, [], _, _, k => by simp
  | a :: l, b :: r, hl, hr, k => by
    have hl' := strictAsc_cons.1 hl
    have hr' := strictAsc_cons.1 hr
    rcases lt_trichotomy (key a) (key b) with hab | hab | hab
    · rw [unionRight_lt hab, lookup_cons, lookup_unionRight hl'.2 hr k, lookup_cons a]
      by_cases hk : key a = k
      · rw [if_pos hk, if_pos hk, lookup_eq_none_of_lt]
        · rfl
        · exact fun y hy => hk ▸ lt_of_lt_of_le hab (hr.head_le hy)
      · rw [if_neg hk, if_neg hk]
    · rw [unionRight_eq hab, lookup_cons, lookup_unionRight hl'.2 hr'.2 k, lookup_cons b,
        lookup_cons a, hab]
      by_cases hk : key b = k <;> simp [hk]
    · rw [unionRight_gt hab, lookup_cons, lookup_unionRight hl hr'.2 k, lookup_cons b]
      by_cases hk : key b = k <;> simp [hk]

/-- The merge holds the right vector and the left elements no right element equals. -/
theorem mem_unionRight_iff (hl : StrictAsc key l) (hr : StrictAsc key r) :
    x ∈ unionRight key l r ↔ x ∈ r ∨ (x ∈ l ∧ ∀ y ∈ r, key y ≠ key x) := by
  rw [(strictAsc_unionRight hl hr).mem_iff_lookup, lookup_unionRight hl hr, Option.or_eq_some,
    ← hr.mem_iff_lookup, ← hl.mem_iff_lookup, lookup_eq_none, and_comm]

/-! ## `MergeIter` -/

/-- `MergeIter`: the left `Peekable` by its remaining items, and the `DedupIter` on the
right. -/
structure MergeIter (T : Type) where
  left : List T
  right : DedupIter T

namespace MergeIter

variable (key)

def new (left right : List T) : MergeIter T := ⟨left, ⟨right⟩⟩

/-- `MergeIter::next`: the smaller head; on equal keys the right one, the left one
dropped. -/
def next (m : MergeIter T) : Option (T × MergeIter T) := do
  let res ← match m.left.head?, m.right.peek with
    | some left, some right => some (compare (key left) (key right))
    | some _, none => some .lt
    | none, some _ => some .gt
    | none, none => none
  match res with
  | .lt => m.left.head?.map fun a => (a, ⟨m.left.tail, m.right⟩)
  | .gt => (m.right.next key).map fun br => (br.1, ⟨m.left, br.2⟩)
  | .eq => (m.right.next key).map fun br => (br.1, ⟨m.left.tail, br.2⟩)

def sizeHint (m : MergeIter T) : Nat × Option Nat :=
  let leftHint := Iter.exactHint m.left
  let rightHint := m.right.sizeHint
  let low := max leftHint.1 rightHint.1
  let high := match leftHint.2, rightHint.2 with
    | some leftHigh, some rightHigh => Iter.checkedAdd leftHigh rightHigh
    | _, _ => none
  (low, high)

variable {key}

@[simp] theorem next_nil_nil : next key ⟨[], ⟨[]⟩⟩ = none := rfl

@[simp] theorem next_cons_nil (a : T) (l : List T) :
    next key ⟨a :: l, ⟨[]⟩⟩ = some (a, ⟨l, ⟨[]⟩⟩) := rfl

@[simp] theorem next_nil_cons (b : T) (r : List T) :
    next key ⟨[], ⟨b :: r⟩⟩ =
      some ((dedupLoop key b r).1, ⟨[], ⟨(dedupLoop key b r).2⟩⟩) := rfl

theorem next_cons_cons (a b : T) (l r : List T) :
    next key ⟨a :: l, ⟨b :: r⟩⟩ = match compare (key a) (key b) with
      | .lt => some (a, ⟨l, ⟨b :: r⟩⟩)
      | .gt => some ((dedupLoop key b r).1, ⟨a :: l, ⟨(dedupLoop key b r).2⟩⟩)
      | .eq => some ((dedupLoop key b r).1, ⟨l, ⟨(dedupLoop key b r).2⟩⟩) := by
  cases h : compare (key a) (key b) <;>
    simp [next, DedupIter.peek, DedupIter.next, h, Bind.bind, Option.bind]

variable (key)

def toIter : Iter (MergeIter T) T where
  next := next key
  size m := m.left.length + m.right.iter.length
  next_size m a m' h := by
    rcases m with ⟨_ | ⟨x, l⟩, ⟨_ | ⟨y, r⟩⟩⟩
    · cases h
    · cases h; simpa using Nat.lt_succ_of_le (length_dedupLoop_le key y r)
    · cases h; simp
    · have := length_dedupLoop_le key y r
      rw [next_cons_cons] at h
      split at h <;> cases h <;> simp only [List.length_cons] <;> omega

variable {key}

@[simp] theorem toIter_next (m : MergeIter T) : (toIter key).next m = next key m := rfl

/-- On an ascending right vector, `MergeIter` yields the merge of the left vector with the
deduplicated right one. -/
theorem collect_eq : ∀ (l r : List T), Ascending key r →
    (toIter key).collect ⟨l, ⟨r⟩⟩ = unionRight key l (dedup key r)
  | [], [], _ => by rw [Iter.collect_of_next_none rfl]; simp
  | a :: l, [], _ => by
    rw [Iter.collect_of_next_some (next_cons_nil a l), collect_eq l [] List.Pairwise.nil]
    simp
  | [], b :: r, hr => by
    rw [Iter.collect_of_next_some (next_nil_cons b r), dedup_cons,
      collect_eq [] _ ((List.pairwise_cons.1 hr).2.sublist (dedupLoop_sublist b r))]
    simp
  | a :: l, b :: r, hr => by
    have hk := dedupLoop_key hr
    have hr' : Ascending key (dedupLoop key b r).2 :=
      (List.pairwise_cons.1 hr).2.sublist (dedupLoop_sublist b r)
    rw [dedup_cons]
    rcases lt_trichotomy (key a) (key b) with hab | hab | hab
    · rw [Iter.collect_of_next_some (by rw [toIter_next, next_cons_cons, compare_lt_iff_lt.2 hab]),
        unionRight_lt (hk ▸ hab), ← dedup_cons, collect_eq l (b :: r) hr]
    · rw [Iter.collect_of_next_some (by rw [toIter_next, next_cons_cons, compare_eq_iff_eq.2 hab]),
        unionRight_eq (hk ▸ hab), collect_eq l _ hr']
    · rw [Iter.collect_of_next_some (by rw [toIter_next, next_cons_cons, compare_gt_iff_gt.2 hab]),
        unionRight_gt (hk ▸ hab), collect_eq (a :: l) _ hr']
termination_by l r => l.length + r.length
decreasing_by
  all_goals simp_wf
  all_goals have := length_dedupLoop_le key b r
  all_goals omega

end MergeIter

end SortedVectorMap
