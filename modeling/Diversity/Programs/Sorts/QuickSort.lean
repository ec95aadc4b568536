import Diversity.Schemes.Ranges

/-! @src c++/src/sorting.cpp (swap, partitionFunc, quick_sort) | name:Quick sort | scheme:ranges |
    family:sorting

    `partitionFunc` moves two indices towards each other and ends with `swap(lp, right)`, where the
    pivot should go to its place. But `lp` and `right` are the indices, not the cells: what is exchanged
    are two locals, and the index returned is always `right`. So `quick_sort` calls itself on the range
    it was called on:

        quick_sort(a, left, right) ──▶ partitionFunc = right ──▶ quick_sort(a, left, right) ──▶ …

    A range with nothing to sort is left alone; on every other one no call ever returns. -/

namespace Diversity.Sorting
open Schemes

/-- `swap(a[i], a[j])`. -/
def swap (a : List ℤ) (i j : ℤ) : C (List ℤ) := exchange a i j

/-- One turn of `while (a[lp++] < pivot)`. -/
def scanUpBody (a : List ℤ) (pivot lp : ℤ) : C (Iter ℤ ℤ) := do
  let x ← load a lp
  if x < pivot then .ok (.next (lp + 1)) else .ok (.done (lp + 1))

/-- One turn of `while (a[rp--] > pivot)`. -/
def scanDownBody (a : List ℤ) (pivot rp : ℤ) : C (Iter ℤ ℤ) := do
  let x ← load a rp
  if x > pivot then .ok (.next (rp - 1)) else .ok (.done (rp - 1))

/-- One turn of the `while (1)` of `partitionFunc` on `(a, lp, rp)`. -/
def partitionBody (fuel : ℕ) (pivot : ℤ) (s : List ℤ × ℤ × ℤ) :
    C (Iter (List ℤ × ℤ × ℤ) (List ℤ × ℤ)) := do
  let (a, lp, rp) := s
  let lp ← loop (scanUpBody a pivot) fuel lp
  let rp ← loop (scanDownBody a pivot) fuel rp
  if lp ≥ rp then .ok (.done (a, lp))
  else
    let a ← swap a lp rp
    .ok (.next (a, lp, rp))

/-- `partitionFunc`: the array and the index returned. -/
def partitionFunc (fuel : ℕ) (a : List ℤ) (left right pivot : ℤ) : C (List ℤ × ℤ) := do
  let (a, lp) ← loop (partitionBody fuel pivot) fuel (a, left, right - 1)
  -- `swap(lp, right)` takes references to the two locals.
  let (lp, _right) := (right, lp)
  .ok (a, lp)

/-- `quick_sort`; `fuel` bounds the depth of the recursion and the loops of each call. -/
def quickSort : ℕ → List ℤ → ℤ → ℤ → C (List ℤ)
  | 0, _, _, _ => .error .outOfFuel
  | fuel + 1, a, left, right =>
    if left ≥ right then .ok a
    else do
      let pivot ← load a right
      let (a, partition) ← partitionFunc fuel a left right pivot
      let a ← quickSort fuel a left partition
      quickSort fuel a (partition + 1) right

/-- Sorting the range `left .. right`: the run comes to an end without a fault, and the array is then
    the one before with the range put in order. -/
def QuickSorts (a : List ℤ) (left right : ℤ) : Prop :=
  ∃ a', SortsRange a a' left right ∧ ∃ enough, ∀ fuel ≥ enough, quickSort fuel a left right = .ok a'

/-! ### The partition -/

/-- The index returned is `right`, whatever the two scans have found. -/
theorem partitionFunc_snd {fuel : ℕ} {a a' : List ℤ} {left right pivot partition : ℤ}
    (h : partitionFunc fuel a left right pivot = .ok (a', partition)) : partition = right := by
  obtain ⟨s, -, hs⟩ := exists_of_bind_ok h
  cases hs
  rfl

/-! ### The recursion -/

/-- STEP: the result of a call with something to sort is the result of a call on the same range, or a
    fault. -/
theorem quickSort_step {fuel : ℕ} {a a' : List ℤ} {left right : ℤ} (hlt : left < right)
    (h : quickSort (fuel + 1) a left right = .ok a') :
    ∃ b b', quickSort fuel b left right = .ok b' := by
  rw [quickSort, if_neg (by omega)] at h
  obtain ⟨pivot, -, h⟩ := exists_of_bind_ok h
  obtain ⟨⟨b, partition⟩, hpart, h⟩ := exists_of_bind_ok h
  obtain rfl := partitionFunc_snd hpart
  obtain ⟨b', hrec, -⟩ := exists_of_bind_ok h
  exact ⟨b, b', hrec⟩

/-- NEVER: with two cells or more to sort, no amount of fuel gives a result. -/
theorem quickSort_ne_ok {left right : ℤ} (hlt : left < right) (fuel : ℕ) :
    ∀ a a', quickSort fuel a left right ≠ .ok a' := by
  induction fuel with
  | zero =>
    intro a a' h
    cases h
  | succ fuel ih =>
    intro a a' h
    obtain ⟨b, b', hrec⟩ := quickSort_step hlt h
    exact ih b b' hrec

/-- CORRECT: `quick_sort` sorts its range exactly when there is nothing to sort. -/
theorem quickSorts_iff (a : List ℤ) (left right : ℤ) (hl : 0 ≤ left) (hln : left < a.length)
    (hr : 0 ≤ right) (hrn : right < a.length) : QuickSorts a left right ↔ right ≤ left := by
  constructor
  · rintro ⟨a', -, enough, hrun⟩
    by_contra hlt
    exact quickSort_ne_ok (not_le.mp hlt) enough a a' (hrun enough le_rfl)
  · intro hle
    have hrun : ∀ fuel ≥ 1, quickSort fuel a left right = .ok a := by
      intro fuel hfuel
      obtain ⟨k, rfl⟩ := Nat.exists_eq_add_of_le' hfuel
      rw [quickSort, if_pos hle]
    refine ⟨a, ?_, 1, hrun⟩
    rcases hle.lt_or_eq with hlt | rfl
    · exact sortsRange_empty a hlt
    · obtain ⟨p, m, s, rfl, hp, hm⟩ := exists_range a hr (by omega) hrn
      have hsame : inOrder m = m := inOrder_of_length_le_one (by omega)
      have hsorts := sortsRange_inOrder (s := s) hp hm
      rwa [hsame] at hsorts

/-- One cell. -/
theorem quickSorts_iff_one : QuickSorts [3, 1, 2] 1 1 :=
  (quickSorts_iff [3, 1, 2] 1 1 (by decide) (by decide) (by decide) (by decide)).mpr le_rfl

/-- On `{1, 2}` the recursion never ends, and on `{2, 1}` the scan from the right leaves the array. -/
theorem quickSort_two_cells :
    (∀ fuel, quickSort fuel [1, 2] 0 1 = .error .outOfFuel) ∧ ¬ QuickSorts [1, 2] 0 1 ∧
      quickSort 3 [2, 1] 0 1 = .error .outOfBounds := by
  have hend : ∀ fuel, quickSort fuel [1, 2] 0 1 = .error .outOfFuel := by
    intro fuel
    induction fuel with
    | zero => rfl
    | succ fuel ih =>
      have hpivot : load ([1, 2] : List ℤ) 1 = .ok 2 := rfl
      have hne : ¬ (0 : ℤ) ≥ 1 := by decide
      rcases fuel with - | - | fuel
      · rfl
      · rfl
      · have hpart : partitionFunc (fuel + 2) [1, 2] 0 1 2 = .ok ([1, 2], 1) := rfl
        rw [quickSort, if_neg hne, hpivot, ok_bind, hpart, ok_bind]
        simp only [ih, error_bind]
  refine ⟨hend, ?_, rfl⟩
  rintro ⟨a', -, enough, hrun⟩
  have hok := hrun enough le_rfl
  rw [hend] at hok
  cases hok

end Diversity.Sorting
