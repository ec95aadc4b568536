import Diversity.Schemes.Ranges

/-! @src sorts/mergeSort.c | name:Merge sort | scheme:ranges | family:sorting

    `mergeSort` sorts the cells `l .. r` of an array: both halves by recursion, then `merge`, which
    copies them into two arrays on the stack and merges these back. Every index into `arr`, `left`
    and `right` is checked, so a run that ends in `.ok` used none outside. During the merge the range
    holds what has been merged so far, followed by cells still to be overwritten:

        arr:  p | written … | to be overwritten … | s       written ++ mergeLt left right
                              idx                              is what the range becomes      -/

namespace Diversity.Sorts
open Schemes

/-- State of the loops of `merge`. The `int` indices stay inside `l .. r + 1`, and `r + 1` is an `int` for
    every array of fewer than 2 ^ 31 cells. -/
structure Merge where
  arr : List ℤ
  i : ℤ
  j : ℤ
  idx : ℤ

/-- One turn of `while (i < n1 && j < n2)`. -/
def mergeBody (n1 n2 : ℤ) (left right : List ℤ) (s : Merge) : C (Iter Merge Merge) :=
  if s.i < n1 ∧ s.j < n2 then do
    let x ← load left s.i
    let y ← load right s.j
    if x < y then
      let arr ← store s.arr s.idx x
      .ok (.next { s with arr, i := s.i + 1, idx := s.idx + 1 })
    else
      let arr ← store s.arr s.idx y
      .ok (.next { s with arr, j := s.j + 1, idx := s.idx + 1 })
  else .ok (.done s)

/-- One turn of `while (k < n) arr[idx++] = src[k++]` on `(arr, k, idx)`. -/
def drainBody (n : ℤ) (src : List ℤ) (s : List ℤ × ℤ × ℤ) :
    C (Iter (List ℤ × ℤ × ℤ) (List ℤ × ℤ × ℤ)) :=
  let (arr, k, idx) := s
  if k < n then do
    let x ← load src k
    let arr ← store arr idx x
    .ok (.next (arr, k + 1, idx + 1))
  else .ok (.done s)

/-- `merge`; `lmem` and `rmem` are what the stack held where `left` and `right` are. -/
def merge (fuel : ℕ) (lmem rmem : ℕ → ℤ) (arr : List ℤ) (l m r : ℤ) : C (List ℤ) := do
  let n1 := m - l + 1
  let n2 := r - m
  let left ← newArray lmem n1
  let right ← newArray rmem n2
  let left ← copyCells arr l n1.toNat left
  let right ← copyCells arr (m + 1) n2.toNat right
  let s ← loop (mergeBody n1 n2 left right) fuel ⟨arr, 0, 0, l⟩
  let (arr, _, idx) ← loop (drainBody n1 left) fuel (s.arr, s.i, s.idx)
  let (arr, _, _) ← loop (drainBody n2 right) fuel (arr, s.j, idx)
  .ok arr

/-- `mergeSort`; `fuel` bounds the depth of the recursion and the loops of each `merge`, and the
    stack may have held anything at each call. -/
def mergeSort (lmem rmem : ℤ → ℤ → ℕ → ℤ) : ℕ → List ℤ → ℤ → ℤ → C (List ℤ)
  | 0, _, _, _ => .error .outOfFuel
  | fuel + 1, arr, l, r =>
    if l ≥ r then .ok arr
    else do
      let m := l + (r - l).tdiv 2
      let arr ← mergeSort lmem rmem fuel arr l m
      let arr ← mergeSort lmem rmem fuel arr (m + 1) r
      merge fuel (lmem l r) (rmem l r) arr l m r

/-! ### The loops of `merge` -/

/-- What a drain does: the rest of `src` overwrites as many cells. -/
theorem loop_drain {s : List ℤ} : ∀ (fuel : ℕ) {p done rest old src : List ℤ} {k idx : ℤ},
    src = done ++ rest → old.length = rest.length → (done.length : ℤ) = k → (p.length : ℤ) = idx →
    rest.length < fuel → loop (drainBody src.length src) fuel (p ++ old ++ s, k, idx) =
      .ok (p ++ rest ++ s, k + rest.length, idx + rest.length)
  | fuel + 1, p, done, [], old, src, k, idx, hsrc, hold, hk, hidx, _ => by
    have hnil : old = [] := List.eq_nil_of_length_eq_zero hold
    have hexit : ¬ k < src.length := by rw [hsrc, List.append_nil]; omega
    have hbody : drainBody src.length src (p ++ old ++ s, k, idx) =
        .ok (.done (p ++ old ++ s, k, idx)) := by
      simp only [drainBody, if_neg hexit]
    rw [loop_done hbody, hnil]
    simp
  | fuel + 1, p, done, x :: rest, [], src, k, idx, _, hold, _, _, _ => by cases hold
  | fuel + 1, p, done, x :: rest, o :: old, src, k, idx, hsrc, hold, hk, hidx, hfuel => by
    have hlt : k < src.length := by
      rw [hsrc, List.length_append, List.length_cons]
      omega
    have hload : load src k = .ok x := by rw [hsrc, load_append hk]
    have hstore : store (p ++ o :: old ++ s) idx x = .ok (p ++ [x] ++ old ++ s) := by
      rw [List.append_assoc, List.cons_append, store_append hidx]
      simp
    have hbody : drainBody src.length src (p ++ o :: old ++ s, k, idx) =
        .ok (.next (p ++ [x] ++ old ++ s, k + 1, idx + 1)) := by
      simp only [drainBody, if_pos hlt, hload, ok_bind, hstore]
    have hsrc' : src = done ++ [x] ++ rest := by simpa using hsrc
    have ih : loop (drainBody src.length src) fuel (p ++ [x] ++ old ++ s, k + 1, idx + 1) =
        .ok (p ++ [x] ++ rest ++ s, k + 1 + rest.length, idx + 1 + rest.length) :=
      loop_drain fuel hsrc' (by simpa using hold) (by simp; omega) (by simp; omega)
        (by simpa using hfuel)
    rw [loop_next hbody, ih]
    simp only [List.append_assoc, List.singleton_append, List.length_cons, Nat.cast_add, Nat.cast_one]
    congr 3 <;> ring

/-- The merge loop stands at `st`: `out` is written, `xs` and `ys` are to come. -/
structure MergeAt (p s left right out xs ys : List ℤ) (st : Merge) : Prop where
  left : ∃ done, left = done ++ xs ∧ st.i = done.length
  right : ∃ done, right = done ++ ys ∧ st.j = done.length
  arr : ∃ old, st.arr = p ++ out ++ old ++ s ∧ old.length = xs.length + ys.length
  idx : st.idx = (p ++ out).length

variable {p s left right out xs ys : List ℤ} {st : Merge} {x y : ℤ}

/-- Both sides have an element left: the smaller one is written. -/
theorem mergeBody_next (h : MergeAt p s left right out (x :: xs) (y :: ys) st) :
    ∃ st', mergeBody left.length right.length left right st = .ok (.next st') ∧
      if x < y then MergeAt p s left right (out ++ [x]) xs (y :: ys) st'
      else MergeAt p s left right (out ++ [y]) (x :: xs) ys st' := by
  obtain ⟨dx, hleft, hi⟩ := h.left
  obtain ⟨dy, hright, hj⟩ := h.right
  obtain ⟨old, harr, hold⟩ := h.arr
  have hidx := h.idx
  obtain ⟨o, old, rfl⟩ : ∃ o old', old = o :: old' := by
    cases old with
    | nil => simp at hold
    | cons o old => exact ⟨o, old, rfl⟩
  have hguard : st.i < left.length ∧ st.j < right.length := by
    rw [hleft, hright, List.length_append, List.length_append, List.length_cons, List.length_cons]
    omega
  have hx : load left st.i = .ok x := by rw [hleft, load_append hi.symm]
  have hy : load right st.j = .ok y := by rw [hright, load_append hj.symm]
  have hstore : ∀ z, store st.arr st.idx z = .ok (p ++ (out ++ [z]) ++ old ++ s) := by
    intro z
    have harr' : st.arr = (p ++ out) ++ o :: (old ++ s) := by rw [harr]; simp
    rw [harr', store_append hidx.symm]
    simp
  by_cases hxy : x < y
  · refine ⟨⟨p ++ (out ++ [x]) ++ old ++ s, st.i + 1, st.j, st.idx + 1⟩, ?_, ?_⟩
    · simp only [mergeBody, if_pos hguard, hx, hy, ok_bind, if_pos hxy, hstore]
    · rw [if_pos hxy]
      exact ⟨⟨dx ++ [x], by simp [hleft], by simp [hi]⟩, ⟨dy, hright, hj⟩,
        ⟨old, rfl, by simp at hold ⊢; omega⟩, by simp [hidx]; ring⟩
  · refine ⟨⟨p ++ (out ++ [y]) ++ old ++ s, st.i, st.j + 1, st.idx + 1⟩, ?_, ?_⟩
    · simp only [mergeBody, if_pos hguard, hx, hy, ok_bind, if_neg hxy, hstore]
    · rw [if_neg hxy]
      exact ⟨⟨dx, hleft, hi⟩, ⟨dy ++ [y], by simp [hright], by simp [hj]⟩,
        ⟨old, rfl, by simp at hold ⊢; omega⟩, by simp [hidx]; ring⟩

/-- One side is used up: the loop is left. -/
theorem mergeBody_done (h : MergeAt p s left right out xs ys st) (hend : xs = [] ∨ ys = []) :
    mergeBody left.length right.length left right st = .ok (.done st) := by
  obtain ⟨dx, hleft, hi⟩ := h.left
  obtain ⟨dy, hright, hj⟩ := h.right
  have hguard : ¬ (st.i < left.length ∧ st.j < right.length) := by
    rcases hend with rfl | rfl
    · rw [hleft, List.append_nil]
      omega
    · rw [hright, List.append_nil]
      omega
  rw [mergeBody, if_neg hguard]

/-- The loop ends with one side used up, and what is written then, followed by what is left, is the
    merge. -/
theorem loop_merge : ∀ (fuel : ℕ) {out xs ys : List ℤ} {st : Merge},
    MergeAt p s left right out xs ys st → xs.length + ys.length < fuel →
    ∃ st' out' xs' ys', loop (mergeBody left.length right.length left right) fuel st = .ok st' ∧
      MergeAt p s left right out' xs' ys' st' ∧ out' ++ xs' ++ ys' = out ++ mergeLt xs ys ∧
      xs'.length + ys'.length ≤ xs.length + ys.length
  | fuel + 1, out, [], ys, st, h, _ =>
    ⟨st, out, [], ys, loop_done (mergeBody_done h (Or.inl rfl)) fuel, h,
      by simp [mergeLt_nil_left], le_rfl⟩
  | fuel + 1, out, x :: xs, [], st, h, _ =>
    ⟨st, out, x :: xs, [], loop_done (mergeBody_done h (Or.inr rfl)) fuel, h,
      by simp [mergeLt_nil_right], le_rfl⟩
  | fuel + 1, out, x :: xs, y :: ys, st, h, hfuel => by
    obtain ⟨st', hbody, hat⟩ := mergeBody_next h
    rw [loop_next hbody, mergeLt_cons]
    simp only [List.length_cons] at hfuel ⊢
    by_cases hxy : x < y
    · rw [if_pos hxy] at hat ⊢
      obtain ⟨st'', out', xs', ys', hloop, hat', heq, hle⟩ :=
        loop_merge fuel hat (by rw [List.length_cons]; omega)
      rw [List.length_cons] at hle
      exact ⟨st'', out', xs', ys', hloop, hat', by rw [heq]; simp, by omega⟩
    · rw [if_neg hxy] at hat ⊢
      obtain ⟨st'', out', xs', ys', hloop, hat', heq, hle⟩ :=
        loop_merge fuel hat (by rw [List.length_cons]; omega)
      rw [List.length_cons] at hle
      exact ⟨st'', out', xs', ys', hloop, hat', by rw [heq]; simp, by omega⟩

/-- `merge` turns two neighbouring ranges into their merge. -/
theorem merge_append (fuel : ℕ) (lmem rmem : ℕ → ℤ) {l m r : ℤ} (hl : (p.length : ℤ) = l)
    (hm : m = l + left.length - 1) (hr : r = m + right.length)
    (hfuel : left.length + right.length < fuel) :
    merge fuel lmem rmem (p ++ (left ++ right) ++ s) l m r = .ok (p ++ mergeLt left right ++ s) := by
  have hn1 : m - l + 1 = left.length := by omega
  have hn2 : r - m = right.length := by omega
  have hcopyL : ∀ dst : List ℤ, dst.length = left.length →
      copyCells (p ++ (left ++ right) ++ s) l left.length dst = .ok left := fun dst hdst => by
    have h := copyCells_append (s := right ++ s) hl hdst
    simpa using h
  have hcopyR : ∀ dst : List ℤ, dst.length = right.length →
      copyCells (p ++ (left ++ right) ++ s) (m + 1) right.length dst = .ok right := fun dst hdst => by
    have hoff : ((p ++ left).length : ℤ) = m + 1 := by simp; omega
    have h := copyCells_append (s := s) hoff hdst
    simpa using h
  have hstart : MergeAt p s left right [] left right ⟨p ++ (left ++ right) ++ s, 0, 0, l⟩ :=
    ⟨⟨[], rfl, rfl⟩, ⟨[], rfl, rfl⟩, ⟨left ++ right, by simp, by simp⟩, by simp [hl]⟩
  obtain ⟨st, out, xs, ys, hloop, hat, hout, hle⟩ := loop_merge fuel hstart hfuel
  obtain ⟨dx, hleft, hi⟩ := hat.left
  obtain ⟨dy, hright, hj⟩ := hat.right
  obtain ⟨old, harr, hold⟩ := hat.arr
  -- The cells still to be overwritten: first those for `xs`, then those for `ys`.
  obtain ⟨ox, oy, rfl, hox⟩ : ∃ ox oy, old = ox ++ oy ∧ ox.length = xs.length :=
    ⟨old.take xs.length, old.drop xs.length, (List.take_append_drop ..).symm, by simp; omega⟩
  rw [List.length_append] at hold
  have hdrainL : loop (drainBody left.length left) fuel (st.arr, st.i, st.idx) =
      .ok (p ++ out ++ xs ++ (oy ++ s), st.i + xs.length, st.idx + xs.length) := by
    have h := loop_drain (s := oy ++ s) fuel hleft hox hi.symm hat.idx.symm (by omega)
    rw [harr]
    simpa using h
  have hdrainR : loop (drainBody right.length right) fuel
      (p ++ out ++ xs ++ (oy ++ s), st.j, st.idx + xs.length) =
      .ok (p ++ out ++ xs ++ ys ++ s, st.j + ys.length, st.idx + xs.length + ys.length) := by
    have hidx : ((p ++ out ++ xs).length : ℤ) = st.idx + xs.length := by
      rw [hat.idx, ← Nat.cast_add, ← List.length_append]
    have hoy : oy.length = ys.length := by omega
    have h := loop_drain (s := s) fuel hright hoy hj.symm hidx (by omega)
    simpa using h
  simp only [merge, hn1, hn2, newArray_natCast, ok_bind, Int.toNat_natCast]
  rw [hcopyL _ (by simp), ok_bind, hcopyR _ (by simp), ok_bind, hloop, ok_bind, hdrainL, ok_bind,
    hdrainR, ok_bind]
  rw [List.nil_append] at hout
  rw [← hout]
  simp

/-! ### The recursion -/

/-- `mergeSort` puts the middle of the array in order. -/
theorem mergeSort_append (lmem rmem : ℤ → ℤ → ℕ → ℤ) : ∀ (fuel : ℕ) {p m s : List ℤ} {l r : ℤ},
    (p.length : ℤ) = l → (m.length : ℤ) = r + 1 - l → 2 * m.length < fuel →
    mergeSort lmem rmem fuel (p ++ m ++ s) l r = .ok (p ++ inOrder m ++ s)
  | fuel + 1, p, m, s, l, r, hl, hm, hfuel => by
    rw [mergeSort]
    by_cases hlr : l ≥ r
    · rw [if_pos hlr, inOrder_of_length_le_one (by omega)]
    · rw [if_neg hlr]
      -- The left half is the longer one when the two differ.
      have hmid : (r - l).tdiv 2 = (r - l) / 2 := Int.tdiv_eq_ediv_of_nonneg (by omega)
      obtain ⟨a, b, rfl, ha⟩ : ∃ a b, m = a ++ b ∧ (a.length : ℤ) = (r - l) / 2 + 1 :=
        ⟨m.take ((r - l) / 2 + 1).toNat, m.drop ((r - l) / 2 + 1).toNat,
          (List.take_append_drop ..).symm, by simp; omega⟩
      rw [List.length_append] at hfuel hm
      have hleft : mergeSort lmem rmem fuel (p ++ (a ++ b) ++ s) l (l + (r - l) / 2) =
          .ok (p ++ (inOrder a ++ b) ++ s) := by
        have h := mergeSort_append lmem rmem fuel (p := p) (m := a) (s := b ++ s) (l := l)
          (r := l + (r - l) / 2) hl (by omega) (by omega)
        simpa using h
      have hlen := (inOrder_perm a).length_eq
      have hlen' := (inOrder_perm b).length_eq
      have hright : mergeSort lmem rmem fuel (p ++ (inOrder a ++ b) ++ s) (l + (r - l) / 2 + 1) r =
          .ok (p ++ (inOrder a ++ inOrder b) ++ s) := by
        have h := mergeSort_append lmem rmem fuel (p := p ++ inOrder a) (m := b) (s := s)
          (l := l + (r - l) / 2 + 1) (r := r) (by simp; omega) (by omega) (by omega)
        simpa using h
      simp only [hmid, hleft, ok_bind, hright, ← mergeLt_inOrder]
      exact merge_append fuel (lmem l r) (rmem l r) hl (by omega) (by omega) (by omega)

/-- CORRECT: `mergeSort` ends, with every access inside its array, and leaves the cells `l .. r` in
    order, a permutation of what they were, and the other cells alone. -/
theorem mergeSort_sorts (lmem rmem : ℤ → ℤ → ℕ → ℤ) (arr : List ℤ) (l r : ℤ) (hl : 0 ≤ l)
    (hr : r < arr.length) : ∃ arr', SortsRange arr arr' l r ∧
      ∀ fuel > 2 * arr.length, mergeSort lmem rmem fuel arr l r = .ok arr' := by
  by_cases hlr : r < l
  · refine ⟨arr, sortsRange_empty arr hlr, fun fuel hfuel => ?_⟩
    obtain ⟨k, rfl⟩ := Nat.exists_eq_add_of_lt hfuel
    rw [mergeSort, if_pos (by omega)]
  · obtain ⟨p, m, s, rfl, hp, hm⟩ := exists_range arr hl (by omega) hr
    refine ⟨p ++ inOrder m ++ s, sortsRange_inOrder hp hm, fun fuel hfuel => ?_⟩
    rw [List.length_append, List.length_append] at hfuel
    exact mergeSort_append lmem rmem fuel hp hm (by omega)

/-- The inner cells of `[9, 3, 1, 2, 0]`. -/
theorem mergeSort_sorts_inner : ∃ arr', SortsRange [9, 3, 1, 2, 0] arr' 1 3 ∧
    ∀ fuel > 10, mergeSort (fun _ _ _ => 7) (fun _ _ _ => 7) fuel [9, 3, 1, 2, 0] 1 3 = .ok arr' :=
  mergeSort_sorts _ _ [9, 3, 1, 2, 0] 1 3 (by decide) (by decide)

end Diversity.Sorts
