import Diversity.Programs.Sorts.MergeSort

/-! @src c++/src/sorting.cpp (merge, merge_sort) | name:Merge sort with a scratch array |
    scheme:ranges | family:sorting

    `merge_sort` declares a scratch array `b` of `high - low + 1` cells in each call, `merge` merges the
    two halves of `a[low .. high]` into it, and a loop copies it back. Both use the index of `a` for `b`
    as well, so what is written and read are the cells `low .. high` of an array that has the cells
    `0 .. high - low`:

        a:   0 … low … mid | mid + 1 … high … n - 1
        b:   declared 0 … high - low,   used low … high

    Which cells a scratch array has is a parameter of the model (`Scratch.inside`). With the cells
    `low .. high` the sort does what the one in `sorts/mergeSort.c` does; with the cells declared, a call
    goes wrong as soon as it does not start at cell 0. -/

namespace Diversity.Sorting
open Schemes

/-- A scratch array: which cells it has, and what they hold. -/
structure Scratch where
  inside : ℤ → Bool
  cells : ℤ → ℤ

namespace Scratch

/-- Read `b[i]`. -/
def load (b : Scratch) (i : ℤ) : C ℤ := if b.inside i then .ok (b.cells i) else .error .outOfBounds

/-- Write `b[i] = x`. -/
def store (b : Scratch) (i x : ℤ) : C Scratch :=
  if b.inside i then .ok { b with cells := Function.update b.cells i x } else .error .outOfBounds

end Scratch

/-- State of the `for` loop of `merge`. -/
structure Merge where
  b : Scratch
  l1 : ℤ
  l2 : ℤ
  i : ℤ

/-- One turn of `for (…; l1 <= mid && l2 <= high; i++)`. -/
def mergeBody (a : List ℤ) (mid high : ℤ) (s : Merge) : C (Iter Merge Merge) :=
  if s.l1 ≤ mid ∧ s.l2 ≤ high then do
    let x ← load a s.l1
    let y ← load a s.l2
    if x < y then
      let b ← s.b.store s.i x
      .ok (.next { s with b, l1 := s.l1 + 1, i := s.i + 1 })
    else
      let b ← s.b.store s.i y
      .ok (.next { s with b, l2 := s.l2 + 1, i := s.i + 1 })
  else .ok (.done s)

/-- One turn of `while (l <= last) b[i++] = a[l++]` on `(b, l, i)`. -/
def drainBody (a : List ℤ) (last : ℤ) (s : Scratch × ℤ × ℤ) :
    C (Iter (Scratch × ℤ × ℤ) (Scratch × ℤ × ℤ)) :=
  let (b, l, i) := s
  if l ≤ last then do
    let x ← load a l
    let b ← b.store i x
    .ok (.next (b, l + 1, i + 1))
  else .ok (.done s)

/-- The two `while` loops of `merge`. -/
def drain (fuel : ℕ) (a : List ℤ) (mid high : ℤ) (s : Merge) : C Scratch := do
  let (b, _, i) ← loop (drainBody a mid) fuel (s.b, s.l1, s.i)
  let (b, _, _) ← loop (drainBody a high) fuel (b, s.l2, i)
  .ok b

/-- `merge`. -/
def merge (fuel : ℕ) (a : List ℤ) (b : Scratch) (low mid high : ℤ) : C Scratch :=
  loop (mergeBody a mid high) fuel ⟨b, low, mid + 1, low⟩ >>= drain fuel a mid high

/-- One turn of `while (low <= high) { a[low] = b[low]; low++; }` on `(a, low)`. -/
def copyBody (b : Scratch) (high : ℤ) (s : List ℤ × ℤ) : C (Iter (List ℤ × ℤ) (List ℤ)) :=
  let (a, low) := s
  if low ≤ high then do
    let x ← b.load low
    let a ← Schemes.store a low x
    .ok (.next (a, low + 1))
  else .ok (.done a)

/-- `int b[high - low + 1];`, with the cells that `inside` gives it, on a stack that held `mem`. -/
def newScratch (inside : ℤ → ℤ → ℤ → Bool) (mem : ℤ → ℤ → ℤ → ℤ) (low high : ℤ) : C Scratch :=
  if high - low + 1 ≤ 0 then .error .badAlloc else .ok ⟨inside low high, mem low high⟩

/-- `merge_sort`; `fuel` bounds the depth of the recursion and the loops of each call. -/
def mergeSort (inside : ℤ → ℤ → ℤ → Bool) (mem : ℤ → ℤ → ℤ → ℤ) :
    ℕ → List ℤ → ℤ → ℤ → C (List ℤ)
  | 0, _, _, _ => .error .outOfFuel
  | fuel + 1, a, low, high =>
    if low = high then .ok a
    else do
      let b ← newScratch inside mem low high
      let sum ← addInt low high
      let mid := sum.tdiv 2
      let a ← mergeSort inside mem fuel a low mid
      let a ← mergeSort inside mem fuel a (mid + 1) high
      let b ← merge fuel a b low mid high
      loop (copyBody b high) fuel (a, low)

/-- The cells that the declaration of `b` gives it. -/
def declared (low high i : ℤ) : Bool := 0 ≤ i ∧ i < high - low + 1

/-- The cells that `merge` and `merge_sort` use of it. -/
def used (low high i : ℤ) : Bool := low ≤ i ∧ i ≤ high

/-! ### Writing the scratch array -/

/-- Write `xs` from cell `i` on. -/
def writeCells (b : Scratch) (i : ℤ) : List ℤ → C Scratch
  | [] => .ok b
  | x :: xs => do
    let b ← b.store i x
    writeCells b (i + 1) xs

/-- With all cells there, the scratch array holds `xs` afterwards. -/
theorem writeCells_ok : ∀ (xs : List ℤ) {b : Scratch} {i : ℤ},
    (∀ j, i ≤ j → j < i + xs.length → b.inside j = true) →
    ∃ b', writeCells b i xs = .ok b' ∧ b'.inside = b.inside ∧ (∀ j < i, b'.cells j = b.cells j) ∧
      ∀ (k : ℕ) x, xs[k]? = some x → b'.cells (i + k) = x
  | [], b, i, _ => ⟨b, rfl, rfl, fun _ _ => rfl, fun k x h => by simp at h⟩
  | x :: xs, b, i, hin => by
    rw [List.length_cons] at hin
    have hi : b.inside i = true := hin i le_rfl (by omega)
    obtain ⟨b', hwrite, hinside, hbelow, hcells⟩ := writeCells_ok xs
      (b := { b with cells := Function.update b.cells i x }) (i := i + 1)
      (fun j hj hlt => hin j (by omega) (by omega))
    refine ⟨b', ?_, hinside, ?_, ?_⟩
    · rw [writeCells, Scratch.store, if_pos hi, ok_bind, hwrite]
    · intro j hj
      rw [hbelow j (by omega)]
      exact Function.update_of_ne hj.ne _ _
    · intro k y hk
      cases k with
      | zero =>
        rw [List.getElem?_cons_zero] at hk
        rw [Nat.cast_zero, add_zero, hbelow i (by omega), ← Option.some.inj hk]
        exact Function.update_self _ _ _
      | succ k =>
        rw [List.getElem?_cons_succ] at hk
        rw [← hcells k y hk]
        congr 1
        push_cast
        ring

/-- With a cell missing, the write that comes to it is out of bounds. -/
theorem writeCells_error : ∀ (xs : List ℤ) {b : Scratch} {i j : ℤ}, i ≤ j → j < i + xs.length →
    b.inside j = false → writeCells b i xs = .error .outOfBounds
  | [], b, i, j, hij, hj, _ => by simp at hj; omega
  | x :: xs, b, i, j, hij, hj, hout => by
    rw [List.length_cons] at hj
    by_cases hi : b.inside i = true
    · have hne : i ≠ j := by
        rintro rfl
        rw [hi] at hout
        cases hout
      rw [writeCells, Scratch.store, if_pos hi, ok_bind]
      exact writeCells_error xs (by omega) (by omega) hout
    · rw [writeCells, Scratch.store, if_neg hi, error_bind]

/-! ### The loops of `merge` -/

/-- A drain writes what is left of its half. -/
theorem loop_drain {a : List ℤ} {last : ℤ} : ∀ (fuel : ℕ) {xs : List ℤ} {b : Scratch} {l i : ℤ},
    CellsAt a l xs → last = l + xs.length - 1 → xs.length < fuel →
    loop (drainBody a last) fuel (b, l, i) = (do
      let b ← writeCells b i xs
      .ok (b, l + xs.length, i + xs.length))
  | fuel + 1, [], b, l, i, _, hlast, _ => by
    have hexit : ¬ l ≤ last := by simp at hlast; omega
    have hbody : drainBody a last (b, l, i) = .ok (.done (b, l, i)) := by
      simp only [drainBody, if_neg hexit]
    rw [loop_done hbody, writeCells, ok_bind]
    simp
  | fuel + 1, x :: xs, b, l, i, hcells, hlast, hfuel => by
    rw [List.length_cons] at hlast hfuel
    have hgo : l ≤ last := by omega
    have hbody : drainBody a last (b, l, i) =
        (b.store i x >>= fun b => .ok (.next (b, l + 1, i + 1))) := by
      simp only [drainBody, if_pos hgo, hcells.load, ok_bind]
    rw [loop_bind_next hbody, writeCells, bind_assoc]
    refine bind_congr fun b' => ?_
    have hlast' : last = l + 1 + xs.length - 1 := by omega
    have hl : l + 1 + xs.length = l + (x :: xs).length := by simp; ring
    have hi : i + 1 + xs.length = i + (x :: xs).length := by simp; ring
    rw [loop_drain fuel hcells.tail hlast' (by omega), hl, hi]

/-- `merge` writes the merge of the two halves, from wherever its loop stands. -/
theorem loop_merge {a : List ℤ} {mid high : ℤ} (fuel : ℕ) : ∀ (f : ℕ) {xs ys : List ℤ} {s : Merge},
    CellsAt a s.l1 xs → CellsAt a s.l2 ys → mid = s.l1 + xs.length - 1 →
    high = s.l2 + ys.length - 1 → xs.length + ys.length < f → xs.length + ys.length < fuel →
    (loop (mergeBody a mid high) f s >>= drain fuel a mid high) = writeCells s.b s.i (mergeLt xs ys)
  | f + 1, [], ys, s, hx, hy, hmid, hhigh, _, hfuel => by
    rw [List.length_nil] at hfuel
    have hexit : ¬ (s.l1 ≤ mid ∧ s.l2 ≤ high) := by simp at hmid; omega
    have hbody : mergeBody a mid high s = .ok (.done s) := by rw [mergeBody, if_neg hexit]
    rw [loop_done hbody, ok_bind, drain, loop_drain fuel hx hmid (by simp; omega), writeCells, ok_bind,
      ok_bind]
    simp only [List.length_nil, Nat.cast_zero, add_zero]
    rw [loop_drain fuel hy hhigh (by omega), mergeLt_nil_left]
    cases writeCells s.b s.i ys <;> rfl
  | f + 1, x :: xs, [], s, hx, hy, hmid, hhigh, _, hfuel => by
    rw [List.length_nil] at hfuel
    have hexit : ¬ (s.l1 ≤ mid ∧ s.l2 ≤ high) := by simp at hhigh; omega
    have hbody : mergeBody a mid high s = .ok (.done s) := by rw [mergeBody, if_neg hexit]
    rw [loop_done hbody, ok_bind, drain, loop_drain fuel hx hmid (by omega), mergeLt_nil_right]
    cases writeCells s.b s.i (x :: xs) with
    | error e => rfl
    | ok b =>
      rw [ok_bind, ok_bind]
      simp only
      rw [loop_drain fuel hy hhigh (by simp; omega), writeCells, ok_bind, ok_bind]
  | f + 1, x :: xs, y :: ys, s, hx, hy, hmid, hhigh, hf, hfuel => by
    rw [List.length_cons] at hmid hhigh
    rw [List.length_cons, List.length_cons] at hf hfuel
    have hgo : s.l1 ≤ mid ∧ s.l2 ≤ high := by omega
    rw [mergeLt_cons]
    by_cases hxy : x < y
    · have hbody : mergeBody a mid high s =
          (s.b.store s.i x >>= fun b => .ok (.next { s with b, l1 := s.l1 + 1, i := s.i + 1 })) := by
        simp only [mergeBody, if_pos hgo, hx.load, hy.load, ok_bind, if_pos hxy]
      rw [if_pos hxy, writeCells, loop_bind_next hbody, bind_assoc]
      refine bind_congr fun b => ?_
      have hmid' : mid = s.l1 + 1 + xs.length - 1 := by omega
      have hhigh' : high = s.l2 + (y :: ys).length - 1 := by rw [List.length_cons]; omega
      exact loop_merge fuel f (s := { s with b, l1 := s.l1 + 1, i := s.i + 1 }) hx.tail hy hmid' hhigh'
        (by rw [List.length_cons]; omega) (by rw [List.length_cons]; omega)
    · have hbody : mergeBody a mid high s =
          (s.b.store s.i y >>= fun b => .ok (.next { s with b, l2 := s.l2 + 1, i := s.i + 1 })) := by
        simp only [mergeBody, if_pos hgo, hx.load, hy.load, ok_bind, if_neg hxy]
      rw [if_neg hxy, writeCells, loop_bind_next hbody, bind_assoc]
      refine bind_congr fun b => ?_
      have hmid' : mid = s.l1 + (x :: xs).length - 1 := by rw [List.length_cons]; omega
      have hhigh' : high = s.l2 + 1 + ys.length - 1 := by omega
      exact loop_merge fuel f (s := { s with b, l2 := s.l2 + 1, i := s.i + 1 }) hx hy.tail hmid' hhigh'
        (by rw [List.length_cons]; omega) (by rw [List.length_cons]; omega)

theorem merge_eq {a xs ys : List ℤ} {low mid high : ℤ} {fuel : ℕ} (hx : CellsAt a low xs)
    (hy : CellsAt a (mid + 1) ys) (hmid : mid = low + xs.length - 1)
    (hhigh : high = mid + ys.length) (hfuel : xs.length + ys.length < fuel) (b : Scratch) :
    merge fuel a b low mid high = writeCells b low (mergeLt xs ys) :=
  loop_merge fuel fuel (s := ⟨b, low, mid + 1, low⟩) hx hy hmid (by simp only; omega) hfuel hfuel

/-- Copying back replaces the range by what the scratch array holds there. -/
theorem loop_copy {b : Scratch} {high : ℤ} {s : List ℤ} : ∀ (fuel : ℕ) {p old new : List ℤ} {low : ℤ},
    (p.length : ℤ) = low → old.length = new.length → high = low + new.length - 1 →
    (∀ (k : ℕ) x, new[k]? = some x → b.load (low + k) = .ok x) → new.length < fuel →
    loop (copyBody b high) fuel (p ++ old ++ s, low) = .ok (p ++ new ++ s)
  | fuel + 1, p, old, [], low, _, hold, hhigh, _, _ => by
    have hnil : old = [] := List.eq_nil_of_length_eq_zero hold
    have hexit : ¬ low ≤ high := by simp at hhigh; omega
    have hbody : copyBody b high (p ++ old ++ s, low) = .ok (.done (p ++ old ++ s)) := by
      simp only [copyBody, if_neg hexit]
    rw [loop_done hbody, hnil]
  | fuel + 1, p, [], x :: new, low, _, hold, _, _, _ => by cases hold
  | fuel + 1, p, o :: old, x :: new, low, hp, hold, hhigh, hcells, hfuel => by
    rw [List.length_cons] at hhigh hfuel
    have hgo : low ≤ high := by omega
    have hload : b.load low = .ok x := by simpa using hcells 0 x rfl
    have hstore : Schemes.store (p ++ o :: old ++ s) low x = .ok (p ++ [x] ++ old ++ s) := by
      rw [List.append_assoc, List.cons_append, store_append hp]
      simp
    have hbody : copyBody b high (p ++ o :: old ++ s, low) =
        .ok (.next (p ++ [x] ++ old ++ s, low + 1)) := by
      simp only [copyBody, if_pos hgo, hload, ok_bind, hstore]
    have hp' : ((p ++ [x]).length : ℤ) = low + 1 := by simp [hp]
    have hcells' : ∀ (k : ℕ) y, new[k]? = some y → b.load (low + 1 + k) = .ok y := by
      intro k y hk
      rw [← hcells (k + 1) y hk]
      congr 1
      push_cast
      ring
    have hhigh' : high = low + 1 + new.length - 1 := by omega
    have ih := loop_copy (s := s) fuel hp' (by simpa using hold) hhigh' hcells' (by omega)
    rw [loop_next hbody, ih, List.append_assoc p]
    rfl

/-! ### One call -/

variable {inside : ℤ → ℤ → ℤ → Bool} {mem : ℤ → ℤ → ℤ → ℤ}

/-- What a call with something to merge does. -/
theorem mergeSort_unfold {fuel : ℕ} {a : List ℤ} {low high : ℤ} (h0 : 0 ≤ low) (hlow : low < high)
    (hint : IsInt (low + high)) : mergeSort inside mem (fuel + 1) a low high = (do
      let a ← mergeSort inside mem fuel a low ((low + high) / 2)
      let a ← mergeSort inside mem fuel a ((low + high) / 2 + 1) high
      let b ← merge fuel a ⟨inside low high, mem low high⟩ low ((low + high) / 2) high
      loop (copyBody b high) fuel (a, low)) := by
  have hsize : ¬ high - low + 1 ≤ 0 := by omega
  have hmid : (low + high).tdiv 2 = (low + high) / 2 := Int.tdiv_eq_ediv_of_nonneg (by omega)
  simp only [mergeSort, if_neg hlow.ne, newScratch, if_neg hsize, ok_bind, addInt_of_isInt hint, hmid]

/-- STEP: a call whose two halves are sorted puts the range in order if the scratch array has the cells
    `low .. high`, and else is out of bounds. -/
theorem mergeSort_step {fuel : ℕ} {p xs ys s : List ℤ} {low high : ℤ} (hp : (p.length : ℤ) = low)
    (hx : (xs.length : ℤ) = (low + high) / 2 - low + 1) (hy : (ys.length : ℤ) = high - (low + high) / 2)
    (hlow : low < high) (hint : IsInt (low + high)) (hfuel : xs.length + ys.length < fuel)
    (hleft : mergeSort inside mem fuel (p ++ (xs ++ ys) ++ s) low ((low + high) / 2) =
      .ok (p ++ (inOrder xs ++ ys) ++ s))
    (hright : mergeSort inside mem fuel (p ++ (inOrder xs ++ ys) ++ s) ((low + high) / 2 + 1) high =
      .ok (p ++ (inOrder xs ++ inOrder ys) ++ s)) :
    ((∀ i, low ≤ i → i ≤ high → inside low high i = true) →
      mergeSort inside mem (fuel + 1) (p ++ (xs ++ ys) ++ s) low high =
        .ok (p ++ inOrder (xs ++ ys) ++ s)) ∧
    ∀ i, low ≤ i → i ≤ high → inside low high i = false →
      mergeSort inside mem (fuel + 1) (p ++ (xs ++ ys) ++ s) low high = .error .outOfBounds := by
  have hlenx := (inOrder_perm xs).length_eq
  have hleny := (inOrder_perm ys).length_eq
  have hlen := (inOrder_perm (xs ++ ys)).length_eq
  rw [List.length_append] at hlen
  have hcx : CellsAt (p ++ (inOrder xs ++ inOrder ys) ++ s) low (inOrder xs) :=
    ⟨p, inOrder ys ++ s, by simp, hp⟩
  have hcy : CellsAt (p ++ (inOrder xs ++ inOrder ys) ++ s) ((low + high) / 2 + 1) (inOrder ys) :=
    ⟨p ++ inOrder xs, s, by simp, by rw [List.length_append]; push_cast; omega⟩
  have hmerge : merge fuel (p ++ (inOrder xs ++ inOrder ys) ++ s) ⟨inside low high, mem low high⟩ low
      ((low + high) / 2) high =
      writeCells ⟨inside low high, mem low high⟩ low (mergeLt (inOrder xs) (inOrder ys)) :=
    merge_eq hcx hcy (by omega) (by omega) (by omega) _
  rw [mergeLt_inOrder] at hmerge
  have hcall : mergeSort inside mem (fuel + 1) (p ++ (xs ++ ys) ++ s) low high =
      (writeCells ⟨inside low high, mem low high⟩ low (inOrder (xs ++ ys)) >>= fun b =>
        loop (copyBody b high) fuel (p ++ (inOrder xs ++ inOrder ys) ++ s, low)) := by
    rw [mergeSort_unfold (by omega) hlow hint, hleft, ok_bind, hright, ok_bind, hmerge]
  constructor
  · intro hin
    obtain ⟨b, hwrite, hinside, -, hcells⟩ := writeCells_ok (inOrder (xs ++ ys))
      (b := ⟨inside low high, mem low high⟩) (i := low) (fun j hj hlt => hin j hj (by omega))
    rw [hcall, hwrite, ok_bind]
    refine loop_copy fuel hp (by rw [List.length_append]; omega) (by omega) ?_ (by omega)
    intro k x hk
    have hklt := (List.getElem?_eq_some_iff.mp hk).1
    have hkin : b.inside (low + k) = true := by
      rw [hinside]
      exact hin _ (by omega) (by omega)
    rw [Scratch.load, if_pos hkin, hcells k x hk]
  · intro i hi hi' hout
    rw [hcall, writeCells_error _ hi (by omega) hout, error_bind]

theorem mergeSort_overflow {fuel : ℕ} {a : List ℤ} {low high : ℤ} (hlow : low < high)
    (hint : ¬ IsInt (low + high)) : mergeSort inside mem (fuel + 1) a low high = .error .overflow := by
  have hsize : ¬ high - low + 1 ≤ 0 := by omega
  rw [mergeSort, if_neg hlow.ne, newScratch, if_neg hsize, ok_bind, addInt, if_neg hint, error_bind]

/-- A fault in the left half is a fault of the call. -/
theorem mergeSort_left {fuel : ℕ} {a : List ℤ} {low high : ℤ} {e : Fault} (h0 : 0 ≤ low)
    (hlow : low < high) (hint : IsInt (low + high))
    (hleft : mergeSort inside mem fuel a low ((low + high) / 2) = .error e) :
    mergeSort inside mem (fuel + 1) a low high = .error e := by
  rw [mergeSort_unfold h0 hlow hint, hleft, error_bind]

/-- So is one in the right half. -/
theorem mergeSort_right {fuel : ℕ} {a a' : List ℤ} {low high : ℤ} {e : Fault} (h0 : 0 ≤ low)
    (hlow : low < high) (hint : IsInt (low + high))
    (hleft : mergeSort inside mem fuel a low ((low + high) / 2) = .ok a')
    (hright : mergeSort inside mem fuel a' ((low + high) / 2 + 1) high = .error e) :
    mergeSort inside mem (fuel + 1) a low high = .error e := by
  rw [mergeSort_unfold h0 hlow hint, hleft, ok_bind, hright, error_bind]

/-! ### The recursion -/

/-- The call on `low .. high` comes to a call on `l .. h` that has something to merge. -/
inductive Reached (l h : ℤ) : ℤ → ℤ → Prop where
  | self : l < h → Reached l h l h
  | left {low high : ℤ} : low < high → Reached l h low ((low + high) / 2) → Reached l h low high
  | right {low high : ℤ} : low < high → Reached l h ((low + high) / 2 + 1) high → Reached l h low high

theorem Reached.lt {l h low high : ℤ} (hreach : Reached l h low high) : low < high := by
  cases hreach <;> assumption

/-- At some level of the recursion the scratch array lacks a cell that is used. -/
def Lacks (inside : ℤ → ℤ → ℤ → Bool) (low high : ℤ) : Prop :=
  ∃ l h i, Reached l h low high ∧ (l ≤ i ∧ i ≤ h) ∧ inside l h i = false

/-- What a half lacks the whole lacks. -/
theorem Lacks.left {low high : ℤ} (hlow : low < high) (h : Lacks inside low ((low + high) / 2)) :
    Lacks inside low high := by
  obtain ⟨l, h, i, hreach, hi, hout⟩ := h
  exact ⟨l, h, i, .left hlow hreach, hi, hout⟩

theorem Lacks.right {low high : ℤ} (hlow : low < high)
    (h : Lacks inside ((low + high) / 2 + 1) high) : Lacks inside low high := by
  obtain ⟨l, h, i, hreach, hi, hout⟩ := h
  exact ⟨l, h, i, .right hlow hreach, hi, hout⟩

/-- A range that lacks nothing itself lacks only what one of its halves does. -/
theorem Lacks.cases {low high : ℤ} (hall : ∀ i, low ≤ i → i ≤ high → inside low high i = true)
    (h : Lacks inside low high) :
    Lacks inside low ((low + high) / 2) ∨ Lacks inside ((low + high) / 2 + 1) high := by
  obtain ⟨l, h, i, hreach, hi, hout⟩ := h
  cases hreach with
  | self _ =>
    rw [hall i hi.1 hi.2] at hout
    cases hout
  | left _ hreach => exact Or.inl ⟨l, h, i, hreach, hi, hout⟩
  | right _ hreach => exact Or.inr ⟨l, h, i, hreach, hi, hout⟩

/-- How a call ends: with the range in order when no level lacks a cell, and else with an access to one,
    as long as the sums of the indices are `int`s. -/
def Ends (inside : ℤ → ℤ → ℤ → Bool) (low high : ℤ) (a' : List ℤ) (result : C (List ℤ)) : Prop :=
  (result = .ok a' ∧ ¬ Lacks inside low high) ∨
    ∃ e, result = .error e ∧ (high < 2 ^ 30 → e = .outOfBounds ∧ Lacks inside low high)

/-- RUN: every call ends so. -/
theorem mergeSort_ends : ∀ (fuel : ℕ) {p m s : List ℤ} {low high : ℤ}, (p.length : ℤ) = low →
    (m.length : ℤ) = high + 1 - low → low ≤ high → 2 * m.length < fuel →
    Ends inside low high (p ++ inOrder m ++ s) (mergeSort inside mem fuel (p ++ m ++ s) low high)
  | fuel + 1, p, m, s, low, high, hp, hm, hle, hfuel => by
    rcases hle.eq_or_lt with heq | hlow
    · refine Or.inl ⟨by rw [mergeSort, if_pos heq, inOrder_of_length_le_one (by omega)], ?_⟩
      rintro ⟨l, h, i, hreach, -⟩
      exact hreach.lt.ne heq
    by_cases hint : IsInt (low + high)
    · obtain ⟨xs, ys, rfl, hx⟩ : ∃ xs ys, m = xs ++ ys ∧ (xs.length : ℤ) = (low + high) / 2 - low + 1 :=
        ⟨m.take ((low + high) / 2 - low + 1).toNat, m.drop ((low + high) / 2 - low + 1).toNat,
          (List.take_append_drop ..).symm, by rw [List.length_take]; omega⟩
      rw [List.length_append] at hm hfuel
      push_cast at hm
      have hlenx := (inOrder_perm xs).length_eq
      have hleft : Ends inside low ((low + high) / 2) (p ++ (inOrder xs ++ ys) ++ s)
          (mergeSort inside mem fuel (p ++ (xs ++ ys) ++ s) low ((low + high) / 2)) := by
        have hmid : (xs.length : ℤ) = (low + high) / 2 + 1 - low := by omega
        have h := mergeSort_ends fuel (s := ys ++ s) hp hmid (by omega) (by omega)
        simpa only [List.append_assoc] using h
      have hright : Ends inside ((low + high) / 2 + 1) high (p ++ (inOrder xs ++ inOrder ys) ++ s)
          (mergeSort inside mem fuel (p ++ (inOrder xs ++ ys) ++ s) ((low + high) / 2 + 1) high) := by
        have hp' : ((p ++ inOrder xs).length : ℤ) = (low + high) / 2 + 1 := by
          rw [List.length_append]
          push_cast
          omega
        have hy : (ys.length : ℤ) = high + 1 - ((low + high) / 2 + 1) := by omega
        have h := mergeSort_ends fuel (s := s) hp' hy (by omega) (by omega)
        simpa only [List.append_assoc] using h
      rcases hleft with ⟨hleft, hfit⟩ | ⟨e, hleft, hlack⟩
      · rcases hright with ⟨hright, hfit'⟩ | ⟨e, hright, hlack⟩
        · obtain ⟨hok, herr⟩ := mergeSort_step hp hx (by omega) hlow hint (by omega) hleft hright
          by_cases hall : ∀ i, low ≤ i → i ≤ high → inside low high i = true
          · exact Or.inl ⟨hok hall, fun hlack => (hlack.cases hall).elim hfit hfit'⟩
          · push Not at hall
            obtain ⟨i, hi, hi', hne⟩ := hall
            have hout : inside low high i = false := Bool.eq_false_iff.mpr hne
            exact Or.inr ⟨_, herr i hi hi' hout,
              fun _ => ⟨rfl, low, high, i, .self hlow, ⟨hi, hi'⟩, hout⟩⟩
        · refine Or.inr ⟨e, mergeSort_right (by omega) hlow hint hleft hright, fun hhigh => ?_⟩
          obtain ⟨he, hpart⟩ := hlack hhigh
          exact ⟨he, hpart.right hlow⟩
      · refine Or.inr ⟨e, mergeSort_left (by omega) hlow hint hleft, fun hhigh => ?_⟩
        obtain ⟨he, hpart⟩ := hlack (by omega)
        exact ⟨he, hpart.left hlow⟩
    · refine Or.inr ⟨_, mergeSort_overflow hlow hint, fun hhigh => absurd ?_ hint⟩
      constructor <;> omega

/-- The same for the whole array. -/
theorem mergeSort_range (inside : ℤ → ℤ → ℤ → Bool) (mem : ℤ → ℤ → ℤ → ℤ) (a : List ℤ) {low high : ℤ}
    (h0 : 0 ≤ low) (hle : low ≤ high) (hn : high < a.length) : ∃ p m s, a = p ++ m ++ s ∧ (p.length : ℤ) = low ∧
      (m.length : ℤ) = high + 1 - low ∧ ∀ fuel > 2 * a.length,
        Ends inside low high (p ++ inOrder m ++ s) (mergeSort inside mem fuel a low high) := by
  obtain ⟨p, m, s, rfl, hp, hm⟩ := exists_range a h0 (by omega) hn
  refine ⟨p, m, s, rfl, hp, hm, ?_⟩
  intro fuel hfuel
  rw [List.length_append, List.length_append] at hfuel
  exact mergeSort_ends fuel hp hm hle (by omega)

/-! ### The declared scratch array -/

/-- A run whose accesses all lie inside `a` and the scratch arrays: it comes to an end without a
    fault. -/
def StaysInside (mem : ℤ → ℤ → ℤ → ℤ) (a : List ℤ) (low high : ℤ) : Prop :=
  ∃ a', ∀ fuel > 2 * a.length, mergeSort declared mem fuel a low high = .ok a'

/-- Of the first three cells, the calls with something to merge all start at cell 0. -/
theorem Reached.eq_zero {l h low high : ℤ} (hreach : Reached l h low high) (hlow : low = 0)
    (hhigh : high ≤ 2) : l = 0 := by
  induction hreach with
  | self _ => exact hlow
  | left _ _ ih => exact ih hlow (by omega)
  | right hlt hright _ =>
    have hlt' := hright.lt
    omega

/-- The declared cells are enough exactly for one cell and for the first two or three of the array. -/
theorem lacks_declared {low high : ℤ} (h0 : 0 ≤ low) (hle : low ≤ high) :
    Lacks declared low high ↔ ¬ (low = high ∨ (low = 0 ∧ high ≤ 2)) := by
  have hzero : ∀ h i : ℤ, 0 ≤ i → i ≤ h → declared 0 h i = true := by
    intro h i hi hi'
    simp only [declared, decide_eq_true_eq]
    omega
  constructor
  · rintro ⟨l, h, i, hreach, ⟨hi, hi'⟩, hout⟩ (heq | ⟨hlow, hhigh⟩)
    · exact hreach.lt.ne heq
    · obtain rfl := hreach.eq_zero hlow hhigh
      rw [hzero h i hi hi'] at hout
      cases hout
  · intro hbig
    have hlast : ∀ l h : ℤ, 1 ≤ l → l ≤ h → declared l h h = false := by
      intro l h hl hlh
      simp only [declared, decide_eq_false_iff_not]
      omega
    have hlow : low < high := by omega
    by_cases hpos : 1 ≤ low
    · exact ⟨low, high, high, .self hlow, ⟨hle, le_rfl⟩, hlast low high hpos hle⟩
    · -- The right half starts behind cell 0 and has at least two cells.
      have hright : (low + high) / 2 + 1 < high := by omega
      exact ⟨_, high, high, .right hlow (.self hright), ⟨hright.le, le_rfl⟩,
        hlast _ high (by omega) hright.le⟩

/-- CORRECT: the accesses of `merge_sort` stay inside exactly when there is nothing to merge or the range
    is one of the first two or three cells of the array. Otherwise the run ends with an access out of
    bounds, as long as the sums of the indices are `int`s. -/
theorem scratch_inside_iff (mem : ℤ → ℤ → ℤ → ℤ) (a : List ℤ) (low high : ℤ) (h0 : 0 ≤ low)
    (hle : low ≤ high) (hn : high < a.length) :
    (StaysInside mem a low high ↔ low = high ∨ (low = 0 ∧ high ≤ 2)) ∧
    (¬ (low = high ∨ (low = 0 ∧ high ≤ 2)) → high < 2 ^ 30 →
      ∀ fuel > 2 * a.length, mergeSort declared mem fuel a low high = .error .outOfBounds) := by
  obtain ⟨p, m, s, -, -, -, hends⟩ := mergeSort_range declared mem a h0 hle hn
  have hlacks := lacks_declared h0 hle
  refine ⟨⟨?_, ?_⟩, ?_⟩
  · rintro ⟨a', hrun⟩
    by_contra hbig
    rcases hends (2 * a.length + 1) (by omega) with ⟨-, hfit⟩ | ⟨e, herr, -⟩
    · exact hfit (hlacks.mpr hbig)
    · rw [hrun _ (by omega)] at herr
      cases herr
  · rintro (heq | hsmall)
    · refine ⟨a, ?_⟩
      intro fuel hfuel
      obtain ⟨k, rfl⟩ := Nat.exists_eq_add_of_lt hfuel
      rw [mergeSort, if_pos heq]
    · have hfit : ¬ Lacks declared low high := fun h => hlacks.mp h (Or.inr hsmall)
      refine ⟨p ++ inOrder m ++ s, ?_⟩
      intro fuel hfuel
      rcases hends fuel hfuel with ⟨hok, -⟩ | ⟨e, -, hlack⟩
      · exact hok
      · exact absurd (hlack (by omega)).2 hfit
  · intro hbig hhigh fuel hfuel
    rcases hends fuel hfuel with ⟨-, hfit⟩ | ⟨e, herr, hlack⟩
    · exact absurd (hlacks.mpr hbig) hfit
    · rw [herr, (hlack hhigh).1]

/-- The first three cells of an array. -/
theorem scratch_inside_iff_three : StaysInside (fun _ _ _ => 7) [3, 1, 2, 0] 0 2 :=
  (scratch_inside_iff (fun _ _ _ => 7) [3, 1, 2, 0] 0 2 le_rfl (by decide) (by decide)).1.mpr
    (Or.inr ⟨rfl, le_rfl⟩)

/-- The array of `main`, which is sorted from its first cell to its last. -/
def mainArray : List ℤ := [14, 33, 27, 10, 35, 30, 19, 42, 44]

/-- `main` goes out of bounds, in the call on the cells 3 and 4. -/
theorem main_out_of_bounds :
    mergeSort declared (fun _ _ _ => 0) 19 mainArray 0 8 = .error .outOfBounds ∧
      mergeSort declared (fun _ _ _ => 0) 19 [14, 27, 33, 10, 35, 30, 19, 42, 44] 3 4 =
        .error .outOfBounds ∧
      ¬ StaysInside (fun _ _ _ => 0) mainArray 0 8 := by
  have hrun : mergeSort declared (fun _ _ _ => 0) 19 mainArray 0 8 = .error .outOfBounds := rfl
  refine ⟨hrun, rfl, ?_⟩
  rintro ⟨a', h⟩
  have hok := h 19 (by decide)
  rw [hrun] at hok
  cases hok

/-! ### Two merge sorts -/

theorem not_lacks_used (low high : ℤ) : ¬ Lacks used low high := by
  rintro ⟨l, h, i, -, hi, hout⟩
  simp only [used, decide_eq_false_iff_not] at hout
  exact hout hi

/-- CORRECT: on scratch arrays that have the cells used, `merge_sort` ends and leaves the array as
    `mergeSort` of `sorts/mergeSort.c` does, with the range in order and the rest unchanged. -/
theorem mergeSorts_agree (mem : ℤ → ℤ → ℤ → ℤ) (lmem rmem : ℤ → ℤ → ℕ → ℤ) (a : List ℤ)
    (low high : ℤ) (hint : IsInt (2 * a.length)) (h0 : 0 ≤ low) (hle : low ≤ high)
    (hn : high < a.length) : ∃ a', SortsRange a a' low high ∧
      (∀ fuel > 2 * a.length, mergeSort used mem fuel a low high = .ok a') ∧
      ∀ fuel > 2 * a.length, Sorts.mergeSort lmem rmem fuel a low high = .ok a' := by
  obtain ⟨p, m, s, rfl, hp, hm, hends⟩ := mergeSort_range used mem a h0 hle hn
  have hhigh : high < 2 ^ 30 := by
    have h2 := hint.2
    omega
  refine ⟨p ++ inOrder m ++ s, sortsRange_inOrder hp hm, ?_, ?_⟩
  · intro fuel hfuel
    rcases hends fuel hfuel with ⟨hok, -⟩ | ⟨e, -, hlack⟩
    · exact hok
    · exact absurd (hlack hhigh).2 (not_lacks_used low high)
  · intro fuel hfuel
    rw [List.length_append, List.length_append] at hfuel
    exact Sorts.mergeSort_append lmem rmem fuel hp hm (by omega)

/-- `main` with enough room in its scratch arrays. -/
theorem mergeSorts_agree_main : ∃ a', SortsRange mainArray a' 0 8 ∧
    (∀ fuel > 18, mergeSort used (fun _ _ _ => 7) fuel mainArray 0 8 = .ok a') ∧
    ∀ fuel > 18, Sorts.mergeSort (fun _ _ _ => 7) (fun _ _ _ => 7) fuel mainArray 0 8 = .ok a' :=
  mergeSorts_agree (fun _ _ _ => 7) (fun _ _ _ => 7) (fun _ _ _ => 7) mainArray 0 8 (by decide)
    le_rfl (by decide) (by decide)

end Diversity.Sorting
