import Diversity.Schemes.Prefixes
import Diversity.Programs.Sorts.QuickSort

/-! @src c++/src/sorting.cpp (bubble_sort, insertion_sort, selection_sort) | name:Elementary sorts |
    scheme:prefixes | family:sorting

    Three sorts of the first `n` cells. `bubble_sort` does not exchange neighbours: it holds position `i`
    against every later one, so the least of the rest ends up in front, as with `selection_sort`, and
    what is behind is mixed on the way. `insertion_sort` moves greater elements up and fills the hole:

        i fixed:     … a[i] … a[j] …     a[j] < a[i]:  exchange      (bubble)
                                                       min_index = j (selection)
        value held:  … a[h-1] [  ] …     a[h-1] > value:  a[h] = a[h-1], the hole is now h-1

    While the hole is open the array is no permutation of the input; with the value put in the hole
    it is one, and a move is an exchange. -/

namespace Diversity.Sorting
open Schemes

/-- `if (a[j] < a[i]) swap(a[i], a[j])`. -/
def compareBody (i : ℤ) (a : List ℤ) (j : ℤ) : C (List ℤ) := do
  let x ← load a j
  let y ← load a i
  if x < y then swap a i j else .ok a

/-- One turn of the outer loop of `bubble_sort`. -/
def bubbleBody (fuel : ℕ) (n : ℤ) (a : List ℤ) (i : ℤ) : C (List ℤ) :=
  forLoop n (compareBody i) fuel (i + 1) a

/-- `bubble_sort`; `fuel` bounds the turns of each loop. -/
def bubbleSort (fuel : ℕ) (a : List ℤ) (n : ℤ) : C (List ℤ) := do
  let last ← subInt n 1
  forLoop last (bubbleBody fuel n) fuel 0 a

/-- One turn of the inner loop of `insertion_sort` on `(a, hole_postion)`. -/
def shiftBody (value : ℤ) (s : List ℤ × ℤ) : C (Iter (List ℤ × ℤ) (List ℤ × ℤ)) :=
  if s.2 > 0 then do
    let x ← load s.1 (s.2 - 1)
    if x > value then
      let y ← load s.1 (s.2 - 1)
      let a ← store s.1 s.2 y
      .ok (.next (a, s.2 - 1))
    else .ok (.done s)
  else .ok (.done s)

/-- One turn of the outer loop of `insertion_sort`. -/
def insertBody (fuel : ℕ) (a : List ℤ) (i : ℤ) : C (List ℤ) := do
  let value ← load a i
  let (a, hole) ← loop (shiftBody value) fuel (a, i)
  store a hole value

/-- `insertion_sort`. -/
def insertionSort (fuel : ℕ) (a : List ℤ) (n : ℤ) : C (List ℤ) :=
  forLoop n (insertBody fuel) fuel 1 a

/-- `if (a[j] < a[min_index]) min_index = j`. -/
def minBody (a : List ℤ) (min j : ℤ) : C ℤ := do
  let x ← load a j
  let y ← load a min
  if x < y then .ok j else .ok min

/-- One turn of the outer loop of `selection_sort`. -/
def selectBody (fuel : ℕ) (n : ℤ) (a : List ℤ) (i : ℤ) : C (List ℤ) := do
  let min ← forLoop n (minBody a) fuel (i + 1) i
  if min ≠ i then swap a min i else .ok a

/-- `selection_sort`. -/
def selectionSort (fuel : ℕ) (a : List ℤ) (n : ℤ) : C (List ℤ) :=
  forLoop n (selectBody fuel n) fuel 0 a

/-- What a call on the first `n` cells owes: it comes to an end, with these cells in order, the elements
    they had and the rest as before. The same call on the `n` cells alone does the same to them, so no
    index leaves `0 .. n - 1`. -/
def SortsFirst (sort : ℕ → List ℤ → ℤ → C (List ℤ)) (a : List ℤ) (n : ℤ) : Prop :=
  ∃ a', SortsRange a a' 0 (n - 1) ∧ ∀ fuel > n.toNat, sort fuel a n = .ok a' ∧
    sort fuel (a.take n.toNat) n = .ok (a'.take n.toNat)

/-- It is enough to put the cells in order whatever is behind them, and to leave a range with none. -/
theorem sortsFirst_of {sort : ℕ → List ℤ → ℤ → C (List ℤ)} {a : List ℤ} {n : ℤ} (hle : n ≤ a.length)
    (hempty : n < 0 → ∀ b, ∀ fuel > 0, sort fuel b n = .ok b)
    (hsort : ∀ m s : List ℤ, (m.length : ℤ) = n → ∀ fuel > m.length,
      sort fuel (m ++ s) n = .ok (inOrder m ++ s)) : SortsFirst sort a n := by
  rcases lt_or_ge n 0 with hneg | hpos
  · exact ⟨a, sortsRange_empty a (by omega), fun fuel hfuel =>
      ⟨hempty hneg a fuel (by omega), hempty hneg _ fuel (by omega)⟩⟩
  · obtain ⟨m, s, rfl, hm⟩ : ∃ m s, a = m ++ s ∧ (m.length : ℤ) = n :=
      ⟨a.take n.toNat, a.drop n.toNat, (List.take_append_drop _ _).symm, by
        rw [List.length_take]; omega⟩
    have htoNat : n.toNat = m.length := by omega
    have hrange : SortsRange (m ++ s) (inOrder m ++ s) 0 (n - 1) :=
      sortsRange_inOrder (p := []) rfl (by omega)
    refine ⟨inOrder m ++ s, hrange, fun fuel hfuel => ⟨hsort m s hm fuel (by omega), ?_⟩⟩
    have hlen : (inOrder m).length = m.length := (inOrder_perm m).length_eq
    have halone := hsort m [] hm fuel (by omega)
    rw [List.append_nil, List.append_nil] at halone
    rw [htoNat, List.take_left, ← hlen, List.take_left, halone]

/-! ### The least in front -/

/-- Before turn `i` of the outer loop of `bubble_sort` and `selection_sort`. -/
structure Selected (a₀ : List ℤ) (n i : ℕ) (a : List ℤ) : Prop where
  rearranged : Rearranged n a₀ a
  placed : Placed a n i

variable {a₀ a : List ℤ} {n i j : ℕ}

/-- STEP: `a[i]` is held against `a[j]`. -/
theorem compareBody_step (hn : n ≤ a₀.length) (hij : i < j) (hj : j < n)
    (h : Selected a₀ n i a) (hleast : Least a i i j) :
    ∃ a', compareBody i a j = .ok a' ∧ Selected a₀ n i a' ∧ Least a' i i (j + 1) := by
  have hlen := h.rearranged.length
  have hx : a[j]? = some a[j] := List.getElem?_eq_getElem (by omega)
  have hy : a[i]? = some a[i] := List.getElem?_eq_getElem (by omega)
  rw [compareBody, load_of_getElem? hx, ok_bind, load_of_getElem? hy, ok_bind]
  by_cases hlt : a[j] < a[i]
  · obtain ⟨a', hswap, hre, hex⟩ := exchange_rearranges (a := a) (by omega) (hij.trans hj) hj
    rw [if_pos hlt]
    exact ⟨a', hswap, ⟨h.rearranged.trans hre, h.placed.exchanged hex le_rfl hij.le (by omega) hj⟩,
      (hleast.replace hy hx hlt).exchanged hex (by omega)⟩
  · rw [if_neg hlt]
    exact ⟨a, rfl, h, hleast.keep hy hx (not_lt.mp hlt)⟩

/-- RUN: one turn of the outer loop of `bubble_sort`. -/
theorem bubbleBody_total (hn : n ≤ a₀.length) (hi : i < n) {fuel : ℕ} (hfuel : n < fuel)
    (h : Selected a₀ n i a) :
    ∃ a', bubbleBody fuel n a i = .ok a' ∧ Selected a₀ n (i + 1) a' := by
  have hstep : ∀ (j : ℕ) (a : List ℤ), j < n → (Selected a₀ n i a ∧ i < j ∧ Least a i i j) →
      ∃ a', compareBody i a j = .ok a' ∧ Selected a₀ n i a' ∧ i < j + 1 ∧ Least a' i i (j + 1) := by
    rintro j a hj ⟨hsel, hij, hleast⟩
    obtain ⟨a', hrun, hsel', hleast'⟩ := compareBody_step hn hij hj hsel hleast
    exact ⟨a', hrun, hsel', by omega, hleast'⟩
  obtain ⟨a', hrun, hsel, -, hleast⟩ := forLoop_total (compareBody i) (I := fun j a => Selected a₀ n i a ∧ i < j ∧
    Least a i i j) hstep (Nat.succ_le_of_lt hi) (show n < fuel + (i + 1) by omega)
    ⟨h, Nat.lt_succ_self i, least_self a i⟩
  refine ⟨a', ?_, hsel.rearranged, hsel.placed.succ hleast⟩
  rw [bubbleBody]
  exact_mod_cast hrun

/-- Placed but for the last cell, the array is in order. -/
theorem Selected.eq_inOrder {m s : List ℤ} (h : Selected (m ++ s) m.length i a)
    (hi : m.length ≤ i + 1) : a = inOrder m ++ s :=
  h.rearranged.eq_inOrder (h.placed.sorted hi)

theorem selected_start (a : List ℤ) (n : ℕ) : Selected a n 0 a := ⟨Rearranged.refl n a, placed_zero a n⟩

/-- RUN: `bubble_sort` puts the first cells in order. -/
theorem bubbleSort_eq {m : List ℤ} (s : List ℤ) (hint : IsInt (m.length - 1)) {fuel : ℕ}
    (hfuel : m.length < fuel) : bubbleSort fuel (m ++ s) m.length = .ok (inOrder m ++ s) := by
  rw [bubbleSort, subInt_of_isInt hint, ok_bind]
  rcases Nat.eq_zero_or_pos m.length with hzero | hpos
  · rw [forLoop_of_le _ _ (by omega) (by omega), inOrder_of_length_le_one (by omega)]
  · have hlast : (m.length : ℤ) - 1 = ((m.length - 1 : ℕ) : ℤ) := by omega
    have hn : m.length ≤ (m ++ s).length := by simp
    obtain ⟨a, hrun, hsel⟩ := forLoop_total (n := m.length - 1) (bubbleBody fuel m.length)
      (I := Selected (m ++ s) m.length) (fun i a hi hsel => bubbleBody_total hn (by omega) hfuel hsel)
      (Nat.zero_le _) (show m.length - 1 < fuel + 0 by omega) (selected_start _ _)
    rw [hsel.eq_inOrder (by omega)] at hrun
    rw [hlast]
    exact hrun

/-- STEP: the smallest so far is held against `a[j]`. -/
theorem minBody_step {min : ℕ} (hj : j < a.length) (hi : i ≤ min) (hmin : min < j)
    (hleast : Least a min i j) :
    ∃ min' : ℕ, minBody a min j = .ok (min' : ℤ) ∧ i ≤ min' ∧ min' < j + 1 ∧ Least a min' i (j + 1) := by
  have hx : a[j]? = some a[j] := List.getElem?_eq_getElem hj
  have hy : a[min]? = some a[min] := List.getElem?_eq_getElem (by omega)
  rw [minBody, load_of_getElem? hx, ok_bind, load_of_getElem? hy, ok_bind]
  by_cases hlt : a[j] < a[min]
  · rw [if_pos hlt]
    exact ⟨j, rfl, by omega, by omega, hleast.replace hy hx hlt⟩
  · rw [if_neg hlt]
    exact ⟨min, rfl, hi, by omega, hleast.keep hy hx (not_lt.mp hlt)⟩

/-- RUN: the inner loop of `selection_sort` finds the least of the rest. -/
theorem minBody_run (hn : n ≤ a.length) (hi : i < n) {fuel : ℕ} (hfuel : n < fuel) :
    ∃ min : ℕ, forLoop n (minBody a) fuel ((i : ℤ) + 1) i = .ok (min : ℤ) ∧ i ≤ min ∧ min < n ∧
      Least a min i n := by
  have hstep : ∀ (j : ℕ) (m : ℤ), j < n → (∃ min : ℕ, m = min ∧ i ≤ min ∧ min < j ∧ Least a min i j) →
      ∃ m', minBody a m j = .ok m' ∧
        ∃ min : ℕ, m' = min ∧ i ≤ min ∧ min < j + 1 ∧ Least a min i (j + 1) := by
    rintro j - hj ⟨min, rfl, hle, hlt, hleast⟩
    obtain ⟨min', hrun, hmin'⟩ := minBody_step (by omega) hle hlt hleast
    exact ⟨min', hrun, min', rfl, hmin'⟩
  obtain ⟨-, hrun, min, rfl, hmin⟩ := forLoop_total (minBody a) (I := fun j (m : ℤ) => ∃ min : ℕ, m = min ∧
    i ≤ min ∧ min < j ∧ Least a min i j) hstep (Nat.succ_le_of_lt hi) (show n < fuel + (i + 1) by omega)
    ⟨i, rfl, le_rfl, Nat.lt_succ_self i, least_self a i⟩
  exact ⟨min, by exact_mod_cast hrun, hmin⟩

/-- RUN: one turn of the outer loop of `selection_sort`. -/
theorem selectBody_total (hn : n ≤ a₀.length) (hi : i < n) {fuel : ℕ} (hfuel : n < fuel)
    (h : Selected a₀ n i a) :
    ∃ a', selectBody fuel n a i = .ok a' ∧ Selected a₀ n (i + 1) a' := by
  have hlen := h.rearranged.length
  obtain ⟨min, hrun, hle, hlt, hleast⟩ := minBody_run (a := a) (by omega) hi hfuel
  rw [selectBody, hrun, ok_bind]
  by_cases heq : (min : ℤ) = i
  · obtain rfl : min = i := by omega
    rw [if_neg (not_not.mpr heq)]
    exact ⟨a, rfl, h.rearranged, h.placed.succ hleast⟩
  · obtain ⟨a', hswap, hre, hex⟩ := exchange_rearranges (a := a) (by omega) hlt hi
    rw [if_pos heq]
    have hplaced := h.placed.exchanged hex hle le_rfl hlt hi
    exact ⟨a', hswap, h.rearranged.trans hre, hplaced.succ (hleast.exchanged hex.symm hi)⟩

/-- RUN: `selection_sort` puts the first cells in order. -/
theorem selectionSort_eq {m : List ℤ} (s : List ℤ) {fuel : ℕ} (hfuel : m.length < fuel) :
    selectionSort fuel (m ++ s) m.length = .ok (inOrder m ++ s) := by
  have hn : m.length ≤ (m ++ s).length := by simp
  obtain ⟨a, hrun, hsel⟩ := forLoop_total (selectBody fuel m.length)
    (I := Selected (m ++ s) m.length) (fun i a hi hsel => selectBody_total hn hi hfuel hsel)
    (Nat.zero_le _) (show m.length < fuel + 0 by omega) (selected_start _ _)
  rw [hsel.eq_inOrder (by omega)] at hrun
  exact hrun

/-! ### One element moved down -/

/-- The array with the value in its hole, while `insertion_sort` moves elements up. -/
structure Shifting (a₀ : List ℤ) (n i : ℕ) (value : ℤ) (a : List ℤ) (hole : ℕ) : Prop where
  rearranged : Rearranged n a₀ (a.set hole value)
  ordered : OrderedBut (a.set hole value) hole (i + 1)

/-- STEP: a greater element moves up into the hole; with the value put in, it is an exchange. -/
theorem Shifting.move {value x : ℤ} {hole : ℕ} (h : Shifting a₀ n i value a (hole + 1))
    (hhole : hole + 1 < a.length) (hn : hole + 1 < n) (hx : a[hole]? = some x) (hlt : value < x) :
    Shifting a₀ n i value (a.set (hole + 1) x) hole := by
  have hlen : hole + 1 < (a.set (hole + 1) value).length := by rwa [List.length_set]
  have hgreater : (a.set (hole + 1) value)[hole]? = some x := by
    rw [List.getElem?_set_ne (by omega), hx]
  have hvalue : (a.set (hole + 1) value)[hole + 1]? = some value := List.getElem?_set_self hhole
  have heq : ((a.set (hole + 1) value).set hole (a.set (hole + 1) value)[hole + 1]).set (hole + 1)
      (a.set (hole + 1) value)[hole] = (a.set (hole + 1) x).set hole value := by
    refine List.ext_getElem? fun k => ?_
    grind
  have hre := rearranged_set (i := hole) (j := hole + 1) (Nat.lt_of_succ_lt hlen) hlen (by omega) hn
  have hex := exchanged_set (i := hole) (j := hole + 1) (Nat.lt_of_succ_lt hlen) hlen
  rw [heq] at hre hex
  exact ⟨h.rearranged.trans hre, h.ordered.exchanged hex hgreater hvalue hlt⟩

/-- RUN: the inner loop ends at a hole where the value is in order. -/
theorem shiftBody_run {value : ℤ} (hi : i < n) : ∀ {hole : ℕ} {fuel : ℕ} {a : List ℤ}, n ≤ a.length →
    hole ≤ i → hole < fuel → Shifting a₀ n i value a hole →
    ∃ (a' : List ℤ) (hole' : ℕ), loop (shiftBody value) fuel (a, (hole : ℤ)) = .ok (a', (hole' : ℤ)) ∧
      hole' < a'.length ∧ Rearranged n a₀ (a'.set hole' value) ∧
      ((a'.set hole' value).take (i + 1)).Pairwise (· ≤ ·)
  | hole, 0, a, _, _, hfuel, _ => absurd hfuel (Nat.not_lt_zero _)
  | 0, fuel + 1, a, hlen, hhole, hfuel, h => by
    have hbody : shiftBody value (a, ((0 : ℕ) : ℤ)) = .ok (.done (a, ((0 : ℕ) : ℤ))) := rfl
    refine ⟨a, 0, loop_done hbody fuel, by omega, h.rearranged, ?_⟩
    exact h.ordered.sorted (List.getElem?_set_self (by omega)) fun h' hh' => by omega
  | hole + 1, fuel + 1, a, hlen, hhole, hfuel, h => by
    have hx : a[hole]? = some a[hole] := List.getElem?_eq_getElem (by omega)
    have hload : load a (((hole + 1 : ℕ) : ℤ) - 1) = .ok a[hole] := by
      rw [Nat.cast_succ, Int.add_sub_cancel]
      exact load_of_getElem? hx
    have hpos : ((hole + 1 : ℕ) : ℤ) > 0 := by omega
    have hroom : hole + 1 < a.length := by omega
    by_cases hgt : a[hole] > value
    · have hbody : shiftBody value (a, ((hole + 1 : ℕ) : ℤ)) =
          .ok (.next (a.set (hole + 1) a[hole], (hole : ℤ))) := by
        rw [shiftBody, if_pos hpos, hload, ok_bind, if_pos hgt, ok_bind,
          store_of_lt hroom, ok_bind, Nat.cast_succ, Int.add_sub_cancel]
      rw [loop_next hbody]
      exact shiftBody_run hi (by rwa [List.length_set]) (by omega) (by omega)
        (h.move (by omega) (by omega) hx hgt)
    · have hbody : shiftBody value (a, ((hole + 1 : ℕ) : ℤ)) =
          .ok (.done (a, ((hole + 1 : ℕ) : ℤ))) := by
        rw [shiftBody, if_pos hpos, hload, ok_bind, if_neg hgt]
      refine ⟨a, hole + 1, loop_done hbody fuel, by omega, h.rearranged, ?_⟩
      refine h.ordered.sorted (List.getElem?_set_self (by omega)) fun h' hh' => ⟨a[hole], ?_, not_lt.mp hgt⟩
      obtain rfl : hole = h' := by omega
      rw [List.getElem?_set_ne (by omega), hx]

/-- Before turn `i` of the outer loop of `insertion_sort`. -/
structure Inserted (a₀ : List ℤ) (n i : ℕ) (a : List ℤ) : Prop where
  rearranged : Rearranged n a₀ a
  sorted : (a.take i).Pairwise (· ≤ ·)

/-- RUN: one turn of the outer loop of `insertion_sort`. -/
theorem insertBody_total (hn : n ≤ a₀.length) (hi : i < n) {fuel : ℕ} (hfuel : n < fuel)
    (h : Inserted a₀ n i a) :
    ∃ a', insertBody fuel a i = .ok a' ∧ Inserted a₀ n (i + 1) a' := by
  have hlen := h.rearranged.length
  have hi' : i < a.length := by omega
  have hself : a.set i a[i] = a := List.set_getElem_self hi'
  have hstart : Shifting a₀ n i a[i] a i :=
    ⟨by rw [hself]; exact h.rearranged, by rw [hself]; exact orderedBut_of_sorted h.sorted⟩
  obtain ⟨b, hole, hrun, hhole, hre, hsorted⟩ :=
    shiftBody_run hi (by omega) le_rfl (by omega : i < fuel) hstart
  refine ⟨b.set hole a[i], ?_, hre, hsorted⟩
  rw [insertBody, load_of_getElem? (List.getElem?_eq_getElem hi'), ok_bind, hrun, ok_bind]
  exact store_of_lt hhole _

/-- RUN: `insertion_sort` puts the first cells in order. -/
theorem insertionSort_eq {m : List ℤ} (s : List ℤ) {fuel : ℕ} (hfuel : m.length < fuel) :
    insertionSort fuel (m ++ s) m.length = .ok (inOrder m ++ s) := by
  rw [insertionSort]
  rcases Nat.eq_zero_or_pos m.length with hzero | hpos
  · rw [forLoop_of_le _ _ (by omega) (by omega), inOrder_of_length_le_one (by omega)]
  · have hn : m.length ≤ (m ++ s).length := by simp
    have hfirst : Inserted (m ++ s) m.length 1 (m ++ s) :=
      ⟨Rearranged.refl _ _, sorted_take fun j k _ _ hjk hk => by omega⟩
    obtain ⟨a, hrun, hins⟩ := forLoop_total (insertBody fuel) (I := Inserted (m ++ s) m.length)
      (fun i a hi hins => insertBody_total hn hi hfuel hins) hpos
      (show m.length < fuel + 1 by omega) hfirst
    rw [hins.rearranged.eq_inOrder hins.sorted] at hrun
    exact_mod_cast hrun

/-! ### The three sorts -/

/-- CORRECT: `bubble_sort` sorts the first `n` cells, for every `n` up to the length. -/
theorem bubbleSort_sorts (a : List ℤ) (n : ℤ) (hle : n ≤ a.length) (hint : IsInt (n - 1)) :
    SortsFirst bubbleSort a n := by
  refine sortsFirst_of hle (fun hneg b fuel hfuel => ?_) fun m s hm fuel hfuel => ?_
  · rw [bubbleSort, subInt_of_isInt hint, ok_bind, forLoop_of_le _ _ hfuel (by omega)]
  · subst hm
    exact bubbleSort_eq s hint hfuel

theorem bubbleSort_sorts_four : SortsFirst bubbleSort [3, 1, 2, 1] 3 :=
  bubbleSort_sorts [3, 1, 2, 1] 3 (by decide) (by decide)

/-- CORRECT: `insertion_sort` sorts the first `n` cells, for every `n` up to the length. -/
theorem insertionSort_sorts (a : List ℤ) (n : ℤ) (hle : n ≤ a.length) : SortsFirst insertionSort a n := by
  refine sortsFirst_of hle (fun hneg b fuel hfuel => ?_) fun m s hm fuel hfuel => ?_
  · rw [insertionSort, forLoop_of_le _ _ hfuel (by omega)]
  · subst hm
    exact insertionSort_eq s hfuel

theorem insertionSort_sorts_four : SortsFirst insertionSort [3, 1, 2, 1] 3 :=
  insertionSort_sorts [3, 1, 2, 1] 3 (by decide)

/-- CORRECT: `selection_sort` sorts the first `n` cells, for every `n` up to the length. -/
theorem selectionSort_sorts (a : List ℤ) (n : ℤ) (hle : n ≤ a.length) : SortsFirst selectionSort a n := by
  refine sortsFirst_of hle (fun hneg b fuel hfuel => ?_) fun m s hm fuel hfuel => ?_
  · rw [selectionSort, forLoop_of_le _ _ hfuel (by omega)]
  · subst hm
    exact selectionSort_eq s hfuel

theorem selectionSort_sorts_four : SortsFirst selectionSort [3, 1, 2, 1] 3 :=
  selectionSort_sorts [3, 1, 2, 1] 3 (by decide)

end Diversity.Sorting
