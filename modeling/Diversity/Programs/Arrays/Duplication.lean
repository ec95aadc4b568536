import Diversity.Schemes.Ranges

/-! @src binaryTree/Duplication.cpp | name:Finding a duplicate | scheme:ranges | family:array

    `findDuplication` scans an array of `n` values below `n`. A position `i` that does not hold `i` has
    its value `m` sent to cell `m`, in exchange for what is there; if cell `m` holds `m` already, `m` is
    there twice. It makes one exchange for each position, where sorting the cells by their index would
    take as many as it needs for position `i` to get its own value: what an exchange brings to `i` is
    not looked at again before the scan moves on, and a duplicate can hide in it.

        i:        0  1  2
        start    [1, 2, 2]
        i = 0    [2, 1, 2]     1 is sent home, 2 comes to a cell the scan has left
        i = 1    [2, 1, 2]     nothing to do, and so for i = 2: both 2s are never compared  -/

namespace Diversity.Duplication
open Schemes

/-- `swap(arr[i], arr[j])`. -/
def swap (arr : List ℤ) (i j : ℤ) : C (List ℤ) := exchange arr i j

/-- One turn of the `for` loop of `findDuplication` on `(arr, i)`; it ends with `found` and the array. -/
def findBody (length : ℤ) (s : List ℤ × ℤ) : C (Iter (List ℤ × ℤ) (ℤ × List ℤ)) :=
  let (arr, i) := s
  if i < length then do
    let m ← load arr i
    if m ≠ i then
      let y ← load arr m
      if y = m then .ok (.done (1, arr))
      else
        let arr ← swap arr i m
        .ok (.next (arr, i + 1))
    else .ok (.next (arr, i + 1))
  else .ok (.done (0, arr))

/-- `findDuplication`: what it returns, and the array afterwards. -/
def findDuplication (fuel : ℕ) (arr : List ℤ) (length : ℤ) : C (ℤ × List ℤ) :=
  loop (findBody length) fuel (arr, 0)

/-- The elements lie in `[0, n)`. -/
def InRange (arr : List ℤ) : Prop := ∀ x ∈ arr, 0 ≤ x ∧ x < arr.length

instance (arr : List ℤ) : Decidable (InRange arr) :=
  inferInstanceAs (Decidable (∀ x ∈ arr, 0 ≤ x ∧ x < arr.length))

/-- Some value occurs at two different positions. -/
def HasDuplicate (arr : List ℤ) : Prop := ∃ i j : ℕ, i < j ∧ j < arr.length ∧ arr[i]? = arr[j]?

theorem hasDuplicate_iff (arr : List ℤ) : HasDuplicate arr ↔ ¬ arr.Nodup := by
  rw [List.nodup_iff_getElem?_ne_getElem?, HasDuplicate]
  push Not
  rfl

/-! ### What a turn does -/

theorem InRange.perm {arr arr' : List ℤ} (h : InRange arr) (hperm : arr'.Perm arr) : InRange arr' := by
  intro x hx
  rw [hperm.length_eq]
  exact h x (hperm.mem_iff.mp hx)

/-- A position and the cell that its value names. -/
theorem InRange.exists_cell {arr : List ℤ} (h : InRange arr) {i : ℕ} (hi : i < arr.length) :
    ∃ m : ℕ, ∃ hm : m < arr.length, arr[i] = m ∧ load arr i = .ok (m : ℤ) ∧ load arr m = .ok arr[m] := by
  obtain ⟨h0, hlt⟩ := h arr[i] (List.getElem_mem hi)
  have hm : arr[i].toNat < arr.length := by omega
  have hcast : arr[i] = (arr[i].toNat : ℤ) := by omega
  refine ⟨arr[i].toNat, hm, hcast, ?_, load_of_getElem? (List.getElem?_eq_getElem hm)⟩
  rw [← hcast]
  exact load_of_getElem? (List.getElem?_eq_getElem hi)

/-- STEP: a turn goes on if the position holds its index, stops if the cell named does, and else
    exchanges the two. -/
theorem findBody_cases {arr : List ℤ} (h : InRange arr) {i : ℕ} (hi : i < arr.length) :
    ∃ m : ℕ, ∃ hm : m < arr.length, arr[i] = m ∧
      ((m = i ∧ findBody arr.length (arr, i) = .ok (.next (arr, i + 1))) ∨
        (m ≠ i ∧ arr[m] = m ∧ findBody arr.length (arr, i) = .ok (.done (1, arr))) ∨
        (m ≠ i ∧ arr[m] ≠ m ∧ findBody arr.length (arr, i) =
          .ok (.next ((arr.set i arr[m]).set m arr[i], i + 1)))) := by
  obtain ⟨m, hm, hval, hload, hcell⟩ := h.exists_cell hi
  have hguard : (i : ℤ) < arr.length := by omega
  refine ⟨m, hm, hval, ?_⟩
  by_cases hmi : m = i
  · have heq : ¬ ((m : ℤ) ≠ i) := by rw [hmi]; exact fun hne => hne rfl
    refine Or.inl ⟨hmi, ?_⟩
    simp only [findBody, if_pos hguard, hload, ok_bind, if_neg heq]
  · have hne : (m : ℤ) ≠ i := by omega
    by_cases hhome : arr[m] = m
    · refine Or.inr (Or.inl ⟨hmi, hhome, ?_⟩)
      simp only [findBody, if_pos hguard, hload, ok_bind, if_pos hne, hcell, if_pos hhome]
    · refine Or.inr (Or.inr ⟨hmi, hhome, ?_⟩)
      simp only [findBody, if_pos hguard, hload, ok_bind, if_pos hne, hcell, if_neg hhome, swap,
        exchange_of_lt hi hm]

/-! ### No false alarm -/

theorem findBody_end {arr : List ℤ} {n : ℕ} :
    findBody n (arr, (n : ℤ)) = .ok (.done (0, arr)) := by
  simp only [findBody, lt_irrefl, if_false]

/-- Two cells that hold the same value. -/
theorem not_nodup_of_eq {arr : List ℤ} {i m : ℕ} (hi : i < arr.length) (hm : m < arr.length)
    (hne : m ≠ i) (h : arr[i] = arr[m]) : ¬ arr.Nodup := by
  intro hnodup
  exact hne ((List.Nodup.getElem_inj_iff hnodup).mp h).symm

/-- RUN: the scan ends, the array is rearranged, and 1 is returned only over two equal cells. -/
theorem loop_findBody (n : ℕ) : ∀ (fuel : ℕ) {arr : List ℤ} {i : ℕ}, arr.length = n → InRange arr →
    i ≤ n → n < i + fuel → ∃ r arr', loop (findBody n) fuel (arr, (i : ℤ)) = .ok (r, arr') ∧
      arr'.Perm arr ∧ (r = 0 ∨ r = 1 ∧ ¬ arr'.Nodup) := by
  intro fuel
  induction fuel with
  | zero =>
    intro arr i _ _ hi hfuel
    omega
  | succ fuel ih =>
    rintro arr i rfl h hi hfuel
    rcases hi.eq_or_lt with rfl | hlt
    · exact ⟨0, arr, loop_done findBody_end fuel, List.Perm.refl _, Or.inl rfl⟩
    · have hstep : ((i + 1 : ℕ) : ℤ) = i + 1 := Nat.cast_succ i
      obtain ⟨m, hm, hval, ⟨-, hbody⟩ | ⟨hmi, hhome, hbody⟩ | ⟨-, -, hbody⟩⟩ := findBody_cases h hlt
      · rw [loop_next hbody, ← hstep]
        exact ih rfl h hlt (by omega)
      · refine ⟨1, arr, loop_done hbody fuel, List.Perm.refl _, Or.inr ⟨rfl, ?_⟩⟩
        exact not_nodup_of_eq hlt hm hmi (hval.trans hhome.symm)
      · have hperm := List.set_set_perm hlt hm
        obtain ⟨r, arr', hrun, hperm', hr⟩ := ih hperm.length_eq (h.perm hperm) hlt (by omega)
        rw [loop_next hbody, ← hstep]
        exact ⟨r, arr', hrun, hperm'.trans hperm, hr⟩

/-- CORRECT: every index used is inside the array, the array is rearranged, and 1 is returned only if
    some value occurs twice in the array given. -/
theorem no_false_alarm (arr : List ℤ) (h : InRange arr) :
    ∃ r arr', (∀ fuel > arr.length, findDuplication fuel arr arr.length = .ok (r, arr')) ∧
      arr'.Perm arr ∧ (r = 0 ∨ r = 1) ∧ (r = 1 → HasDuplicate arr) := by
  obtain ⟨r, arr', hrun, hperm, hr⟩ := loop_findBody arr.length (arr.length + 1) rfl h (Nat.zero_le _)
    (by omega)
  refine ⟨r, arr', fun fuel hfuel => loop_ok_mono hrun hfuel, hperm, hr.imp_right And.left, ?_⟩
  rintro rfl
  rcases hr with hr | ⟨-, hdup⟩
  · cases hr
  · rw [hasDuplicate_iff, ← hperm.nodup_iff]
    exact hdup

/-- The array of `main`, without a duplicate. -/
theorem no_false_alarm_main : ∃ r arr',
    (∀ fuel > 6, findDuplication fuel [3, 1, 2, 0, 4, 5] 6 = .ok (r, arr')) ∧
      arr'.Perm [3, 1, 2, 0, 4, 5] ∧ (r = 0 ∨ r = 1) ∧ (r = 1 → HasDuplicate [3, 1, 2, 0, 4, 5]) :=
  no_false_alarm [3, 1, 2, 0, 4, 5] (by decide)

/-! ### Missed duplicates -/

variable {f : ℕ → ℕ} {i j m n : ℕ}

/-- The cells that were sent their own index before the scan comes to `i`: the values of the positions
    in play before it. -/
def sent (f : ℕ → ℕ) : ℕ → List ℕ
  | 0 => []
  | i + 1 => if f i ≠ i ∧ i ∉ sent f i then f i :: sent f i else sent f i

/-- Position `i` is in play: it does not hold its own index, and was not sent it either. -/
def InPlay (f : ℕ → ℕ) (i : ℕ) : Prop := f i ≠ i ∧ i ∉ sent f i

instance (f : ℕ → ℕ) (i : ℕ) : Decidable (InPlay f i) := inferInstanceAs (Decidable (_ ∧ _))

/-- What a position in play gets for its value: the value of the cell named, if that lies ahead, and
    what this one got itself, if it lies behind. -/
def brought (f : ℕ → ℕ) (i : ℕ) : ℕ :=
  if i < f i then f (f i) else if f i < i then brought f (f i) else i
  termination_by i

/-- Position `i` is confronted with a duplicate: it is in play, and the cell its value `m` names holds
    `m` in the array given, or was sent it by a position before, or was brought it. -/
def Confronted (f : ℕ → ℕ) (i : ℕ) : Prop :=
  InPlay f i ∧ (f (f i) = f i ∨ (∃ j < i, InPlay f j ∧ f j = f i) ∨ (f i < i ∧ brought f (f i) = f i))

/-- What cell `j` holds when the scan comes to `i` without a find. -/
def held (f : ℕ → ℕ) (i j : ℕ) : ℕ :=
  if f j = j ∨ j ∈ sent f i then j else if j < i then brought f j else f j

/-- The whole array then. -/
def cells (f : ℕ → ℕ) (n i : ℕ) : List ℤ := (List.range n).map fun j => (held f i j : ℤ)

theorem cells_length : (cells f n i).length = n := by rw [cells, List.length_map, List.length_range]

theorem cells_getElem (h : j < (cells f n i).length) : (cells f n i)[j] = (held f i j : ℤ) := by
  simp [cells]

theorem sent_succ (f : ℕ → ℕ) (i : ℕ) :
    sent f (i + 1) = if InPlay f i then f i :: sent f i else sent f i := rfl

/-- The cells sent their index are those that the positions in play name. -/
theorem mem_sent : m ∈ sent f i ↔ ∃ j < i, InPlay f j ∧ f j = m := by
  induction i with
  | zero => simp [sent]
  | succ i ih =>
    rw [sent_succ]
    by_cases hplay : InPlay f i
    · rw [if_pos hplay, List.mem_cons, ih]
      constructor
      · rintro (rfl | ⟨j, hj, hplay', hval⟩)
        · exact ⟨i, Nat.lt_succ_self i, hplay, rfl⟩
        · exact ⟨j, by omega, hplay', hval⟩
      · rintro ⟨j, hj, hplay', hval⟩
        rcases Nat.lt_succ_iff_lt_or_eq.mp hj with hlt | rfl
        · exact Or.inr ⟨j, hlt, hplay', hval⟩
        · exact Or.inl hval.symm
    · rw [if_neg hplay, ih]
      constructor
      · rintro ⟨j, hj, hplay', hval⟩
        exact ⟨j, by omega, hplay', hval⟩
      · rintro ⟨j, hj, hplay', hval⟩
        rcases Nat.lt_succ_iff_lt_or_eq.mp hj with hlt | rfl
        · exact ⟨j, hlt, hplay', hval⟩
        · exact absurd hplay' hplay

/-- A cell that holds its own index did so from the start, or was sent it, or was brought it. -/
theorem held_eq_iff : held f i m = m ↔ f m = m ∨ m ∈ sent f i ∨ (m < i ∧ brought f m = m) := by
  rw [held]
  by_cases hsettled : f m = m ∨ m ∈ sent f i
  · rw [if_pos hsettled]
    tauto
  · rw [if_neg hsettled]
    by_cases hlt : m < i
    · rw [if_pos hlt]
      tauto
    · rw [if_neg hlt]
      tauto

/-- The scan finds a position in play as it was given. -/
theorem held_self (h : InPlay f i) : held f i i = f i := by
  rw [held, if_neg (by rintro (hf | hs); exacts [h.1 hf, h.2 hs]), if_neg (lt_irrefl i)]

/-- A position that is not in play holds its index, and the scan goes on without a change. -/
theorem held_succ_of_not (h : ¬ InPlay f i) : held f i i = i ∧ held f (i + 1) = held f i := by
  have hsettled : f i = i ∨ i ∈ sent f i := by
    by_contra hnot
    push Not at hnot
    exact h hnot
  refine ⟨by rw [held, if_pos hsettled], ?_⟩
  funext j
  rw [held, sent_succ, if_neg h, held]
  rcases eq_or_ne j i with rfl | hne
  · rw [if_pos hsettled, if_pos hsettled]
  · have hlt : j < i + 1 ↔ j < i := by omega
    simp only [hlt]

/-- An exchange sends the value home and brings to `i` what was there; all other cells stay. -/
theorem held_succ (h : InPlay f i) (hnot : held f i (f i) ≠ f i) :
    held f (i + 1) j = if j = f i then f i else if j = i then held f i (f i) else held f i j := by
  have hsent : sent f (i + 1) = f i :: sent f i := by rw [sent_succ, if_pos h]
  rcases eq_or_ne j (f i) with rfl | hj
  · rw [if_pos rfl, held, hsent, if_pos (Or.inr List.mem_cons_self)]
  · have hmem : j ∈ sent f (i + 1) ↔ j ∈ sent f i := by
      rw [hsent, List.mem_cons]
      tauto
    rw [if_neg hj, held]
    simp only [hmem]
    rcases eq_or_ne j i with rfl | hji
    · -- The cell named by `f j` is not settled, so it holds what `brought` says.
      rw [Ne, held_eq_iff] at hnot
      push Not at hnot
      have hown : ¬ (f j = j ∨ j ∈ sent f j) := by
        rintro (hf | hs)
        · exact h.1 hf
        · exact h.2 hs
      have hcell : ¬ (f (f j) = f j ∨ f j ∈ sent f j) := by
        rintro (hf | hs)
        · exact hnot.1 hf
        · exact hnot.2.1 hs
      rw [if_neg hown, if_pos (Nat.lt_succ_self j), if_pos rfl, held, if_neg hcell, brought]
      rcases lt_trichotomy j (f j) with hlt | heq | hgt
      · rw [if_pos hlt, if_neg (by omega)]
      · exact absurd heq.symm h.1
      · rw [if_neg (by omega), if_pos hgt, if_pos hgt]
    · have hlt : j < i + 1 ↔ j < i := by omega
      rw [if_neg hji, held]
      simp only [hlt]

theorem brought_lt (hf : ∀ j < n, f j < n) (hi : i < n) : brought f i < n := by
  fun_induction brought f i with
  | case1 i hlt => exact hf _ (hf _ hi)
  | case2 i _ hlt ih => exact ih (hf _ hi)
  | case3 i _ _ => exact hi

theorem held_lt (hf : ∀ j < n, f j < n) (hj : j < n) : held f i j < n := by
  rw [held]
  split
  · exact hj
  · split
    · exact brought_lt hf hj
    · exact hf j hj

theorem cells_inRange (hf : ∀ j < n, f j < n) (i : ℕ) : InRange (cells f n i) := by
  intro x hx
  obtain ⟨j, hj, rfl⟩ := List.mem_map.mp hx
  have hlt := held_lt (i := i) hf (List.mem_range.mp hj)
  rw [cells_length]
  omega

/-- The exchange, on the whole array. -/
theorem cells_succ (h : InPlay f i) (hnot : held f i (f i) ≠ f i) :
    ((cells f n i).set i (held f i (f i) : ℤ)).set (f i) (held f i i : ℤ) = cells f n (i + 1) := by
  rw [held_self h]
  refine List.ext_getElem (by simp [cells]) fun j hj hj' => ?_
  rw [cells_getElem, held_succ h hnot, List.getElem_set]
  rcases eq_or_ne j (f i) with rfl | hne
  · rw [if_pos rfl, if_pos rfl]
  · rw [if_neg hne.symm, if_neg hne, List.getElem_set]
    rcases eq_or_ne j i with rfl | hne'
    · rw [if_pos rfl, if_pos rfl]
    · rw [if_neg hne'.symm, if_neg hne', cells_getElem]

/-- STEP: the scan stops at a position that is confronted with a duplicate, and passes any other. -/
theorem findBody_cells (hf : ∀ j < n, f j < n) (hi : i < n) :
    (Confronted f i → findBody n (cells f n i, (i : ℤ)) = .ok (.done (1, cells f n i))) ∧
      (¬ Confronted f i →
        findBody n (cells f n i, (i : ℤ)) = .ok (.next (cells f n (i + 1), (i : ℤ) + 1))) := by
  have hi' : i < (cells f n i).length := by rwa [cells_length]
  obtain ⟨m, hm, hval, hcases⟩ := findBody_cases (cells_inRange hf i) hi'
  rw [cells_length] at hcases
  rw [cells_getElem, Nat.cast_inj] at hval
  simp only [cells_getElem, Nat.cast_inj, ne_eq] at hcases
  by_cases hplay : InPlay f i
  · rw [held_self hplay] at hval
    subst hval
    have hiff : Confronted f i ↔ held f i (f i) = f i := by
      rw [held_eq_iff, Confronted, mem_sent]
      exact and_iff_right hplay
    rw [hiff]
    rcases hcases with ⟨hfix, -⟩ | ⟨-, hhome, hbody⟩ | ⟨-, hhome, hbody⟩
    · exact absurd hfix hplay.1
    · exact ⟨fun _ => hbody, fun hnot => absurd hhome hnot⟩
    · refine ⟨fun hhome' => absurd hhome' hhome, fun _ => ?_⟩
      rw [hbody, cells_succ hplay hhome]
  · obtain ⟨hself, hsame⟩ := held_succ_of_not hplay
    rw [hself] at hval
    subst hval
    rcases hcases with ⟨-, hbody⟩ | ⟨hne, -⟩ | ⟨hne, -⟩
    · refine ⟨fun hconf => absurd hconf.1 hplay, fun _ => ?_⟩
      rw [hbody, cells, cells, hsame]
    · exact absurd rfl hne
    · exact absurd rfl hne

/-- RUN: the scan returns 1 if a position still to come is confronted with a duplicate, and else 0. -/
theorem loop_cells (hf : ∀ j < n, f j < n) : ∀ (fuel : ℕ) {i : ℕ}, i ≤ n → n < i + fuel →
    ((∃ k < n, i ≤ k ∧ Confronted f k) →
      ∃ arr', loop (findBody n) fuel (cells f n i, (i : ℤ)) = .ok (1, arr')) ∧
    ((¬ ∃ k < n, i ≤ k ∧ Confronted f k) →
      ∃ arr', loop (findBody n) fuel (cells f n i, (i : ℤ)) = .ok (0, arr')) := by
  intro fuel
  induction fuel with
  | zero =>
    intro i hi hfuel
    omega
  | succ fuel ih =>
    intro i hi hfuel
    rcases hi.eq_or_lt with rfl | hlt
    · refine ⟨?_, fun _ => ⟨_, loop_done findBody_end fuel⟩⟩
      rintro ⟨k, hk, hle, -⟩
      omega
    · obtain ⟨hstop, hpass⟩ := findBody_cells hf hlt
      by_cases hconf : Confronted f i
      · refine ⟨fun _ => ⟨_, loop_done (hstop hconf) fuel⟩, fun hnone => ?_⟩
        exact absurd ⟨i, hlt, le_rfl, hconf⟩ hnone
      · -- What is to come from `i` on is to come from `i + 1` on.
        have hlater : (∃ k < n, i ≤ k ∧ Confronted f k) ↔ ∃ k < n, i + 1 ≤ k ∧ Confronted f k := by
          constructor
          · rintro ⟨k, hk, hle, hk'⟩
            refine ⟨k, hk, lt_of_le_of_ne hle ?_, hk'⟩
            rintro rfl
            exact hconf hk'
          · rintro ⟨k, hk, hle, hk'⟩
            exact ⟨k, hk, by omega, hk'⟩
        have ih' := ih (i := i + 1) hlt (by omega)
        rw [Nat.cast_succ] at ih'
        rw [loop_next (hpass hconf), hlater]
        exact ih'

/-- The value at position `i`. -/
def valueAt (arr : List ℤ) (i : ℕ) : ℕ := (arr.getD i 0).toNat

theorem InRange.valueAt_cast {arr : List ℤ} (h : InRange arr) {j : ℕ} (hj : j < arr.length) :
    (valueAt arr j : ℤ) = arr[j] := by
  have hrange := h arr[j] (List.getElem_mem hj)
  have hval : arr.getD j 0 = arr[j] := by
    rw [List.getD_eq_getElem?_getD, List.getElem?_eq_getElem hj, Option.getD_some]
  rw [valueAt, hval]
  omega

theorem InRange.valueAt_lt {arr : List ℤ} (h : InRange arr) : ∀ j < arr.length,
    valueAt arr j < arr.length := by
  intro j hj
  have hrange := h arr[j] (List.getElem_mem hj)
  have hcast := h.valueAt_cast hj
  omega

/-- The scan starts with the array given. -/
theorem cells_zero {arr : List ℤ} (h : InRange arr) : cells (valueAt arr) arr.length 0 = arr := by
  refine List.ext_getElem (by rw [cells_length]) fun j hj hj' => ?_
  have hheld : held (valueAt arr) 0 j = valueAt arr j := by
    rw [held, sent]
    split
    · next hfix =>
      rcases hfix with hfix | hfix
      · exact hfix.symm
      · cases hfix
    · rfl
  rw [cells_getElem, hheld, h.valueAt_cast hj']

/-- `findDuplication` returns 1. -/
def Reports (arr : List ℤ) : Prop :=
  ∃ arr', ∀ fuel > arr.length, findDuplication fuel arr arr.length = .ok (1, arr')

/-- CORRECT: a duplicate is reported exactly if some position is confronted with one. -/
theorem misses_no_duplicate_iff (arr : List ℤ) (h : InRange arr) :
    ((HasDuplicate arr → Reports arr) ↔
      ¬ HasDuplicate arr ∨ ∃ i < arr.length, Confronted (valueAt arr) i) ∧
    (Reports arr ↔ ∃ i < arr.length, Confronted (valueAt arr) i) := by
  have hrun := loop_cells h.valueAt_lt (arr.length + 1) (Nat.zero_le _) (by omega)
  simp only [Nat.zero_le, true_and, cells_zero h] at hrun
  have hreports : Reports arr ↔ ∃ i < arr.length, Confronted (valueAt arr) i := by
    constructor
    · rintro ⟨arr', hone⟩
      by_contra hnone
      obtain ⟨arr'', hzero⟩ := hrun.2 hnone
      have hone' := hone (arr.length + 1) (by omega)
      rw [findDuplication, ← Nat.cast_zero, hzero] at hone'
      cases hone'
    · intro hconf
      obtain ⟨arr', hone⟩ := hrun.1 hconf
      exact ⟨arr', fun fuel hfuel => loop_ok_mono hone hfuel⟩
  refine ⟨?_, hreports⟩
  rw [hreports]
  tauto

/-- Both 0s of `{0, 0}` are compared. -/
theorem misses_no_duplicate_iff_zeros : HasDuplicate [0, 0] ∧ Reports [0, 0] := by
  have hdup : HasDuplicate [0, 0] := ⟨0, 1, by decide, by decide, rfl⟩
  have hconf : Confronted (valueAt [0, 0]) 1 := ⟨by decide, Or.inl rfl⟩
  exact ⟨hdup, (misses_no_duplicate_iff [0, 0] (by decide)).1.mpr (Or.inr ⟨1, by decide, hconf⟩) hdup⟩

/-- The duplicate of `{1, 2, 2}` is missed. -/
theorem duplicate_missed : HasDuplicate [1, 2, 2] ∧ InRange [1, 2, 2] ∧
    findDuplication 4 [1, 2, 2] 3 = .ok (0, [2, 1, 2]) ∧ ¬ Reports [1, 2, 2] := by
  have hrun : findDuplication 4 [1, 2, 2] 3 = .ok (0, [2, 1, 2]) := rfl
  refine ⟨⟨1, 2, by decide, by decide, rfl⟩, by decide, hrun, ?_⟩
  rintro ⟨arr', h⟩
  have hone := h 4 (by decide)
  rw [show (([1, 2, 2] : List ℤ).length : ℤ) = 3 from rfl, hrun] at hone
  cases hone

end Diversity.Duplication
