import Diversity.Programs.Arrays.Searching

/-! @src binaryTree/SearchMatrix.cpp (searchMatrix) | name:Search in a matrix | scheme:windows |
    family:array

    `searchMatrix` is the loop of `binary_search` on the cells of a matrix, row after row. It never
    writes the cells out in a line: place `mid` of the line is `mat[mid / cols][mid % cols]`.

        mat:   1  3  5        line:   1  3  5  7  9 11
               7  9 11                0  1  2  3  4  5      4 = 1 * 3 + 1, so mat[1][1]

    A matrix without columns has no cell, the window is empty and nothing is divided by `cols`. -/

namespace Diversity.Searching
open Schemes Windows

/-- An array `mat` of `rows` arrays with `cols` cells each. -/
structure Grid (rows cols : ℕ) where
  mat : List (List ℤ)
  height : mat.length = rows
  width : ∀ row ∈ mat, row.length = cols

/-- One turn of `while (start <= end)`, with `start` and `end`. -/
def cellBody (mat : List (List ℤ)) (cols value : ℤ) (w : ℤ × ℤ) : C (Iter (ℤ × ℤ) ℤ) :=
  if w.1 ≤ w.2 then do
    let mid ← halve w.1 w.2
    let row ← divInt mid cols
    let col ← modInt mid cols
    let cells ← load mat row
    let v ← load cells col
    if v = value then .ok (.done mid)
    else if v < value then .ok (.next (mid + 1, w.2))
    else .ok (.next (w.1, mid - 1))
  else .ok (.done (-1))

/-- `searchMatrix`. -/
def searchMatrix (fuel : ℕ) (mat : List (List ℤ)) (rows cols value : ℤ) : C ℤ := do
  let length ← mulInt rows cols
  loop (cellBody mat cols value) fuel (0, length - 1)

/-! ### The cells in a line -/

/-- Place `p` of the line is in row `p / cols` and column `p % cols`. -/
theorem getElem?_flatten_of_width {cols : ℕ} (hcols : 0 < cols) : ∀ {mat : List (List ℤ)},
    (∀ row ∈ mat, row.length = cols) → ∀ p : ℕ,
    mat.flatten[p]? = mat[p / cols]?.bind (·[p % cols]?)
  | [], _, p => by simp
  | row :: mat, hwidth, p => by
    have hrow : row.length = cols := hwidth row List.mem_cons_self
    rw [List.flatten_cons]
    rcases Nat.lt_or_ge p cols with hlt | hge
    · rw [List.getElem?_append_left (by omega), Nat.div_eq_of_lt hlt, Nat.mod_eq_of_lt hlt]
      rfl
    · obtain ⟨q, rfl⟩ := Nat.exists_eq_add_of_le hge
      have hdiv : (cols + q) / cols = q / cols + 1 := Nat.add_div_left q hcols
      rw [List.getElem?_append_right (by omega), hrow, Nat.add_sub_cancel_left, hdiv,
        Nat.add_mod_left, List.getElem?_cons_succ]
      exact getElem?_flatten_of_width hcols (fun r hr => hwidth r (List.mem_cons_of_mem _ hr)) q

theorem Grid.length_flatten {rows cols : ℕ} (g : Grid rows cols) :
    g.mat.flatten.length = rows * cols := by
  rw [List.length_flatten, List.map_congr_left g.width, List.map_const', List.sum_replicate,
    g.height, smul_eq_mul]

variable {rows cols : ℕ}

/-- Every place of the line is a cell of the matrix. -/
theorem Grid.exists_cell (g : Grid rows cols) (hcols : 0 < cols) {m : ℕ} (hm : m < rows * cols) :
    ∃ cells v, g.mat[m / cols]? = some cells ∧ cells[m % cols]? = some v ∧
      g.mat.flatten[m]? = some v := by
  have hflat := List.getElem?_eq_getElem (show m < g.mat.flatten.length by rwa [g.length_flatten])
  have hcell := hflat
  rw [getElem?_flatten_of_width hcols g.width, Option.bind_eq_some_iff] at hcell
  obtain ⟨cells, hcells, hv⟩ := hcell
  exact ⟨cells, _, hcells, hv, hflat⟩

/-- A turn whose place is a cell. -/
theorem cellBody_place {mat : List (List ℤ)} (value : ℤ) {w : ℤ × ℤ} {m : ℕ} {cells : List ℤ} {v : ℤ}
    (hle : w.1 ≤ w.2) (hprobe : halve w.1 w.2 = .ok (m : ℤ)) (hcols : 0 < cols)
    (hcells : mat[m / cols]? = some cells) (hv : cells[m % cols]? = some v) :
    cellBody mat cols value w =
      if v = value then .ok (.done (m : ℤ))
      else if v < value then .ok (.next (m + 1, w.2))
      else .ok (.next (w.1, m - 1)) := by
  have hdiv : divInt m cols = .ok ((m / cols : ℕ) : ℤ) := by
    rw [divInt_of_ne_zero (by omega) (by omega), Int.ofNat_tdiv]
  rw [cellBody, if_pos hle, hprobe, ok_bind, hdiv, ok_bind, modInt_natCast m hcols, ok_bind,
    load_of_getElem? hcells, ok_bind, load_of_getElem? hv, ok_bind]

/-- STEP: in a window inside the line, a turn of `searchMatrix` does what a turn of `binary_search`
    does on the line. -/
theorem cellBody_simulates (g : Grid rows cols) (value : ℤ) (s : Search)
    (hs : 0 ≤ s.low ∧ s.high < (rows * cols : ℕ)) :
    (∃ r, probeBody halve g.mat.flatten value s = .ok (.done r) ∧
      cellBody g.mat cols value (s.low, s.high) = .ok (.done r.1)) ∨
    ∃ s', probeBody halve g.mat.flatten value s = .ok (.next s') ∧
      cellBody g.mat cols value (s.low, s.high) = .ok (.next (s'.low, s'.high)) ∧
      0 ≤ s'.low ∧ s'.high < (rows * cols : ℕ) := by
  obtain ⟨hlow, hhigh⟩ := hs
  by_cases hle : s.low ≤ s.high
  · obtain ⟨m, hprobe, hge, hlem⟩ := halve_between hlow hle
    have hmlt : m < rows * cols := by omega
    have hcols : 0 < cols := Nat.pos_of_mul_pos_left (Nat.zero_lt_of_lt hmlt)
    obtain ⟨cells, v, hcells, hv, hflat⟩ := g.exists_cell hcols hmlt
    have hcell := cellBody_place value (w := (s.low, s.high)) hle hprobe hcols hcells hv
    rw [probeBody_place hle hprobe hflat, hcell]
    rcases lt_trichotomy v value with hlt | heq | hgt
    · rw [if_neg hlt.ne, if_pos hlt, if_neg hlt.ne, if_pos hlt]
      exact Or.inr ⟨_, rfl, rfl, by simp only; omega, hhigh⟩
    · rw [if_pos heq, if_pos heq]
      exact Or.inl ⟨_, rfl, rfl⟩
    · rw [if_neg hgt.ne', if_neg hgt.not_gt, if_neg hgt.ne', if_neg hgt.not_gt]
      exact Or.inr ⟨_, rfl, rfl, hlow, by simp only; omega⟩
  · refine Or.inl ⟨(-1, s.out), ?_, ?_⟩
    · rw [probeBody, if_neg hle]
    · rw [cellBody, if_neg hle]

/-- RUN: with any fuel, `searchMatrix` returns what `binary_search` returns on the line. -/
theorem searchMatrix_eq (g : Grid rows cols) (value : ℤ) (hint : IsInt ((rows : ℤ) * cols)) (fuel : ℕ) :
    searchMatrix fuel g.mat rows cols value =
      (binarySearch fuel g.mat.flatten (rows * cols) value).map Prod.fst := by
  rw [searchMatrix, mulInt_of_isInt hint, ok_bind]
  exact loop_map (fun s : Search => (s.low, s.high)) Prod.fst (cellBody_simulates g value) fuel
    ⟨0, rows * cols - 1, 0, []⟩ ⟨le_rfl, by push_cast; omega⟩

/-- CORRECT: `searchMatrix` is `binary_search` on the line of the cells, whether they are in order or
    not: it stays in the matrix, never divides by zero and returns the same. When the line is in order
    the result is -1 exactly if `value` is absent, and else a place that holds it. -/
theorem searchMatrix_refines_binarySearch (g : Grid rows cols) (value : ℤ)
    (hint : IsInt ((rows : ℤ) * cols)) :
    ∃ r out, (∀ fuel > rows * cols, searchMatrix fuel g.mat rows cols value = .ok r) ∧
      (∀ fuel > rows * cols, binarySearch fuel g.mat.flatten (rows * cols) value = .ok (r, out)) ∧
      (g.mat.flatten.Pairwise (· ≤ ·) → (r = -1 ↔ ∀ row ∈ g.mat, value ∉ row) ∧
        ((∃ row ∈ g.mat, value ∈ row) →
          ∃ p : ℕ, r = p ∧ g.mat[p / cols]?.bind (·[p % cols]?) = some value)) := by
  have hlen := g.length_flatten
  have hend : ((rows : ℤ) * cols - 1) < g.mat.flatten.length := by
    rw [hlen]
    push_cast
    omega
  obtain ⟨⟨r, out⟩, hrun⟩ := loop_halve (a := g.mat.flatten) (x := value) (rows * cols + 1)
    (s := ⟨0, rows * cols - 1, 0, []⟩) le_rfl hend (by simp only; omega)
  have hbinary : ∀ fuel > rows * cols,
      binarySearch fuel g.mat.flatten (rows * cols) value = .ok (r, out) :=
    fun fuel hfuel => loop_ok_mono hrun hfuel
  refine ⟨r, out, fun fuel hfuel => ?_, hbinary, fun hsorted => ?_⟩
  · rw [searchMatrix_eq g value hint, hbinary fuel hfuel]
    rfl
  · have hall : Within g.mat.flatten value 0 (rows * cols - 1) := by
      have h := within_all g.mat.flatten value
      rwa [hlen, Nat.cast_mul] at h
    have hloc : Locates g.mat.flatten value r :=
      loop_locates (s := ⟨0, rows * cols - 1, 0, []⟩) (r := (r, out)) hsorted _ hall hrun
    refine ⟨by rw [hloc.eq_neg_one_iff, List.mem_flatten]; push Not; rfl, fun hmem => ?_⟩
    rcases hloc with ⟨-, hnot⟩ | ⟨p, rfl, hp⟩
    · exact absurd (List.mem_flatten.mpr hmem) hnot
    · have hplt := (List.getElem?_eq_some_iff.mp hp).1
      have hcols : 0 < cols := Nat.pos_of_mul_pos_left (Nat.zero_lt_of_lt (hlen ▸ hplt))
      exact ⟨p, rfl, by rw [← getElem?_flatten_of_width hcols g.width, hp]⟩

/-- The matrix of `main`. -/
def mainGrid : Grid 3 3 := ⟨[[1, 3, 5], [7, 9, 11], [13, 15, 17]], rfl, by decide⟩

theorem searchMatrix_refines_main : ∃ r out,
    (∀ fuel > 9, searchMatrix fuel mainGrid.mat 3 3 13 = .ok r) ∧
      (∀ fuel > 9, binarySearch fuel mainGrid.mat.flatten 9 13 = .ok (r, out)) ∧
      (mainGrid.mat.flatten.Pairwise (· ≤ ·) → (r = -1 ↔ ∀ row ∈ mainGrid.mat, 13 ∉ row) ∧
        ((∃ row ∈ mainGrid.mat, 13 ∈ row) →
          ∃ p : ℕ, r = p ∧ mainGrid.mat[p / 3]?.bind (·[p % 3]?) = some 13)) :=
  searchMatrix_refines_binarySearch mainGrid 13 (by decide)

end Diversity.Searching
