import Diversity.Schemes.Windows

/-! @src c++/src/searching.cpp (linear_search, binary_search) | name:Linear and binary search |
    scheme:windows | family:array

    `linear_search` goes through a sorted array from the left and stops at the first larger element.
    `binary_search` works on a window `low .. high` and looks at the middle of it. The loop is the one of
    `interpolation_search` too, which looks at another place; whatever the place, an answer is right,
    since the loop only drops cells that cannot hold `x`:

        a[mid] < x:   low … mid | mid + 1 … high        dropped: everything up to mid
        a[mid] > x:   low … mid - 1 | mid … high        dropped: everything from mid on   -/

namespace Diversity.Searching
open Schemes Windows

/-- One turn of the `for` loop of `linear_search`. -/
def linearBody (a : List ℤ) (n x i : ℤ) : C (Iter ℤ ℤ) :=
  if i < n then do
    let y ← load a i
    if y > x then .ok (.done (-1))
    else if y = x then .ok (.done i)
    else .ok (.next (i + 1))
  else .ok (.done (-1))

/-- `linear_search`. -/
def linearSearch (fuel : ℕ) (a : List ℤ) (n x : ℤ) : C ℤ := loop (linearBody a n x) fuel 0

/-- State of the loop of the other two searches, with the lines printed. -/
structure Search where
  low : ℤ
  high : ℤ
  count : ℤ
  out : List String

/-- The line printed for each place. -/
def probeLine (count mid : ℤ) : String :=
  "Count is " ++ toString count ++ " Mid is " ++ toString mid ++ "\n"

/-- One turn of `while (low <= high)`; `probe` chooses the place. -/
def probeBody (probe : ℤ → ℤ → C ℤ) (a : List ℤ) (x : ℤ) (s : Search) :
    C (Iter Search (ℤ × List String)) :=
  if s.low ≤ s.high then do
    let count := s.count + 1
    let mid ← probe s.low s.high
    let out := s.out ++ [probeLine count mid]
    let y ← load a mid
    if y = x then .ok (.done (mid, out))
    else if y < x then .ok (.next ⟨mid + 1, s.high, count, out⟩)
    else .ok (.next ⟨s.low, mid - 1, count, out⟩)
  else .ok (.done (-1, s.out))

/-- `low + (high - low) / 2`. -/
def halve (low high : ℤ) : C ℤ := .ok (low + (high - low).tdiv 2)

/-- `binary_search`: what it returns, and what it prints. -/
def binarySearch (fuel : ℕ) (a : List ℤ) (n x : ℤ) : C (ℤ × List String) :=
  loop (probeBody halve a x) fuel ⟨0, n - 1, 0, []⟩

/-! ### Probes -/

variable {probe : ℤ → ℤ → C ℤ} {a : List ℤ} {x : ℤ}

/-- A turn that has a place in the array. -/
theorem probeBody_place {s : Search} {m : ℕ} {y : ℤ} (hle : s.low ≤ s.high)
    (hprobe : probe s.low s.high = .ok (m : ℤ)) (hm : a[m]? = some y) :
    probeBody probe a x s =
      if y = x then .ok (.done ((m : ℤ), s.out ++ [probeLine (s.count + 1) m]))
      else if y < x then
        .ok (.next ⟨m + 1, s.high, s.count + 1, s.out ++ [probeLine (s.count + 1) m]⟩)
      else .ok (.next ⟨s.low, m - 1, s.count + 1, s.out ++ [probeLine (s.count + 1) m]⟩) := by
  rw [probeBody, if_pos hle, hprobe, ok_bind, load_of_getElem? hm, ok_bind]

/-- What a turn can do, without a fault. -/
theorem probeBody_cases {s : Search} {it : Iter Search (ℤ × List String)}
    (h : probeBody probe a x s = .ok it) :
    (s.high < s.low ∧ it = .done (-1, s.out)) ∨
      ∃ (m : ℕ) (y : ℤ) (out : List String), s.low ≤ s.high ∧ probe s.low s.high = .ok (m : ℤ) ∧
        a[m]? = some y ∧ ((y = x ∧ it = .done ((m : ℤ), out)) ∨
          (y < x ∧ it = .next ⟨m + 1, s.high, s.count + 1, out⟩) ∨
          (x < y ∧ it = .next ⟨s.low, m - 1, s.count + 1, out⟩)) := by
  rw [probeBody] at h
  by_cases hle : s.low ≤ s.high
  · rw [if_pos hle] at h
    obtain ⟨mid, hprobe, h⟩ := exists_of_bind_ok h
    obtain ⟨y, hload, h⟩ := exists_of_bind_ok h
    obtain ⟨m, rfl, hm⟩ := exists_of_load hload
    refine Or.inr ⟨m, y, s.out ++ [probeLine (s.count + 1) m], hle, hprobe, hm, ?_⟩
    rcases lt_trichotomy y x with hlt | heq | hgt
    · rw [if_neg hlt.ne, if_pos hlt] at h
      exact Or.inr (Or.inl ⟨hlt, (Except.ok.inj h).symm⟩)
    · rw [if_pos heq] at h
      exact Or.inl ⟨heq, (Except.ok.inj h).symm⟩
    · rw [if_neg hgt.ne', if_neg hgt.not_gt] at h
      exact Or.inr (Or.inr ⟨hgt, (Except.ok.inj h).symm⟩)
  · rw [if_neg hle] at h
    exact Or.inl ⟨not_le.mp hle, (Except.ok.inj h).symm⟩

/-- RUN: an answer is right, however the places are chosen. -/
theorem loop_locates (hsorted : a.Pairwise (· ≤ ·)) : ∀ (fuel : ℕ) {s : Search} {r : ℤ × List String},
    Within a x s.low s.high → loop (probeBody probe a x) fuel s = .ok r → Locates a x r.1 := by
  intro fuel
  induction fuel with
  | zero =>
    intro s r _ h
    cases h
  | succ fuel ih =>
    intro s r hwithin h
    rcases loop_ok_cases h with hdone | ⟨s', hnext, hrest⟩
    · rcases probeBody_cases hdone with ⟨hempty, hr⟩ | ⟨m, y, out, -, -, hm, ⟨rfl, hr⟩ | ⟨-, hr⟩ | ⟨-, hr⟩⟩
      · cases hr
        exact Or.inl ⟨rfl, hwithin.not_mem hempty⟩
      · cases hr
        exact Or.inr ⟨m, rfl, hm⟩
      · cases hr
      · cases hr
    · rcases probeBody_cases hnext with ⟨-, hr⟩ | ⟨m, y, out, -, -, hm, ⟨-, hr⟩ | ⟨hlt, hr⟩ | ⟨hgt, hr⟩⟩
      · cases hr
      · cases hr
      · cases hr
        exact ih (hwithin.raise hsorted hm hlt) hrest
      · cases hr
        exact ih (hwithin.lower hsorted hm hgt) hrest

/-- A turn whose place is in the array has a result. -/
theorem probeBody_ok {s : Search} {m : ℕ} (hprobe : probe s.low s.high = .ok (m : ℤ))
    (hm : m < a.length) (hle : s.low ≤ s.high) : ∃ it, probeBody probe a x s = .ok it := by
  rw [probeBody_place hle hprobe (List.getElem?_eq_getElem hm)]
  rcases lt_trichotomy a[m] x with hlt | heq | hgt
  · exact ⟨_, by rw [if_neg hlt.ne, if_pos hlt]⟩
  · exact ⟨_, by rw [if_pos heq]⟩
  · exact ⟨_, by rw [if_neg hgt.ne', if_neg hgt.not_gt]⟩

/-! ### Linear and binary search -/

/-- `linear_search` finds the first of several. -/
def LocatesFirst (a : List ℤ) (x r : ℤ) : Prop :=
  Locates a x r ∧ ∀ i : ℕ, r = i → ∀ j < i, a[j]? ≠ some x

/-- RUN: from a position that is greater than none before it, `linear_search` finds the first. -/
theorem loop_linear (hsorted : a.Pairwise (· ≤ ·)) : ∀ (fuel : ℕ) {i : ℕ}, i ≤ a.length →
    a.length < i + fuel → Within a x i (a.length - 1) →
    ∃ r, loop (linearBody a a.length x) fuel (i : ℤ) = .ok r ∧ LocatesFirst a x r := by
  intro fuel
  induction fuel with
  | zero =>
    intro i hi hfuel _
    omega
  | succ fuel ih =>
    intro i hi hfuel hwithin
    rcases hi.eq_or_lt with heq | hlt
    · have hexit : ¬ (i : ℤ) < a.length := by omega
      have hbody : linearBody a a.length x i = .ok (.done (-1)) := by rw [linearBody, if_neg hexit]
      refine ⟨-1, loop_done hbody fuel, Or.inl ⟨rfl, hwithin.not_mem (by omega)⟩, ?_⟩
      intro k hk
      omega
    · have hgo : (i : ℤ) < a.length := by omega
      have hcell : a[i]? = some a[i] := List.getElem?_eq_getElem hlt
      have hload : load a i = .ok a[i] := load_of_getElem? hcell
      rcases lt_trichotomy a[i] x with hless | heq | hmore
      · have hbody : linearBody a a.length x i = .ok (.next (i + 1)) := by
          rw [linearBody, if_pos hgo, hload, ok_bind, if_neg hless.not_gt, if_neg hless.ne]
        rw [loop_next hbody, ← Nat.cast_succ]
        refine ih hlt (by omega) ?_
        rw [Nat.cast_succ]
        exact hwithin.raise hsorted hcell hless
      · have hbody : linearBody a a.length x i = .ok (.done i) := by
          rw [linearBody, if_pos hgo, hload, ok_bind, if_neg heq.le.not_gt, if_pos heq]
        refine ⟨i, loop_done hbody fuel, Or.inr ⟨i, rfl, by rw [hcell, heq]⟩, ?_⟩
        intro k hk j hj hjx
        exact lt_irrefl x (hwithin.below j x hjx (by omega))
      · have hbody : linearBody a a.length x i = .ok (.done (-1)) := by
          rw [linearBody, if_pos hgo, hload, ok_bind, if_pos hmore]
        have hempty := hwithin.lower hsorted hcell hmore
        refine ⟨-1, loop_done hbody fuel, Or.inl ⟨rfl, hempty.not_mem (by omega)⟩, ?_⟩
        intro k hk
        omega

/-- The middle of a window is in the window. -/
theorem halve_between {low high : ℤ} (hlow : 0 ≤ low) (hle : low ≤ high) :
    ∃ m : ℕ, halve low high = .ok (m : ℤ) ∧ low ≤ m ∧ (m : ℤ) ≤ high := by
  have hhalf : (high - low).tdiv 2 = (high - low) / 2 := Int.tdiv_eq_ediv_of_nonneg (by omega)
  obtain ⟨m, hm⟩ := Int.eq_ofNat_of_zero_le (a := low + (high - low) / 2) (by omega)
  exact ⟨m, by rw [halve, hhalf, hm], by omega, by omega⟩

/-- RUN: halving the window comes to an end inside the array. -/
theorem loop_halve : ∀ (fuel : ℕ) {s : Search}, 0 ≤ s.low → s.high < a.length →
    (s.high - s.low + 1).toNat < fuel → ∃ r, loop (probeBody halve a x) fuel s = .ok r := by
  intro fuel
  induction fuel with
  | zero =>
    intro s _ _ hfuel
    omega
  | succ fuel ih =>
    intro s hlow hhigh hfuel
    by_cases hle : s.low ≤ s.high
    · obtain ⟨m, hprobe, hlowm, hmhigh⟩ := halve_between hlow hle
      have hmlt : m < a.length := by omega
      obtain ⟨it, hbody⟩ := probeBody_ok (x := x) hprobe hmlt hle
      rcases probeBody_cases hbody with
        ⟨hempty, -⟩ | ⟨m', y, out, -, hprobe', hm', ⟨-, rfl⟩ | ⟨-, rfl⟩ | ⟨-, rfl⟩⟩
      · omega
      · exact ⟨_, loop_done hbody fuel⟩
      all_goals
        have heq : (m' : ℤ) = m := Except.ok.inj (hprobe'.symm.trans hprobe)
        rw [loop_next hbody]
        exact ih (by simp only; omega) (by simp only; omega) (by simp only; omega)
    · have hbody : probeBody halve a x s = .ok (.done (-1, s.out)) := by rw [probeBody, if_neg hle]
      exact ⟨_, loop_done hbody fuel⟩

/-- CORRECT: on a sorted array both searches end inside the array. `linear_search` gives the first index
    that holds `x`, or -1 if there is none; `binary_search` gives -1 in the same cases and else an index
    at or behind it that holds `x`, the same one if the array has no duplicates. -/
theorem searches_agree (a : List ℤ) (x : ℤ) (hsorted : a.Pairwise (· ≤ ·)) :
    ∃ l r out, (∀ fuel > a.length, linearSearch fuel a a.length x = .ok l) ∧
      (∀ fuel > a.length, binarySearch fuel a a.length x = .ok (r, out)) ∧
      (l = -1 ↔ x ∉ a) ∧
      (x ∈ a → ∃ i : ℕ, l = i ∧ a[i]? = some x ∧ ∀ j < i, a[j]? ≠ some x) ∧
      (r = -1 ↔ l = -1) ∧
      (x ∈ a → ∃ k : ℕ, r = k ∧ a[k]? = some x ∧ l ≤ r) ∧
      (a.Pairwise (· < ·) → r = l) := by
  have hall := within_all a x
  obtain ⟨l, hlinear, hloc, hfirst⟩ :=
    loop_linear hsorted (a.length + 1) (Nat.zero_le _) (by omega) (by exact_mod_cast hall)
  have hend : ((a.length : ℤ) - 1) < a.length := by omega
  obtain ⟨⟨r, out⟩, hbinary⟩ := loop_halve (x := x) (a.length + 1) (s := ⟨0, a.length - 1, 0, []⟩)
    le_rfl hend (by simp only; omega)
  have hloc' : Locates a x r := loop_locates (s := ⟨0, a.length - 1, 0, []⟩) (r := (r, out)) hsorted _ hall
    hbinary
  refine ⟨l, r, out, fun fuel hfuel => loop_ok_mono hlinear hfuel,
    fun fuel hfuel => loop_ok_mono hbinary hfuel, hloc.eq_neg_one_iff, ?_, ?_, ?_, ?_⟩
  · intro hx
    rcases hloc with ⟨-, hnot⟩ | ⟨i, rfl, hi⟩
    · exact absurd hx hnot
    · exact ⟨i, rfl, hi, hfirst i rfl⟩
  · rw [hloc.eq_neg_one_iff, hloc'.eq_neg_one_iff]
  · intro hx
    rcases hloc' with ⟨-, hnot⟩ | ⟨k, rfl, hk⟩
    · exact absurd hx hnot
    · refine ⟨k, rfl, hk, ?_⟩
      rcases hloc with ⟨-, hnot⟩ | ⟨i, rfl, hi⟩
      · exact absurd hx hnot
      · by_contra hlt
        exact hfirst i rfl k (by omega) hk
  · intro hstrict
    rcases hloc' with ⟨hr, hnot⟩ | ⟨k, hr, hk⟩
    · rw [hr, hloc.eq_neg_one_iff.mpr hnot]
    · rcases hloc with ⟨-, hnot⟩ | ⟨i, hl, hi⟩
      · exact absurd (List.mem_of_getElem? hk) hnot
      · have hlt := (List.getElem?_eq_some_iff.mp hk).1
        have heq : k = i := (List.getElem?_inj hlt hstrict.nodup).mp (hk.trans hi.symm)
        rw [hr, hl, heq]

/-- The list of `main`. -/
def mainList : List ℤ := [10, 14, 19, 27, 33, 35, 42, 44]

theorem searches_agree_main : ∃ l r out,
    (∀ fuel > 8, linearSearch fuel mainList 8 42 = .ok l) ∧
      (∀ fuel > 8, binarySearch fuel mainList 8 42 = .ok (r, out)) ∧ (l = -1 ↔ 42 ∉ mainList) ∧
      (42 ∈ mainList → ∃ i : ℕ, l = i ∧ mainList[i]? = some 42 ∧ ∀ j < i, mainList[j]? ≠ some 42) ∧
      (r = -1 ↔ l = -1) ∧ (42 ∈ mainList → ∃ k : ℕ, r = k ∧ mainList[k]? = some 42 ∧ l ≤ r) ∧
      (mainList.Pairwise (· < ·) → r = l) :=
  searches_agree mainList 42 (by decide)

end Diversity.Searching
