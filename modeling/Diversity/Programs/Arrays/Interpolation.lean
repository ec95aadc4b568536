import Diversity.Programs.Arrays.Searching

/-! @src c++/src/searching.cpp (interpolation_search) | name:Interpolation search | scheme:windows |
    family:array

    `interpolation_search` looks at a place that is a quotient of values:

        mid = low + ((high - low) / (a[high] - a[low])) * (x - a[low])

    The division comes first and is one of integers. A window whose end values are equal has no place at
    all, a window of a single cell above all. If the values rise faster than the cells, the quotient is
    0 and the place is the first cell, so that the search goes through the array cell by cell; in a run
    of consecutive integers the quotient is 1, and the place is where `x` would stand in it, in the array
    or not.

        10 14 19 27 33 35 42 │ 44        x ≤ 42: found or missed cell by cell
                               └── one cell: division by zero for every larger x            -/

namespace Diversity.Searching
open Schemes Windows

/-- `low + ((high - low) / (a[high] - a[low])) * (x - a[low])`, where the values may leave `int`. -/
def interpolate (a : List ℤ) (x low high : ℤ) : C ℤ := do
  let h ← load a high
  let l ← load a low
  let rise ← subInt h l
  let cells ← divInt (high - low) rise
  let ahead ← subInt x l
  let offset ← mulInt cells ahead
  addInt low offset

/-- `interpolation_search`: what it returns, and what it prints. -/
def interpolationSearch (fuel : ℕ) (a : List ℤ) (n x : ℤ) : C (ℤ × List String) :=
  loop (probeBody (interpolate a x) a x) fuel ⟨0, n - 1, 0, []⟩

variable {a : List ℤ} {x : ℤ}

/-- `interpolation_search` is right: it ends without a fault and gives an index that holds `x`, or -1 if
    there is none. -/
def Interpolates (a : List ℤ) (x : ℤ) : Prop :=
  ∃ r out, Locates a x r ∧ ∃ enough, ∀ fuel ≥ enough,
    interpolationSearch fuel a a.length x = .ok (r, out)

/-- The window `low .. high` has the place `m`: its end values differ, none of the values formed leaves
    `int`, and the place is where these put it. -/
def HasPlace (a : List ℤ) (x low high m : ℤ) : Prop :=
  ∃ l h, load a low = .ok l ∧ load a high = .ok h ∧ h ≠ l ∧ IsInt (h - l) ∧ IsInt (x - l) ∧
    IsInt ((high - low).tdiv (h - l) * (x - l)) ∧ IsInt (low + (high - low).tdiv (h - l) * (x - l)) ∧
    m = low + (high - low).tdiv (h - l) * (x - l)

/-- The window `low .. high` comes to an answer: it is empty, or it has a place in the array, and there
    is `x` or the part of the window that is left comes to an answer. -/
inductive Settles (a : List ℤ) (x : ℤ) : ℤ → ℤ → Prop where
  | empty {low high : ℤ} : high < low → Settles a x low high
  | found {low high : ℤ} {m : ℕ} : low ≤ high → HasPlace a x low high m → a[m]? = some x →
      Settles a x low high
  | raise {low high y : ℤ} {m : ℕ} : low ≤ high → HasPlace a x low high m → a[m]? = some y → y < x →
      Settles a x (m + 1) high → Settles a x low high
  | lower {low high y : ℤ} {m : ℕ} : low ≤ high → HasPlace a x low high m → a[m]? = some y → x < y →
      Settles a x low (m - 1) → Settles a x low high

theorem interpolate_iff {low high m : ℤ} (hle : low ≤ high) :
    interpolate a x low high = .ok m ↔ HasPlace a x low high m := by
  constructor
  · intro h
    obtain ⟨h', hhigh, h⟩ := exists_of_bind_ok h
    obtain ⟨l, hlow, h⟩ := exists_of_bind_ok h
    obtain ⟨rise, hrise, h⟩ := exists_of_bind_ok h
    obtain ⟨cells, hcells, h⟩ := exists_of_bind_ok h
    obtain ⟨ahead, hahead, h⟩ := exists_of_bind_ok h
    obtain ⟨offset, hoffset, h⟩ := exists_of_bind_ok h
    obtain ⟨hint₁, rfl⟩ := subInt_ok hrise
    obtain ⟨hne, rfl⟩ := divInt_ok hcells
    obtain ⟨hint₂, rfl⟩ := subInt_ok hahead
    obtain ⟨hint₃, rfl⟩ := mulInt_ok hoffset
    obtain ⟨hint₄, rfl⟩ := addInt_ok h
    exact ⟨l, h', hlow, hhigh, sub_ne_zero.mp hne, hint₁, hint₂, hint₃, hint₄, rfl⟩
  · rintro ⟨l, h, hlow, hhigh, hne, hint₁, hint₂, hint₃, hint₄, rfl⟩
    rw [interpolate, hhigh, ok_bind, hlow, ok_bind, subInt_of_isInt hint₁, ok_bind,
      divInt_of_ne_zero (by omega) (sub_ne_zero.mpr hne), ok_bind, subInt_of_isInt hint₂, ok_bind,
      mulInt_of_isInt hint₃, ok_bind, addInt_of_isInt hint₄]

/-- RUN: the loop has a result exactly from a window that comes to an answer. -/
theorem settles_of_loop : ∀ (fuel : ℕ) {s : Search} {r : ℤ × List String},
    loop (probeBody (interpolate a x) a x) fuel s = .ok r → Settles a x s.low s.high := by
  intro fuel
  induction fuel with
  | zero =>
    intro s r h
    cases h
  | succ fuel ih =>
    intro s r h
    rcases loop_ok_cases h with hdone | ⟨s', hnext, hrest⟩
    · rcases probeBody_cases hdone with
        ⟨hempty, -⟩ | ⟨m, y, out, hle, hprobe, hm, ⟨rfl, -⟩ | ⟨-, hr⟩ | ⟨-, hr⟩⟩
      · exact .empty hempty
      · exact .found hle ((interpolate_iff hle).mp hprobe) hm
      · cases hr
      · cases hr
    · rcases probeBody_cases hnext with
        ⟨-, hr⟩ | ⟨m, y, out, hle, hprobe, hm, ⟨-, hr⟩ | ⟨hlt, hr⟩ | ⟨hgt, hr⟩⟩
      · cases hr
      · cases hr
      · cases hr
        exact .raise hle ((interpolate_iff hle).mp hprobe) hm hlt (ih hrest)
      · cases hr
        exact .lower hle ((interpolate_iff hle).mp hprobe) hm hgt (ih hrest)

theorem loop_of_settles {low high : ℤ} (h : Settles a x low high) : ∀ (count : ℤ) (out : List String),
    ∃ fuel r, loop (probeBody (interpolate a x) a x) fuel ⟨low, high, count, out⟩ = .ok r := by
  induction h with
  | empty hlt =>
    intro count out
    exact ⟨1, _, loop_done (by rw [probeBody, if_neg (not_le.mpr hlt)]) 0⟩
  | @found low high m hle hplace hm =>
    intro count out
    refine ⟨1, (m, out ++ [probeLine (count + 1) m]), loop_done ?_ 0⟩
    rw [probeBody_place hle ((interpolate_iff hle).mpr hplace) hm, if_pos rfl]
  | @raise low high y m hle hplace hm hlt _ ih =>
    intro count out
    obtain ⟨fuel, r, hrest⟩ := ih (count + 1) (out ++ [probeLine (count + 1) m])
    refine ⟨fuel + 1, r, (loop_next ?_ fuel).trans hrest⟩
    rw [probeBody_place hle ((interpolate_iff hle).mpr hplace) hm, if_neg hlt.ne, if_pos hlt]
  | @lower low high y m hle hplace hm hgt _ ih =>
    intro count out
    obtain ⟨fuel, r, hrest⟩ := ih (count + 1) (out ++ [probeLine (count + 1) m])
    refine ⟨fuel + 1, r, (loop_next ?_ fuel).trans hrest⟩
    rw [probeBody_place hle ((interpolate_iff hle).mpr hplace) hm, if_neg hgt.ne', if_neg hgt.not_gt]

theorem interpolates_iff_settles (hsorted : a.Pairwise (· ≤ ·)) :
    Interpolates a x ↔ Settles a x 0 (a.length - 1) := by
  constructor
  · rintro ⟨r, out, -, enough, hrun⟩
    exact settles_of_loop enough (hrun enough le_rfl)
  · intro h
    obtain ⟨fuel, ⟨r, out⟩, hrun⟩ := loop_of_settles h 0 []
    exact ⟨r, out, loop_locates (s := ⟨0, a.length - 1, 0, []⟩) (r := (r, out)) hsorted _
      (within_all a x) hrun, fuel, fun fuel' hfuel => loop_ok_mono hrun hfuel⟩

/-! ### The scan -/

/-- From cell `i` to the end, where `z` is, the values rise faster than the cells. -/
def Rises (a : List ℤ) (z : ℤ) (i : ℕ) : Prop := ∃ y, a[i]? = some y ∧ (a.length : ℤ) - 1 - i < z - y

/-- The place of `x` in the window from cell `i`, which holds `y`, to the end. -/
def placeFrom (a : List ℤ) (x z : ℤ) (i : ℕ) (y : ℤ) : ℤ :=
  i + ((a.length : ℤ) - 1 - i).tdiv (z - y) * (x - y)

/-- Cell `i` ends the scan: the values rise up to it, and there `x` is met or passed, or the values rise
    no longer, are not all equal, and `x` has a place that `hit` accepts. -/
def EndsScan (hit : ℤ → Prop) (a : List ℤ) (x z : ℤ) (i : ℕ) : Prop :=
  (∀ j < i, Rises a z j) ∧ ∃ y, a[i]? = some y ∧
    ((Rises a z i ∧ x ≤ y) ∨ (¬ Rises a z i ∧ z ≠ y ∧ y ≤ x ∧ hit (placeFrom a x z i y)))

/-- The array is empty, or the differences to the first element fit an `int` and the scan ends. -/
def Scans (hit : ℤ → Prop) (a : List ℤ) (x : ℤ) : Prop :=
  a = [] ∨ ∃ first z, a[0]? = some first ∧ a[a.length - 1]? = some z ∧ IsInt (z - first) ∧
    IsInt (x - first) ∧ ∃ i, EndsScan hit a x z i

/-- The scan meets `x`, or passes it, or comes to a window that has it at its place. -/
def InReach (a : List ℤ) (x : ℤ) : Prop := Scans (fun m => load a m = .ok x) a x

/-- The scan meets `x`, or passes it, or comes to a window that has its place in the array. -/
def InBounds (a : List ℤ) (x : ℤ) : Prop := Scans (fun m => m < a.length) a x

section Scan

variable {z l : ℤ} {low : ℕ}

theorem rises_iff (hl : a[low]? = some l) : Rises a z low ↔ (a.length : ℤ) - 1 - low < z - l := by
  constructor
  · rintro ⟨y, hy, h⟩
    rw [hl] at hy
    cases hy
    exact h
  · exact fun h => ⟨l, hl, h⟩

theorem lt_last_of_ne (hz : a[a.length - 1]? = some z) (hl : a[low]? = some l) (hne : z ≠ l) :
    low + 1 < a.length := by
  have hlt := (List.getElem?_eq_some_iff.mp hl).1
  by_contra hend
  have hlast : low = a.length - 1 := by omega
  rw [hlast, hz] at hl
  exact hne (Option.some.inj hl)

theorem le_last (hsorted : a.Pairwise (· ≤ ·)) (hz : a[a.length - 1]? = some z)
    (hl : a[low]? = some l) : l ≤ z := by
  have hlt := (List.getElem?_eq_some_iff.mp hl).1
  exact le_of_sorted hsorted (by omega) hl hz

/-- The place of a window that ends with the array. -/
theorem hasPlace_iff (hz : a[a.length - 1]? = some z) (hl : a[low]? = some l) (m : ℤ) :
    HasPlace a x low (a.length - 1) m ↔ z ≠ l ∧ IsInt (z - l) ∧ IsInt (x - l) ∧
      IsInt (((a.length : ℤ) - 1 - low).tdiv (z - l) * (x - l)) ∧ IsInt (placeFrom a x z low l) ∧
      m = placeFrom a x z low l := by
  have hlt := (List.getElem?_eq_some_iff.mp hl).1
  have hlow : load a low = .ok l := load_of_getElem? hl
  have hhigh : load a ((a.length : ℤ) - 1) = .ok z := by
    have hcast : (a.length : ℤ) - 1 = ((a.length - 1 : ℕ) : ℤ) := by omega
    rw [hcast]
    exact load_of_getElem? hz
  constructor
  · rintro ⟨l', z', hl', hz', h⟩
    rw [hlow] at hl'
    rw [hhigh] at hz'
    cases hl'
    cases hz'
    exact h
  · intro h
    exact ⟨l, z, hlow, hhigh, h⟩

/-- While the values rise, the quotient is 0 and the place is the first cell. -/
theorem placeFrom_rises (hl : a[low]? = some l) (hrise : Rises a z low) : placeFrom a x z low l = low := by
  have hlt := (List.getElem?_eq_some_iff.mp hl).1
  rw [placeFrom, Int.tdiv_eq_zero_of_lt (by omega) ((rises_iff hl).mp hrise), zero_mul, add_zero]

/-- Where they do not, the place is before the first cell for every smaller `x`. -/
theorem placeFrom_lt (hl : a[low]? = some l) (hflat : ¬ Rises a z low) (hlt : l < z) (hx : x < l) :
    placeFrom a x z low l < low := by
  rw [rises_iff hl, not_lt] at hflat
  have hquot : 1 ≤ ((a.length : ℤ) - 1 - low).tdiv (z - l) := by
    rw [Int.tdiv_eq_ediv_of_nonneg (by omega)]
    exact (Int.le_ediv_iff_mul_le (by omega)).mpr (by omega)
  have hneg : ((a.length : ℤ) - 1 - low).tdiv (z - l) * (x - l) < 0 :=
    mul_neg_of_pos_of_neg (by omega) (by omega)
  rw [placeFrom]
  omega

/-- A place in the array is formed without overflow. -/
theorem hasPlace_of_load (hn : IsInt a.length) (hz : a[a.length - 1]? = some z) (hl : a[low]? = some l)
    (hne : z ≠ l) (hint : IsInt (z - l)) (hint' : IsInt (x - l)) {m : ℕ}
    (hm : (m : ℤ) = placeFrom a x z low l) (hmlt : m < a.length) :
    HasPlace a x low (a.length - 1) m := by
  have hlt := (List.getElem?_eq_some_iff.mp hl).1
  obtain ⟨-, hmax⟩ := hn
  refine (hasPlace_iff hz hl m).mpr ⟨hne, hint, hint', ?_, ?_, hm⟩
  · have hoffset : ((a.length : ℤ) - 1 - low).tdiv (z - l) * (x - l) = m - low := by
      rw [hm, placeFrom]
      omega
    rw [hoffset]
    exact ⟨by omega, by omega⟩
  · rw [← hm]
    exact ⟨by omega, by omega⟩

/-- RUN: the scan goes from cell to cell, and where it ends the search has its answer. -/
theorem settles_of_scan (hn : IsInt a.length) (hsorted : a.Pairwise (· ≤ ·))
    (hz : a[a.length - 1]? = some z) {i : ℕ} (hends : EndsScan (fun m => load a m = .ok x) a x z i) :
    ∀ (k : ℕ) {low : ℕ} {l : ℤ}, low + k = i → a[low]? = some l → IsInt (z - l) → IsInt (x - l) →
      Settles a x low (a.length - 1) := by
  obtain ⟨hrises, y, hy, hlast⟩ := hends
  have hilt := (List.getElem?_eq_some_iff.mp hy).1
  have hplace : ∀ {low : ℕ} {l : ℤ}, a[low]? = some l → IsInt (z - l) → IsInt (x - l) →
      Rises a z low → HasPlace a x low (a.length - 1) low := by
    intro low l hl hint hint' hrise
    have hlt := (List.getElem?_eq_some_iff.mp hl).1
    have hgap := (rises_iff hl).mp hrise
    exact hasPlace_of_load hn hz hl (by omega) hint hint' (placeFrom_rises hl hrise).symm hlt
  intro k
  induction k with
  | zero =>
    intro low l hk hl hint hint'
    obtain rfl : low = i := hk
    obtain rfl : y = l := Option.some.inj (hy.symm.trans hl)
    have hle : (low : ℤ) ≤ a.length - 1 := by omega
    rcases hlast with ⟨hrise, hxy⟩ | ⟨-, hne, hyx, hhit⟩
    · rcases hxy.eq_or_lt with rfl | hlt
      · exact .found hle (hplace hl hint hint' hrise) hl
      · exact .lower hle (hplace hl hint hint' hrise) hl hlt (.empty (by omega))
    · obtain ⟨m, hm, hcell⟩ := exists_of_load hhit
      exact .found hle (hasPlace_of_load hn hz hl hne hint hint' hm.symm
        (List.getElem?_eq_some_iff.mp hcell).1) hcell
  | succ k ih =>
    intro low l hk hl hint hint'
    have hle : (low : ℤ) ≤ a.length - 1 := by omega
    have hrise := hrises low (by omega)
    rcases lt_trichotomy l x with hlt | rfl | hgt
    · -- the next cell is closer to the end value, and closer to `x` or between `x` and the end value
      have hl' : a[low + 1]? = some a[low + 1] := List.getElem?_eq_getElem (by omega)
      have hup := le_of_sorted hsorted (by omega) hl hl'
      have htop := le_last hsorted hz hl'
      obtain ⟨h₁, h₂⟩ := hint
      obtain ⟨h₃, h₄⟩ := hint'
      refine .raise hle (hplace hl ⟨h₁, h₂⟩ ⟨h₃, h₄⟩ hrise) hl hlt ?_
      rw [← Nat.cast_succ]
      exact ih (by omega) hl' ⟨by omega, by omega⟩ ⟨by omega, by omega⟩
    · exact .found hle (hplace hl hint hint' hrise) hl
    · exact .lower hle (hplace hl hint hint' hrise) hl hgt (.empty (by omega))

/-- RUN: a search that comes to an answer has ended the scan with a place in the array. -/
theorem scan_of_settles (hsorted : a.Pairwise (· ≤ ·)) (hz : a[a.length - 1]? = some z) {k high : ℤ}
    (h : Settles a x k high) : high = a.length - 1 → Within a x k high → ∀ low : ℕ, k = low →
    low < a.length → (∀ j < low, Rises a z j) → ∃ i, EndsScan (fun m => m < a.length) a x z i := by
  -- the first window without a rise, for an `x` that is not below it
  have hstop : ∀ {low m : ℕ} {l : ℤ}, a[low]? = some l → z ≠ l → l ≤ x → ¬ Rises a z low →
      (∀ j < low, Rises a z j) → (m : ℤ) = placeFrom a x z low l → m < a.length →
      ∃ i, EndsScan (fun m => m < a.length) a x z i := by
    intro low m l hl hne hlx hflat hrises hm hmlt
    have hinside : placeFrom a x z low l < a.length := by omega
    exact ⟨low, hrises, l, hl, Or.inr ⟨hflat, hne, hlx, hinside⟩⟩
  induction h with
  | empty hlt =>
    intro hhigh _ low hk hlow
    omega
  | @found k high m hle hplace hm =>
    rintro rfl hwithin low rfl hlow hrises
    have hl : a[low]? = some a[low] := List.getElem?_eq_getElem hlow
    obtain ⟨hne, -, -, -, -, hmplace⟩ := (hasPlace_iff hz hl m).mp hplace
    have hmlt := (List.getElem?_eq_some_iff.mp hm).1
    by_cases hrise : Rises a z low
    · rw [placeFrom_rises hl hrise, Nat.cast_inj] at hmplace
      subst hmplace
      have hx : a[m] = x := Option.some.inj (hl.symm.trans hm)
      exact ⟨m, hrises, a[m], hl, Or.inl ⟨hrise, hx.ge⟩⟩
    · refine hstop hl hne ?_ hrise hrises hmplace hmlt
      by_contra hxl
      have hbefore := placeFrom_lt hl hrise ((le_last hsorted hz hl).lt_of_ne hne.symm) (not_le.mp hxl)
      exact lt_irrefl x (hwithin.below m x hm (by omega))
  | @raise k high y m hle hplace hm hlt _ ih =>
    rintro rfl hwithin low rfl hlow hrises
    have hl : a[low]? = some a[low] := List.getElem?_eq_getElem hlow
    obtain ⟨hne, -, -, -, -, hmplace⟩ := (hasPlace_iff hz hl m).mp hplace
    have hmlt := (List.getElem?_eq_some_iff.mp hm).1
    have hnext := lt_last_of_ne hz hl hne
    have hraise := hwithin.raise hsorted hm hlt
    by_cases hrise : Rises a z low
    · rw [placeFrom_rises hl hrise, Nat.cast_inj] at hmplace
      subst hmplace
      refine ih rfl hraise (m + 1) (Nat.cast_succ m).symm hnext fun j hj => ?_
      rcases Nat.lt_succ_iff_lt_or_eq.mp hj with hj | rfl
      · exact hrises j hj
      · exact hrise
    · by_cases hlx : a[low] ≤ x
      · exact hstop hl hne hlx hrise hrises hmplace hmlt
      · -- the place lies behind, and the scan starts again from there
        have hbefore := placeFrom_lt hl hrise ((le_last hsorted hz hl).lt_of_ne hne.symm) (not_le.mp hlx)
        exact ih rfl hraise (m + 1) (Nat.cast_succ m).symm (by omega) fun j hj => hrises j (by omega)
  | @lower k high y m hle hplace hm hgt _ ih =>
    rintro rfl hwithin low rfl hlow hrises
    have hl : a[low]? = some a[low] := List.getElem?_eq_getElem hlow
    obtain ⟨hne, -, -, -, -, hmplace⟩ := (hasPlace_iff hz hl m).mp hplace
    have hmlt := (List.getElem?_eq_some_iff.mp hm).1
    by_cases hrise : Rises a z low
    · rw [placeFrom_rises hl hrise, Nat.cast_inj] at hmplace
      subst hmplace
      have hy : a[m] = y := Option.some.inj (hl.symm.trans hm)
      exact ⟨m, hrises, a[m], hl, Or.inl ⟨hrise, by omega⟩⟩
    · refine hstop hl hne ?_ hrise hrises hmplace hmlt
      by_contra hxl
      have hbefore := placeFrom_lt hl hrise ((le_last hsorted hz hl).lt_of_ne hne.symm) (not_le.mp hxl)
      exact (hwithin.below m y hm (by omega)).not_gt hgt

/-- In a strictly increasing array the window without a rise is a run of consecutive integers, and a
    place in the array is the place of `x`. -/
theorem EndsScan.hits (hstrict : a.Pairwise (· < ·)) (hz : a[a.length - 1]? = some z) {i : ℕ}
    (h : EndsScan (fun m => m < a.length) a x z i) : EndsScan (fun m => load a m = .ok x) a x z i := by
  obtain ⟨hrises, y, hy, hlast⟩ := h
  refine ⟨hrises, y, hy, hlast.imp_right ?_⟩
  rintro ⟨hflat, hne, hyx, hinside⟩
  refine ⟨hflat, hne, hyx, ?_⟩
  have hilt := (List.getElem?_eq_some_iff.mp hy).1
  have hend : a[i + (a.length - 1 - i)]? = some z := by
    rw [Nat.add_sub_cancel' (by omega), hz]
  have hdist := sub_le_of_strict hstrict hy _ hend
  have hrun : z - y = (a.length : ℤ) - 1 - i := by
    rw [rises_iff hy] at hflat
    omega
  have hplace : placeFrom a x z i y = i + (x - y) := by
    rw [placeFrom, ← hrun, Int.tdiv_self (sub_ne_zero.mpr hne), one_mul]
  rw [hplace] at hinside ⊢
  obtain ⟨d, hd⟩ := Int.eq_ofNat_of_zero_le (sub_nonneg.mpr hyx)
  have hcell : a[i + d]? = some a[i + d] := List.getElem?_eq_getElem (by omega)
  have hup := sub_le_of_strict hstrict hy d hcell
  have hrest := sub_le_of_strict hstrict hcell (a.length - 1 - (i + d))
    (by rw [Nat.add_sub_cancel' (by omega), hz])
  have hx : a[i + d] = x := by omega
  rw [hx] at hcell
  rw [hd, ← Nat.cast_add]
  exact load_of_getElem? hcell

end Scan

theorem settles_of_inReach (hn : IsInt a.length) (hsorted : a.Pairwise (· ≤ ·)) (h : InReach a x) :
    Settles a x 0 (a.length - 1) := by
  rcases h with rfl | ⟨first, z, hfirst, hz, hint, hint', i, hends⟩
  · exact .empty (by simp)
  · exact_mod_cast settles_of_scan hn hsorted hz hends i (Nat.zero_add i) hfirst hint hint'

theorem inBounds_of_settles (hsorted : a.Pairwise (· ≤ ·)) (h : Settles a x 0 (a.length - 1)) :
    InBounds a x := by
  rcases eq_or_ne a [] with rfl | hne
  · exact Or.inl rfl
  have hpos : 0 < a.length := List.length_pos_iff.mpr hne
  have hfirst : a[0]? = some a[0] := List.getElem?_eq_getElem hpos
  have hz : a[a.length - 1]? = some a[a.length - 1] := List.getElem?_eq_getElem (by omega)
  have hints : ∀ m : ℤ, HasPlace a x 0 (a.length - 1) m →
      IsInt (a[a.length - 1] - a[0]) ∧ IsInt (x - a[0]) := by
    intro m hplace
    obtain ⟨-, h₁, h₂, -⟩ := (hasPlace_iff hz hfirst m).mp (by exact_mod_cast hplace)
    exact ⟨h₁, h₂⟩
  have hints' : IsInt (a[a.length - 1] - a[0]) ∧ IsInt (x - a[0]) := by
    cases h with
    | empty hlt => omega
    | found _ hplace _ => exact hints _ hplace
    | raise _ hplace _ _ _ => exact hints _ hplace
    | lower _ hplace _ _ _ => exact hints _ hplace
  exact Or.inr ⟨_, _, hfirst, hz, hints'.1, hints'.2,
    scan_of_settles hsorted hz h rfl (within_all a x) 0 rfl hpos (by simp)⟩

/-- On a strictly increasing array the two conditions are one. -/
theorem InBounds.inReach (hstrict : a.Pairwise (· < ·)) (h : InBounds a x) : InReach a x := by
  rcases h with rfl | ⟨first, z, hfirst, hz, hint, hint', i, hends⟩
  · exact Or.inl rfl
  · exact Or.inr ⟨first, z, hfirst, hz, hint, hint', i, hends.hits hstrict hz⟩

/-- CORRECT: on a sorted array `interpolation_search` is right for what is in reach, and only if the
    place it comes to after the scan is in the array; on a strictly increasing array exactly for what is
    in reach. -/
theorem interpolates_iff (a : List ℤ) (x : ℤ) (hn : IsInt a.length) (hsorted : a.Pairwise (· ≤ ·)) :
    (InReach a x → Interpolates a x) ∧ (Interpolates a x → InBounds a x) ∧
      (a.Pairwise (· < ·) → (Interpolates a x ↔ InReach a x)) := by
  have hright : InReach a x → Interpolates a x := fun h =>
    (interpolates_iff_settles hsorted).mpr (settles_of_inReach hn hsorted h)
  have hbounds : Interpolates a x → InBounds a x := fun h =>
    inBounds_of_settles hsorted ((interpolates_iff_settles hsorted).mp h)
  exact ⟨hright, hbounds, fun hstrict => ⟨fun h => (hbounds h).inReach hstrict, hright⟩⟩

/-- 42 in the list of `main`, and 2 in a list with repeats, where the second probe finds it. -/
theorem interpolates_iff_main : Interpolates mainList 42 ∧ Interpolates [-9, 1, 1, 2, 2] 2 := by
  refine ⟨((interpolates_iff mainList 42 (by decide) (by decide)).2.2 (by decide)).mpr
    (Or.inr ⟨10, 44, rfl, rfl, by decide, by decide, 6, fun j hj => ?_, 42, rfl,
      Or.inl ⟨⟨42, rfl, by decide⟩, le_rfl⟩⟩), ?_⟩
  · interval_cases j <;> exact ⟨_, rfl, by decide⟩
  · refine (interpolates_iff [-9, 1, 1, 2, 2] 2 (by decide) (by decide)).1
      (Or.inr ⟨-9, 2, rfl, rfl, by decide, by decide, 1, fun j hj => ?_, 1, rfl,
        Or.inr ⟨?_, by decide, by decide, rfl⟩⟩)
    · obtain rfl : j = 0 := by omega
      exact ⟨-9, rfl, by decide⟩
    · rintro ⟨y, hy, hrise⟩
      cases hy
      exact absurd hrise (by decide)

/-- The last element of this list is not found, nor is the only element of a list. -/
theorem last_divides_by_zero :
    interpolationSearch 9 mainList 8 44 = .error .divByZero ∧ ¬ Interpolates mainList 44 ∧
      interpolationSearch 1 [5] 1 5 = .error .divByZero ∧ ¬ Interpolates [5] 5 := by
  refine ⟨rfl, ?_, rfl, ?_⟩
  · rintro ⟨r, out, -, enough, hrun⟩
    have hfault : interpolationSearch (enough + 9) mainList 8 44 = .error .divByZero := rfl
    have hok := hrun (enough + 9) (by omega)
    rw [show ((mainList.length : ℕ) : ℤ) = 8 from rfl, hfault] at hok
    cases hok
  · rintro ⟨r, out, -, enough, hrun⟩
    have hfault : interpolationSearch (enough + 1) [5] 1 5 = .error .divByZero := rfl
    have hok := hrun (enough + 1) (by omega)
    rw [show (([5] : List ℤ).length : ℤ) = 1 from rfl, hfault] at hok
    cases hok

end Diversity.Searching
