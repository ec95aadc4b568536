import Diversity.Schemes.Decimal

/-! @scheme text | name:C strings | family:representation

    The functions of `string.h` and `stdlib.h` that cut a string up, on the characters before its
    terminating NUL. What each of them does to a string is told by how the string is put together:
    a part where the scan goes on, and the character where it stops. -/

namespace Schemes

universe u

variable {α : Type u}

/-! ### Scans -/

/-- A scan ends at the first character that it does not go over. -/
theorem takeWhile_append_stop {p : α → Bool} {s t : List α} {c : α} (hs : ∀ x ∈ s, p x = true)
    (hc : p c = false) : (s ++ c :: t).takeWhile p = s := by
  rw [List.takeWhile_append_of_pos hs, List.takeWhile_cons_of_neg (by simp [hc]), List.append_nil]

theorem dropWhile_append_stop {p : α → Bool} {s t : List α} {c : α} (hs : ∀ x ∈ s, p x = true)
    (hc : p c = false) : (s ++ c :: t).dropWhile p = c :: t := by
  rw [List.dropWhile_append_of_pos hs, List.dropWhile_cons_of_neg (by simp [hc])]

/-! ### `strrchr` -/

/-- `strrchr`: the position of the last `c`, none for NULL. -/
def strrchr (s : List UInt8) (c : UInt8) : Option ℕ :=
  match s.reverse.findIdx? (· = c) with
  | some i => some (s.length - 1 - i)
  | none => none

/-- Behind the last `c` there is no other. -/
theorem strrchr_append {s t : List UInt8} {c : UInt8} (ht : c ∉ t) :
    strrchr (s ++ c :: t) c = some s.length := by
  have hfind : (s ++ c :: t).reverse.findIdx? (· = c) = some t.length := by
    have hnone : t.reverse.findIdx? (fun x => decide (x = c)) = none := by
      rw [List.findIdx?_eq_none_iff]
      intro x hx
      have hne : x ≠ c := fun h => ht (h ▸ List.mem_reverse.mp hx)
      simpa using hne
    rw [List.reverse_append, List.reverse_cons, List.append_assoc, List.findIdx?_append, hnone,
      List.singleton_append, List.findIdx?_cons, if_pos (by simp)]
    simp
  rw [strrchr, hfind]
  simp only [Option.some.injEq, List.length_append, List.length_cons]
  omega

/-! ### `atoi` -/

/-- White space of the "C" locale. -/
def isspace (c : UInt8) : Bool := c = 32 || (9 ≤ c && c ≤ 13)

/-- `atoi` on a number that fits `int`: white space, a sign, and the digits that follow. -/
def atoi (s : List UInt8) : ℤ :=
  match s.dropWhile isspace with
  | 45 :: s => -(digitsValue (s.takeWhile isDigit))
  | 43 :: s => digitsValue (s.takeWhile isDigit)
  | s => digitsValue (s.takeWhile isDigit)

theorem not_isspace_digit {c : UInt8} (h : isDigit c = true) : isspace c = false := by
  have hc := isDigit_iff.mp h
  have h32 : c ≠ 32 := fun h => by simp [h] at hc
  have h13 : ¬ c ≤ 13 := by
    rw [UInt8.le_iff_toNat_le]
    exact fun h => absurd (hc.1.trans h) (by decide)
  simp [isspace, h32, h13]

/-- ROUND TRIP: a number is read back from its text. -/
theorem atoi_decimal (n : ℕ) : atoi (decimal n) = n := by
  obtain ⟨c, s, hs⟩ := List.exists_cons_of_ne_nil (decimal_ne_nil n)
  have hdigits := decimal_isDigit n
  have hvalue := digitsValue_decimal n
  rw [hs] at hdigits hvalue ⊢
  have hc : isDigit c = true := hdigits c List.mem_cons_self
  have hrange := isDigit_iff.mp hc
  have hplus : c ≠ 43 := fun h => by simp [h] at hrange
  have hminus : c ≠ 45 := fun h => by simp [h] at hrange
  have hall : (c :: s).takeWhile isDigit = c :: s := List.takeWhile_eq_self_iff.mpr hdigits
  rw [atoi, List.dropWhile_cons_of_neg (by simp [not_isspace_digit hc])]
  split
  · next heq => exact absurd (List.cons.inj heq).1 hminus
  · next heq => exact absurd (List.cons.inj heq).1 hplus
  · rw [hall, hvalue]

/-! ### `strtok` -/

/-- `strtok` with one delimiter: the next token and what is kept for the next call, `none` for NULL. -/
def strtok (delim : UInt8) (s : List UInt8) : Option (List UInt8 × List UInt8) :=
  let s := s.dropWhile (· = delim)
  if s = [] then none
  else some (s.takeWhile (· ≠ delim), (s.dropWhile (· ≠ delim)).drop 1)

/-- A token ends at the delimiter, of which one is used up. -/
theorem strtok_append {delim c : UInt8} {s t : List UInt8} (h : ∀ x ∈ c :: s, x ≠ delim) :
    strtok delim (c :: s ++ delim :: t) = some (c :: s, t) := by
  have hc : c ≠ delim := h c List.mem_cons_self
  have hs : ∀ x ∈ c :: s, decide (x ≠ delim) = true := fun x hx => decide_eq_true (h x hx)
  have hskip : (c :: s ++ delim :: t).dropWhile (· = delim) = c :: s ++ delim :: t :=
    List.dropWhile_cons_of_neg (by simpa using hc)
  rw [strtok, hskip, if_neg (by simp), takeWhile_append_stop hs (by simp),
    dropWhile_append_stop hs (by simp)]
  rfl

/-- The last token ends with the string. -/
theorem strtok_last {delim c : UInt8} {s : List UInt8} (h : ∀ x ∈ c :: s, x ≠ delim) :
    strtok delim (c :: s) = some (c :: s, []) := by
  have hc : c ≠ delim := h c List.mem_cons_self
  have hs : ∀ x ∈ c :: s, decide (x ≠ delim) = true := fun x hx => decide_eq_true (h x hx)
  have hskip : (c :: s).dropWhile (· = delim) = c :: s :=
    List.dropWhile_cons_of_neg (by simpa using hc)
  rw [strtok, hskip, if_neg (by simp), List.takeWhile_eq_self_iff.mpr hs,
    List.dropWhile_eq_nil_iff.mpr hs]
  rfl

end Schemes
