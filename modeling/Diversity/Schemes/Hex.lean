import Diversity.Schemes.Decimal

/-! @scheme hex | name:Hexadecimal text | family:text

    Bytes as two digits of base 16, in columns of three characters, and text in lines. A column reads back
    as its byte, and a blank where a digit should be ends the reading; a line ends at its newline, if it
    has none before. -/

namespace Schemes

/-- The digit of `%x`. -/
def hexDigit (d : ℕ) : UInt8 := if d < 10 then UInt8.ofNat (48 + d) else UInt8.ofNat (87 + d)

/-- The value of a digit. -/
def hexValue (c : UInt8) : Option ℕ :=
  if 48 ≤ c ∧ c ≤ 57 then some (c.toNat - 48)
  else if 97 ≤ c ∧ c ≤ 102 then some (c.toNat - 87)
  else none

theorem hexValue_hexDigit {d : ℕ} (h : d < 16) : hexValue (hexDigit d) = some d := by
  interval_cases d <;> rfl

theorem hexDigit_ne_newline {d : ℕ} (h : d < 16) : hexDigit d ≠ 10 := by
  interval_cases d <;> decide

/-- `"%02x "` for each byte. -/
def hexColumns (bs : List UInt8) : List UInt8 :=
  bs.flatMap fun b => [hexDigit (b.toNat / 16), hexDigit (b.toNat % 16), 32]

/-- Up to `n` columns, to the first that is blank. -/
def readColumns : ℕ → List UInt8 → List UInt8
  | n + 1, a :: b :: _ :: rest =>
    match hexValue a, hexValue b with
    | some x, some y => UInt8.ofNat (16 * x + y) :: readColumns n rest
    | _, _ => []
  | _, _ => []

@[simp] theorem hexColumns_nil : hexColumns [] = [] := rfl

theorem hexColumns_append (bs cs : List UInt8) : hexColumns (bs ++ cs) = hexColumns bs ++ hexColumns cs :=
  List.flatMap_append

@[simp] theorem length_hexColumns (bs : List UInt8) : (hexColumns bs).length = 3 * bs.length := by
  induction bs with
  | nil => rfl
  | cons b bs ih =>
    rw [hexColumns, List.flatMap_cons, List.length_append, ← hexColumns, ih, List.length_cons]
    simp only [List.length_cons, List.length_nil]
    omega

theorem newline_notMem_hexColumns (bs : List UInt8) : 10 ∉ hexColumns bs := by
  intro h
  obtain ⟨b, -, hb⟩ := List.mem_flatMap.mp h
  have hlt := b.toNat_lt
  have h₁ := hexDigit_ne_newline (d := b.toNat / 16) (by omega)
  have h₂ := hexDigit_ne_newline (d := b.toNat % 16) (by omega)
  simp only [List.mem_cons, List.not_mem_nil, or_false] at hb
  rcases hb with hb | hb | hb
  · exact h₁ hb.symm
  · exact h₂ hb.symm
  · exact absurd hb (by decide)

/-- READ: columns are read back, and then what follows them. -/
theorem readColumns_append {bs : List UInt8} {n : ℕ} (h : bs.length ≤ n) (rest : List UInt8) :
    readColumns n (hexColumns bs ++ rest) = bs ++ readColumns (n - bs.length) rest := by
  induction bs generalizing n with
  | nil => simp
  | cons b bs ih =>
    obtain ⟨n, rfl⟩ : ∃ k, n = k + 1 := ⟨n - 1, by rw [List.length_cons] at h; omega⟩
    have hlt := b.toNat_lt
    have hbyte : UInt8.ofNat (16 * (b.toNat / 16) + b.toNat % 16) = b := by
      rw [Nat.div_add_mod, UInt8.ofNat_toNat]
    rw [hexColumns, List.flatMap_cons, ← hexColumns]
    simp only [List.cons_append, List.nil_append, readColumns]
    rw [hexValue_hexDigit (by omega), hexValue_hexDigit (by omega)]
    simp only [hbyte]
    rw [ih (Nat.le_of_succ_le_succ h), List.length_cons, Nat.add_sub_add_right]

/-- A blank ends the reading. -/
theorem readColumns_blank (n : ℕ) (rest : List UInt8) : readColumns n (32 :: rest) = [] := by
  cases n with
  | zero => rfl
  | succ n =>
    match rest with
    | [] => rfl
    | [_] => rfl
    | _ :: _ :: _ => rfl

/-! ### Lines -/

/-- The lines of a text, each without its newline; `line` is what was read of the first. -/
def splitLines : List UInt8 → List UInt8 → List (List UInt8)
  | _, [] => []
  | line, c :: text => if c = 10 then line :: splitLines [] text else splitLines (line ++ [c]) text

/-- READ: a line ends at its newline. -/
theorem splitLines_append {l : List UInt8} (h : 10 ∉ l) (line text : List UInt8) :
    splitLines line (l ++ 10 :: text) = (line ++ l) :: splitLines [] text := by
  induction l generalizing line with
  | nil => simp [splitLines]
  | cons c l ih =>
    rw [List.mem_cons, not_or] at h
    rw [List.cons_append, splitLines, if_neg (Ne.symm h.1), ih h.2, List.append_assoc]
    rfl

/-! ### Padding -/

/-- `%0wd` of a number that is not negative. -/
def zeroPadded (w n : ℕ) : List UInt8 := List.replicate (w - (decimal n).length) 48 ++ decimal n

theorem length_zeroPadded {w n : ℕ} (hw : 0 < w) (h : n < 10 ^ w) : (zeroPadded w n).length = w := by
  have hle := length_decimal_le hw h
  rw [zeroPadded, List.length_append, List.length_replicate]
  omega

theorem newline_notMem_zeroPadded (w n : ℕ) : 10 ∉ zeroPadded w n := by
  rw [zeroPadded, List.mem_append, not_or]
  refine ⟨fun h => absurd (List.eq_of_mem_replicate h) (by decide), fun h => ?_⟩
  have hdigit := decimal_isDigit n 10 h
  exact absurd hdigit (by decide)

end Schemes
