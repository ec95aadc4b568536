import Mathlib

/-! @scheme decimal | name:Decimal text | family:representation

    Numbers as their decimal digits in ASCII, and the value of a run of digits. A text carries no
    length: what follows it is read on as long as it is a digit, and every digit that is read on
    multiplies the value by ten. So text and what follows are told apart exactly when what follows
    starts with no digit, or when both are nothing but zeros. -/

namespace Schemes

/-- `'0' … '9'`. -/
def isDigit (c : UInt8) : Bool := 48 ≤ c && c ≤ 57

/-- The number that a run of digits stands for. -/
def digitsValue (ds : List UInt8) : ℕ := ds.foldl (fun n c => 10 * n + (c.toNat - 48)) 0

/-- The decimal text of a number, without leading zeros. -/
def decimal (n : ℕ) : List UInt8 :=
  if n = 0 then [48] else (Nat.digits 10 n).reverse.map (fun d => UInt8.ofNat (48 + d))

/-! ### Digits -/

theorem isDigit_iff {c : UInt8} : isDigit c = true ↔ 48 ≤ c.toNat ∧ c.toNat ≤ 57 := by
  rw [isDigit, Bool.and_eq_true, decide_eq_true_iff, decide_eq_true_iff, UInt8.le_iff_toNat_le,
    UInt8.le_iff_toNat_le]
  rfl

theorem toNat_digit {d : ℕ} (h : d < 10) : (UInt8.ofNat (48 + d)).toNat = 48 + d := by
  rw [UInt8.toNat_ofNat']
  omega

theorem isDigit_digit {d : ℕ} (h : d < 10) : isDigit (UInt8.ofNat (48 + d)) = true := by
  rw [isDigit_iff, toNat_digit h]
  omega

theorem decimal_isDigit (n : ℕ) : ∀ c ∈ decimal n, isDigit c = true := by
  intro c hc
  by_cases hn : n = 0
  · rw [decimal, if_pos hn, List.mem_singleton] at hc
    rw [hc]
    rfl
  · rw [decimal, if_neg hn] at hc
    obtain ⟨d, hd, rfl⟩ := List.mem_map.mp hc
    exact isDigit_digit (Nat.digits_lt_base (by decide) (List.mem_reverse.mp hd))

theorem decimal_ne_nil (n : ℕ) : decimal n ≠ [] := by
  by_cases hn : n = 0
  · rw [decimal, if_pos hn]
    exact List.cons_ne_nil _ _
  · rw [decimal, if_neg hn, Ne, List.map_eq_nil_iff, List.reverse_eq_nil_iff]
    exact Nat.digits_ne_nil_iff_ne_zero.mpr hn

theorem length_decimal_le {n k : ℕ} (hk : 0 < k) (h : n < 10 ^ k) : (decimal n).length ≤ k := by
  by_cases hn : n = 0
  · rw [decimal, if_pos hn]
    exact hk
  · rw [decimal, if_neg hn, List.length_map, List.length_reverse]
    exact (Nat.digits_length_le_iff (by decide) n).mpr h

/-! ### Values -/

theorem digitsValue_concat (ds : List UInt8) (c : UInt8) :
    digitsValue (ds ++ [c]) = 10 * digitsValue ds + (c.toNat - 48) := by
  rw [digitsValue, digitsValue, List.foldl_append, List.foldl_cons, List.foldl_nil]

theorem digitsValue_append (ds cs : List UInt8) :
    digitsValue (ds ++ cs) = digitsValue ds * 10 ^ cs.length + digitsValue cs := by
  induction cs using List.reverseRecOn with
  | nil => simp [digitsValue]
  | append_singleton cs c ih =>
    rw [← List.append_assoc, digitsValue_concat, digitsValue_concat, ih, List.length_append,
      List.length_singleton, pow_succ]
    ring

theorem digitsValue_digits : ∀ ds : List ℕ, (∀ d ∈ ds, d < 10) →
    digitsValue (ds.reverse.map (fun d => UInt8.ofNat (48 + d))) = Nat.ofDigits 10 ds
  | [], _ => rfl
  | d :: ds, h => by
    obtain ⟨hd, hds⟩ := List.forall_mem_cons.mp h
    have hlow : 48 + d - 48 = d := Nat.add_sub_cancel_left 48 d
    rw [List.reverse_cons, List.map_append, List.map_singleton, digitsValue_concat,
      digitsValue_digits ds hds, toNat_digit hd, hlow, Nat.ofDigits_cons, Nat.add_comm]

/-- ROUND TRIP: the text of a number stands for it. -/
theorem digitsValue_decimal (n : ℕ) : digitsValue (decimal n) = n := by
  by_cases hn : n = 0
  · rw [decimal, if_pos hn, hn]
    rfl
  · rw [decimal, if_neg hn, digitsValue_digits _ fun d hd => Nat.digits_lt_base (by decide) hd,
      Nat.ofDigits_digits]

/-- A run of digits stands for zero when each of them is a zero. -/
theorem digitsValue_eq_zero : ∀ {ds : List UInt8}, (∀ c ∈ ds, isDigit c = true) →
    (digitsValue ds = 0 ↔ ∀ c ∈ ds, c = 48) := by
  intro ds
  induction ds using List.reverseRecOn with
  | nil => intro _; exact iff_of_true rfl (by simp)
  | append_singleton ds c ih =>
    intro h
    rw [List.forall_mem_append, List.forall_mem_singleton] at h ⊢
    have hc := isDigit_iff.mp h.2
    have hzero : c = 48 ↔ c.toNat = 48 := by
      rw [← UInt8.toNat_inj]
      rfl
    rw [digitsValue_concat, hzero, ← ih h.1]
    omega

/-- Digits behind the text of `n` leave its value alone when there are none, or when all of them and
    `n` are zero. -/
theorem digitsValue_decimal_append (n : ℕ) {ds : List UInt8} (h : ∀ c ∈ ds, isDigit c = true) :
    digitsValue (decimal n ++ ds) = n ↔ ds = [] ∨ n = 0 ∧ ∀ c ∈ ds, c = 48 := by
  rw [digitsValue_append, digitsValue_decimal, ← digitsValue_eq_zero h]
  rcases ds with - | ⟨c, ds⟩
  · exact iff_of_true (by simp [digitsValue]) (Or.inl rfl)
  · have hten : 10 ≤ 10 ^ (c :: ds).length := by
      rw [List.length_cons]
      exact Nat.le_self_pow (Nat.succ_ne_zero _) 10
    constructor
    · intro heq
      have hn : n = 0 := by
        by_contra hne
        have hlt : n * 10 ≤ n * 10 ^ (c :: ds).length := Nat.mul_le_mul_left n hten
        omega
      rw [hn, Nat.zero_mul, Nat.zero_add] at heq
      exact Or.inr ⟨hn, heq⟩
    · rintro (hnil | ⟨hn, hzero⟩)
      · exact absurd hnil (List.cons_ne_nil _ _)
      · rw [hn, hzero, Nat.zero_mul]

/-- The digits at the start of a text and what follows it. -/
theorem takeWhile_decimal_append (n : ℕ) (rest : List UInt8) :
    (decimal n ++ rest).takeWhile isDigit = decimal n ++ rest.takeWhile isDigit :=
  List.takeWhile_append_of_pos (decimal_isDigit n)

end Schemes
