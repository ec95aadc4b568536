import Diversity.Schemes.Bytes

/-! @scheme ones-complement | name:One's-complement sums | family:arithmetic

    The sum behind the Internet checksum: the 16-bit words of a buffer are added and the carry is
    folded back into the low 16 bits until nothing is carried. Folding keeps the residue modulo
    `65535` and never makes zero of a positive sum, and these two facts determine the folded value:

        sum % 65535 = 0  ∧  sum = 0     folds to 0x0000
        sum % 65535 = 0  ∧  sum > 0     folds to 0xFFFF
        otherwise                       folds to sum % 65535

    so equalities of checksums are congruences modulo `65535`, with the two zeros kept apart. -/

namespace Schemes

/-! ### Folding -/

/-- One end-around carry. -/
def fold16 (x : ℕ) : ℕ := x / 65536 + x % 65536

/-- Carries until the sum is below `2 ^ 16`. -/
def foldAll (x : ℕ) : ℕ := if x < 65536 then x else foldAll (fold16 x)
termination_by x
decreasing_by simp only [fold16]; omega

theorem foldAll_of_lt {x : ℕ} (h : x < 65536) : foldAll x = x := by
  rw [foldAll, if_pos h]

theorem foldAll_of_le {x : ℕ} (h : 65536 ≤ x) : foldAll x = foldAll (fold16 x) := by
  rw [foldAll, if_neg (Nat.not_lt.mpr h)]

theorem fold16_mod (x : ℕ) : fold16 x % 65535 = x % 65535 := by
  rw [fold16]
  omega

theorem fold16_pos {x : ℕ} : 0 < fold16 x ↔ 0 < x := by
  rw [fold16]
  omega

theorem fold16_lt_self {x : ℕ} (h : 65536 ≤ x) : fold16 x < x := by
  rw [fold16]
  omega

theorem foldAll_lt (x : ℕ) : foldAll x < 65536 := by
  induction x using Nat.strongRecOn with
  | _ x ih =>
    by_cases h : x < 65536
    · rwa [foldAll_of_lt h]
    · rw [foldAll_of_le (Nat.not_lt.mp h)]
      exact ih _ (fold16_lt_self (Nat.not_lt.mp h))

/-- Folding keeps the residue. -/
theorem foldAll_mod (x : ℕ) : foldAll x % 65535 = x % 65535 := by
  induction x using Nat.strongRecOn with
  | _ x ih =>
    by_cases h : x < 65536
    · rw [foldAll_of_lt h]
    · rw [foldAll_of_le (Nat.not_lt.mp h), ih _ (fold16_lt_self (Nat.not_lt.mp h)), fold16_mod]

/-- Folding keeps a positive sum positive. -/
theorem foldAll_pos {x : ℕ} : 0 < foldAll x ↔ 0 < x := by
  induction x using Nat.strongRecOn with
  | _ x ih =>
    by_cases h : x < 65536
    · rw [foldAll_of_lt h]
    · rw [foldAll_of_le (Nat.not_lt.mp h), ih _ (fold16_lt_self (Nat.not_lt.mp h)), fold16_pos]

/-- The folded sum is the only 16-bit number with the residue and the sign of the sum. -/
theorem foldAll_unique {x y : ℕ} (hlt : y < 65536) (hmod : y % 65535 = x % 65535)
    (hpos : 0 < y ↔ 0 < x) : y = foldAll x := by
  have hlt' := foldAll_lt x
  have hmod' := foldAll_mod x
  have hpos' := foldAll_pos (x := x)
  omega

theorem foldAll_congr {x y : ℕ} (hmod : x % 65535 = y % 65535) (hpos : 0 < x ↔ 0 < y) :
    foldAll x = foldAll y :=
  foldAll_unique (foldAll_lt x) ((foldAll_mod x).trans hmod) (foldAll_pos.trans hpos)

/-- Folded sums agree when residue and sign do. -/
theorem foldAll_eq_iff {x y : ℕ} :
    foldAll x = foldAll y ↔ x % 65535 = y % 65535 ∧ (0 < x ↔ 0 < y) := by
  refine ⟨fun h => ⟨?_, ?_⟩, fun h => foldAll_congr h.1 h.2⟩
  · rw [← foldAll_mod x, h, foldAll_mod]
  · rw [← foldAll_pos, h, foldAll_pos]

/-- All ones is the folded sum of the positive multiples of `65535`. -/
theorem foldAll_eq_ones {x : ℕ} : foldAll x = 65535 ↔ x % 65535 = 0 ∧ 0 < x := by
  have hlt := foldAll_lt x
  have hmod := foldAll_mod x
  have hpos := foldAll_pos (x := x)
  omega

/-! ### Sums over a buffer -/

/-- The sum of the 16-bit words of a buffer as a host reads them; behind an odd last byte comes a
    zero byte. -/
def wordSum (e : Endian) : List UInt8 → ℕ
  | [] => 0
  | [a] => e.decode [a, 0]
  | a :: b :: rest => e.decode [a, b] + wordSum e rest

theorem decode_little (a b : UInt8) : Endian.little.decode [a, b] = a.toNat + 256 * b.toNat := by
  simp [Endian.decode, leNat]

theorem decode_big (a b : UInt8) : Endian.big.decode [a, b] = b.toNat + 256 * a.toNat := by
  simp [Endian.decode, leNat]

theorem decode_pair_lt (e : Endian) (a b : UInt8) : e.decode [a, b] < 65536 := by
  have ha := a.toNat_lt
  have hb := b.toNat_lt
  cases e with
  | little =>
    rw [decode_little]
    omega
  | big =>
    rw [decode_big]
    omega

/-- A word at an even offset is a summand of its own. -/
theorem wordSum_append (e : Endian) : ∀ (p : List UInt8), p.length % 2 = 0 → ∀ s : List UInt8,
    wordSum e (p ++ s) = wordSum e p + wordSum e s
  | [], _, s => by rw [List.nil_append, wordSum, Nat.zero_add]
  | [_], h, _ => absurd h (by rw [List.length_singleton]; decide)
  | a :: b :: p, h, s => by
    have heven : p.length % 2 = 0 := by
      simp only [List.length_cons] at h
      omega
    rw [List.cons_append, List.cons_append, wordSum, wordSum_append e p heven s, wordSum,
      Nat.add_assoc]

theorem wordSum_pair (e : Endian) {m : List UInt8} (h : m.length = 2) :
    wordSum e m = e.decode m := by
  obtain ⟨a, b, rfl⟩ := List.length_eq_two.mp h
  rfl

/-- The sum around one word. -/
theorem wordSum_field (e : Endian) {p m s : List UInt8} (hp : p.length % 2 = 0)
    (hm : m.length = 2) :
    wordSum e (p ++ m ++ s) = wordSum e p + e.decode m + wordSum e s := by
  rw [wordSum_append e (p ++ m) (by rw [List.length_append]; omega), wordSum_append e p hp,
    wordSum_pair e hm]

theorem wordSum_le (e : Endian) : ∀ l : List UInt8, wordSum e l ≤ 65535 * ((l.length + 1) / 2)
  | [] => by rw [wordSum]; omega
  | [a] => by
    have h := decode_pair_lt e a 0
    rw [wordSum, List.length_singleton]
    omega
  | a :: b :: l => by
    have h := decode_pair_lt e a b
    have ih := wordSum_le e l
    rw [wordSum, List.length_cons, List.length_cons]
    omega

/-- A buffer that starts with a byte other than zero has a positive sum. -/
theorem wordSum_cons_pos (e : Endian) {a : UInt8} (ha : 0 < a.toNat) (l : List UInt8) :
    0 < wordSum e (a :: l) := by
  have hpair : ∀ b : UInt8, 0 < e.decode [a, b] := by
    intro b
    cases e with
    | little =>
      rw [decode_little]
      omega
    | big =>
      rw [decode_big]
      omega
  rcases l with - | ⟨b, l⟩
  · exact hpair 0
  · exact Nat.lt_of_lt_of_le (hpair b) (Nat.le_add_right _ _)

/-- The two byte orders see sums that differ by the factor `256`, which is its own inverse. -/
theorem wordSum_swap : ∀ l : List UInt8,
    wordSum .big l % 65535 = 256 * wordSum .little l % 65535
  | [] => rfl
  | [a] => by
    rw [wordSum, wordSum, decode_little, decode_big]
    simp only [UInt8.toNat_zero]
    omega
  | a :: b :: l => by
    have ih := wordSum_swap l
    rw [wordSum, wordSum, decode_little, decode_big]
    omega

theorem wordSum_pos_iff : ∀ l : List UInt8, 0 < wordSum .big l ↔ 0 < wordSum .little l
  | [] => Iff.rfl
  | [a] => by
    rw [wordSum, wordSum, decode_little, decode_big]
    simp only [UInt8.toNat_zero]
    omega
  | a :: b :: l => by
    have ih := wordSum_pos_iff l
    rw [wordSum, wordSum, decode_little, decode_big]
    omega

/-- Exchange the two bytes of a word. -/
def swap16 (x : ℕ) : ℕ := x % 256 * 256 + x / 256

theorem swap16_mod (x : ℕ) : swap16 x % 65535 = 256 * x % 65535 := by
  rw [swap16]
  omega

/-- The folded sums of the two byte orders are byte swaps of each other. -/
theorem foldAll_wordSum_swap (l : List UInt8) :
    foldAll (wordSum .big l) = swap16 (foldAll (wordSum .little l)) := by
  have hlt := foldAll_lt (wordSum .little l)
  have hmod := foldAll_mod (wordSum .little l)
  have hpos := foldAll_pos (x := wordSum .little l)
  have hswap := wordSum_swap l
  refine (foldAll_unique ?_ ?_ ?_).symm
  · rw [swap16]
    omega
  · rw [swap16_mod, hswap, Nat.mul_mod, hmod, ← Nat.mul_mod]
  · rw [wordSum_pos_iff, ← hpos, swap16]
    omega

end Schemes
