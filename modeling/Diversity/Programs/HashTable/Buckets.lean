import Diversity.Programs.HashTable.Khash
import Diversity.Schemes.Probing
/-! @src hash_table/khash.h | name:khash buckets | scheme:probing | family:data-structure

    What the macros of khash compute: the two bits of a bucket and how each assignment changes them and
    no others, the sizes that `kroundup32` gives, and the search loops as walks along `probe`. -/

namespace Diversity.Khash
open Schemes Schemes.Probing

variable {flag : List Word} {i j : ℕ}

/-! ### Flags -/

/-- Whether a bucket was never used, and whether it was deleted. -/
def bits (flag : List Word) (i : ℕ) : Bool × Bool :=
  let w := flag.getD (i / 16) 0
  (w.getLsbD (2 * (i % 16) + 1), w.getLsbD (2 * (i % 16)))

theorem shiftRight_four (i : ℕ) : i >>> 4 = i / 16 := Nat.shiftRight_eq_div_pow i 4

theorem flag_shift (i : ℕ) : (i &&& 0xf) <<< 1 = 2 * (i % 16) := by
  rw [show (0xf : ℕ) = 2 ^ 4 - 1 from rfl, Nat.and_two_pow_sub_one_eq_mod, Nat.shiftLeft_eq]
  omega

theorem and_one_bne (x : Word) : ((x &&& 1) != 0) = x.getLsbD 0 := by
  rw [show (1 : Word) = BitVec.twoPow 32 0 from rfl, BitVec.and_twoPow]
  cases x.getLsbD 0 <;> rfl

theorem and_two_bne (x : Word) : ((x &&& 2) != 0) = x.getLsbD 1 := by
  rw [show (2 : Word) = BitVec.twoPow 32 1 from rfl, BitVec.and_twoPow]
  cases x.getLsbD 1 <;> rfl

theorem and_three_bne (x : Word) : ((x &&& 3) != 0) = (x.getLsbD 1 || x.getLsbD 0) := by
  rw [show (3 : Word) = BitVec.twoPow 32 1 ||| BitVec.twoPow 32 0 from rfl, BitVec.and_or_distrib_left,
    BitVec.and_twoPow, BitVec.and_twoPow]
  cases x.getLsbD 1 <;> cases x.getLsbD 0 <;> rfl

theorem acBits_ok (h : i / 16 < flag.length) (m : Word) :
    acBits flag i m = .ok ((flag.getD (i / 16) 0 >>> (2 * (i % 16))) &&& m) := by
  have hload : load flag (i / 16 : ℕ) = .ok (flag.getD (i / 16) 0) := by
    rw [load_eq_ok, List.getElem?_eq_getElem h, List.getD_eq_getElem _ _ h]
  rw [acBits, shiftRight_four, hload, ok_bind, flag_shift]

theorem acIsEmpty_ok (h : i / 16 < flag.length) : acIsEmpty flag i = .ok (bits flag i).1 := by
  rw [acIsEmpty, acBits_ok h, ok_bind, and_two_bne, BitVec.getLsbD_ushiftRight]
  rfl

theorem acIsDel_ok (h : i / 16 < flag.length) : acIsDel flag i = .ok (bits flag i).2 := by
  rw [acIsDel, acBits_ok h, ok_bind, and_one_bne, BitVec.getLsbD_ushiftRight]
  rfl

theorem acIsEither_ok (h : i / 16 < flag.length) :
    acIsEither flag i = .ok ((bits flag i).1 || (bits flag i).2) := by
  rw [acIsEither, acBits_ok h, ok_bind, and_three_bne, BitVec.getLsbD_ushiftRight,
    BitVec.getLsbD_ushiftRight]
  rfl

/-- Writing the word of a bucket changes the bits of no bucket of another word. -/
theorem bits_set (h : i / 16 < flag.length) (w : Word) (j : ℕ) :
    bits (flag.set (i / 16) w) j =
      if i / 16 = j / 16 then (w.getLsbD (2 * (j % 16) + 1), w.getLsbD (2 * (j % 16)))
      else bits flag j := by
  rw [bits, bits, List.getD_eq_getElem?_getD, List.getD_eq_getElem?_getD]
  split
  · next heq => rw [← heq, List.getElem?_set_self h, Option.getD_some]
  · next hne => rw [List.getElem?_set_ne hne]

/-- A mask of two bits, shifted to a bucket of the word. -/
theorem getLsbD_mask {m : Word} (hm : ∀ q, 2 ≤ q → m.getLsbD q = false) {a b c : ℕ} (hb : b < 16)
    (hc : c < 2) : (m <<< (2 * a)).getLsbD (2 * b + c) = (decide (b = a) && m.getLsbD c) := by
  rw [BitVec.getLsbD_shiftLeft, decide_eq_true (show 2 * b + c < 32 by omega), Bool.true_and]
  rcases lt_trichotomy b a with hlt | rfl | hgt
  · rw [decide_eq_true (show 2 * b + c < 2 * a by omega), decide_eq_false (Nat.ne_of_lt hlt)]
    rfl
  · rw [decide_eq_false (show ¬ 2 * b + c < 2 * b by omega), Nat.add_sub_cancel_left, decide_eq_true rfl]
    rfl
  · rw [hm _ (by omega), decide_eq_false (Nat.ne_of_gt hgt), Bool.and_false, Bool.false_and]

theorem mask_high {m : Word} (hm : m.toNat < 2 ^ 2) (q : ℕ) (hq : 2 ≤ q) : m.getLsbD q = false := by
  rw [BitVec.getLsbD, Nat.testBit_lt_two_pow (hm.trans_le (Nat.pow_le_pow_right (by norm_num) hq))]

/-- What writing the word of a bucket does, when the mask changes this bucket alone. -/
theorem bits_set_eq_update (h : i / 16 < flag.length) {w : Word} {b : Bool × Bool}
    (hw : ∀ r < 16, (w.getLsbD (2 * r + 1), w.getLsbD (2 * r)) =
      if r = i % 16 then b else ((flag.getD (i / 16) 0).getLsbD (2 * r + 1),
        (flag.getD (i / 16) 0).getLsbD (2 * r))) :
    bits (flag.set (i / 16) w) = Function.update (bits flag) i b := by
  funext j
  rw [bits_set h, Function.update_apply]
  by_cases hword : i / 16 = j / 16
  · rw [if_pos hword, hw _ (Nat.mod_lt j (by norm_num)), bits, ← hword]
    by_cases hij : j = i
    · rw [if_pos hij, if_pos (by rw [hij])]
    · rw [if_neg hij, if_neg (by omega)]
  · rw [if_neg hword, if_neg (by rintro rfl; exact hword rfl)]

theorem acClear_ok (h : i / 16 < flag.length) {m : Word} (hm : m.toNat < 2 ^ 2) :
    ∃ flag', acClear flag i m = .ok flag' ∧ flag'.length = flag.length ∧
      bits flag' = Function.update (bits flag) i
        ((bits flag i).1 && !m.getLsbD 1, (bits flag i).2 && !m.getLsbD 0) := by
  have hload : load flag (i / 16 : ℕ) = .ok (flag.getD (i / 16) 0) := by
    rw [load_eq_ok, List.getElem?_eq_getElem h, List.getD_eq_getElem _ _ h]
  refine ⟨flag.set (i / 16) (flag.getD (i / 16) 0 &&& ~~~(m <<< (2 * (i % 16)))), ?_, by simp, ?_⟩
  · rw [acClear, shiftRight_four, hload, ok_bind, flag_shift, store_of_lt h]
  · refine bits_set_eq_update h fun r hr => ?_
    have hbit : ∀ c < 2, (flag.getD (i / 16) 0 &&& ~~~(m <<< (2 * (i % 16)))).getLsbD (2 * r + c) =
        ((flag.getD (i / 16) 0).getLsbD (2 * r + c) && !(decide (r = i % 16) && m.getLsbD c)) := by
      intro c hc
      rw [BitVec.getLsbD_and, BitVec.getLsbD_not, getLsbD_mask (mask_high hm) hr hc,
        decide_eq_true (show 2 * r + c < 32 by omega), Bool.true_and]
    rw [hbit 1 (by norm_num), show 2 * r = 2 * r + 0 from rfl, hbit 0 (by norm_num)]
    split
    · next heq => simp [bits, heq]
    · next hne => simp [hne]

theorem acSetIsEmptyFalse_ok (h : i / 16 < flag.length) :
    ∃ flag', acSetIsEmptyFalse flag i = .ok flag' ∧ flag'.length = flag.length ∧
      bits flag' = Function.update (bits flag) i (false, (bits flag i).2) := by
  have hclear := acClear_ok (i := i) h (m := 2) (by decide)
  simpa [acSetIsEmptyFalse] using hclear

theorem acSetIsBothFalse_ok (h : i / 16 < flag.length) :
    ∃ flag', acSetIsBothFalse flag i = .ok flag' ∧ flag'.length = flag.length ∧
      bits flag' = Function.update (bits flag) i (false, false) := by
  have hclear := acClear_ok (i := i) h (m := 3) (by decide)
  simpa [acSetIsBothFalse] using hclear

theorem acSetIsDelTrue_ok (h : i / 16 < flag.length) :
    ∃ flag', acSetIsDelTrue flag i = .ok flag' ∧ flag'.length = flag.length ∧
      bits flag' = Function.update (bits flag) i ((bits flag i).1, true) := by
  have hload : load flag (i / 16 : ℕ) = .ok (flag.getD (i / 16) 0) := by
    rw [load_eq_ok, List.getElem?_eq_getElem h, List.getD_eq_getElem _ _ h]
  refine ⟨flag.set (i / 16) (flag.getD (i / 16) 0 ||| ((1 : Word) <<< (2 * (i % 16)))), ?_, by simp, ?_⟩
  · rw [acSetIsDelTrue, shiftRight_four, hload, ok_bind, flag_shift, store_of_lt h]
  · refine bits_set_eq_update h fun r hr => ?_
    have hbit : ∀ c < 2, (flag.getD (i / 16) 0 ||| ((1 : Word) <<< (2 * (i % 16)))).getLsbD (2 * r + c) =
        ((flag.getD (i / 16) 0).getLsbD (2 * r + c) || (decide (r = i % 16) && (1 : Word).getLsbD c)) := by
      intro c hc
      rw [BitVec.getLsbD_or, getLsbD_mask (mask_high (by decide)) hr hc]
    rw [hbit 1 (by norm_num), show 2 * r = 2 * r + 0 from rfl, hbit 0 (by norm_num)]
    split
    · next heq => simp [bits, heq]
    · next hne => simp [hne]

theorem div_lt_acFsize {b : ℕ} (hi : i < 2 ^ b) : i / 16 < acFsize (2 ^ b) := by
  rw [acFsize]
  split
  · omega
  · next hge =>
    have hb : 4 ≤ b := (Nat.pow_le_pow_iff_right (by norm_num : 1 < 2)).mp (not_lt.mp hge)
    have hdvd : 16 ∣ 2 ^ b := pow_dvd_pow 2 hb
    rw [shiftRight_four]
    omega

theorem bits_acFresh {m : ℕ} (h : i / 16 < acFsize m) : bits (acFresh m) i = (true, false) := by
  have hw : ∀ r < 16, ((0xaaaaaaaa : Word).getLsbD (2 * r + 1), (0xaaaaaaaa : Word).getLsbD (2 * r)) =
      (true, false) := by decide
  rw [bits, acFresh, List.getD_replicate _ h]
  exact hw _ (Nat.mod_lt i (by norm_num))

/-! ### Sizes -/

theorem testBit_smear {x y w : ℕ} (h : ∀ i, x.testBit i ↔ ∃ d < w, y.testBit (i + d)) (i : ℕ) :
    (smear x w).testBit i ↔ ∃ d < w + w, y.testBit (i + d) := by
  rw [smear, Nat.testBit_or, Nat.testBit_shiftRight, Bool.or_eq_true, h, h]
  constructor
  · rintro (⟨d, hd, hbit⟩ | ⟨d, hd, hbit⟩)
    · exact ⟨d, by omega, hbit⟩
    · exact ⟨w + d, by omega, by rwa [← Nat.add_assoc, Nat.add_comm i w]⟩
  · rintro ⟨d, hd, hbit⟩
    rcases lt_or_ge d w with hlt | hge
    · exact Or.inl ⟨d, hlt, hbit⟩
    · exact Or.inr ⟨d - w, by omega, by rwa [show w + i + (d - w) = i + d by omega]⟩

/-- The five shifts set every bit below the highest one. -/
theorem smear_all {y : ℕ} (hy : y < 2 ^ 32) : [1, 2, 4, 8, 16].foldl smear y = 2 ^ y.size - 1 := by
  have hwin : ∀ i, ([1, 2, 4, 8, 16].foldl smear y).testBit i ↔ ∃ d < 32, y.testBit (i + d) :=
    testBit_smear (testBit_smear (testBit_smear (testBit_smear (testBit_smear (by simp)))))
  refine Nat.eq_of_testBit_eq fun i => ?_
  rw [Nat.testBit_two_pow_sub_one, Bool.eq_iff_iff, hwin, decide_eq_true_iff]
  constructor
  · rintro ⟨d, -, hbit⟩
    have hsize : i + d < y.size := by
      rw [Nat.lt_size]
      exact Nat.ge_two_pow_of_testBit hbit
    omega
  · intro hi
    obtain ⟨j, hj, hbit⟩ := Nat.exists_ge_and_testBit_of_ge_two_pow (Nat.lt_size.mp hi)
    have hlt : j < 32 := by
      by_contra hge
      rw [Nat.testBit_lt_two_pow (hy.trans_le (Nat.pow_le_pow_right (by norm_num) (not_lt.mp hge)))] at hbit
      cases hbit
    exact ⟨j - i, by omega, by rwa [Nat.add_sub_cancel' hj]⟩

theorem pred_of_pos {x : ℕ} (hpos : 0 < x) (hx : x ≤ 2 ^ 32) : pred x = x - 1 := by
  rw [pred, khint]
  omega

/-- `kroundup32` of a request between two powers of two. -/
theorem kroundup32_eq {x b : ℕ} (hlow : 2 ^ b < x) (hhigh : x ≤ 2 ^ (b + 1)) (hb : b + 1 < 32) :
    kroundup32 x = 2 ^ (b + 1) := by
  have hpow : 2 ^ (b + 1) < 2 ^ 32 := Nat.pow_lt_pow_right (by norm_num) hb
  have hsize : (x - 1).size = b + 1 := by
    refine le_antisymm (Nat.size_le.mpr (by omega)) (Nat.lt_size.mpr (by omega))
  have hpos : 0 < 2 ^ (b + 1) := Nat.two_pow_pos _
  rw [kroundup32, pred_of_pos (by omega) (by omega), smear_all (by omega), hsize, khint,
    Nat.sub_add_cancel hpos, Nat.mod_eq_of_lt hpow]

/-- It always gives a power of two, or 0. -/
theorem kroundup32_cases (x : ℕ) : kroundup32 x = 0 ∨ ∃ b < 32, kroundup32 x = 2 ^ b := by
  have hlt : pred x < 2 ^ 32 := Nat.mod_lt _ (Nat.two_pow_pos 32)
  have hsize : (pred x).size ≤ 32 := Nat.size_le.mpr hlt
  rw [kroundup32, smear_all hlt, khint, Nat.sub_add_cancel (Nat.two_pow_pos _)]
  rcases hsize.eq_or_lt with heq | hlt
  · exact Or.inl (by rw [heq, Nat.mod_self])
  · exact Or.inr ⟨_, hlt, Nat.mod_eq_of_lt (Nat.pow_lt_pow_right (by norm_num) hlt)⟩

/-- A size of a table that has buckets. -/
def IsSize (n : ℕ) : Prop := ∃ b, 2 ≤ b ∧ b ≤ 31 ∧ n = 2 ^ b

theorem khTarget_isSize (request : ℕ) : IsSize (khTarget request) := by
  rw [khTarget]
  split
  · exact ⟨2, le_rfl, by norm_num, rfl⟩
  · next hge =>
    rcases kroundup32_cases request with h0 | ⟨b, hb, hpow⟩
    · omega
    · rw [hpow] at hge ⊢
      refine ⟨b, ?_, by omega, rfl⟩
      exact (Nat.pow_le_pow_iff_right (by norm_num : 1 < 2)).mp (not_lt.mp hge)

/-- A request between two powers of two. -/
theorem khTarget_eq {x b : ℕ} (hb : 1 ≤ b) (hlow : 2 ^ b < x) (hhigh : x ≤ 2 ^ (b + 1))
    (hle : b + 1 < 32) : khTarget x = 2 ^ (b + 1) := by
  have hfour : 2 ^ 2 ≤ 2 ^ (b + 1) := Nat.pow_le_pow_right (by norm_num) (by omega)
  rw [khTarget, kroundup32_eq hlow hhigh hle, if_neg (by omega)]

theorem acHashUpper_lt {n : ℕ} (hn : IsSize n) : acHashUpper n < n := by
  obtain ⟨b, hb, -, rfl⟩ := hn
  have hfour : 2 ^ 2 ≤ 2 ^ b := Nat.pow_le_pow_right (by norm_num) hb
  rw [acHashUpper]
  omega

/-- A table that is filled to less than half is below its bound. -/
theorem lt_acHashUpper {n size : ℕ} (h : 2 * size < n) : size < acHashUpper n := by
  rw [acHashUpper]
  omega

/-- Twice the size raises the bound. -/
theorem acHashUpper_double {n : ℕ} (hn : IsSize n) : acHashUpper n < acHashUpper (2 * n) := by
  obtain ⟨b, hb, -, rfl⟩ := hn
  have hfour : 2 ^ 2 ≤ 2 ^ b := Nat.pow_le_pow_right (by norm_num) hb
  rw [acHashUpper, acHashUpper]
  omega

theorem IsSize.pos {n : ℕ} (hn : IsSize n) : 0 < n := by
  obtain ⟨b, -, -, rfl⟩ := hn
  exact Nat.two_pow_pos b

theorem IsSize.le {n : ℕ} (hn : IsSize n) : n ≤ 2 ^ 31 := by
  obtain ⟨b, -, hb, rfl⟩ := hn
  exact Nat.pow_le_pow_right (by norm_num) hb

/-! ### Probes -/

theorem and_pred {n : ℕ} (hn : IsSize n) (x : ℕ) : x &&& pred n = x % n := by
  have hle := hn.le
  rw [pred_of_pos hn.pos (by omega)]
  obtain ⟨b, -, -, rfl⟩ := hn
  exact Nat.and_two_pow_sub_one_eq_mod x b

/-- The walk starts at the first probe. -/
theorem and_pred_eq_probe {n : ℕ} (hn : IsSize n) (x : ℕ) : x &&& pred n = probe n x 0 := by
  rw [and_pred hn, probe_zero]

theorem khint_succ {n s : ℕ} (hn : IsSize n) (hs : s < n) : khint (s + 1) = s + 1 := by
  have hle := hn.le
  exact Nat.mod_eq_of_lt (by omega)

/-- It goes from one probe to the next. -/
theorem khNext_probe {n s : ℕ} (hn : IsSize n) (x : ℕ) (hs : s < n) :
    khNext (pred n) (probe n x s) s = probe n x (s + 1) := by
  have hdvd : n ∣ 2 ^ 32 := by
    obtain ⟨b, -, hb, rfl⟩ := hn
    exact pow_dvd_pow 2 (by omega)
  rw [khNext, khint_succ hn hs, and_pred hn, khint, Nat.mod_mod_of_dvd _ hdvd, probe_succ]

/-- It does not come back to where it started. -/
theorem probe_succ_ne {n s : ℕ} (hn : IsSize n) (x : ℕ) (hs : s + 1 < n) :
    probe n x (s + 1) ≠ probe n x 0 := by
  obtain ⟨b, -, -, rfl⟩ := hn
  exact (probe_ne (Nat.succ_pos s) hs).symm

end Diversity.Khash
