import Diversity.Programs.HashTable.Khash

/-! @src hash_table/khash.h | name:khash hash functions | scheme:modular | family:hashing

    The two functions that khash computes rather than casts. `__ac_Wang_hash` mixes a 32-bit key by steps
    that can each be undone, so that two keys never have one hash. `__ac_X31_hash_string` is a polynomial
    in 31 over the characters, read from the left:

        "Aa" = 65 * 31 + 97 = 2112 = 66 * 31 + 66 = "BB"

    so that these two may be exchanged anywhere in a string. -/

namespace Diversity.Khash

/-! ### `__ac_Wang_hash` -/

/-- `__ac_Wang_hash`. -/
def acWangHash (key : Word) : Word :=
  let key := key + ~~~(key <<< 15)
  let key := key ^^^ (key >>> 10)
  let key := key + (key <<< 3)
  let key := key ^^^ (key >>> 6)
  let key := key + ~~~(key <<< 11)
  key ^^^ (key >>> 16)

/-- `key += ~(key << s)` is a multiplication, and one that `c` undoes. -/
theorem add_not_shift_injective {s : ℕ} (c : Word) (h : (1 - BitVec.twoPow 32 s) * c = 1) :
    Function.Injective fun key : Word => key + ~~~(key <<< s) := by
  have hmul : ∀ key : Word, (key + ~~~(key <<< s) + 1) * c = key := by
    intro key
    calc (key + ~~~(key <<< s) + 1) * c
        = key * ((1 - BitVec.twoPow 32 s) * c) := by
          rw [BitVec.not_eq_neg_add, BitVec.shiftLeft_eq_mul_twoPow, show 1#32 = (1 : Word) from rfl]
          ring
      _ = key := by rw [h, mul_one]
  intro x y hxy
  rw [← hmul x, ← hmul y, show x + ~~~(x <<< s) = y + ~~~(y <<< s) from hxy]

/-- `key += key << s` likewise. -/
theorem add_shift_injective {s : ℕ} (c : Word) (h : (1 + BitVec.twoPow 32 s) * c = 1) :
    Function.Injective fun key : Word => key + (key <<< s) := by
  have hmul : ∀ key : Word, (key + (key <<< s)) * c = key := by
    intro key
    calc (key + (key <<< s)) * c = key * ((1 + BitVec.twoPow 32 s) * c) := by
          rw [BitVec.shiftLeft_eq_mul_twoPow]
          ring
      _ = key := by rw [h, mul_one]
  intro x y hxy
  rw [← hmul x, ← hmul y, show x + (x <<< s) = y + (y <<< s) from hxy]

/-- `key ^= key >> s` leaves the upper bits as they are, and they give the lower ones. -/
theorem xor_shift_injective {s : ℕ} (hs : 0 < s) :
    Function.Injective fun key : Word => key ^^^ (key >>> s) := by
  intro x y hxy
  have hfix : (x ^^^ y) >>> s = x ^^^ y := by
    have hback : x >>> s = x ^^^ (y ^^^ (y >>> s)) := by
      rw [← show x ^^^ (x >>> s) = y ^^^ (y >>> s) from hxy, ← BitVec.xor_assoc, BitVec.xor_self,
        BitVec.zero_xor]
    rw [BitVec.ushiftRight_xor_distrib, hback, BitVec.xor_assoc, BitVec.xor_assoc, BitVec.xor_self,
      BitVec.xor_zero]
  have hnat : (x ^^^ y).toNat = 0 := by
    have hdiv := congrArg BitVec.toNat hfix
    rw [BitVec.toNat_ushiftRight, Nat.shiftRight_eq_div_pow] at hdiv
    by_contra hne
    have hlt := Nat.div_lt_self (Nat.pos_of_ne_zero hne) (Nat.one_lt_two_pow (Nat.ne_of_gt hs))
    omega
  exact BitVec.xor_eq_zero_iff.mp (BitVec.eq_of_toNat_eq hnat)

/-- INJECTIVE: two 32-bit keys never have one hash, so that every hash is that of some key. -/
theorem acWangHash_bijective : Function.Bijective acWangHash := by
  have hinj : Function.Injective acWangHash := by
    have h₁ := add_not_shift_injective (s := 15) (1 + BitVec.twoPow 32 15 + BitVec.twoPow 32 30) (by decide)
    have h₂ := add_shift_injective (s := 3) 0x38E38E39 (by decide)
    have h₃ := add_not_shift_injective (s := 11) (1 + BitVec.twoPow 32 11 + BitVec.twoPow 32 22) (by decide)
    have h₄ : ∀ s, 0 < s → Function.Injective fun key : Word => key ^^^ (key >>> s) :=
      fun s hs => xor_shift_injective hs
    exact (h₄ 16 (by norm_num)).comp (h₃.comp ((h₄ 6 (by norm_num)).comp
      (h₂.comp ((h₄ 10 (by norm_num)).comp h₁))))
  exact Finite.injective_iff_bijective.mp hinj

/-! ### `__ac_X31_hash_string` -/

end Diversity.Khash
