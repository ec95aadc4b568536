import Diversity.Schemes.Buffer

/-! @scheme bytes | name:Words in memory | family:representation

    What a host of either byte order makes of the bytes of its memory. A word is a number with its
    bytes as digits to the base 256; `Endian` says which end comes first. Fields of a struct are read
    with `slice` and written with `patch`, both of which check that they stay inside the buffer. -/

namespace Schemes

universe u

variable {α : Type u}

/-! ### Byte order -/

/-- The order in which a host keeps the bytes of a word. -/
inductive Endian where
  | little | big
  deriving DecidableEq, Repr

/-- The number whose bytes are `bs`, lowest first. -/
def leNat : List UInt8 → ℕ
  | [] => 0
  | b :: bs => b.toNat + 256 * leNat bs

/-- The `n` low bytes of a number, lowest first. -/
def leBytes : ℕ → ℕ → List UInt8
  | 0, _ => []
  | n + 1, x => UInt8.ofNat x :: leBytes n (x / 256)

namespace Endian

/-- The value of the word that occupies `bs`. -/
def decode : Endian → List UInt8 → ℕ
  | .little, bs => leNat bs
  | .big, bs => leNat bs.reverse

/-- The memory of an `n`-byte word of value `x`. -/
def encode : Endian → ℕ → ℕ → List UInt8
  | .little, n, x => leBytes n x
  | .big, n, x => (leBytes n x).reverse

end Endian

@[simp] theorem length_leBytes : ∀ n x : ℕ, (leBytes n x).length = n
  | 0, _ => rfl
  | n + 1, x => by rw [leBytes, List.length_cons, length_leBytes n]

theorem leNat_lt : ∀ bs : List UInt8, leNat bs < 256 ^ bs.length
  | [] => by decide
  | b :: bs => by
    have hb := b.toNat_lt
    have ih := leNat_lt bs
    rw [leNat, List.length_cons, pow_succ]
    omega

theorem leNat_leBytes : ∀ n x : ℕ, leNat (leBytes n x) = x % 256 ^ n
  | 0, x => by rw [pow_zero, Nat.mod_one]; rfl
  | n + 1, x => by
    have hlow : (UInt8.ofNat x).toNat = x % 256 := UInt8.toNat_ofNat'
    rw [leBytes, leNat, leNat_leBytes n, hlow, pow_succ', Nat.mod_mul]

theorem leBytes_leNat : ∀ bs : List UInt8, leBytes bs.length (leNat bs) = bs
  | [] => rfl
  | b :: bs => by
    have hb := b.toNat_lt
    have hhead : UInt8.ofNat (b.toNat + 256 * leNat bs) = b := by
      apply UInt8.toNat_inj.mp
      rw [UInt8.toNat_ofNat']
      omega
    have htail : (b.toNat + 256 * leNat bs) / 256 = leNat bs := by omega
    rw [List.length_cons, leBytes, leNat, hhead, htail, leBytes_leNat bs]

namespace Endian

@[simp] theorem length_encode (e : Endian) (n x : ℕ) : (e.encode n x).length = n := by
  cases e <;> simp [encode]

theorem decode_lt (e : Endian) (bs : List UInt8) : e.decode bs < 256 ^ bs.length := by
  cases e with
  | little => exact leNat_lt bs
  | big => simpa only [decode, List.length_reverse] using leNat_lt bs.reverse

/-- What was stored is loaded again, up to the width of the word. -/
theorem decode_encode (e : Endian) (n x : ℕ) : e.decode (e.encode n x) = x % 256 ^ n := by
  cases e with
  | little => exact leNat_leBytes n x
  | big => rw [encode, decode, List.reverse_reverse, leNat_leBytes]

theorem encode_decode (e : Endian) (bs : List UInt8) : e.encode bs.length (e.decode bs) = bs := by
  cases e with
  | little => exact leBytes_leNat bs
  | big =>
    have h := leBytes_leNat bs.reverse
    rw [List.length_reverse] at h
    rw [decode, encode, h, List.reverse_reverse]

/-- Different bytes are different words. -/
theorem decode_inj (e : Endian) {bs cs : List UInt8} (hlen : bs.length = cs.length) :
    e.decode bs = e.decode cs ↔ bs = cs := by
  refine ⟨fun h => ?_, congrArg e.decode⟩
  rw [← e.encode_decode bs, ← e.encode_decode cs, h, hlen]

end Endian

/-! ### Fields -/

/-- `b` with the cells from `off` on overwritten by `d`. -/
def splice (b : List α) (off : ℕ) (d : List α) : List α :=
  b.take off ++ d ++ b.drop (off + d.length)

/-- Overwrite the cells from `off` on by `d`. -/
def patch (b : List α) (off : ℕ) (d : List α) : C (List α) :=
  if off + d.length ≤ b.length then .ok (splice b off d) else .error .outOfBounds

theorem patch_of_le {b d : List α} {off : ℕ} (h : off + d.length ≤ b.length) :
    patch b off d = .ok (splice b off d) := if_pos h

theorem splice_append_left {x t d : List α} {off : ℕ} (h : off + d.length ≤ x.length) :
    splice (x ++ t) off d = splice x off d ++ t := by
  rw [splice, splice, List.take_append_of_le_length (by omega),
    List.drop_append_of_le_length h, List.append_assoc (x.take off ++ d)]

/-- A patch inside the front part of a buffer leaves the rest alone. -/
theorem patch_append_left {x t d : List α} {off : ℕ} (h : off + d.length ≤ x.length) :
    patch (x ++ t) off d = .ok (splice x off d ++ t) := by
  rw [patch_of_le (by rw [List.length_append]; omega), splice_append_left h]

/-- A patch over the field between `p` and `s` replaces it. -/
theorem patch_append {p m s d : List α} {off : ℕ} (hp : p.length = off) (hd : d.length = m.length) :
    patch (p ++ m ++ s) off d = .ok (p ++ d ++ s) := by
  have hle : off + d.length ≤ (p ++ m ++ s).length := by
    simp only [List.length_append]
    omega
  have hdrop : (p ++ m ++ s).drop (off + d.length) = s := by
    rw [List.append_assoc, List.drop_append, List.drop_append]
    simp [hp, hd]
  have htake : (p ++ m ++ s).take off = p := by
    rw [List.append_assoc, ← hp, List.take_left]
  rw [patch_of_le hle, splice, htake, hdrop]

/-- A slice of the field between `p` and `s` is the field. -/
theorem slice_append {p m s : List α} {off n : ℕ} (hp : p.length = off) (hm : m.length = n) :
    slice (p ++ m ++ s) off n = .ok m := by
  have hle : off + n ≤ (p ++ m ++ s).length := by
    simp only [List.length_append]
    omega
  rw [slice_of_le hle, List.append_assoc, ← hp, List.drop_left, ← hm, List.take_left]

theorem patch_head {m s d : List α} (hd : d.length = m.length) :
    patch (m ++ s) 0 d = .ok (d ++ s) := patch_append (p := []) rfl hd

theorem slice_head {m s : List α} {n : ℕ} (hm : m.length = n) : slice (m ++ s) 0 n = .ok m :=
  slice_append (p := []) rfl hm

theorem slice_all {m : List α} {n : ℕ} (hm : m.length = n) : slice m 0 n = .ok m := by
  rw [slice_of_le (by omega), List.drop_zero, List.take_of_length_le (by omega)]

/-- `b'` is `b` with some of the cells from `lo` up to `hi` overwritten. -/
structure Changed (lo hi : ℕ) (b b' : List α) : Prop where
  length : b'.length = b.length
  below : b'.take lo = b.take lo
  above : b'.drop hi = b.drop hi

theorem Changed.trans {lo hi : ℕ} {b b' b'' : List α} (h : Changed lo hi b b')
    (h' : Changed lo hi b' b'') : Changed lo hi b b'' :=
  ⟨h'.length.trans h.length, h'.below.trans h.below, h'.above.trans h.above⟩

theorem Changed.widen {lo hi : ℕ} {b b' : List α} (h : Changed lo hi b b') (lo' hi' : ℕ)
    (hlo : lo' ≤ lo) (hhi : hi ≤ hi') : Changed lo' hi' b b' := by
  refine ⟨h.length, ?_, ?_⟩
  · have hcut := congrArg (List.take lo') h.below
    rwa [List.take_take, List.take_take, Nat.min_eq_left hlo] at hcut
  · have hcut := congrArg (List.drop (hi' - hi)) h.above
    rwa [List.drop_drop, List.drop_drop, Nat.add_sub_cancel' hhi] at hcut

/-- Cells before the change are as before. -/
theorem Changed.take_drop {lo hi off n : ℕ} {b b' : List α} (h : Changed lo hi b b')
    (hn : off + n ≤ lo) : (b'.drop off).take n = (b.drop off).take n := by
  have hcut : ∀ c : List α, (c.drop off).take n = ((c.take lo).drop off).take n := fun c => by
    rw [List.drop_take, List.take_take, Nat.min_eq_left (by omega)]
  rw [hcut b', hcut b, h.below]

/-- A patch puts its bytes into place and leaves the cells around them alone. -/
theorem patch_changed {b d : List α} {off lo hi : ℕ} (hlo : lo ≤ off) (hhi : off + d.length ≤ hi)
    (hb : hi ≤ b.length) :
    ∃ b', patch b off d = .ok b' ∧ Changed lo hi b b' ∧ (b'.drop off).take d.length = d := by
  have hlen : (b.take off).length = off := by rw [List.length_take]; omega
  refine ⟨splice b off d, patch_of_le (hhi.trans hb), ⟨?_, ?_, ?_⟩, ?_⟩
  · simp only [splice, List.length_append, List.length_drop, hlen]
    omega
  · rw [splice, List.append_assoc, List.take_append_of_le_length (by omega), List.take_take,
      Nat.min_eq_left hlo]
  · rw [splice, List.drop_append, List.length_append, hlen, List.drop_drop, List.drop_of_length_le
      (by rw [List.length_append, hlen]; exact hhi), List.nil_append]
    congr 1
    omega
  · rw [splice, List.append_assoc, List.drop_append, hlen, Nat.sub_self, List.drop_zero,
      List.drop_of_length_le hlen.le, List.nil_append, List.take_left]

/-- Load the `unsigned short` at `off`. -/
def load16 (e : Endian) (b : List UInt8) (off : ℕ) : C UInt16 := do
  let bs ← slice b off 2
  .ok (UInt16.ofNat (e.decode bs))

/-- Store `w` as an `unsigned short` at `off`. -/
def store16 (e : Endian) (b : List UInt8) (off : ℕ) (w : UInt16) : C (List UInt8) :=
  patch b off (e.encode 2 w.toNat)

theorem load16_append (e : Endian) {p m s : List UInt8} {off : ℕ} (hp : p.length = off)
    (hm : m.length = 2) : load16 e (p ++ m ++ s) off = .ok (UInt16.ofNat (e.decode m)) := by
  rw [load16, slice_append hp hm, ok_bind]

theorem store16_append (e : Endian) {p m s : List UInt8} {off : ℕ} (hp : p.length = off)
    (hm : m.length = 2) (w : UInt16) :
    store16 e (p ++ m ++ s) off w = .ok (p ++ e.encode 2 w.toNat ++ s) :=
  patch_append hp ((e.length_encode 2 w.toNat).trans hm.symm)

/-- The value of a two-byte field is that of the loaded word. -/
theorem toNat_decode16 (e : Endian) {m : List UInt8} (hm : m.length = 2) :
    (UInt16.ofNat (e.decode m)).toNat = e.decode m := by
  have h := e.decode_lt m
  rw [hm] at h
  rw [UInt16.toNat_ofNat']
  omega

theorem decode_encode16 (e : Endian) (w : UInt16) : e.decode (e.encode 2 w.toNat) = w.toNat := by
  rw [e.decode_encode]
  exact Nat.mod_eq_of_lt w.toNat_lt

/-- A prefix that covers a field is cut behind it. -/
theorem take_append_field {p m s : List α} {n : ℕ} (h : p.length + m.length ≤ n) :
    (p ++ m ++ s).take n = p ++ m ++ s.take (n - (p.length + m.length)) := by
  have hlen : (p ++ m).length ≤ n := by rwa [List.length_append]
  rw [List.take_append, List.take_of_length_le hlen, List.length_append]

/-- Every field of a buffer has a part before it and a part behind it. -/
theorem exists_field (b : List α) {off n : ℕ} (h : off + n ≤ b.length) :
    ∃ p m s, b = p ++ m ++ s ∧ p.length = off ∧ m.length = n := by
  refine ⟨b.take off, (b.drop off).take n, (b.drop off).drop n, ?_, ?_, ?_⟩
  · rw [List.append_assoc, List.take_append_drop, List.take_append_drop]
  · rw [List.length_take]
    omega
  · rw [List.length_take, List.length_drop]
    omega

/-- Load the `unsigned` at `off`. -/
def load32 (e : Endian) (b : List UInt8) (off : ℕ) : C UInt32 := do
  let bs ← slice b off 4
  .ok (UInt32.ofNat (e.decode bs))

/-- Store `w` as an `unsigned` at `off`. -/
def store32 (e : Endian) (b : List UInt8) (off : ℕ) (w : UInt32) : C (List UInt8) :=
  patch b off (e.encode 4 w.toNat)

/-- Loaded words are equal when their bytes are. -/
theorem decode16_inj (e : Endian) {m n : List UInt8} (hm : m.length = 2) (hn : n.length = 2) :
    UInt16.ofNat (e.decode m) = UInt16.ofNat (e.decode n) ↔ m = n := by
  rw [← UInt16.toNat_inj, toNat_decode16 e hm, toNat_decode16 e hn, e.decode_inj (hm.trans hn.symm)]

theorem toNat_decode32 (e : Endian) {m : List UInt8} (hm : m.length = 4) :
    (UInt32.ofNat (e.decode m)).toNat = e.decode m := by
  have h := e.decode_lt m
  rw [hm] at h
  rw [UInt32.toNat_ofNat']
  omega

theorem decode32_inj (e : Endian) {m n : List UInt8} (hm : m.length = 4) (hn : n.length = 4) :
    UInt32.ofNat (e.decode m) = UInt32.ofNat (e.decode n) ↔ m = n := by
  rw [← UInt32.toNat_inj, toNat_decode32 e hm, toNat_decode32 e hn, e.decode_inj (hm.trans hn.symm)]

/-- A word that is loaded and stored again moves its bytes. -/
theorem encode_decode32 (e : Endian) {m : List UInt8} (hm : m.length = 4) :
    e.encode 4 (UInt32.ofNat (e.decode m)).toNat = m := by
  have h := e.encode_decode m
  rw [hm] at h
  rw [toNat_decode32 e hm, h]

/-! ### Strings -/

/-- The string at the start of `b`; reading on behind `b` for the end of it is a fault. -/
def cString (b : List UInt8) : C (List UInt8) :=
  if 0 ∈ b then .ok (b.takeWhile (· ≠ 0)) else .error .outOfBounds

/-- A string ends at the first zero. -/
theorem cString_append {s t : List UInt8} (h : ∀ c ∈ s, c ≠ 0) : cString (s ++ 0 :: t) = .ok s := by
  have hmem : (0 : UInt8) ∈ s ++ 0 :: t := List.mem_append_right s List.mem_cons_self
  rw [cString, if_pos hmem, List.takeWhile_append_of_pos (by simpa using h)]
  simp

end Schemes
