import Diversity.Schemes.OnesComplement

/-! @src checksum/main.c, raw_socket/main.c | name:csum | scheme:ones-complement | family:checksum

    `csum` adds the 16-bit words of a buffer in host order into a `long`, folds the carry twice and
    returns the complement. The buffers are datagrams whose length is a 16-bit field, so the sum has
    at most `32768` summands and two folds are as good as any number of them. Everything about
    checksums is then a congruence modulo `65535`: storing the complement makes the sum a positive
    multiple of `65535`, one changed word leaves it one only when the word turned from one zero into
    the other, and the two byte orders differ by the factor `256`.

        sum          < 2 ^ 31
        first fold   ≤ 0x7ffe + 0xffff
        second fold  carries nothing more    -/

namespace Diversity.Net
open Schemes

/-- The `while` loop and the odd byte behind it: `ptr`, `nbytes` and `sum` are its variables. -/
def csumLoop (e : Endian) (buf : List UInt8) : ℕ → ℕ → ℕ → C ℕ
  | ptr, nbytes + 2, sum => do
    let w ← load16 e buf ptr
    csumLoop e buf (ptr + 2) nbytes (sum + w.toNat)
  | ptr, 1, sum => do
    let odd ← load buf ptr
    let oddbyte ← store ([0, 0] : List UInt8) 0 odd
    .ok (sum + e.decode oddbyte)
  | _, 0, sum => .ok sum

/-- `csum`. -/
def csum (e : Endian) (buf : List UInt8) (nbytes : ℕ) : C UInt16 := do
  let sum ← csumLoop e buf 0 nbytes 0
  let sum := (sum >>> 16) + (sum &&& 0xffff)
  let sum := sum + (sum >>> 16)
  .ok (~~~UInt16.ofNat sum)

/-! ### The loop -/

theorem csumLoop_eq (e : Endian) (buf : List UInt8) : ∀ ptr nbytes sum : ℕ,
    ptr + nbytes ≤ buf.length →
      csumLoop e buf ptr nbytes sum = .ok (sum + wordSum e ((buf.drop ptr).take nbytes))
  | ptr, 0, sum, _ => by rw [csumLoop, List.take_zero, wordSum, Nat.add_zero]
  | ptr, 1, sum, h => by
    obtain ⟨p, m, s, rfl, hp, hm⟩ := exists_field buf h
    obtain ⟨a, rfl⟩ := List.length_eq_one_iff.mp hm
    have hload : load (p ++ [a] ++ s) ptr = .ok a := by
      apply load_of_getElem?
      rw [List.append_assoc, List.getElem?_append_right (by omega), hp, Nat.sub_self]
      rfl
    rw [csumLoop, hload, ok_bind, List.append_assoc, ← hp, List.drop_left]
    rfl
  | ptr, nbytes + 2, sum, h => by
    obtain ⟨p, m, s, rfl, hp, hm⟩ := exists_field (n := 2) buf (by omega : ptr + 2 ≤ _)
    have hdrop : ((p ++ m ++ s).drop ptr).take (nbytes + 2) =
        m ++ ((p ++ m ++ s).drop (ptr + 2)).take nbytes := by
      rw [Nat.add_comm nbytes 2, take_drop_add, List.append_assoc, ← hp, List.drop_left, ← hm,
        List.take_left]
    rw [csumLoop, load16_append e hp hm, ok_bind, csumLoop_eq e _ _ _ _ (by omega), hdrop,
      wordSum_append e m (by rw [hm]), wordSum_pair e hm, toNat_decode16 e hm, Nat.add_assoc]

/-! ### Two folds -/

/-- The second fold is a whole one: what it carries fits into the low 16 bits. -/
theorem secondFold {y : ℕ} (h : y ≤ 131070) :
    (y + y / 65536) % 65536 = fold16 y ∧ fold16 y < 65536 := by
  rw [fold16]
  omega

/-- Two folds leave the folded sum in the low 16 bits. -/
theorem twoFolds {x : ℕ} (h : x < 2 ^ 32) :
    ((x >>> 16) + (x &&& 0xffff) + ((x >>> 16) + (x &&& 0xffff)) >>> 16) % 65536 = foldAll x := by
  have hfold : (x >>> 16) + (x &&& 0xffff) = fold16 x := by
    rw [fold16, Nat.shiftRight_eq_div_pow, Nat.and_two_pow_sub_one_eq_mod x 16]
  have hle : fold16 x ≤ 131070 := by
    rw [fold16]
    omega
  obtain ⟨hsecond, hlt⟩ := secondFold hle
  rw [hfold, Nat.shiftRight_eq_div_pow, hsecond]
  exact foldAll_unique hlt ((fold16_mod _).trans (fold16_mod x)) (fold16_pos.trans fold16_pos)

theorem toNat_complement (x : ℕ) : (~~~UInt16.ofNat x).toNat = 65535 - x % 65536 := by
  rw [UInt16.toNat_not, UInt16.toNat_ofNat']
  rfl

/-- The buffers that the callers checksum are datagrams, so the sum stays far below `2 ^ 32`. -/
theorem wordSum_take_lt (e : Endian) (buf : List UInt8) {nbytes : ℕ} (h : nbytes ≤ 65535) :
    wordSum e (buf.take nbytes) < 2 ^ 31 := by
  have hsum := wordSum_le e (buf.take nbytes)
  have hlen := List.length_take_le nbytes buf
  omega

/-- `csum` complements the folded sum of the words it was given. -/
theorem csum_spec (e : Endian) (buf : List UInt8) (nbytes : ℕ) (hbuf : nbytes ≤ buf.length)
    (h : nbytes ≤ 65535) : ∃ c, csum e buf nbytes = .ok c ∧
      c.toNat = 65535 - foldAll (wordSum e (buf.take nbytes)) := by
  have hlt := wordSum_take_lt e buf h
  have hloop := csumLoop_eq e buf 0 nbytes 0 (by omega)
  rw [Nat.zero_add, List.drop_zero] at hloop
  refine ⟨_, by rw [csum, hloop, ok_bind], ?_⟩
  rw [toNat_complement, twoFolds (by omega)]

/-- CORRECT: on any buffer `csum` is the Internet checksum. -/
theorem csum_internet (e : Endian) (buf : List UInt8) (nbytes : ℕ) (hbuf : nbytes ≤ buf.length)
    (h : nbytes ≤ 65535) : ∃ c : UInt16, csum e buf nbytes = .ok c ∧
      c.toNat = 0xFFFF - foldAll (wordSum e (buf.take nbytes)) :=
  csum_spec e buf nbytes hbuf h

/-- Three bytes whose words `0xFFFF` and `0x0001` carry on a little-endian host. -/
theorem csum_internet_odd : ∃ c : UInt16, csum .little [0xFF, 0xFF, 0x01] 3 = .ok c ∧
    c.toNat = 0xFFFF - foldAll (wordSum .little (([0xFF, 0xFF, 0x01] : List UInt8).take 3)) :=
  csum_internet .little [0xFF, 0xFF, 0x01] 3 (by decide) (by decide)

example : csum .little [0xFF, 0xFF, 0x01] 3 = .ok 0xFFFE := by decide

/-! ### Verification -/

/-- The checksum over a buffer is zero when its sum is one of the positive multiples of `65535`. -/
theorem csum_eq_zero (e : Endian) {buf : List UInt8} {nbytes : ℕ} (hbuf : nbytes ≤ buf.length)
    (h : nbytes ≤ 65535) : csum e buf nbytes = .ok 0 ↔
      wordSum e (buf.take nbytes) % 65535 = 0 ∧ 0 < wordSum e (buf.take nbytes) := by
  obtain ⟨c, hc, hval⟩ := csum_spec e _ _ hbuf h
  have hlt := foldAll_lt (wordSum e (buf.take nbytes))
  rw [hc, Except.ok.injEq, ← UInt16.toNat_inj, hval, ← foldAll_eq_ones, UInt16.toNat_zero]
  omega

/-- The sum over a buffer around the word at an even offset. -/
theorem wordSum_take_field (e : Endian) {p m s : List UInt8} {nbytes : ℕ} (hp : p.length % 2 = 0)
    (hm : m.length = 2) (h : p.length + 2 ≤ nbytes) :
    wordSum e ((p ++ m ++ s).take nbytes) =
      wordSum e p + e.decode m + wordSum e (s.take (nbytes - (p.length + 2))) := by
  rw [take_append_field (by omega), wordSum_field e hp hm, hm]

/-- The complement of a sum fills a zero word up to a positive multiple of `65535`. -/
theorem csum_stored (e : Endian) {p s : List UInt8} {nbytes : ℕ} {c : UInt16}
    (hp : p.length % 2 = 0) (hk : p.length + 2 ≤ nbytes)
    (hbuf : nbytes ≤ (p ++ [0, 0] ++ s).length) (h : nbytes ≤ 65535)
    (hc : csum e (p ++ [0, 0] ++ s) nbytes = .ok c) :
    csum e (p ++ e.encode 2 c.toNat ++ s) nbytes = .ok 0 := by
  have hm : (e.encode 2 c.toNat).length = 2 := e.length_encode 2 c.toNat
  have hzero : e.decode [0, 0] = 0 := by cases e <;> rfl
  obtain ⟨c', hc', hval⟩ := csum_spec e _ _ hbuf h
  rw [hc, Except.ok.injEq] at hc'
  subst hc'
  rw [wordSum_take_field e hp rfl hk, hzero] at hval
  have hlen : nbytes ≤ (p ++ e.encode 2 c.toNat ++ s).length := by
    simpa only [List.length_append, hm, List.length_cons, List.length_nil] using hbuf
  rw [csum_eq_zero e hlen h, wordSum_take_field e hp hm hk, decode_encode16]
  have hlt := foldAll_lt (wordSum e p + 0 + wordSum e (s.take (nbytes - (p.length + 2))))
  have hmod := foldAll_mod (wordSum e p + 0 + wordSum e (s.take (nbytes - (p.length + 2))))
  have hpos := foldAll_pos (x := wordSum e p + 0 + wordSum e (s.take (nbytes - (p.length + 2))))
  omega

/-- A changed word is noticed, unless it changed from one zero to the other. -/
theorem csum_changed (e : Endian) {p m m' s : List UInt8} {nbytes : ℕ} (hp : p.length % 2 = 0)
    (hm : m.length = 2) (hm' : m'.length = 2) (hj : p.length + 2 ≤ nbytes)
    (hbuf : nbytes ≤ (p ++ m ++ s).length) (h : nbytes ≤ 65535)
    (hok : csum e (p ++ m ++ s) nbytes = .ok 0) (hbad : csum e (p ++ m' ++ s) nbytes = .ok 0) :
    e.decode m % 65535 = e.decode m' % 65535 := by
  have hlen : nbytes ≤ (p ++ m' ++ s).length := by
    simpa only [List.length_append, hm, hm'] using hbuf
  have hsum := ((csum_eq_zero e hbuf h).mp hok).1
  have hsum' := ((csum_eq_zero e hlen h).mp hbad).1
  rw [wordSum_take_field e hp hm hj] at hsum
  rw [wordSum_take_field e hp hm' hj] at hsum'
  omega

/-- Two words with one residue modulo `65535` are equal or the two zeros. -/
theorem word_residue {w w' : UInt16} (hmod : w.toNat % 65535 = w'.toNat % 65535) (hne : w' ≠ w) :
    ({w, w'} : Set UInt16) = {0x0000, 0xFFFF} := by
  have hw := w.toNat_lt
  have hw' := w'.toNat_lt
  have hval : w'.toNat ≠ w.toNat := fun hv => hne (UInt16.toNat_inj.mp hv)
  have hcases : w.toNat = 0 ∧ w'.toNat = 65535 ∨ w.toNat = 65535 ∧ w'.toNat = 0 := by omega
  have hzero : ∀ {v : UInt16}, v.toNat = 0 → v = 0x0000 := fun hv => UInt16.toNat_inj.mp hv
  have hones : ∀ {v : UInt16}, v.toNat = 65535 → v = 0xFFFF := fun hv => UInt16.toNat_inj.mp hv
  rcases hcases with ⟨h0, h1⟩ | ⟨h1, h0⟩
  · rw [hzero h0, hones h1]
  · rw [hzero h0, hones h1, Set.pair_comm]

/-- CORRECT: a buffer with its checksum stored in a word that was zero has checksum zero, and no
    longer has it when a single word of it changes, unless from one zero to the other. -/
theorem csum_verifies (e : Endian) (buf : List UInt8) (nbytes k : ℕ) (hbuf : nbytes ≤ buf.length)
    (h : nbytes ≤ 65535) (heven : k % 2 = 0) (hk : k + 2 ≤ nbytes)
    (hzero : slice buf k 2 = .ok [0, 0]) :
    ∃ c b', csum e buf nbytes = .ok c ∧ store16 e buf k c = .ok b' ∧ csum e b' nbytes = .ok 0 ∧
      ∀ (j : ℕ) (w w' : UInt16), j % 2 = 0 → j + 2 ≤ nbytes → load16 e b' j = .ok w → w' ≠ w →
        ({w, w'} : Set UInt16) ≠ {0x0000, 0xFFFF} →
          ∃ b'' c'', store16 e b' j w' = .ok b'' ∧ csum e b'' nbytes = .ok c'' ∧ c'' ≠ 0 := by
  obtain ⟨p, m, s, rfl, hp, hm⟩ := exists_field buf (hk.trans hbuf)
  rw [slice_append hp hm, Except.ok.injEq] at hzero
  subst hzero hp
  obtain ⟨c, hc, -⟩ := csum_spec e _ _ hbuf h
  have hok := csum_stored e heven hk hbuf h hc
  have hlen : nbytes ≤ (p ++ e.encode 2 c.toNat ++ s).length := by
    simpa only [List.length_append, e.length_encode, List.length_cons, List.length_nil] using hbuf
  refine ⟨c, _, hc, store16_append e rfl rfl c, hok, ?_⟩
  generalize p ++ e.encode 2 c.toNat ++ s = b' at hok hlen
  rintro j w w' hj hjn hload hne hzeros
  obtain ⟨q, n, t, rfl, rfl, hn⟩ := exists_field b' (hjn.trans hlen)
  rw [load16_append e rfl hn, Except.ok.injEq] at hload
  have hn' : (e.encode 2 w'.toNat).length = 2 := e.length_encode 2 w'.toNat
  obtain ⟨c'', hc'', -⟩ := csum_spec e (q ++ e.encode 2 w'.toNat ++ t) nbytes
    (by simpa only [List.length_append, hn, hn'] using hlen) h
  refine ⟨_, c'', store16_append e rfl hn w', hc'', ?_⟩
  rintro rfl
  refine hzeros (word_residue ?_ hne)
  have hmod := csum_changed e hj hn hn' hjn hlen h hok hc''
  rwa [decode_encode16, ← toNat_decode16 e hn, hload] at hmod

/-- A header of six bytes with its check field in the middle; then `0x0102` becomes `0x0103`. -/
theorem csum_verifies_header :
    ∃ c b', csum .big [0x01, 0x02, 0, 0, 0xFF, 0xFE] 6 = .ok c ∧
      store16 .big [0x01, 0x02, 0, 0, 0xFF, 0xFE] 2 c = .ok b' ∧ csum .big b' 6 = .ok 0 ∧
      ∀ (j : ℕ) (w w' : UInt16), j % 2 = 0 → j + 2 ≤ 6 → load16 .big b' j = .ok w → w' ≠ w →
        ({w, w'} : Set UInt16) ≠ {0x0000, 0xFFFF} →
          ∃ b'' c'', store16 .big b' j w' = .ok b'' ∧ csum .big b'' 6 = .ok c'' ∧ c'' ≠ 0 :=
  csum_verifies .big [0x01, 0x02, 0, 0, 0xFF, 0xFE] 6 2 (by decide) (by decide) (by decide)
    (by decide) rfl

/-! ### Byte order -/

theorem encode16_little (x : ℕ) : Endian.little.encode 2 x =
    [UInt8.ofNat x, UInt8.ofNat (x / 256)] := rfl

theorem encode16_big (x : ℕ) : Endian.big.encode 2 x =
    [UInt8.ofNat (x / 256), UInt8.ofNat x] := rfl

/-- A swapped word occupies on one host the bytes that the word occupies on the other. -/
theorem encode_swap16 {x : ℕ} (h : x < 65536) :
    Endian.big.encode 2 (swap16 x) = Endian.little.encode 2 x := by
  have hbyte : ∀ {y z : ℕ}, y % 256 = z % 256 → UInt8.ofNat y = UInt8.ofNat z := by
    intro y z hyz
    apply UInt8.toNat_inj.mp
    rw [UInt8.toNat_ofNat', UInt8.toNat_ofNat']
    exact hyz
  have hhigh : (x % 256 * 256 + x / 256) / 256 = x % 256 := by omega
  have hlow : (x % 256 * 256 + x / 256) % 256 = x / 256 % 256 := by omega
  rw [encode16_little, encode16_big, swap16, hhigh, hbyte (Nat.mod_mod x 256), hbyte hlow]

/-- CORRECT: hosts of the two byte orders compute byte-swapped checksums of a buffer, and so leave
    the same two bytes in memory wherever they store them. -/
theorem csum_byteOrder (buf : List UInt8) (nbytes : ℕ) (hbuf : nbytes ≤ buf.length)
    (h : nbytes ≤ 65535) : ∃ l b : UInt16, csum .little buf nbytes = .ok l ∧
      csum .big buf nbytes = .ok b ∧ b.toNat = swap16 l.toNat ∧
      Endian.little.encode 2 l.toNat = Endian.big.encode 2 b.toNat ∧
      ∀ (mem : List UInt8) (off : ℕ), store16 .little mem off l = store16 .big mem off b := by
  obtain ⟨l, hl, hlval⟩ := csum_spec .little buf nbytes hbuf h
  obtain ⟨b, hb, hbval⟩ := csum_spec .big buf nbytes hbuf h
  have hlt := foldAll_lt (wordSum .little (buf.take nbytes))
  have hswap : b.toNat = swap16 l.toNat := by
    rw [hbval, hlval, foldAll_wordSum_swap, swap16, swap16]
    omega
  have hbytes : Endian.little.encode 2 l.toNat = Endian.big.encode 2 b.toNat := by
    rw [hswap, encode_swap16 l.toNat_lt]
  refine ⟨l, b, hl, hb, hswap, hbytes, ?_⟩
  intro mem off
  rw [store16, store16, hbytes]

theorem csum_byteOrder_odd : ∃ l b : UInt16, csum .little [0x12, 0x34, 0x56] 3 = .ok l ∧
    csum .big [0x12, 0x34, 0x56] 3 = .ok b ∧ b.toNat = swap16 l.toNat ∧
    Endian.little.encode 2 l.toNat = Endian.big.encode 2 b.toNat ∧
    ∀ (mem : List UInt8) (off : ℕ), store16 .little mem off l = store16 .big mem off b :=
  csum_byteOrder [0x12, 0x34, 0x56] 3 (by decide) (by decide)

example : csum .little [0x12, 0x34, 0x56] 3 = .ok 0xCB97 ∧
    csum .big [0x12, 0x34, 0x56] 3 = .ok 0x97CB := by decide

end Diversity.Net
