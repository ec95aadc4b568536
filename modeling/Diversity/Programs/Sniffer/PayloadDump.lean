import Diversity.Schemes.Machine
import Diversity.Schemes.Hex

/-! @src libpcap/sniffex.c | name:Payload dump | scheme:hex | family:text

    `print_payload` prints the bytes of a packet in lines of 16: the offset, the bytes in hex with a wider
    space after the eighth, and the bytes again as characters, with a dot for what is not printable.

        00016   48 6f 73 74 3a 20 61 0d  0a 0d 0a                  Host: a....

    The bytes can be read off the text again, whatever they are: the columns stand at the same places in
    every line, and no byte prints as a newline. `len` is what the caller computed from the packet; the
    bytes are read where they are in memory, and nothing checks that there are so many. -/

namespace Diversity.Sniffex
open Schemes

/-! ### `print_hex_ascii_line` -/

/-- One turn of the loop over the hex columns. -/
def hexBody (mem : List UInt8) (payload : ℕ) (out : List UInt8) (i : ℕ) : C (List UInt8) := do
  let b ← load mem (payload + i : ℕ)
  .ok (out ++ hexColumns [b] ++ if i = 7 then [32] else [])

/-- `isprint`, in the C locale. -/
def isprint (c : UInt8) : Bool := 32 ≤ c && c ≤ 126

/-- The character of a byte. -/
def shown (b : UInt8) : UInt8 := if isprint b then b else 46

/-- One turn of the loop over the characters. -/
def asciiBody (mem : List UInt8) (payload : ℕ) (out : List UInt8) (i : ℕ) : C (List UInt8) := do
  let b ← load mem (payload + i : ℕ)
  .ok (out ++ [shown b])

/-- Everything between the hex columns and the characters. -/
def fill (len : ℕ) : List UInt8 :=
  (if len < 8 then [32] else []) ++ (if len < 16 then List.replicate (3 * (16 - len)) 32 else []) ++
    [32, 32, 32]

/-- `print_hex_ascii_line`, for the `len` bytes at `payload`. -/
def printHexAsciiLine (mem : List UInt8) (payload len offset : ℕ) : C (List UInt8) := do
  let hex ← (List.range len).foldlM (hexBody mem payload) []
  let ascii ← (List.range len).foldlM (asciiBody mem payload) []
  .ok (zeroPadded 5 offset ++ [32, 32, 32] ++ hex ++ fill len ++ ascii ++ [10])

/-! ### `print_payload` -/

/-- What its loop works on. -/
structure Dump where
  ch : ℕ
  lenRem : ℕ
  offset : ℕ
  out : List UInt8

/-- `line_width % len_rem`. -/
def lineLen (lenRem : ℕ) : C ℕ := if lenRem = 0 then .error .divByZero else .ok (16 % lenRem)

/-- One turn of the loop. -/
def payloadBody (mem : List UInt8) (d : Dump) : C (Iter Dump (List UInt8)) := do
  let len ← lineLen d.lenRem
  let line ← printHexAsciiLine mem d.ch len d.offset
  let d : Dump :=
    { ch := d.ch + len, lenRem := d.lenRem - len, offset := d.offset + 16, out := d.out ++ line }
  if d.lenRem ≤ 16 then do
    let line ← printHexAsciiLine mem d.ch d.lenRem d.offset
    .ok (.done (d.out ++ line))
  else .ok (.next d)

/-- `print_payload`. -/
def printPayload (mem : List UInt8) (payload : ℕ) (len : ℤ) : C (List UInt8) :=
  if len ≤ 0 then .ok []
  else if len ≤ 16 then printHexAsciiLine mem payload len.toNat 0
  else loop (payloadBody mem) len.toNat { ch := payload, lenRem := len.toNat, offset := 0, out := [] }

/-! ### The text -/

/-- The hex columns of a line. -/
def hexPart (bs : List UInt8) : List UInt8 :=
  hexColumns (bs.take 8) ++ (if 8 ≤ bs.length then [32] else []) ++ hexColumns (bs.drop 8)

/-- The line of up to 16 bytes. -/
def lineText (offset : ℕ) (bs : List UInt8) : List UInt8 :=
  zeroPadded 5 offset ++ [32, 32, 32] ++ hexPart bs ++ fill bs.length ++ bs.map shown ++ [10]

/-- The lines of any number of bytes. -/
def dumpText (offset : ℕ) (bs : List UInt8) : List UInt8 :=
  if bs.length ≤ 16 then lineText offset bs
  else lineText offset (bs.take 16) ++ dumpText (offset + 16) (bs.drop 16)
termination_by bs.length
decreasing_by
  rw [List.length_drop]
  omega

variable {mem pre bs post : List UInt8} {payload len offset : ℕ}

/-- A byte that is there. -/
theorem load_inside {i : ℕ} (hi : i < bs.length) :
    load (pre ++ bs ++ post) (pre.length + i : ℕ) = .ok bs[i] := by
  refine load_of_getElem? ?_
  rw [List.append_assoc, List.getElem?_append_right (Nat.le_add_right _ _), Nat.add_sub_cancel_left,
    List.getElem?_append_left hi, List.getElem?_eq_getElem hi]

/-- Up to 8 bytes are in the first half. -/
theorem hexPart_of_le (h : bs.length ≤ 8) :
    hexPart bs = hexColumns bs ++ if bs.length = 8 then [32] else [] := by
  rw [hexPart, List.take_of_length_le h, List.drop_eq_nil_of_le h, hexColumns_nil, List.append_nil]
  simp only [show 8 ≤ bs.length ↔ bs.length = 8 by omega]

/-- One more byte in the hex columns. -/
theorem hexPart_concat (bs : List UInt8) (b : UInt8) :
    hexPart (bs ++ [b]) = hexPart bs ++ hexColumns [b] ++ if bs.length = 7 then [32] else [] := by
  have hlen : (bs ++ [b]).length = bs.length + 1 := by rw [List.length_append, List.length_singleton]
  rcases Nat.lt_or_ge bs.length 8 with h | h
  · rw [hexPart_of_le (by omega), hexPart_of_le h.le, hlen, if_neg (Nat.ne_of_lt h), List.append_nil,
      hexColumns_append]
    simp only [show bs.length + 1 = 8 ↔ bs.length = 7 by omega]
  · rw [hexPart, hexPart, hlen, if_pos (by omega), if_pos h, if_neg (by omega),
      List.take_append_of_le_length h, List.drop_append_of_le_length h, hexColumns_append]
    simp

/-- LINE: the loops print the line of the bytes that are there. -/
theorem printHexAsciiLine_spec (pre bs post : List UInt8) (offset : ℕ) :
    printHexAsciiLine (pre ++ bs ++ post) pre.length bs.length offset = .ok (lineText offset bs) := by
  obtain ⟨hex, hhex, rfl⟩ := foldlM_range_total (f := hexBody (pre ++ bs ++ post) pre.length)
    (I := fun i out => out = hexPart (bs.take i)) bs.length [] rfl (by
      rintro i out hi rfl
      refine ⟨_, ?_, rfl⟩
      have hlen : (bs.take i).length = i := by
        rw [List.length_take]
        omega
      rw [hexBody, load_inside hi, ok_bind, List.take_succ_eq_append_getElem hi, hexPart_concat, hlen])
  obtain ⟨ascii, hascii, rfl⟩ := foldlM_range_total (f := asciiBody (pre ++ bs ++ post) pre.length)
    (I := fun i out => out = (bs.take i).map shown) bs.length [] rfl (by
      rintro i out hi rfl
      refine ⟨_, ?_, rfl⟩
      rw [asciiBody, load_inside hi, ok_bind, List.take_succ_eq_append_getElem hi, List.map_append]
      rfl)
  rw [printHexAsciiLine, hhex, ok_bind, hascii, ok_bind, List.take_length, lineText]

/-- A line that was printed had all its bytes. -/
theorem printHexAsciiLine_inside {out : List UInt8} (h : printHexAsciiLine mem payload len offset = .ok out)
    (hlen : 0 < len) : payload + len ≤ mem.length := by
  obtain ⟨hex, hhex, -⟩ := exists_of_bind_ok h
  obtain ⟨len, rfl⟩ : ∃ k, len = k + 1 := ⟨len - 1, by omega⟩
  rw [List.range_succ, List.foldlM_append] at hhex
  obtain ⟨out', -, hlast⟩ := exists_of_bind_ok hhex
  rw [List.foldlM_cons] at hlast
  obtain ⟨_, hturn, -⟩ := exists_of_bind_ok hlast
  obtain ⟨b, hb, -⟩ := exists_of_bind_ok hturn
  obtain ⟨hlt, -⟩ := List.getElem?_eq_some_iff.mp (load_eq_ok.mp hb)
  omega

/-! ### The loop -/

/-- Where two lines or more are left, the next has 16 bytes. -/
theorem lineLen_spec (h : 16 < len) : lineLen len = .ok 16 := by
  rw [lineLen, if_neg (by omega), Nat.mod_eq_of_lt h]

/-- RUN: the loop prints line after line. -/
theorem payloadLoop_spec : ∀ (fuel : ℕ) (pre bs post : List UInt8) (offset : ℕ) (out : List UInt8),
    16 < bs.length → bs.length ≤ fuel →
    loop (payloadBody (pre ++ bs ++ post)) fuel
      { ch := pre.length, lenRem := bs.length, offset := offset, out := out } =
        .ok (out ++ dumpText offset bs)
  | 0, _, _, _, _, _, hlen, hfuel => absurd hfuel (by omega)
  | fuel + 1, pre, bs, post, offset, out, hlen, hfuel => by
    have htake : (bs.take 16).length = 16 := by
      rw [List.length_take]
      omega
    have hdrop : (bs.drop 16).length = bs.length - 16 := List.length_drop
    -- the line is at the front of what is left, and the rest behind it
    have hmem : pre ++ bs ++ post = pre ++ bs.take 16 ++ (bs.drop 16 ++ post) := by
      rw [List.append_assoc, List.append_assoc, ← List.append_assoc (bs.take 16), List.take_append_drop]
    have hmem' : pre ++ bs ++ post = (pre ++ bs.take 16) ++ bs.drop 16 ++ post := by
      rw [hmem, List.append_assoc (pre ++ bs.take 16)]
    have hline : printHexAsciiLine (pre ++ bs ++ post) pre.length 16 offset =
        .ok (lineText offset (bs.take 16)) := by
      have hspec := printHexAsciiLine_spec pre (bs.take 16) (bs.drop 16 ++ post) offset
      rwa [htake, ← hmem] at hspec
    have hch : (pre ++ bs.take 16).length = pre.length + 16 := by rw [List.length_append, htake]
    have hdump : dumpText offset bs = lineText offset (bs.take 16) ++ dumpText (offset + 16) (bs.drop 16) := by
      rw [dumpText, if_neg (by omega)]
    by_cases hlast : bs.length - 16 ≤ 16
    · have hrest := printHexAsciiLine_spec (pre ++ bs.take 16) (bs.drop 16) post (offset + 16)
      rw [← hmem', hch, hdrop] at hrest
      refine loop_done ?_ fuel
      simp only [payloadBody, lineLen_spec hlen, ok_bind, hline, if_pos hlast, hrest]
      rw [hdump, dumpText, if_pos (by omega), List.append_assoc]
    · have hbody : payloadBody (pre ++ bs ++ post)
          { ch := pre.length, lenRem := bs.length, offset := offset, out := out } =
          .ok (.next { ch := pre.length + 16, lenRem := bs.length - 16, offset := offset + 16,
                       out := out ++ lineText offset (bs.take 16) }) := by
        simp only [payloadBody, lineLen_spec hlen, ok_bind, hline, if_neg hlast]
      have hrest := payloadLoop_spec fuel (pre ++ bs.take 16) (bs.drop 16) post (offset + 16)
        (out ++ lineText offset (bs.take 16)) (by omega) (by omega)
      rw [← hmem', hch, hdrop] at hrest
      rw [loop_next hbody, hrest, hdump, List.append_assoc]

/-- The loop prints nothing that is not there. -/
theorem payloadLoop_inside : ∀ (fuel : ℕ) {d : Dump} {out : List UInt8}, 16 < d.lenRem →
    loop (payloadBody mem) fuel d = .ok out → d.ch + d.lenRem ≤ mem.length
  | 0, _, _, _, h => by cases h
  | fuel + 1, d, out, hlen, h => by
    have hbody : ∀ {r}, payloadBody mem d = .ok r →
        (∃ d', r = .next d' ∧ d'.ch + d'.lenRem = d.ch + d.lenRem ∧ 16 < d'.lenRem) ∨
          d.ch + d.lenRem ≤ mem.length := by
      intro r hr
      simp only [payloadBody, lineLen_spec hlen, ok_bind] at hr
      obtain ⟨line, -, hr⟩ := exists_of_bind_ok hr
      split at hr
      · obtain ⟨last, hlast, -⟩ := exists_of_bind_ok hr
        have hinside := printHexAsciiLine_inside hlast (by omega)
        exact Or.inr (by omega)
      · next hmore =>
        cases hr
        exact Or.inl ⟨_, rfl, by change d.ch + 16 + (d.lenRem - 16) = _; omega, not_le.mp hmore⟩
    rcases loop_ok_cases h with hdone | ⟨d', hnext, hloop⟩
    · rcases hbody hdone with ⟨d', heq, -⟩ | hle
      · cases heq
      · exact hle
    · rcases hbody hnext with ⟨d'', heq, hsum, hlen'⟩ | hle
      · cases heq
        have hle := payloadLoop_inside fuel hlen' hloop
        omega
      · exact hle

/-- PAYLOAD: what is printed for bytes that are there. -/
theorem printPayload_spec (pre bs post : List UInt8) :
    printPayload (pre ++ bs ++ post) pre.length bs.length = .ok (if bs = [] then [] else dumpText 0 bs) := by
  by_cases hnil : bs = []
  · subst hnil
    rfl
  have hpos := List.length_pos_of_ne_nil hnil
  rw [printPayload, if_neg (by omega), if_neg hnil]
  split
  · next hle =>
    rw [Int.toNat_natCast, printHexAsciiLine_spec, dumpText, if_pos (by omega)]
  · next hgt =>
    rw [Int.toNat_natCast, payloadLoop_spec _ pre bs post 0 [] (by omega) le_rfl, List.nil_append]

/-- And nothing is printed for bytes that are not. -/
theorem printPayload_inside {len : ℤ} {out : List UInt8} (h : printPayload mem payload len = .ok out) :
    len ≤ 0 ∨ payload + len ≤ mem.length := by
  rw [printPayload] at h
  split at h
  · next hle => exact Or.inl hle
  · next hpos =>
    refine Or.inr ?_
    split at h
    · have hinside := printHexAsciiLine_inside h (by omega)
      omega
    · have hinside := payloadLoop_inside _ (by change 16 < len.toNat; omega) h
      change payload + len.toNat ≤ mem.length at hinside
      omega

/-! ### Reading the text -/

/-- The bytes of a line: two groups of eight columns. -/
def readLine (line : List UInt8) : List UInt8 :=
  let first := readColumns 8 (line.drop 8)
  if first.length < 8 then first else first ++ readColumns 8 (line.drop 33)

/-- The bytes of a text. -/
def readDump (text : List UInt8) : List UInt8 := (splitLines [] text).flatMap readLine

theorem fill_eq_cons (len : ℕ) : ∃ rest, fill len = 32 :: rest := by
  rw [fill]
  by_cases h8 : len < 8
  · exact ⟨_, by rw [if_pos h8]; rfl⟩
  by_cases h16 : len < 16
  · obtain ⟨n, hn⟩ : ∃ n, 3 * (16 - len) = n + 1 := ⟨3 * (16 - len) - 1, by omega⟩
    exact ⟨_, by rw [if_neg h8, if_pos h16, hn, List.replicate_succ]; rfl⟩
  · exact ⟨_, by rw [if_neg h8, if_neg h16]; rfl⟩

/-- Behind the columns there is a blank. -/
theorem readColumns_fill (n len : ℕ) (rest : List UInt8) : readColumns n (fill len ++ rest) = [] := by
  obtain ⟨blank, hfill⟩ := fill_eq_cons len
  rw [hfill, List.cons_append, readColumns_blank]

/-- READ: a line reads back as its bytes. -/
theorem readLine_spec (hlen : bs.length ≤ 16) (hoff : offset < 10 ^ 5) (chars : List UInt8) :
    readLine (zeroPadded 5 offset ++ [32, 32, 32] ++ hexPart bs ++ fill bs.length ++ chars) = bs := by
  have hpad : (zeroPadded 5 offset ++ [32, 32, 32]).length = 8 := by
    rw [List.length_append, length_zeroPadded (by norm_num) hoff]
    rfl
  rw [List.append_assoc, List.append_assoc, readLine, List.drop_left' hpad]
  rcases Nat.lt_or_ge bs.length 8 with h | h
  · have hpart : hexPart bs = hexColumns bs := by
      rw [hexPart_of_le h.le, if_neg (Nat.ne_of_lt h), List.append_nil]
    rw [hpart, readColumns_append h.le, readColumns_fill, List.append_nil, if_pos h]
  · have htake : (bs.take 8).length = 8 := by
      rw [List.length_take]
      omega
    have hdrop : (bs.drop 8).length ≤ 8 := by
      rw [List.length_drop]
      omega
    have hfirst : readColumns 8 (hexPart bs ++ (fill bs.length ++ chars)) = bs.take 8 := by
      rw [hexPart, List.append_assoc, List.append_assoc, readColumns_append htake.le, htake]
      exact List.append_nil _
    have hfront : (zeroPadded 5 offset ++ [32, 32, 32] ++ (hexColumns (bs.take 8) ++ [32])).length = 33 := by
      rw [List.length_append, hpad, List.length_append, length_hexColumns, htake]
      rfl
    rw [hfirst, htake, if_neg (by omega), hexPart, if_pos h, List.append_assoc _ (hexColumns (bs.drop 8)),
      ← List.append_assoc (zeroPadded 5 offset ++ [32, 32, 32]), List.drop_left' hfront,
      readColumns_append hdrop, readColumns_fill, List.append_nil, List.take_append_drop]

/-- No byte prints as a newline. -/
theorem newline_notMem_line (bs : List UInt8) (offset : ℕ) :
    10 ∉ zeroPadded 5 offset ++ [32, 32, 32] ++ hexPart bs ++ fill bs.length ++ bs.map shown := by
  have hshown : ∀ b, shown b ≠ 10 := by
    intro b hb
    rw [shown] at hb
    split at hb
    · next hprint =>
      rw [hb] at hprint
      exact absurd hprint (by decide)
    · exact absurd hb (by decide)
  have hfill : 10 ∉ fill bs.length := by
    simp only [fill, List.mem_append, not_or]
    refine ⟨⟨?_, ?_⟩, by decide⟩
    · split <;> decide
    · split
      · exact fun h => absurd (List.eq_of_mem_replicate h) (by decide)
      · decide
  have hpart : 10 ∉ hexPart bs := by
    simp only [hexPart, List.mem_append, not_or]
    refine ⟨⟨newline_notMem_hexColumns _, ?_⟩, newline_notMem_hexColumns _⟩
    split <;> decide
  simp only [List.mem_append, not_or]
  refine ⟨⟨⟨⟨newline_notMem_zeroPadded _ _, by decide⟩, hpart⟩, hfill⟩, fun h => ?_⟩
  obtain ⟨b, -, hb⟩ := List.mem_map.mp h
  exact hshown b hb

/-- READ: so does a text, line by line. -/
theorem readDump_dumpText (offset : ℕ) (bs : List UInt8) (h : offset + bs.length ≤ 10 ^ 5)
    (hpos : 0 < bs.length) : readDump (dumpText offset bs) = bs := by
  have hline : ∀ (cs : List UInt8) (rest : List UInt8), cs.length ≤ 16 → offset < 10 ^ 5 →
      readDump (lineText offset cs ++ rest) = cs ++ readDump rest := by
    intro cs rest hcs hoff
    rw [lineText, readDump, List.append_assoc, List.singleton_append,
      splitLines_append (newline_notMem_line cs offset), List.nil_append, List.flatMap_cons,
      readLine_spec hcs hoff, readDump]
  rw [dumpText]
  split
  · next hle =>
    have hrest := hline bs [] hle (by omega)
    rw [List.append_nil] at hrest
    rw [hrest]
    exact List.append_nil bs
  · next hgt =>
    have hlt : (bs.drop 16).length < bs.length := by
      rw [List.length_drop]
      omega
    rw [hline _ _ (by rw [List.length_take]; omega) (by omega),
      readDump_dumpText (offset + 16) (bs.drop 16) (by rw [List.length_drop]; omega)
        (by rw [List.length_drop]; omega), List.take_append_drop]
termination_by bs.length

end Diversity.Sniffex
