import Diversity.Programs.Net.Checksum

/-! @src checksum/main.c, raw_socket/main.c | name:Raw socket sender | scheme:ones-complement |
    family:header

    `init_rawsock` lays an IP and a UDP header into the datagram buffer of a `proposer_state`, and
    every `paxos_send` reuses them: it copies the message behind the headers, sets `check` and then
    `tot_len`, and hands the first `tot_len` bytes to `sendto`. The checksum is taken in front of the
    new length, over as many bytes as the previous length says, and with the previous checksum still
    in its field. The buffer is modelled byte by byte; `Fields` is what the headers hold between two
    sends, and one send is a step on `Fields`.

        0   0x45 0 | tot_len | id | frag_off | ttl protocol | check | saddr | daddr
        20  source | dest | len | check
        28  message …                                                              -/

namespace Diversity.Net
open Schemes

/-- The two programs that share this code: they differ in the size of `datagram`. -/
inductive Program where
  | checksum | rawSocket
  deriving DecidableEq, Repr

/-- `PAXOS_LEN`. -/
def paxosLen : ℕ := 102

/-- `sizeof (datagram)`. -/
def Program.size : Program → ℕ
  | .checksum => 1500
  | .rawSocket => paxosLen

/-- `struct sockaddr_in`: address and port in the order of the wire, which is how they are kept. -/
structure SockAddrIn where
  (a b c d : UInt8)
  (portHigh portLow : UInt8)
  deriving DecidableEq, Repr

/-- The memory of `sin_addr.s_addr`. -/
def SockAddrIn.sAddr (s : SockAddrIn) : List UInt8 := [s.a, s.b, s.c, s.d]

/-- The memory of `sin_port`. -/
def SockAddrIn.sinPort (s : SockAddrIn) : List UInt8 := [s.portHigh, s.portLow]

/-- `htons`. -/
def htons (e : Endian) (x : ℕ) : UInt16 := UInt16.ofNat (e.decode (Endian.big.encode 2 x))

/-- `htonl`. -/
def htonl (e : Endian) (x : ℕ) : UInt32 := UInt32.ofNat (e.decode (Endian.big.encode 4 x))

/-- `init_rawsock`: `datagram` holds whatever `malloc` returned. -/
def initRawsock (e : Endian) (mine dest : SockAddrIn) (datagram : List UInt8) :
    C (List UInt8) := do
  let b ← patch datagram 0 (List.replicate paxosLen 0)
  -- `ihl` and `version` are the halves of the first byte on either host
  let b ← patch b 0 [0x45]
  let b ← patch b 1 [0]
  let b ← store16 e b 4 (htonl e 54321).toUInt16
  let b ← store16 e b 6 0
  let b ← patch b 8 [255]
  let b ← patch b 9 [17]
  let b ← store16 e b 10 0
  let b ← patch b 12 mine.sAddr
  let b ← patch b 16 dest.sAddr
  let b ← patch b 20 mine.sinPort
  let b ← patch b 22 dest.sinPort
  store16 e b 26 0

/-- `paxos_send`: the datagram afterwards, and the bytes that went to `sendto`. -/
def paxosSend (e : Endian) (datagram msg : List UInt8) : C (List UInt8 × List UInt8) := do
  let b ← patch datagram 28 msg
  let totLen ← load16 e b 2
  let check ← csum e b totLen.toNat
  let b ← store16 e b 10 check
  let b ← store16 e b 2 (UInt16.ofNat (20 + 8 + msg.length))
  let b ← store16 e b 24 (htons e (8 + msg.length))
  let b ← store16 e b 26 0
  let totLen ← load16 e b 2
  let sent ← slice b 0 totLen.toNat
  .ok (b, sent)

/-! ### What a valid header is -/

/-- The Internet checksum of the header of a datagram, taken with its `check` zeroed. -/
def headerChecksum (e : Endian) (sent : List UInt8) : C UInt16 := do
  let zeroed ← store16 e sent 10 0
  csum e zeroed 20

/-- The `check` field of a datagram is the checksum of its own header. -/
def HeaderValid (e : Endian) (sent : List UInt8) : Prop :=
  ∃ c, headerChecksum e sent = .ok c ∧ load16 e sent 10 = .ok c

/-- A message that fits behind the headers. -/
structure Message (p : Program) where
  bytes : List UInt8
  fits : 28 + bytes.length ≤ p.size

/-- The sum of the words that `paxos_send` checksums: those below the length of the datagram before. -/
def staleSum (e : Endian) (datagram msg : List UInt8) : C ℕ := do
  let b ← patch datagram 28 msg
  let totLen ← load16 e b 2
  let covered ← slice b 0 totLen.toNat
  .ok (wordSum e covered)

/-- The sum of the words of the header that is about to be sent, without its checksum. -/
def headerSum (e : Endian) (datagram msg : List UInt8) : C ℕ := do
  let b ← store16 e datagram 2 (UInt16.ofNat (20 + 8 + msg.length))
  let b ← store16 e b 10 0
  let header ← slice b 0 20
  .ok (wordSum e header)

/-- The stale words happen to have the sum of the header, as a one's-complement number. -/
def SumsAgree (e : Endian) (datagram msg : List UInt8) : Prop :=
  ∃ s h, staleSum e datagram msg = .ok s ∧ headerSum e datagram msg = .ok h ∧
    s % 65535 = h % 65535

/-- They do at every send of a run. -/
def AgreeAlong {p : Program} (e : Endian) : List UInt8 → List (Message p) → Prop
  | _, [] => True
  | b, msg :: msgs => SumsAgree e b msg.bytes ∧
    ∃ b' sent, paxosSend e b msg.bytes = .ok (b', sent) ∧ AgreeAlong e b' msgs

/-! ### Header fields -/

/-- The id that is left of `htonl (54321)` in 16 bits. -/
def packetId (e : Endian) : UInt16 := (htonl e 54321).toUInt16

/-- What the buffer holds between two sends. -/
structure Fields where
  mine : SockAddrIn
  dest : SockAddrIn
  totLen : UInt16
  check : UInt16
  udpLen : UInt16
  data : List UInt8

namespace Fields

/-- The bytes in front of the data, with `check` as given. -/
def header (e : Endian) (f : Fields) (totLen check : UInt16) : List UInt8 :=
  [0x45, 0] ++ e.encode 2 totLen.toNat ++ e.encode 2 (packetId e).toNat ++ [0, 0, 255, 17] ++
    e.encode 2 check.toNat ++ f.mine.sAddr ++ f.dest.sAddr

/-- The UDP header. -/
def udp (e : Endian) (f : Fields) : List UInt8 :=
  f.mine.sinPort ++ f.dest.sinPort ++ e.encode 2 f.udpLen.toNat ++ [0, 0]

/-- The whole buffer. -/
def bytes (e : Endian) (f : Fields) : List UInt8 :=
  f.header e f.totLen f.check ++ f.udp e ++ f.data

variable (e : Endian) (f : Fields)

@[simp] theorem length_header (totLen check : UInt16) : (f.header e totLen check).length = 20 := by
  simp [header, SockAddrIn.sAddr]

@[simp] theorem length_udp : (f.udp e).length = 8 := by
  simp [udp, SockAddrIn.sinPort]

@[simp] theorem length_bytes : (f.bytes e).length = 28 + f.data.length := by
  simp only [bytes, List.length_append, length_header, length_udp]

theorem store_totLen (w : UInt16) :
    store16 e (f.bytes e) 2 w = .ok ({ f with totLen := w }.bytes e) := by
  rw [store16, patch_of_le (by simp; omega)]
  cases e <;> rfl

theorem store_check (w : UInt16) :
    store16 e (f.bytes e) 10 w = .ok ({ f with check := w }.bytes e) := by
  rw [store16, patch_of_le (by simp; omega)]
  cases e <;> rfl

theorem store_udpLen (w : UInt16) :
    store16 e (f.bytes e) 24 w = .ok ({ f with udpLen := w }.bytes e) := by
  rw [store16, patch_of_le (by simp; omega)]
  cases e <;> rfl

theorem store_udpCheck : store16 e (f.bytes e) 26 0 = .ok (f.bytes e) := by
  rw [store16, patch_of_le (by simp)]
  cases e <;> rfl

theorem load_totLen : load16 e (f.bytes e) 2 = .ok f.totLen := by
  have h : UInt16.ofNat (e.decode (e.encode 2 f.totLen.toNat)) = f.totLen := by
    rw [decode_encode16, UInt16.ofNat_toNat]
  rw [load16, slice_of_le (by simp; omega)]
  cases e <;> exact congrArg Except.ok h

theorem patch_data {msg : List UInt8} (h : msg.length ≤ f.data.length) :
    patch (f.bytes e) 28 msg = .ok ({ f with data := overlay msg f.data }.bytes e) := by
  have hlen : (f.header e f.totLen f.check ++ f.udp e).length = 28 := by simp
  rw [patch_of_le (by simp; omega), splice, bytes, ← hlen, List.take_left, List.drop_append,
    List.drop_of_length_le (by omega), Nat.add_sub_cancel_left, List.nil_append, List.append_assoc]
  rfl

end Fields

/-- `init_rawsock` leaves the headers with no length and no checksum. -/
theorem initRawsock_bytes (e : Endian) (mine dest : SockAddrIn) {datagram : List UInt8}
    (h : paxosLen ≤ datagram.length) :
    initRawsock e mine dest datagram =
      .ok (Fields.bytes e ⟨mine, dest, 0, 0, 0, List.replicate 74 0 ++ datagram.drop paxosLen⟩) := by
  have hmemset : patch datagram 0 (List.replicate paxosLen 0) =
      .ok (List.replicate 28 0 ++ (List.replicate 74 0 ++ datagram.drop paxosLen)) := by
    rw [patch_of_le (by rwa [List.length_replicate, Nat.zero_add])]
    rfl
  generalize List.replicate 74 0 ++ datagram.drop paxosLen = tail at hmemset ⊢
  have hzero : e.encode 2 (UInt16.toNat 0) = [0, 0] := by cases e <;> decide
  simp only [initRawsock, hmemset, ok_bind, store16, hzero, Fields.bytes, Fields.header, Fields.udp]
  -- every later write stays inside the 28 bytes of the two headers
  cases e <;>
  · iterate 11 rw [patch_append_left (Nat.le_of_ble_eq_true rfl), ok_bind]
    rw [patch_append_left (Nat.le_of_ble_eq_true rfl)]
    rfl

/-! ### Sums of headers -/

namespace Fields

variable (e : Endian) (f : Fields)

/-- The checksum is one summand of the header. -/
theorem wordSum_header (totLen check : UInt16) :
    wordSum e (f.header e totLen check) = wordSum e (f.header e totLen 0) + check.toNat := by
  have hzero : (0 : UInt16).toNat = 0 := UInt16.toNat_zero
  have hsum : ∀ c : UInt16, wordSum e (f.header e totLen c) =
      wordSum e ([0x45, 0] ++ e.encode 2 totLen.toNat ++ e.encode 2 (packetId e).toNat ++
        [0, 0, 255, 17]) + c.toNat + wordSum e (f.mine.sAddr ++ f.dest.sAddr) := by
    intro c
    rw [header, List.append_assoc _ f.mine.sAddr, wordSum_field e (by simp) (by simp),
      decode_encode16]
  rw [hsum, hsum]
  omega

theorem wordSum_header_pos (totLen check : UInt16) :
    0 < wordSum e (f.header e totLen check) :=
  wordSum_cons_pos e (by decide) _

/-- The first byte is in the sum as soon as the length is not zero. -/
theorem wordSum_take_pos {n : ℕ} : 0 < wordSum e ((f.bytes e).take n) ↔ n ≠ 0 := by
  rcases n with - | n
  · rw [List.take_zero]
    exact iff_of_false (Nat.lt_irrefl 0) (fun h => h rfl)
  · exact iff_of_true (wordSum_cons_pos e (by decide) _) n.succ_ne_zero

theorem headerChecksum_header (totLen check : UInt16) (rest : List UInt8) :
    ∃ c, headerChecksum e (f.header e totLen check ++ rest) = .ok c ∧
      c.toNat = 65535 - foldAll (wordSum e (f.header e totLen 0)) := by
  have hstore : store16 e (f.header e totLen check ++ rest) 10 0 =
      .ok (f.header e totLen 0 ++ rest) := by
    rw [store16, patch_append_left (by simp)]
    cases e <;> rfl
  have htake : (f.header e totLen 0 ++ rest).take 20 = f.header e totLen 0 := by
    rw [← f.length_header e totLen 0, List.take_left]
  obtain ⟨c, hc, hval⟩ := csum_spec e (f.header e totLen 0 ++ rest) 20 (by simp) (by decide)
  rw [htake] at hval
  exact ⟨c, by rw [headerChecksum, hstore, ok_bind, hc], hval⟩

theorem load_check (totLen check : UInt16) (rest : List UInt8) :
    load16 e (f.header e totLen check ++ rest) 10 = .ok check := by
  have h : UInt16.ofNat (e.decode (e.encode 2 check.toNat)) = check := by
    rw [decode_encode16, UInt16.ofNat_toNat]
  rw [load16, slice_of_le (by simp; omega)]
  cases e <;> exact congrArg Except.ok h

/-- The header of a datagram verifies when its sum is a multiple of `65535`. -/
theorem csum_header (totLen check : UInt16) (rest : List UInt8) :
    csum e (f.header e totLen check ++ rest) 20 = .ok 0 ↔
      (wordSum e (f.header e totLen 0) + check.toNat) % 65535 = 0 := by
  have htake : (f.header e totLen check ++ rest).take 20 = f.header e totLen check := by
    rw [← f.length_header e totLen check, List.take_left]
  have hpos := f.wordSum_header_pos e totLen check
  rw [csum_eq_zero e (by simp) (by decide), htake]
  rw [wordSum_header] at hpos ⊢
  exact and_iff_left hpos

end Fields

/-! ### One send -/

/-- The buffer of `p` with a length field that it can hold. -/
def Fields.Fits (p : Program) (f : Fields) : Prop :=
  28 + f.data.length = p.size ∧ f.totLen.toNat ≤ p.size

/-- The buffer after the `memcpy`. -/
def Fields.copied (f : Fields) (msg : List UInt8) : Fields :=
  { f with data := overlay msg f.data }

/-- The buffer after the send, with the checksum that was computed. -/
def Fields.sent (e : Endian) (f : Fields) (msg : List UInt8) (check : UInt16) : Fields :=
  { f with
    data := overlay msg f.data
    check
    totLen := UInt16.ofNat (20 + 8 + msg.length)
    udpLen := htons e (8 + msg.length) }

theorem Program.size_le (p : Program) : p.size ≤ 1500 := by cases p <;> decide

theorem Message.toNat_newLength {p : Program} (msg : Message p) :
    (UInt16.ofNat (20 + 8 + msg.bytes.length)).toNat = 28 + msg.bytes.length := by
  have hmsg := msg.fits
  have hsize := p.size_le
  rw [UInt16.toNat_ofNat']
  omega

/-- What goes to `sendto` starts with the new header. -/
theorem take_sent (e : Endian) (f : Fields) (msg : List UInt8) (c : UInt16) : ∃ rest,
    ((f.sent e msg c).bytes e).take (28 + msg.length) =
      f.header e (UInt16.ofNat (20 + 8 + msg.length)) c ++ rest := by
  rw [Fields.bytes, List.append_assoc, List.take_append, Fields.length_header,
    List.take_of_length_le (by rw [Fields.length_header]; omega)]
  exact ⟨_, rfl⟩

section Send

variable {p : Program} (e : Endian) {f : Fields} (hf : f.Fits p) (msg : Message p)

include hf

theorem length_copied : ((f.copied msg.bytes).bytes e).length = p.size := by
  have hmsg := msg.fits
  have hdata := hf.1
  rw [Fields.length_bytes, Fields.copied, length_overlay (by omega), hdata]

theorem length_sent (c : UInt16) : ((f.sent e msg.bytes c).bytes e).length = p.size := by
  have hmsg := msg.fits
  have hdata := hf.1
  rw [Fields.length_bytes, Fields.sent, length_overlay (by omega), hdata]

theorem fits_sent (c : UInt16) : (f.sent e msg.bytes c).Fits p := by
  refine ⟨?_, ?_⟩
  · rw [← Fields.length_bytes e, length_sent e hf]
  · exact msg.toNat_newLength.trans_le msg.fits

theorem patch_message :
    patch (f.bytes e) 28 msg.bytes = .ok ((f.copied msg.bytes).bytes e) := by
  have hmsg := msg.fits
  have hdata := hf.1
  exact f.patch_data e (by omega)

/-- `paxos_send` copies the message, takes the checksum over the length before, and sends the new
    length. -/
theorem paxosSend_bytes : ∃ c : UInt16,
    c.toNat = 65535 - foldAll (wordSum e (((f.copied msg.bytes).bytes e).take f.totLen.toNat)) ∧
    paxosSend e (f.bytes e) msg.bytes = .ok ((f.sent e msg.bytes c).bytes e,
      ((f.sent e msg.bytes c).bytes e).take (28 + msg.bytes.length)) := by
  have hsize := p.size_le
  have htot := hf.2
  obtain ⟨c, hc, hval⟩ := csum_spec e ((f.copied msg.bytes).bytes e) f.totLen.toNat
    (by rwa [length_copied e hf]) (by omega)
  have hload : load16 e ((f.copied msg.bytes).bytes e) 2 = .ok f.totLen := Fields.load_totLen e _
  have hslice : slice ((f.sent e msg.bytes c).bytes e) 0 (28 + msg.bytes.length) =
      .ok (((f.sent e msg.bytes c).bytes e).take (28 + msg.bytes.length)) := by
    rw [slice_of_le (by rw [length_sent e hf, Nat.zero_add]; exact msg.fits), List.drop_zero]
  refine ⟨c, hval, ?_⟩
  rw [paxosSend, patch_message e hf, ok_bind, hload, ok_bind, hc, ok_bind, Fields.store_check,
    ok_bind, Fields.store_totLen, ok_bind, Fields.store_udpLen, ok_bind, Fields.store_udpCheck,
    ok_bind, Fields.load_totLen, ok_bind, msg.toNat_newLength]
  exact congrArg (· >>= _) hslice

/-- The two sums that a send would have to agree on, in terms of the fields. -/
theorem sumsAgree_bytes : SumsAgree e (f.bytes e) msg.bytes ↔
    wordSum e (((f.copied msg.bytes).bytes e).take f.totLen.toNat) % 65535 =
      wordSum e (f.header e (UInt16.ofNat (20 + 8 + msg.bytes.length)) 0) % 65535 := by
  have hload : load16 e ((f.copied msg.bytes).bytes e) 2 = .ok f.totLen := Fields.load_totLen e _
  have hstale : staleSum e (f.bytes e) msg.bytes =
      .ok (wordSum e (((f.copied msg.bytes).bytes e).take f.totLen.toNat)) := by
    rw [staleSum, patch_message e hf, ok_bind, hload, ok_bind,
      slice_of_le (by rw [length_copied e hf, Nat.zero_add]; exact hf.2), ok_bind, List.drop_zero]
  have hheader : headerSum e (f.bytes e) msg.bytes = .ok (wordSum e
      (f.header e (UInt16.ofNat (20 + 8 + msg.bytes.length)) 0)) := by
    rw [headerSum, Fields.store_totLen, ok_bind, Fields.store_check, ok_bind,
      slice_of_le (by rw [Fields.length_bytes]; omega), ok_bind, List.drop_zero, Fields.bytes,
      List.append_assoc, List.take_append_of_le_length (by rw [Fields.length_header]),
      List.take_of_length_le (by rw [Fields.length_header])]
    rfl
  constructor
  · rintro ⟨s, h, hs, hh, hmod⟩
    rw [hstale, Except.ok.injEq] at hs
    rw [hheader, Except.ok.injEq] at hh
    rwa [hs, hh]
  · exact fun hmod => ⟨_, _, hstale, hheader, hmod⟩

/-- The header that is sent sums up to zero exactly when the two sums agree. -/
theorem csum_sent {c : UInt16}
    (hval : c.toNat =
      65535 - foldAll (wordSum e (((f.copied msg.bytes).bytes e).take f.totLen.toNat)))
    (rest : List UInt8) :
    csum e (f.header e (UInt16.ofNat (20 + 8 + msg.bytes.length)) c ++ rest) 20 = .ok 0 ↔
      SumsAgree e (f.bytes e) msg.bytes := by
  rw [Fields.csum_header, sumsAgree_bytes e hf]
  have hlt := foldAll_lt (wordSum e (((f.copied msg.bytes).bytes e).take f.totLen.toNat))
  have hmod := foldAll_mod (wordSum e (((f.copied msg.bytes).bytes e).take f.totLen.toNat))
  omega

/-- For its `check` field to be the checksum of the header there must also have been a datagram
    before: the sum of no words is the other zero. -/
theorem headerValid_sent {c : UInt16}
    (hval : c.toNat =
      65535 - foldAll (wordSum e (((f.copied msg.bytes).bytes e).take f.totLen.toNat)))
    (rest : List UInt8) :
    HeaderValid e (f.header e (UInt16.ofNat (20 + 8 + msg.bytes.length)) c ++ rest) ↔
      SumsAgree e (f.bytes e) msg.bytes ∧ f.totLen ≠ 0 := by
  obtain ⟨c₀, hc₀, hval₀⟩ := f.headerChecksum_header e
    (UInt16.ofNat (20 + 8 + msg.bytes.length)) c rest
  have hcheck : HeaderValid e
      (f.header e (UInt16.ofNat (20 + 8 + msg.bytes.length)) c ++ rest) ↔ c₀.toNat = c.toNat := by
    rw [HeaderValid, hc₀, Fields.load_check, UInt16.toNat_inj]
    constructor
    · rintro ⟨c', h, h'⟩
      exact (Except.ok.inj h).trans (Except.ok.inj h').symm
    · rintro rfl
      exact ⟨_, rfl, rfl⟩
  have htot : f.totLen ≠ 0 ↔ f.totLen.toNat ≠ 0 := by
    rw [Ne, Ne, ← UInt16.toNat_inj, UInt16.toNat_zero]
  have hpos := f.wordSum_header_pos e (UInt16.ofNat (20 + 8 + msg.bytes.length)) 0
  have hlt := foldAll_lt (wordSum e (((f.copied msg.bytes).bytes e).take f.totLen.toNat))
  have hlt₀ := foldAll_lt (wordSum e (f.header e (UInt16.ofNat (20 + 8 + msg.bytes.length)) 0))
  have hfold : c₀.toNat = c.toNat ↔
      foldAll (wordSum e (((f.copied msg.bytes).bytes e).take f.totLen.toNat)) =
        foldAll (wordSum e (f.header e (UInt16.ofNat (20 + 8 + msg.bytes.length)) 0)) := by omega
  rw [hcheck, hfold, foldAll_eq_iff, sumsAgree_bytes e hf, htot,
    ← (f.copied msg.bytes).wordSum_take_pos e]
  exact and_congr_right fun _ => iff_true_right hpos

/-- What one send does: the buffer keeps its layout, and the two sums decide on the datagram. -/
theorem paxosSend_step : ∃ (f' : Fields) (d : List UInt8),
    paxosSend e (f.bytes e) msg.bytes = .ok (f'.bytes e, d) ∧ f'.Fits p ∧
    (csum e d 20 = .ok 0 ↔ SumsAgree e (f.bytes e) msg.bytes) ∧
    (HeaderValid e d ↔ SumsAgree e (f.bytes e) msg.bytes ∧ f.totLen ≠ 0) := by
  obtain ⟨c, hval, hsend⟩ := paxosSend_bytes e hf msg
  obtain ⟨rest, hrest⟩ := take_sent e f msg.bytes c
  rw [hrest] at hsend
  exact ⟨_, _, hsend, fits_sent e hf msg c, csum_sent e hf msg hval rest,
    headerValid_sent e hf msg hval rest⟩

end Send

/-! ### Runs -/

/-- A run of sends from a laid-out buffer: the datagrams it sends all sum up to zero exactly when
    the two sums agree at every send. -/
theorem run_csum {p : Program} (e : Endian) : ∀ (msgs : List (Message p)) {f : Fields}, f.Fits p →
    ∃ b sents, runOps (fun b (msg : Message p) => paxosSend e b msg.bytes) (f.bytes e) msgs =
        .ok (b, sents) ∧ sents.length = msgs.length ∧
      ((∀ d ∈ sents, csum e d 20 = .ok 0) ↔ AgreeAlong e (f.bytes e) msgs)
  | [], f, _ => ⟨_, [], rfl, rfl, iff_of_true (by simp) trivial⟩
  | msg :: msgs, f, hf => by
    obtain ⟨f', d, hsend, hf', hsum, -⟩ := paxosSend_step e hf msg
    obtain ⟨b, sents, hrun, hlen, hiff⟩ := run_csum e msgs hf'
    refine ⟨b, d :: sents, ?_, by rw [List.length_cons, List.length_cons, hlen], ?_⟩
    · simp only [runOps, hsend, hrun, ok_bind]
    · rw [List.forall_mem_cons, hsum, hiff, AgreeAlong, hsend]
      simp

/-- The first datagram after `init_rawsock` carries the checksum of no bytes at all. -/
theorem first_invalid {p : Program} (e : Endian) {f : Fields} (hf : f.Fits p) (h0 : f.totLen = 0)
    {b : List UInt8} {sents : List (List UInt8)} {msg : Message p} {msgs : List (Message p)}
    (hrun : runOps (fun b (msg : Message p) => paxosSend e b msg.bytes) (f.bytes e) (msg :: msgs) =
      .ok (b, sents)) : ∃ d ∈ sents, ¬ HeaderValid e d := by
  obtain ⟨f', d, hsend, hf', -, hvalid⟩ := paxosSend_step e hf msg
  obtain ⟨b', rest, hrest, -, -⟩ := run_csum e msgs hf'
  simp only [runOps, hsend, hrest, ok_bind, Except.ok.injEq, Prod.mk.injEq] at hrun
  refine ⟨d, by rw [← hrun.2]; exact List.mem_cons_self, fun hd => ?_⟩
  exact (hvalid.mp hd).2 h0

/-- CORRECT (when nothing is sent): after `init_rawsock` a run of sends hands out only datagrams whose
    `check` is the checksum of their header exactly when it hands out none. That the headers sum up
    to zero, the weaker reading that does not tell the two zeros apart, holds exactly when at every
    send the stale sum happens to agree with that of the new header. -/
theorem rawsock_checksums (p : Program) (e : Endian) (mem : Fin p.size → UInt8)
    (mine dest : SockAddrIn) (msgs : List (Message p)) :
    ∃ b₀ b sents, initRawsock e mine dest (List.ofFn mem) = .ok b₀ ∧
      runOps (fun b (msg : Message p) => paxosSend e b msg.bytes) b₀ msgs = .ok (b, sents) ∧
      sents.length = msgs.length ∧
      ((∀ d ∈ sents, HeaderValid e d) ↔ msgs = []) ∧
      ((∀ d ∈ sents, csum e d 20 = .ok 0) ↔ AgreeAlong e b₀ msgs) := by
  have hsize : paxosLen ≤ (List.ofFn mem).length := by
    rw [List.length_ofFn]
    cases p <;> decide
  have hinit := initRawsock_bytes e mine dest hsize
  set f₀ : Fields := ⟨mine, dest, 0, 0, 0, List.replicate 74 0 ++ (List.ofFn mem).drop paxosLen⟩
  have hfits : f₀.Fits p := by
    refine ⟨?_, Nat.zero_le _⟩
    simp only [f₀, List.length_append, List.length_replicate, List.length_drop, List.length_ofFn]
    cases p <;> decide
  obtain ⟨b, sents, hrun, hlen, hsums⟩ := run_csum e msgs hfits
  refine ⟨_, b, sents, hinit, hrun, hlen, ?_, hsums⟩
  rcases msgs with - | ⟨msg, msgs⟩
  · rw [List.length_nil, List.length_eq_zero_iff] at hlen
    exact iff_of_true (by simp [hlen]) rfl
  · obtain ⟨d, hd, hbad⟩ := first_invalid e hfits rfl hrun
    exact iff_of_false (fun hall => hbad (hall d hd)) (List.cons_ne_nil _ _)

/-- `main` sends "ABC123456789" from 192.168.4.97:12345 to 224.3.29.73:34952. -/
def mainDatagram : List UInt8 :=
  [0x45, 0, 40, 0, 0, 0, 0, 0, 255, 17, 0xFF, 0xFF, 192, 168, 4, 97, 224, 3, 29, 73,
    0x30, 0x39, 0x88, 0x88, 0, 20, 0, 0, 65, 66, 67, 49, 50, 51, 52, 53, 54, 55, 56, 57]

/-- The only datagram of `main` leaves with `0xFFFF` where its header has checksum `0x96D1`. -/
theorem main_sends_wrong_check :
    (do let b₀ ← initRawsock .little ⟨192, 168, 4, 97, 0x30, 0x39⟩ ⟨224, 3, 29, 73, 0x88, 0x88⟩
          (List.replicate 102 0)
        let (_, sents) ← runOps (fun b (msg : Message .rawSocket) => paxosSend .little b msg.bytes)
          b₀ [⟨mainDatagram.drop 28, by decide⟩]
        .ok sents : C (List (List UInt8))) = .ok [mainDatagram] ∧
    ¬ HeaderValid .little mainDatagram ∧ csum .little mainDatagram 20 ≠ .ok 0 := by
  refine ⟨by decide +kernel, ?_, by decide +kernel⟩
  rintro ⟨c, hc, hload⟩
  have hsum : headerChecksum .little mainDatagram = .ok 0x96D1 := by decide +kernel
  have hfield : load16 .little mainDatagram 10 = .ok 0xFFFF := by decide +kernel
  rw [hsum] at hc
  rw [hfield, ← hc] at hload
  exact absurd hload (by decide)

end Diversity.Net
