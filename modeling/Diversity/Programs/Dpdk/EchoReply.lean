import Diversity.Programs.Dpdk.PacketHandler
import Diversity.Schemes.OnesComplement

/-! @src client_server/dpdk/src/basicfwd.c | name:ICMP echo | scheme:ones-complement |
    family:checksum

    The ICMP branch of `packet_handler` turns type 8 into type 0 and adds `(8 << 8) + ~(0 << 8)` to the
    checksum as it lies in memory. That is `0x07FF` where the first word of the message lost `0x0800`
    as a big-endian host sees it, or `0x0008` as a little-endian one does, and the carry out of 16
    bits is dropped instead of added. The header is taken to have 20 bytes; with options the branch
    looks at these instead of the message.

        IHL = 5    type 0, and a sum that is off by 1 or 2 (big), by 2039 or 2038 (little)
        IHL > 5    the message keeps type 8                                               -/

namespace Diversity.Dpdk
open Schemes

/-- The header length that an IPv4 frame states, in words. -/
def ihl (frame : List UInt8) : ℕ := (frame.getD 14 0).toNat % 16

/-- The total length that it states. -/
def totalLength (frame : List UInt8) : ℕ := Endian.big.decode ((frame.drop 16).take 2)

/-- The ICMP message: what the total length leaves behind the header. -/
def icmpPart (frame : List UInt8) : List UInt8 :=
  (frame.drop (14 + 4 * ihl frame)).take (totalLength frame - 4 * ihl frame)

/-- The one's-complement sum of a message is `0xFFFF`. -/
def SumsUp (msg : List UInt8) : Prop := foldAll (wordSum .big msg) = 0xFFFF

/-- A frame with a well-formed echo request. -/
structure IsEchoRequest (frame : List UInt8) : Prop where
  etherType : (frame.drop 12).take 2 = [0x08, 0x00]
  version : (frame.getD 14 0).toNat / 16 = 4
  headerLength : 5 ≤ ihl frame
  protocol : frame.getD 23 0 = 1
  messageLength : 4 * ihl frame + 8 ≤ totalLength frame
  covered : 14 + totalLength frame ≤ frame.length
  typeCode : (icmpPart frame).take 2 = [8, 0]
  sumsUp : SumsUp (icmpPart frame)

/-- What should become of it: type 0, a right checksum, and the rest of the message as before. -/
structure IsEchoReply (frame out : List UInt8) : Prop where
  typeCode : (icmpPart out).take 2 = [0, 0]
  sumsUp : SumsUp (icmpPart out)
  body : (icmpPart out).drop 4 = (icmpPart frame).drop 4

/-! ### What the branch changes -/

theorem toNat_updateCksum (c : UInt16) : (updateCksum c).toNat = (c.toNat + 2047) % 65536 := by
  have hreq : ((8 : ℤ) <<< 8) = 2048 := by decide
  have hrep : ~~~((0 : ℤ) <<< 8) = -1 := by decide
  rw [updateCksum, hreq, hrep, UInt16.toNat_ofNat']
  omega

/-- The four bytes from 34 on after the branch. -/
def rewritten (e : Endian) (t code c0 c1 : UInt8) : List UInt8 :=
  if t = 8 then [0, code] ++ e.encode 2 ((e.decode [c0, c1] + 2047) % 65536) else [t, code, c0, c1]

theorem length_rewritten (e : Endian) (t code c0 c1 : UInt8) :
    (rewritten e t code c0 c1).length = 4 := by
  rw [rewritten]
  split <;> simp

/-- The branch rewrites these four bytes when the first is an 8, and nothing else. -/
theorem icmpBranch_spec (e : Endian) {p : List UInt8} (hp : p.length = 34)
    (hproto : p.getD 23 0 = 1) (t code c0 c1 : UInt8) (s : List UInt8) :
    icmpBranch e (p ++ [t, code, c0, c1] ++ s) = .ok (p ++ rewritten e t code c0 c1 ++ s) := by
  have hload23 : load (p ++ [t, code, c0, c1] ++ s) (23 : ℕ) = .ok 1 := by
    apply load_of_getElem?
    rw [List.append_assoc, List.getElem?_append_left (by omega),
      List.getElem?_eq_getElem (by omega), ← hproto, List.getD_eq_getElem _ _ (by omega)]
  have hload34 : load (p ++ [t, code, c0, c1] ++ s) (34 : ℕ) = .ok t := by
    apply load_of_getElem?
    rw [List.append_assoc, List.getElem?_append_right (by omega), hp]
    rfl
  have hpatch : patch (p ++ [t, code, c0, c1] ++ s) 34 [0] = .ok (p ++ [0, code] ++ [c0, c1] ++ s) := by
    have h0 : patch (p ++ [t] ++ ([code, c0, c1] ++ s)) 34 [0] =
        .ok (p ++ [0] ++ ([code, c0, c1] ++ s)) := patch_append hp rfl
    simpa using h0
  have hlen : (p ++ [0, code]).length = 36 := by rw [List.length_append, hp]; rfl
  rw [icmpBranch, show load (p ++ [t, code, c0, c1] ++ s) 23 = .ok 1 from hload23, ok_bind,
    if_pos rfl, show load (p ++ [t, code, c0, c1] ++ s) 34 = .ok t from hload34, ok_bind, rewritten]
  by_cases ht : t = 8
  · rw [if_pos ht, if_pos ht, hpatch, ok_bind, load16_append e hlen rfl, ok_bind,
      store16_append e hlen rfl, toNat_updateCksum, toNat_decode16 e rfl, List.append_assoc p]
  · rw [if_neg ht, if_neg ht]

/-! ### Where the message is -/

section Parts

variable {p x s : List UInt8}

theorem ihl_append (hp : p.length = 34) (r : List UInt8) : ihl (p ++ r) = ihl p := by
  rw [ihl, ihl, List.getD_append _ _ _ _ (by omega)]

theorem totalLength_append (hp : p.length = 34) (r : List UInt8) :
    totalLength (p ++ r) = totalLength p := by
  rw [totalLength, totalLength, List.drop_append_of_le_length (by omega),
    List.take_append_of_le_length (by rw [List.length_drop]; omega)]

/-- Without options the message starts with the rewritten bytes. -/
theorem icmpPart_plain (hp : p.length = 34) (hx : x.length = 4) (h : ihl p = 5)
    (htot : 24 ≤ totalLength p) :
    icmpPart (p ++ x ++ s) = x ++ s.take (totalLength p - 24) := by
  have hoff : 14 + 4 * 5 = p.length := by rw [hp]
  rw [icmpPart, List.append_assoc, ihl_append hp, totalLength_append hp, h, hoff, List.drop_left,
    List.take_append, List.take_of_length_le (by omega), hx]
  congr 2

/-- With options it starts behind them. -/
theorem icmpPart_options (hp : p.length = 34) (hx : x.length = 4) (h : 5 < ihl p) :
    icmpPart (p ++ x ++ s) =
      (s.drop (4 * ihl p - 24)).take (totalLength p - 4 * ihl p) := by
  have hlen : (p ++ x).length = 38 := by rw [List.length_append, hp, hx]
  rw [icmpPart, List.append_assoc, ihl_append hp, totalLength_append hp, ← List.append_assoc,
    List.drop_append, List.drop_of_length_le (by omega), List.nil_append, hlen]
  congr 2
  omega

end Parts

/-! ### Checksums -/

/-- Either byte order can check a sum. -/
theorem sumsUp_iff (e : Endian) (msg : List UInt8) :
    SumsUp msg ↔ wordSum e msg % 65535 = 0 ∧ 0 < wordSum e msg := by
  rw [SumsUp, foldAll_eq_ones]
  cases e with
  | big => exact Iff.rfl
  | little =>
    have hswap := wordSum_swap msg
    have hpos := wordSum_pos_iff msg
    omega

/-- The rewritten checksum is wrong, whatever the rest of the message. -/
theorem rewritten_sum (e : Endian) (c0 c1 : UInt8) (body : List UInt8)
    (h : SumsUp ([8, 0, c0, c1] ++ body)) : ¬ SumsUp (rewritten e 8 0 c0 c1 ++ body) := by
  have hck : e.decode [c0, c1] < 65536 := decode_pair_lt e c0 c1
  have hold : wordSum e ([8, 0, c0, c1] ++ body) =
      e.decode [8, 0] + (e.decode [c0, c1] + wordSum e body) := rfl
  have hnew : wordSum e (rewritten e 8 0 c0 c1 ++ body) =
      (e.decode [c0, c1] + 2047) % 65536 + wordSum e body := by
    have hzero : e.decode [0, 0] = 0 := by cases e <;> rfl
    have hfield : e.decode (e.encode 2 ((e.decode [c0, c1] + 2047) % 65536)) =
        (e.decode [c0, c1] + 2047) % 65536 := by
      rw [e.decode_encode]
      omega
    rw [rewritten, if_pos rfl, wordSum_field e rfl (e.length_encode 2 _), wordSum_pair e rfl, hzero,
      hfield, Nat.zero_add]
  have hrequest : e.decode [8, 0] = 8 ∨ e.decode [8, 0] = 2048 := by cases e <;> decide
  rw [sumsUp_iff e, hold] at h
  rw [sumsUp_iff e, hnew]
  omega

/-! ### Frames -/

/-- Every frame that is long enough has the four bytes that the branch takes for an ICMP header. -/
theorem exists_parts {frame : List UInt8} (h : 38 ≤ frame.length) :
    ∃ p t code c0 c1 s, frame = p ++ [t, code, c0, c1] ++ s ∧ p.length = 34 := by
  obtain ⟨p, x, s, rfl, hp, hx⟩ := exists_field (n := 4) frame (by omega : 34 + 4 ≤ _)
  rcases x with - | ⟨t, - | ⟨code, - | ⟨c0, - | ⟨c1, - | ⟨c2, x⟩⟩⟩⟩⟩
  all_goals first
    | exact ⟨p, t, code, c0, c1, s, rfl, hp⟩
    | exact absurd hx (by simp)

section Request

variable {p s : List UInt8} {t code c0 c1 : UInt8} (hp : p.length = 34)
  (h : IsEchoRequest (p ++ [t, code, c0, c1] ++ s))

include hp h

theorem IsEchoRequest.ihl_le : 5 ≤ ihl p := by
  have hihl := h.headerLength
  rwa [List.append_assoc, ihl_append hp] at hihl

theorem IsEchoRequest.le_totalLength : 4 * ihl p + 8 ≤ totalLength p := by
  have hmsg := h.messageLength
  rwa [List.append_assoc, ihl_append hp, totalLength_append hp] at hmsg

theorem packetHandler_echo (e : Endian) (mac : EtherAddr) :
    packetHandler e mac (p ++ [t, code, c0, c1] ++ s) =
      .ok (p ++ rewritten e t code c0 c1 ++ s) := by
  have hproto := h.protocol
  rw [List.append_assoc, List.getD_append _ _ _ _ (by omega)] at hproto
  have hslice : slice (p ++ [t, code, c0, c1] ++ s) 12 2 = .ok [0x08, 0x00] := by
    rw [slice_of_le (by rw [List.append_assoc, List.length_append]; omega), h.etherType]
  rw [packetHandler_type e mac hslice rfl, if_neg (by decide), if_pos (by decide),
    icmpBranch_spec e hp hproto]

/-- Behind options the message keeps its type. -/
theorem options_not_reply (e : Endian) (hopt : 5 < ihl p) :
    ¬ IsEchoReply (p ++ [t, code, c0, c1] ++ s) (p ++ rewritten e t code c0 c1 ++ s) := by
  intro hreply
  have htype := h.typeCode
  have hnew := hreply.typeCode
  rw [icmpPart_options hp rfl hopt] at htype
  rw [icmpPart_options hp (length_rewritten e t code c0 c1) hopt, htype] at hnew
  exact absurd hnew (by decide)

/-- Without options the type is right and the checksum is not. -/
theorem plain_not_reply (e : Endian) (h5 : ihl p = 5) :
    ¬ IsEchoReply (p ++ [t, code, c0, c1] ++ s) (p ++ rewritten e t code c0 c1 ++ s) := by
  intro hreply
  have hmsg := h.le_totalLength hp
  have htype := h.typeCode
  have hsum := h.sumsUp
  have hsum' := hreply.sumsUp
  rw [icmpPart_plain hp rfl h5 (by omega)] at htype hsum
  rw [icmpPart_plain hp (length_rewritten e t code c0 c1) h5 (by omega)] at hsum'
  obtain ⟨rfl, rfl⟩ : t = 8 ∧ code = 0 := by simpa using htype
  exact rewritten_sum e c0 c1 _ hsum hsum'

end Request

/-- CORRECT (never): on a host of either byte order and for any header length, no well-formed echo
    request becomes an echo reply with a right checksum. -/
theorem echo_reply_never (e : Endian) (mac : EtherAddr) (frame : List UInt8)
    (h : IsEchoRequest frame) :
    ∃ out, packetHandler e mac frame = .ok out ∧ ¬ IsEchoReply frame out := by
  have hihl := h.headerLength
  have hmsg := h.messageLength
  have hcov := h.covered
  obtain ⟨p, t, code, c0, c1, s, rfl, hp⟩ := exists_parts (by omega : 38 ≤ frame.length)
  refine ⟨_, packetHandler_echo hp h e mac, ?_⟩
  rcases Nat.lt_or_ge 5 (ihl p) with hopt | hplain
  · exact options_not_reply hp h e hopt
  · exact plain_not_reply hp h e (Nat.le_antisymm hplain (h.ihl_le hp))

/-- An echo request with no options, identifier 1 and sequence number 1. -/
def ping : List UInt8 :=
  [2, 0, 0, 0, 0, 2, 2, 0, 0, 0, 0, 1, 0x08, 0x00,
    0x45, 0, 0, 28, 0, 0, 0, 0, 64, 1, 0, 0, 192, 168, 10, 1, 192, 168, 10, 97,
    8, 0, 0xF7, 0xFD, 0, 1, 0, 1]

theorem ping_isEchoRequest : IsEchoRequest ping where
  etherType := by decide
  version := by decide
  headerLength := by decide
  protocol := by decide
  messageLength := by decide
  covered := by decide
  typeCode := by decide
  sumsUp := (sumsUp_iff .big _).mpr (by decide)

theorem echo_reply_never_ping : ∃ out,
    packetHandler .little ⟨2, 0, 0, 0, 0, 2⟩ ping = .ok out ∧ ¬ IsEchoReply ping out :=
  echo_reply_never .little ⟨2, 0, 0, 0, 0, 2⟩ ping ping_isEchoRequest

/-- On a big-endian host the checksum of the ping becomes `FFFC`, on a little-endian one `F605`; right
    would be `FFFD`. -/
theorem ping_reply_wrong :
    (packetHandler .big ⟨2, 0, 0, 0, 0, 2⟩ ping =
        .ok (ping.take 34 ++ [0, 0, 0xFF, 0xFC, 0, 1, 0, 1]) ∧
      ¬ IsEchoReply ping (ping.take 34 ++ [0, 0, 0xFF, 0xFC, 0, 1, 0, 1])) ∧
    (packetHandler .little ⟨2, 0, 0, 0, 0, 2⟩ ping =
        .ok (ping.take 34 ++ [0, 0, 0xF6, 0x05, 0, 1, 0, 1]) ∧
      ¬ IsEchoReply ping (ping.take 34 ++ [0, 0, 0xF6, 0x05, 0, 1, 0, 1])) := by
  refine ⟨⟨by decide, fun h => ?_⟩, by decide, fun h => ?_⟩
  · exact absurd ((sumsUp_iff .big _).mp h.sumsUp) (by decide)
  · exact absurd ((sumsUp_iff .big _).mp h.sumsUp) (by decide)

end Diversity.Dpdk
