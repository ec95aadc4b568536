import Diversity.Schemes.Bytes
import Diversity.Programs.Sniffer.PayloadDump

/-! @src libpcap/sniffex.c | name:got_packet | scheme:bytes | family:header

    `got_packet` is called for every packet that libpcap captures. It believes the headers: where the TCP
    segment lies and how long it is comes from the three length fields, and neither is compared with the
    number of bytes that were captured.

        0        14                14+size_ip      +size_tcp            14+ip_len
        ethernet │ IP: len, hl, p  │ TCP: ports, off │ segment           │ padding

    `needed` is the number of bytes that it reads for a packet. With that many captured it prints the
    segment, from which the bytes can be read again; with fewer it reads past the end. A packet that was cut
    at `SNAP_LEN`, and one whose `ip_len` is wrong, are such. -/

namespace Diversity.Sniffex
open Schemes

/-- What the switch over `ip_p` tells apart. -/
inductive Proto where
  | tcp | udp | icmp | ip | unknown
  deriving DecidableEq

/-- `ip_p`. -/
def proto (p : UInt8) : Proto :=
  if p = 6 then .tcp else if p = 17 then .udp else if p = 1 then .icmp else if p = 0 then .ip else .unknown

/-- What is printed, in the order of the source. -/
inductive Printed where
  | number (count : ℕ)
  | invalidIp (sizeIp : ℕ)
  | source (addr : List UInt8)
  | dest (addr : List UInt8)
  | protocol (p : Proto)
  | invalidTcp (sizeTcp : ℕ)
  | srcPort (port : ℕ)
  | dstPort (port : ℕ)
  | payload (sizePayload : ℤ) (text : List UInt8)
  deriving DecidableEq

/-- `ntohs` of a field. -/
def ntohs (pkt : List UInt8) (off : ℕ) : C ℕ := do
  let b ← slice pkt off 2
  .ok (Endian.big.decode b)

/-- `IP_HL(ip)*4`. -/
def ipHl (vhl : UInt8) : ℕ := (vhl &&& 0x0f).toNat * 4

/-- `TH_OFF(tcp)*4`. -/
def thOff (offx2 : UInt8) : ℕ := ((offx2 &&& 0xf0) >>> 4).toNat * 4

/-- The last lines of `got_packet`. -/
def gotPayload (pkt : List UInt8) (payload : ℕ) (sizePayload : ℤ) : C (List Printed) :=
  if sizePayload > 0 then do
    let text ← printPayload pkt payload sizePayload
    .ok [.payload sizePayload text]
  else .ok []

/-- `got_packet` from the TCP header on. -/
def gotSegment (pkt : List UInt8) (sizeIp : ℕ) : C (List Printed) := do
  let offx2 ← load pkt (14 + sizeIp + 12 : ℕ)
  let sizeTcp := thOff offx2
  if sizeTcp < 20 then .ok [.invalidTcp sizeTcp]
  else do
    let sport ← ntohs pkt (14 + sizeIp)
    let dport ← ntohs pkt (14 + sizeIp + 2)
    let len ← ntohs pkt 16
    let payload ← gotPayload pkt (14 + sizeIp + sizeTcp) (len - (sizeIp + sizeTcp : ℕ))
    .ok ([.srcPort sport, .dstPort dport] ++ payload)

/-- `got_packet`, with its static counter. -/
def gotPacket (count : ℕ) (pkt : List UInt8) : C (ℕ × List Printed) := do
  let vhl ← load pkt (14 : ℕ)
  let sizeIp := ipHl vhl
  if sizeIp < 20 then .ok (count + 1, [.number count, .invalidIp sizeIp])
  else do
    let src ← slice pkt 26 4
    let dst ← slice pkt 30 4
    let p ← load pkt (23 : ℕ)
    let out := [.number count, .source src, .dest dst, .protocol (proto p)]
    if proto p = .tcp then do
      let segment ← gotSegment pkt sizeIp
      .ok (count + 1, out ++ segment)
    else .ok (count + 1, out)

/-! ### What the headers say -/

variable {pkt : List UInt8} {count : ℕ}

/-- The byte at an offset, 0 behind the end. -/
def byteAt (pkt : List UInt8) (i : ℕ) : UInt8 := pkt.getD i 0

def sizeIp (pkt : List UInt8) : ℕ := ipHl (byteAt pkt 14)

def sizeTcp (pkt : List UInt8) : ℕ := thOff (byteAt pkt (14 + sizeIp pkt + 12))

def ipLen (pkt : List UInt8) : ℕ := Endian.big.decode ((pkt.drop 16).take 2)

/-- The packet is one whose segment is looked for. -/
def IsTcp (pkt : List UInt8) : Prop := 20 ≤ sizeIp pkt ∧ byteAt pkt 23 = 6 ∧ 20 ≤ sizeTcp pkt

instance : Decidable (IsTcp pkt) := inferInstanceAs (Decidable (_ ∧ _))

/-- The TCP segment. -/
def segment (pkt : List UInt8) : List UInt8 :=
  if IsTcp pkt then (pkt.drop (14 + sizeIp pkt + sizeTcp pkt)).take (ipLen pkt - (sizeIp pkt + sizeTcp pkt))
  else []

/-- The bytes that a reader of the output gets. -/
def readBack (out : List Printed) : List UInt8 :=
  out.flatMap fun
    | .payload _ text => readDump text
    | _ => []

/-- The bytes from the start of the packet that are read. -/
def needed (pkt : List UInt8) : ℕ :=
  if sizeIp pkt < 20 then 15
  else if byteAt pkt 23 ≠ 6 then 34
  else if sizeTcp pkt < 20 ∨ ipLen pkt ≤ sizeIp pkt + sizeTcp pkt then 14 + sizeIp pkt + 13
  else 14 + ipLen pkt

theorem load_byteAt {i : ℕ} (h : i < pkt.length) : load pkt i = .ok (byteAt pkt i) := by
  refine load_of_getElem? ?_
  rw [byteAt, List.getD_eq_getElem?_getD, List.getElem?_eq_getElem h, Option.getD_some]

theorem lt_of_load {i : ℕ} {b : UInt8} (h : load pkt i = .ok b) : i < pkt.length :=
  (List.getElem?_eq_some_iff.mp (load_eq_ok.mp h)).1

theorem byteAt_of_load {i : ℕ} {b : UInt8} (h : load pkt i = .ok b) : b = byteAt pkt i := by
  rw [load_byteAt (lt_of_load h)] at h
  exact (Except.ok.inj h).symm

theorem ntohs_of_le {off : ℕ} (h : off + 2 ≤ pkt.length) :
    ntohs pkt off = .ok (Endian.big.decode ((pkt.drop off).take 2)) := by
  rw [ntohs, slice_of_le h, ok_bind]

theorem le_of_slice {off n : ℕ} {b : List UInt8} (h : slice pkt off n = .ok b) : off + n ≤ pkt.length := by
  by_contra hlt
  rw [slice, if_neg hlt] at h
  cases h

theorem proto_eq_tcp {p : UInt8} : proto p = .tcp ↔ p = 6 := by
  rw [proto]
  split_ifs <;> simp_all

theorem ipLen_lt (pkt : List UInt8) : ipLen pkt < 2 ^ 16 := by
  have hlen : ((pkt.drop 16).take 2).length ≤ 2 := List.length_take_le _ _
  have hdecode := Endian.big.decode_lt ((pkt.drop 16).take 2)
  exact hdecode.trans_le (Nat.pow_le_pow_right (by decide) hlen)

theorem readBack_append (out out' : List Printed) : readBack (out ++ out') = readBack out ++ readBack out' :=
  List.flatMap_append

/-! ### One packet -/

/-- A payload that was printed was there. -/
theorem gotPayload_inside {off : ℕ} {n : ℤ} {out : List Printed} (h : gotPayload pkt off n = .ok out) :
    n ≤ 0 ∨ off + n ≤ pkt.length := by
  rw [gotPayload] at h
  split at h
  · obtain ⟨text, htext, -⟩ := exists_of_bind_ok h
    exact printPayload_inside htext
  · next hle => exact Or.inl (not_lt.mp hle)

/-- A payload that is there prints as a text from which it can be read again. -/
theorem gotPayload_reads {off : ℕ} {size : ℤ} (h : size ≤ 0 ∨ off + size ≤ pkt.length) (hsize : size < 2 ^ 16) :
    ∃ out, gotPayload pkt off size = .ok out ∧ readBack out = (pkt.drop off).take size.toNat := by
  rcases le_or_gt size 0 with hnone | hpos
  · refine ⟨[], if_neg (not_lt.mpr hnone), ?_⟩
    rw [Int.toNat_of_nonpos hnone, List.take_zero]
    rfl
  obtain ⟨n, rfl⟩ := Int.eq_ofNat_of_zero_le hpos.le
  have hinside : off + n ≤ pkt.length := by omega
  have hlen : ((pkt.drop off).take n).length = n := by
    rw [List.length_take, List.length_drop]
    omega
  have hpre : (pkt.take off).length = off := by
    rw [List.length_take]
    omega
  have hsplit : pkt.take off ++ (pkt.drop off).take n ++ (pkt.drop off).drop n = pkt := by
    rw [List.append_assoc, List.take_append_drop, List.take_append_drop]
  have hprint := printPayload_spec (pkt.take off) ((pkt.drop off).take n) ((pkt.drop off).drop n)
  have hsome : (pkt.drop off).take n ≠ [] := List.length_pos_iff.mp (by omega)
  rw [hsplit, hpre, hlen, if_neg hsome] at hprint
  refine ⟨[.payload n (dumpText 0 ((pkt.drop off).take n))], ?_, ?_⟩
  · rw [gotPayload, if_pos hpos, hprint, ok_bind]
  · simp only [readBack, List.flatMap_cons, List.flatMap_nil, List.append_nil, Int.toNat_natCast]
    exact readDump_dumpText 0 _ (by omega) (by omega)

/-- The part of a TCP packet from the TCP header on. -/
theorem gotSegment_reads (hip : 20 ≤ sizeIp pkt) (hproto : byteAt pkt 23 = 6)
    (h : needed pkt ≤ pkt.length) :
    ∃ out, gotSegment pkt (sizeIp pkt) = .ok out ∧ readBack out = segment pkt := by
  rw [needed, if_neg (by omega), if_neg (not_not.mpr hproto)] at h
  have hoff : 14 + sizeIp pkt + 12 < pkt.length := by
    split at h <;> omega
  have htcpLen : thOff (byteAt pkt (14 + sizeIp pkt + 12)) = sizeTcp pkt := rfl
  have hipLen : Endian.big.decode ((pkt.drop 16).take 2) = ipLen pkt := rfl
  rw [gotSegment, load_byteAt hoff, ok_bind, htcpLen]
  by_cases htcp : sizeTcp pkt < 20
  · refine ⟨_, if_pos htcp, ?_⟩
    rw [segment, if_neg (fun his => absurd his.2.2 (not_le.mpr htcp))]
    rfl
  have hlt := ipLen_lt pkt
  have hpayload : (ipLen pkt : ℤ) - (sizeIp pkt + sizeTcp pkt : ℕ) ≤ 0 ∨
      ((14 + sizeIp pkt + sizeTcp pkt : ℕ) : ℤ) + (ipLen pkt - (sizeIp pkt + sizeTcp pkt : ℕ)) ≤ pkt.length := by
    split at h <;> omega
  obtain ⟨out, hout, hread⟩ := gotPayload_reads hpayload (by omega)
  rw [if_neg htcp, ntohs_of_le (by omega), ok_bind, ntohs_of_le (by omega), ok_bind, ntohs_of_le (by omega),
    ok_bind, hipLen, hout, ok_bind]
  refine ⟨_, rfl, ?_⟩
  rw [readBack_append, hread, segment, if_pos ⟨hip, hproto, not_lt.mp htcp⟩, Int.toNat_sub]
  rfl

/-- With the bytes it needs, `got_packet` prints the segment so that it can be read again. -/
theorem gotPacket_reads (count : ℕ) (h : needed pkt ≤ pkt.length) :
    ∃ out, gotPacket count pkt = .ok (count + 1, out) ∧ readBack out = segment pkt := by
  have h14 : 14 < pkt.length := by
    rw [needed] at h
    split_ifs at h <;> omega
  have hipHl : ipHl (byteAt pkt 14) = sizeIp pkt := rfl
  rw [gotPacket, load_byteAt h14, ok_bind, hipHl]
  by_cases hip : sizeIp pkt < 20
  · refine ⟨_, if_pos hip, ?_⟩
    rw [segment, if_neg (fun his => absurd his.1 (not_le.mpr hip))]
    rfl
  have h34 : 34 ≤ pkt.length := by
    rw [needed, if_neg hip] at h
    split_ifs at h <;> omega
  rw [if_neg hip, slice_of_le (by omega), ok_bind, slice_of_le (by omega), ok_bind, load_byteAt (by omega),
    ok_bind]
  by_cases hproto : byteAt pkt 23 = 6
  · obtain ⟨out, hout, hread⟩ := gotSegment_reads (not_lt.mp hip) hproto h
    rw [if_pos (proto_eq_tcp.mpr hproto), hout, ok_bind]
    refine ⟨_, rfl, ?_⟩
    rw [readBack_append, hread]
    rfl
  · refine ⟨_, if_neg (fun heq => hproto (proto_eq_tcp.mp heq)), ?_⟩
    rw [segment, if_neg (fun his => hproto his.2.1)]
    rfl

/-- And a packet that was printed had the bytes it needs. -/
theorem needed_of_gotPacket {r : ℕ × List Printed} (h : gotPacket count pkt = .ok r) :
    needed pkt ≤ pkt.length := by
  obtain ⟨vhl, hvhl, h⟩ := exists_of_bind_ok h
  have h14 := lt_of_load hvhl
  obtain rfl := byteAt_of_load hvhl
  have hipHl : ipHl (byteAt pkt 14) = sizeIp pkt := rfl
  rw [hipHl] at h
  rw [needed]
  by_cases hip : sizeIp pkt < 20
  · rw [if_pos hip]
    exact h14
  rw [if_neg hip] at h ⊢
  obtain ⟨src, -, h⟩ := exists_of_bind_ok h
  obtain ⟨dst, hdst, h⟩ := exists_of_bind_ok h
  have h34 := le_of_slice hdst
  obtain ⟨p, hp, h⟩ := exists_of_bind_ok h
  obtain rfl := byteAt_of_load hp
  by_cases hproto : byteAt pkt 23 = 6
  · rw [if_pos (proto_eq_tcp.mpr hproto)] at h
    rw [if_neg (not_not.mpr hproto)]
    obtain ⟨out, hsegment, -⟩ := exists_of_bind_ok h
    obtain ⟨offx2, hoffx2, hsegment⟩ := exists_of_bind_ok hsegment
    have hoff := lt_of_load hoffx2
    obtain rfl := byteAt_of_load hoffx2
    have htcpLen : thOff (byteAt pkt (14 + sizeIp pkt + 12)) = sizeTcp pkt := rfl
    have hipLen : Endian.big.decode ((pkt.drop 16).take 2) = ipLen pkt := rfl
    rw [htcpLen] at hsegment
    by_cases hend : sizeTcp pkt < 20 ∨ ipLen pkt ≤ sizeIp pkt + sizeTcp pkt
    · rw [if_pos hend]
      exact hoff
    · rw [not_or] at hend
      rw [if_neg hend.1] at hsegment
      rw [if_neg (not_or.mpr hend)]
      obtain ⟨sport, -, hsegment⟩ := exists_of_bind_ok hsegment
      obtain ⟨dport, -, hsegment⟩ := exists_of_bind_ok hsegment
      rw [ntohs_of_le (by omega), ok_bind, hipLen] at hsegment
      obtain ⟨text, hpayload, -⟩ := exists_of_bind_ok hsegment
      have hinside := gotPayload_inside hpayload
      omega
  · rw [if_pos hproto]
    exact h34

/-! ### A capture -/

/-- RUN: the same from any value of the counter on. -/
theorem capture_run (pkts : List (List UInt8)) (first : ℕ) :
    ((∃ r, runOps gotPacket first pkts = .ok r) ↔ ∀ pkt ∈ pkts, needed pkt ≤ pkt.length) ∧
    ∀ count outs, runOps gotPacket first pkts = .ok (count, outs) →
      count = first + pkts.length ∧ outs.map readBack = pkts.map segment := by
  induction pkts generalizing first with
  | nil =>
    refine ⟨iff_of_true ⟨_, rfl⟩ (by simp), fun count outs h => ?_⟩
    cases h
    exact ⟨rfl, rfl⟩
  | cons pkt pkts ih =>
    obtain ⟨hok, hread⟩ := ih (first + 1)
    rw [List.forall_mem_cons, ← hok]
    by_cases hneeded : needed pkt ≤ pkt.length
    · obtain ⟨out, hout, hsegment⟩ := gotPacket_reads first hneeded
      constructor
      · rw [runOps, hout, ok_bind]
        constructor
        · rintro ⟨r, h⟩
          obtain ⟨rest, hrest, -⟩ := exists_of_bind_ok h
          exact ⟨hneeded, rest, hrest⟩
        · rintro ⟨-, ⟨count, outs⟩, hrest⟩
          exact ⟨(count, out :: outs), by simp only [hrest, ok_bind]⟩
      · intro count outs h
        rw [runOps, hout, ok_bind] at h
        obtain ⟨⟨last, rest⟩, hrest, h⟩ := exists_of_bind_ok h
        obtain ⟨hcount, houts⟩ := hread last rest hrest
        cases h
        refine ⟨by rw [hcount, List.length_cons]; omega, ?_⟩
        rw [List.map_cons, List.map_cons, hsegment, houts]
    · have hfault : ∀ r, runOps gotPacket first (pkt :: pkts) ≠ .ok r := by
        intro r h
        obtain ⟨r', hpkt, -⟩ := exists_of_bind_ok h
        exact hneeded (needed_of_gotPacket hpkt)
      refine ⟨iff_of_false ?_ fun h => hneeded h.1, fun count outs h => absurd h (hfault _)⟩
      rintro ⟨r, h⟩
      exact hfault r h

/-- CORRECT: a capture is printed to its end exactly when every packet has the bytes that its headers
    announce, and then the packets are counted and the text of each reads back as its TCP segment. -/
theorem capture_reads_back (pkts : List (List UInt8)) :
    ((∃ r, runOps gotPacket 1 pkts = .ok r) ↔ ∀ pkt ∈ pkts, needed pkt ≤ pkt.length) ∧
    ∀ count outs, runOps gotPacket 1 pkts = .ok (count, outs) →
      count = 1 + pkts.length ∧ outs.map readBack = pkts.map segment :=
  capture_run pkts 1

end Diversity.Sniffex
