import Diversity.Programs.Dpdk.PacketHandler
import Diversity.Schemes.OnesComplement

/-! @src dpdk/gen_packet/main.c (craft_new_packet, add_paxos_message) | name:Paxos frames |
    scheme:bytes | family:header

    `craft_new_packet` writes the three headers of a UDP datagram into an mbuf, `add_paxos_message`
    copies the message behind them. The lengths of the frame, of the IPv4 datagram and of the UDP
    datagram are three fields, and each is computed in its own way: the first from `data_size`, the
    second from the size of a `paxos_message`, the third is `data_size` without the header of UDP.

        0    14                 34                  42
        ether | ipv4              | udp               | paxos_message
                total_length 16     dgram_len 38

    What of DPDK the two functions use (the MAC address of a port, the pseudo-header checksum, the
    offload flags) is a parameter. -/

namespace Diversity.Dpdk
open Schemes

/-- `struct paxos_message`: two bytes of padding stand between its members. -/
structure PaxosMessage where
  msgtype : UInt16
  pad : UInt8 × UInt8
  inst : UInt32
  deriving DecidableEq, Repr

/-- `sizeof(struct paxos_message)`. -/
def sizeofPaxosMessage : ℕ := 8

/-- Its memory. -/
def PaxosMessage.bytes (pm : PaxosMessage) (e : Endian) : List UInt8 :=
  e.encode 2 pm.msgtype.toNat ++ [pm.pad.1, pm.pad.2] ++ e.encode 4 pm.inst.toNat

/-- The fields of `struct rte_mbuf` in use; `room` is the memory that `rte_pktmbuf_mtod` points to. -/
structure Mbuf where
  room : List UInt8
  dataLen : UInt16
  pktLen : UInt32
  l2Len : ℕ
  l3Len : ℕ
  l4Len : ℕ
  olFlags : UInt64
  deriving DecidableEq, Repr

/-- What the functions take from DPDK: `rte_eth_macaddr_get`, the pseudo-header checksums of an L3
    header, and the flags `PKT_TX_IPV4`, `PKT_TX_IP_CKSUM`, `PKT_TX_UDP_CKSUM`. -/
structure Env where
  macaddr : UInt8 → EtherAddr
  ipv4PhdrCksum : List UInt8 → UInt64 → UInt16
  ipv6PhdrCksum : List UInt8 → UInt64 → UInt16
  pktTxIpv4 : UInt64
  pktTxIpCksum : UInt64
  pktTxUdpCksum : UInt64

/-- `rte_cpu_to_be_32`. -/
def rteCpuToBe32 (e : Endian) (x : UInt32) : UInt32 :=
  UInt32.ofNat (e.decode (Endian.big.encode 4 x.toNat))

/-- `get_psd_sum`. -/
def getPsdSum (env : Env) (l3Hdr : List UInt8) (ethertype : ℕ) (olFlags : UInt64) : UInt16 :=
  if ethertype = 0x0800 then env.ipv4PhdrCksum l3Hdr olFlags else env.ipv6PhdrCksum l3Hdr olFlags

/-- The Ethernet header; the destination is left as it is. -/
def etherHdr (e : Endian) (mac : EtherAddr) (room : List UInt8) : C (List UInt8) := do
  let room ← patch room 6 mac.bytes
  store16 e room 12 (rteCpuToBe16 e 0x0800)

/-- The IPv4 header; `total_length` does not depend on `data_size`. -/
def ipv4Hdr (e : Endian) (srcIP dstIP : UInt32) (room : List UInt8) : C (List UInt8) := do
  let room ← store32 e room 26 (rteCpuToBe32 e srcIP)
  let room ← store32 e room 30 (rteCpuToBe32 e dstIP)
  let room ← patch room 14 [0x45]
  let room ← store16 e room 24 0
  let room ← store16 e room 16 (rteCpuToBe16 e (20 + 8 + sizeofPaxosMessage))
  patch room 23 [17]

/-- The UDP header; the checksum is taken before `dgram_len` is there. -/
def udpHdr (env : Env) (e : Endian) (sport dport : UInt16) (dataSize olFlags : UInt64)
    (room : List UInt8) : C (List UInt8) := do
  let room ← store16 e room 34 (rteCpuToBe16 e sport.toNat)
  let room ← store16 e room 36 (rteCpuToBe16 e dport.toNat)
  let room ← store16 e room 40 (getPsdSum env (room.drop 14) 0x0800 olFlags)
  store16 e room 38 (rteCpuToBe16 e dataSize.toNat)

/-- `craft_new_packet`, with the flags it returns. -/
def craftNewPacket (env : Env) (e : Endian) (m : Mbuf) (srcIP dstIP : UInt32) (sport dport : UInt16)
    (dataSize : UInt64) (outputPort : UInt8) : C (Mbuf × UInt64) := do
  let pktSize := 14 + 20 + 8 + dataSize
  let olFlags := env.pktTxIpv4 ||| env.pktTxIpCksum
  let room ← etherHdr e (env.macaddr outputPort) m.room
  let room ← ipv4Hdr e srcIP dstIP room
  let olFlags := olFlags ||| env.pktTxUdpCksum
  let room ← udpHdr env e sport dport dataSize olFlags room
  .ok ({ m with room, dataLen := pktSize.toUInt16, pktLen := pktSize.toUInt32 }, olFlags)

/-- `add_paxos_message`. -/
def addPaxosMessage (env : Env) (e : Endian) (pm : PaxosMessage) (m : Mbuf) : C Mbuf := do
  let m := { m with l2Len := 14, l3Len := 20, l4Len := 8 + sizeofPaxosMessage }
  let (m, olFlags) ← craftNewPacket env e m (ipv4 192 168 4 95) (ipv4 239 3 29 73) 34567 45678
    (UInt64.ofNat sizeofPaxosMessage) 0
  let udpOffset := 14 + 20
  let paxosOffset := udpOffset + 8
  let room ← patch m.room paxosOffset (pm.bytes e)
  .ok { m with room, olFlags }

/-! ### Reading a frame -/

/-- `total_length` of the IPv4 header. -/
def ipv4Length (frame : List UInt8) : ℕ := Endian.big.decode ((frame.drop 16).take 2)

/-- `dgram_len` of the UDP header. -/
def dgramLen (frame : List UInt8) : ℕ := Endian.big.decode ((frame.drop 38).take 2)

/-- The frame that is sent. -/
def Mbuf.frame (m : Mbuf) : List UInt8 := m.room.take m.dataLen.toNat

/-- The payload by the protocol lengths: behind the Ethernet header `total_length` bytes are the
    IPv4 datagram, behind its header `dgram_len` bytes the UDP datagram. -/
def payload (frame : List UInt8) : List UInt8 :=
  let datagram := (frame.drop 14).take (ipv4Length frame)
  let udp := (datagram.drop 20).take (dgramLen frame)
  udp.drop 8

/-! ### The headers -/

theorem length_paxosMessage (pm : PaxosMessage) (e : Endian) : (pm.bytes e).length = 8 := by
  simp [PaxosMessage.bytes]

/-- In network order a word lies as big-endian bytes on either host. -/
theorem store16_rteCpuToBe16 (e : Endian) (room : List UInt8) (off x : ℕ) :
    store16 e room off (rteCpuToBe16 e x) = patch room off (Endian.big.encode 2 x) := by
  have hlen : (Endian.big.encode 2 x).length = 2 := Endian.length_encode _ _ _
  have henc := e.encode_decode (Endian.big.encode 2 x)
  rw [hlen] at henc
  rw [store16, rteCpuToBe16, toNat_decode16 e hlen, henc]

variable {e : Endian} {room : List UInt8}

/-- A write into the headers, of which a room has at least the bytes. -/
theorem patch_hdr (off : ℕ) (d : List UInt8) (h : 42 ≤ room.length) (hd : off + d.length ≤ 42) :
    ∃ room', patch room off d = .ok room' ∧ Changed off (off + d.length) room room' ∧
      42 ≤ room'.length ∧ (room'.drop off).take d.length = d := by
  obtain ⟨room', hpatch, hchanged, hfield⟩ := patch_changed (d := d) le_rfl le_rfl (hd.trans h)
  exact ⟨room', hpatch, hchanged, by rw [hchanged.length]; exact h, hfield⟩

theorem etherHdr_changed (e : Endian) (mac : EtherAddr) (h : 42 ≤ room.length) :
    ∃ room', etherHdr e mac room = .ok room' ∧ Changed 0 14 room room' := by
  obtain ⟨r₁, h₁, c₁, l₁, -⟩ := patch_hdr 6 mac.bytes h (by simp [EtherAddr.bytes])
  obtain ⟨r₂, h₂, c₂, -, -⟩ := patch_hdr 12 (Endian.big.encode 2 0x0800) l₁ (by simp)
  have c₁' := c₁.widen 0 14 (by omega) (by simp [EtherAddr.bytes])
  have c₂' := c₂.widen 0 14 (by omega) (by simp)
  refine ⟨r₂, ?_, c₁'.trans c₂'⟩
  rw [etherHdr, h₁, ok_bind, store16_rteCpuToBe16, h₂]

theorem ipv4Hdr_changed (e : Endian) (srcIP dstIP : UInt32) (h : 42 ≤ room.length) :
    ∃ room', ipv4Hdr e srcIP dstIP room = .ok room' ∧ Changed 14 34 room room' ∧
      ipv4Length room' = 36 := by
  obtain ⟨r₁, h₁, c₁, l₁, -⟩ := patch_hdr 26
    (e.encode 4 (rteCpuToBe32 e srcIP).toNat) h (by simp)
  obtain ⟨r₂, h₂, c₂, l₂, -⟩ := patch_hdr 30
    (e.encode 4 (rteCpuToBe32 e dstIP).toNat) l₁ (by simp)
  obtain ⟨r₃, h₃, c₃, l₃, -⟩ := patch_hdr 14 [0x45] l₂ (by simp)
  obtain ⟨r₄, h₄, c₄, l₄, -⟩ := patch_hdr 24 (e.encode 2 (0 : UInt16).toNat) l₃
    (by simp)
  obtain ⟨r₅, h₅, c₅, l₅, f₅⟩ := patch_hdr 16
    (Endian.big.encode 2 (20 + 8 + sizeofPaxosMessage)) l₄ (by simp)
  obtain ⟨r₆, h₆, c₆, -, -⟩ := patch_hdr 23 [17] l₅ (by simp)
  have c₂' := (c₁.widen 14 34 (by omega) (by simp)).trans
    (c₂.widen 14 34 (by omega) (by simp))
  have c₄' := c₂'.trans
    ((c₃.widen 14 34 (by omega) (by simp)).trans (c₄.widen 14 34 (by omega) (by simp)))
  have c₆' := c₄'.trans
    ((c₅.widen 14 34 (by omega) (by simp)).trans (c₆.widen 14 34 (by omega) (by simp)))
  refine ⟨r₆, ?_, c₆', ?_⟩
  · rw [ipv4Hdr, store32, h₁, ok_bind, store32, h₂, ok_bind, h₃, ok_bind, store16, h₄, ok_bind,
      store16_rteCpuToBe16, h₅, ok_bind, h₆]
  · -- The protocol number, written last, lies behind `total_length`.
    rw [Endian.length_encode] at f₅
    rw [ipv4Length, c₆.take_drop (by omega), f₅]
    decide

theorem udpHdr_changed (env : Env) (e : Endian) (sport dport : UInt16) (dataSize olFlags : UInt64)
    (h : 42 ≤ room.length) : ∃ room', udpHdr env e sport dport dataSize olFlags room = .ok room' ∧
      Changed 34 42 room room' ∧ dgramLen room' = dataSize.toNat % 2 ^ 16 := by
  obtain ⟨r₁, h₁, c₁, l₁, -⟩ := patch_hdr 34 (Endian.big.encode 2 sport.toNat) h
    (by simp)
  obtain ⟨r₂, h₂, c₂, l₂, -⟩ := patch_hdr 36 (Endian.big.encode 2 dport.toNat) l₁
    (by simp)
  obtain ⟨r₃, h₃, c₃, l₃, -⟩ := patch_hdr 40
    (e.encode 2 (getPsdSum env (r₂.drop 14) 0x0800 olFlags).toNat) l₂ (by simp)
  obtain ⟨r₄, h₄, c₄, -, f₄⟩ := patch_hdr 38 (Endian.big.encode 2 dataSize.toNat) l₃
    (by simp)
  have c₂' := (c₁.widen 34 42 (by omega) (by simp)).trans
    (c₂.widen 34 42 (by omega) (by simp))
  have c₄' := c₂'.trans
    ((c₃.widen 34 42 (by omega) (by simp)).trans (c₄.widen 34 42 (by omega) (by simp)))
  refine ⟨r₄, ?_, c₄', ?_⟩
  · rw [udpHdr, store16_rteCpuToBe16, h₁, ok_bind, store16_rteCpuToBe16, h₂, ok_bind, store16, h₃,
      ok_bind, store16_rteCpuToBe16, h₄]
  · rw [Endian.length_encode] at f₄
    rw [dgramLen, f₄, Endian.decode_encode]
    rfl

/-- The three lengths of a crafted packet. -/
theorem craftNewPacket_lengths (env : Env) (e : Endian) (m : Mbuf) (srcIP dstIP : UInt32)
    (sport dport : UInt16) (dataSize : UInt64) (outputPort : UInt8) (h : 42 ≤ m.room.length) :
    ∃ m' olFlags, craftNewPacket env e m srcIP dstIP sport dport dataSize outputPort =
        .ok (m', olFlags) ∧ m'.room.length = m.room.length ∧
      m'.dataLen = (14 + 20 + 8 + dataSize).toUInt16 ∧
      m'.pktLen = (14 + 20 + 8 + dataSize).toUInt32 ∧
      ipv4Length m'.room = 36 ∧ dgramLen m'.room = dataSize.toNat % 2 ^ 16 := by
  obtain ⟨r₁, h₁, c₁⟩ := etherHdr_changed e (env.macaddr outputPort) h
  obtain ⟨r₂, h₂, c₂, htotal⟩ := ipv4Hdr_changed e srcIP dstIP (by rw [c₁.length]; exact h)
  have hroom : 42 ≤ r₂.length := by rw [c₂.length, c₁.length]; exact h
  obtain ⟨r₃, h₃, c₃, hdgram⟩ := udpHdr_changed env e sport dport dataSize
    (env.pktTxIpv4 ||| env.pktTxIpCksum ||| env.pktTxUdpCksum) hroom
  refine ⟨{ m with
    room := r₃
    dataLen := (14 + 20 + 8 + dataSize).toUInt16
    pktLen := (14 + 20 + 8 + dataSize).toUInt32 },
    env.pktTxIpv4 ||| env.pktTxIpCksum ||| env.pktTxUdpCksum, ?_,
    c₃.length.trans (c₂.length.trans c₁.length), rfl, rfl, ?_, hdgram⟩
  · simp only [craftNewPacket, h₁, ok_bind, h₂, h₃]
  · rw [ipv4Length, c₃.take_drop (by omega)]
    exact htotal

/-- The frame of a Paxos message, whose UDP datagram is its header alone. -/
theorem addPaxosMessage_payload (env : Env) (e : Endian) (pm : PaxosMessage) (m : Mbuf)
    (h : 50 ≤ m.room.length) : ∃ m', addPaxosMessage env e pm m = .ok m' ∧ payload m'.frame = [] := by
  obtain ⟨m₁, olFlags, hcraft, hlen, hdata, -, -, hdgram⟩ := craftNewPacket_lengths env e
    { m with l2Len := 14, l3Len := 20, l4Len := 8 + sizeofPaxosMessage } (ipv4 192 168 4 95)
    (ipv4 239 3 29 73) 34567 45678 (UInt64.ofNat sizeofPaxosMessage) 0 (by simp only; omega)
  have hfits : 42 + (pm.bytes e).length ≤ 50 := by rw [length_paxosMessage]
  have hroom : 50 ≤ m₁.room.length := by rw [hlen]; exact h
  obtain ⟨r, hpatch, hchanged, -⟩ := patch_changed (le_refl 42) hfits hroom
  refine ⟨{ m₁ with room := r, olFlags }, ?_, ?_⟩
  · simp only [addPaxosMessage, hcraft, ok_bind, hpatch]
  · have hframe : dgramLen (r.take m₁.dataLen.toNat) = 8 := by
      have hcut : ((r.take m₁.dataLen.toNat).drop 38).take 2 = (m₁.room.drop 38).take 2 := by
        rw [hdata, List.drop_take, List.take_take]
        exact hchanged.take_drop (by omega)
      rw [dgramLen, hcut]
      exact hdgram
    simp only [payload, Mbuf.frame, hframe]
    refine List.drop_of_length_le ?_
    rw [List.length_take]
    exact Nat.min_le_left _ _

/-- NEVER: whatever the message, the lengths of its frame give an empty payload; and whatever size is
    asked for, the three lengths of the packet do not agree. The frame fits the IPv4 datagram for a
    size of 8 only, the IPv4 datagram fits the UDP datagram for a size of 16 only. -/
theorem paxos_frame_never (env : Env) (e : Endian) (m : Mbuf) (h : 50 ≤ m.room.length) :
    (∀ pm, ∃ m', addPaxosMessage env e pm m = .ok m' ∧ payload m'.frame ≠ pm.bytes e) ∧
    ∀ srcIP dstIP sport dport dataSize outputPort, 14 + 20 + 8 + dataSize.toNat ≤ 65535 →
      ∃ m' olFlags, craftNewPacket env e m srcIP dstIP sport dport dataSize outputPort =
          .ok (m', olFlags) ∧
        (m'.pktLen.toNat = 14 + ipv4Length m'.room ↔ dataSize = 8) ∧
        (ipv4Length m'.room = 20 + dgramLen m'.room ↔ dataSize = 16) ∧
        ¬ (m'.pktLen.toNat = 14 + ipv4Length m'.room ∧
          ipv4Length m'.room = 20 + dgramLen m'.room) := by
  refine ⟨fun pm => ?_, fun srcIP dstIP sport dport dataSize outputPort hsize => ?_⟩
  · obtain ⟨m', hadd, hempty⟩ := addPaxosMessage_payload env e pm m h
    refine ⟨m', hadd, fun heq => ?_⟩
    have hlen := congrArg List.length heq
    rw [hempty, length_paxosMessage] at hlen
    cases hlen
  · obtain ⟨m', olFlags, hcraft, -, -, hpkt, htotal, hdgram⟩ := craftNewPacket_lengths env e m srcIP
      dstIP sport dport dataSize outputPort (by omega)
    have hpkt' : m'.pktLen.toNat = 42 + dataSize.toNat := by
      rw [hpkt, UInt64.toNat_toUInt32, UInt64.toNat_add]
      have h42 : (14 + 20 + 8 : UInt64).toNat = 42 := rfl
      rw [h42]
      omega
    have h8 : dataSize = 8 ↔ dataSize.toNat = 8 := by
      rw [← UInt64.toNat_inj]
      rfl
    have h16 : dataSize = 16 ↔ dataSize.toNat = 16 := by
      rw [← UInt64.toNat_inj]
      rfl
    refine ⟨m', olFlags, hcraft, ?_, ?_, ?_⟩
    · rw [hpkt', htotal, h8]
      omega
    · rw [htotal, hdgram, h16]
      omega
    · rw [hpkt', htotal, hdgram]
      omega

/-- The pseudo-header of IPv4 (addresses, protocol, length without the IPv4 header), summed as
    little-endian words. -/
def ipv4PseudoSum (l3Hdr : List UInt8) : UInt16 :=
  let addresses := (l3Hdr.drop 12).take 8
  let len := Endian.big.decode ((l3Hdr.drop 2).take 2) - 20
  UInt16.ofNat (fold16 (fold16 (wordSum .little
    (addresses ++ [0, l3Hdr.getD 9 0] ++ Endian.big.encode 2 len))))

/-- A little-endian host; the checksum of IPv6 is never asked for. -/
def someEnv : Env where
  macaddr _ := ⟨2, 0, 0, 0, 0, 9⟩
  ipv4PhdrCksum l3Hdr _ := ipv4PseudoSum l3Hdr
  ipv6PhdrCksum _ _ := 0
  pktTxIpv4 := 0x0080000000000000
  pktTxIpCksum := 0x0040000000000000
  pktTxUdpCksum := 0x0030000000000000

/-- An mbuf with room for 50 bytes. -/
def someMbuf : Mbuf := ⟨List.replicate 50 0, 0, 0, 0, 0, 0, 0⟩

/-- With the size that `add_paxos_message` asks for. -/
theorem paxos_frame_never_eight : ∃ m' olFlags,
    craftNewPacket someEnv .little someMbuf 1 2 3 4 8 0 = .ok (m', olFlags) ∧
      ¬ (m'.pktLen.toNat = 14 + ipv4Length m'.room ∧
        ipv4Length m'.room = 20 + dgramLen m'.room) := by
  obtain ⟨m', olFlags, hcraft, -, -, hne⟩ :=
    (paxos_frame_never someEnv .little someMbuf (by decide)).2 1 2 3 4 8 0 (by decide)
  exact ⟨m', olFlags, hcraft, hne⟩

/-- The first frame of `generate_packets`: 50 bytes, of which the IPv4 datagram takes 36, of which
    the UDP datagram takes 8; the 8 bytes of the message are in none of them. -/
theorem paxos_frame_empty : ∃ m', addPaxosMessage someEnv .little ⟨1, (0, 0), 1⟩ someMbuf = .ok m' ∧
    m'.pktLen = 50 ∧ ipv4Length m'.room = 36 ∧ dgramLen m'.room = 8 ∧
    (m'.room.drop 42).take 8 = [1, 0, 0, 0, 1, 0, 0, 0] ∧ payload m'.frame = [] ∧
    payload m'.frame ≠ (⟨1, (0, 0), 1⟩ : PaxosMessage).bytes .little ∧
    m'.pktLen.toNat = 14 + ipv4Length m'.room ∧
    ipv4Length m'.room ≠ 20 + dgramLen m'.room := by
  refine ⟨_, rfl, rfl, rfl, rfl, rfl, rfl, ?_, rfl, ?_⟩
  · intro h
    exact absurd (congrArg List.length h) (by decide)
  · intro h
    cases h

end Diversity.Dpdk
