import Diversity.Schemes.Bytes

/-! @src client_server/dpdk/src/basicfwd.c | name:packet_handler | scheme:bytes | family:header

    `packet_handler` edits a frame in place: an ARP request for `my_ip` becomes a reply, an ICMP echo
    request becomes an echo reply. The fields are read and written as the host keeps words. The
    EtherType and the ARP operation are converted with `rte_be_to_cpu_16` and `rte_cpu_to_be_16`; the
    addresses of ARP are not, so on a little-endian host `my_ip` meets the bytes of its address in the
    reverse order, both where it is compared and where it is stored.

        0   d_addr | s_addr | ether_type
        14  hrd pro hln pln | op | sha | sip | tha | tip       (ARP)
        14  … next_proto_id … (20 bytes)                        (IPv4)
        34  icmp_type icmp_code | icmp_cksum | …                (ICMP)   -/

namespace Diversity.Dpdk
open Schemes

/-- `struct ether_addr`. -/
structure EtherAddr where
  (b0 b1 b2 b3 b4 b5 : UInt8)
  deriving DecidableEq, Repr

/-- Its memory. -/
def EtherAddr.bytes (a : EtherAddr) : List UInt8 := [a.b0, a.b1, a.b2, a.b3, a.b4, a.b5]

/-- `IPv4 (a, b, c, d)`. -/
def ipv4 (a b c d : ℕ) : UInt32 := UInt32.ofNat (a <<< 24 ||| b <<< 16 ||| c <<< 8 ||| d)

/-- `my_ip`. -/
def myIp : UInt32 := ipv4 192 168 10 97

/-- `rte_be_to_cpu_16`. -/
def rteBeToCpu16 (e : Endian) (w : UInt16) : ℕ := Endian.big.decode (e.encode 2 w.toNat)

/-- `rte_cpu_to_be_16`. -/
def rteCpuToBe16 (e : Endian) (x : ℕ) : UInt16 := UInt16.ofNat (e.decode (Endian.big.encode 2 x))

/-- `ether_addr_copy` from one offset of the frame to another. -/
def etherAddrCopy (pkt : List UInt8) (src dst : ℕ) : C (List UInt8) := do
  let addr ← slice pkt src 6
  patch pkt dst addr

/-- The branch for `ETHER_TYPE_ARP`; `mac` is the address that `rte_eth_macaddr_get` gives. -/
def arpBranch (e : Endian) (mac : EtherAddr) (pkt : List UInt8) : C (List UInt8) := do
  let tip ← load32 e pkt 38
  if tip = myIp then
    let op ← load16 e pkt 20
    if op = rteCpuToBe16 e 1 then
      let pkt ← store16 e pkt 20 (rteCpuToBe16 e 2)
      let pkt ← etherAddrCopy pkt 6 0
      let pkt ← patch pkt 6 mac.bytes
      let pkt ← etherAddrCopy pkt 22 32
      let sip ← load32 e pkt 28
      let pkt ← store32 e pkt 38 sip
      let pkt ← patch pkt 22 mac.bytes
      store32 e pkt 28 myIp
    else .ok pkt
  else .ok pkt

/-- `icmp_cksum + (IP_ICMP_ECHO_REQUEST << 8) + ~(IP_ICMP_ECHO_REPLY << 8)`, computed on `int` and cut
    to 16 bits. -/
def updateCksum (cksum : UInt16) : UInt16 :=
  UInt16.ofNat (((cksum.toNat : ℤ) + ((8 : ℤ) <<< 8) + ~~~((0 : ℤ) <<< 8)) % 2 ^ 16).toNat

/-- The branch for `ETHER_TYPE_IPv4`. -/
def icmpBranch (e : Endian) (pkt : List UInt8) : C (List UInt8) := do
  let nextProtoId ← load pkt 23
  if nextProtoId = 1 then
    let icmpType ← load pkt 34
    if icmpType = 8 then
      let pkt ← patch pkt 34 [0]
      let cksum ← load16 e pkt 36
      store16 e pkt 36 (updateCksum cksum)
    else .ok pkt
  else .ok pkt

/-- `packet_handler`. -/
def packetHandler (e : Endian) (mac : EtherAddr) (pkt : List UInt8) : C (List UInt8) := do
  let etherType ← load16 e pkt 12
  if rteBeToCpu16 e etherType = 0x0806 then arpBranch e mac pkt
  else if rteBeToCpu16 e etherType = 0x0800 then icmpBranch e pkt
  else .ok pkt

/-! ### EtherType -/

/-- Network order is big-endian on either host. -/
theorem rteBeToCpu16_load (e : Endian) {m : List UInt8} (hm : m.length = 2) :
    rteBeToCpu16 e (UInt16.ofNat (e.decode m)) = Endian.big.decode m := by
  have henc := e.encode_decode m
  rw [hm] at henc
  rw [rteBeToCpu16, toNat_decode16 e hm, henc]

/-- The EtherType selects the branch. -/
theorem packetHandler_type (e : Endian) (mac : EtherAddr) {pkt m : List UInt8}
    (h : slice pkt 12 2 = .ok m) (hm : m.length = 2) : packetHandler e mac pkt =
      if Endian.big.decode m = 0x0806 then arpBranch e mac pkt
      else if Endian.big.decode m = 0x0800 then icmpBranch e pkt else .ok pkt := by
  rw [packetHandler, load16, h, ok_bind, ok_bind, rteBeToCpu16_load e hm]

/-! ### ARP frames -/

/-- An IPv4 address on the wire. -/
structure WireIp where
  (b0 b1 b2 b3 : UInt8)
  deriving DecidableEq, Repr

/-- Its memory. -/
def WireIp.bytes (a : WireIp) : List UInt8 := [a.b0, a.b1, a.b2, a.b3]

/-- 192.168.10.97. -/
def myAddr : WireIp := ⟨0xC0, 0xA8, 0x0A, 0x61⟩

/-- 97.10.168.192. -/
def myAddrReversed : WireIp := ⟨0x61, 0x0A, 0xA8, 0xC0⟩

/-- An Ethernet frame with an ARP packet, and whatever follows it. -/
structure ArpFrame where
  dAddr : EtherAddr
  sAddr : EtherAddr
  hrd : UInt8 × UInt8
  pro : UInt8 × UInt8
  hln : UInt8
  pln : UInt8
  op : UInt8 × UInt8
  sha : EtherAddr
  sip : WireIp
  tha : EtherAddr
  tip : WireIp
  rest : List UInt8
  deriving DecidableEq, Repr

/-- The frame on the wire. -/
def ArpFrame.bytes (f : ArpFrame) : List UInt8 :=
  f.dAddr.bytes ++ f.sAddr.bytes ++ [0x08, 0x06] ++
    [f.hrd.1, f.hrd.2, f.pro.1, f.pro.2, f.hln, f.pln, f.op.1, f.op.2] ++
    f.sha.bytes ++ f.sip.bytes ++ f.tha.bytes ++ f.tip.bytes ++ f.rest

/-- The reply of a port with address `mac` to a request, with `sip` as the address it speaks for. -/
def ArpFrame.reply (f : ArpFrame) (mac : EtherAddr) (sip : WireIp) : ArpFrame :=
  { f with
    dAddr := f.sAddr
    sAddr := mac
    op := (0, 2)
    sha := mac
    sip := sip
    tha := f.sha
    tip := f.sip }

/-- What the port owes to an ARP frame: a reply to a request for its address, and nothing else. -/
def ArpFrame.answer (f : ArpFrame) (mac : EtherAddr) : ArpFrame :=
  if f.op = (0, 1) ∧ f.tip = myAddr then f.reply mac myAddr else f

theorem exists_etherAddr {l : List UInt8} (h : 6 ≤ l.length) :
    ∃ (a : EtherAddr) (rest : List UInt8), l = a.bytes ++ rest ∧ l.length = rest.length + 6 := by
  rcases l with - | ⟨b0, - | ⟨b1, - | ⟨b2, - | ⟨b3, - | ⟨b4, - | ⟨b5, rest⟩⟩⟩⟩⟩⟩
  all_goals first
    | exact ⟨⟨b0, b1, b2, b3, b4, b5⟩, rest, rfl, rfl⟩
    | exact absurd h (by simp)

theorem exists_wireIp {l : List UInt8} (h : 4 ≤ l.length) :
    ∃ (a : WireIp) (rest : List UInt8), l = a.bytes ++ rest ∧ l.length = rest.length + 4 := by
  rcases l with - | ⟨b0, - | ⟨b1, - | ⟨b2, - | ⟨b3, rest⟩⟩⟩⟩
  all_goals first
    | exact ⟨⟨b0, b1, b2, b3⟩, rest, rfl, rfl⟩
    | exact absurd h (by simp)

theorem exists_pair {l : List UInt8} (h : 2 ≤ l.length) :
    ∃ (a b : UInt8) (rest : List UInt8), l = [a, b] ++ rest ∧ l.length = rest.length + 2 := by
  rcases l with - | ⟨a, - | ⟨b, rest⟩⟩
  all_goals first
    | exact ⟨a, b, rest, rfl, rfl⟩
    | exact absurd h (by simp)

/-- Every frame of the EtherType of ARP that holds an ARP packet is one of these. -/
theorem exists_arpFrame {frame : List UInt8} (hlen : 42 ≤ frame.length)
    (htype : slice frame 12 2 = .ok [0x08, 0x06]) : ∃ f : ArpFrame, frame = f.bytes := by
  obtain ⟨dAddr, l₁, rfl, h₁⟩ := exists_etherAddr (by omega : 6 ≤ frame.length)
  obtain ⟨sAddr, l₂, rfl, h₂⟩ := exists_etherAddr (by omega : 6 ≤ l₁.length)
  obtain ⟨t, t', l₃, rfl, h₃⟩ := exists_pair (by omega : 2 ≤ l₂.length)
  obtain ⟨hrd, hrd', l₄, rfl, h₄⟩ := exists_pair (by omega : 2 ≤ l₃.length)
  obtain ⟨pro, pro', l₅, rfl, h₅⟩ := exists_pair (by omega : 2 ≤ l₄.length)
  obtain ⟨hln, pln, l₆, rfl, h₆⟩ := exists_pair (by omega : 2 ≤ l₅.length)
  obtain ⟨op, op', l₇, rfl, h₇⟩ := exists_pair (by omega : 2 ≤ l₆.length)
  obtain ⟨sha, l₈, rfl, h₈⟩ := exists_etherAddr (by omega : 6 ≤ l₇.length)
  obtain ⟨sip, l₉, rfl, h₉⟩ := exists_wireIp (by omega : 4 ≤ l₈.length)
  obtain ⟨tha, l₁₀, rfl, h₁₀⟩ := exists_etherAddr (by omega : 6 ≤ l₉.length)
  obtain ⟨tip, rest, rfl, h₁₁⟩ := exists_wireIp (by omega : 4 ≤ l₁₀.length)
  rw [slice_of_le (by omega)] at htype
  obtain ⟨rfl, rfl⟩ : t = 0x08 ∧ t' = 0x06 := by
    have hpair : [t, t'] = [0x08, 0x06] := Except.ok.inj htype
    exact ⟨(List.cons.inj hpair).1, (List.cons.inj (List.cons.inj hpair).2).1⟩
  exact ⟨⟨dAddr, sAddr, (hrd, hrd'), (pro, pro'), hln, pln, (op, op'), sha, sip, tha, tip, rest⟩,
    by simp [ArpFrame.bytes]⟩

namespace ArpFrame

variable (f : ArpFrame) (e : Endian)

theorem length_bytes : f.bytes.length = 42 + f.rest.length := by
  rw [bytes, List.length_append]
  exact congrArg (· + f.rest.length) rfl

theorem le_length {n : ℕ} (h : n ≤ 42) : n ≤ f.bytes.length := by
  rw [length_bytes]
  omega

theorem slice_type : slice f.bytes 12 2 = .ok [0x08, 0x06] := by
  rw [slice_of_le (f.le_length (by decide))]
  rfl

theorem load_op : load16 e f.bytes 20 = .ok (UInt16.ofNat (e.decode [f.op.1, f.op.2])) := by
  rw [load16, slice_of_le (f.le_length (by decide))]
  rfl

theorem load_tip : load32 e f.bytes 38 = .ok (UInt32.ofNat (e.decode f.tip.bytes)) := by
  rw [load32, slice_of_le (f.le_length (by decide))]
  rfl

theorem load_sip : load32 e f.bytes 28 = .ok (UInt32.ofNat (e.decode f.sip.bytes)) := by
  rw [load32, slice_of_le (f.le_length (by decide))]
  rfl

theorem store_reply : store16 e f.bytes 20 (rteCpuToBe16 e 2) = .ok { f with op := (0, 2) }.bytes := by
  have henc : e.encode 2 (rteCpuToBe16 e 2).toNat = [0, 2] := by cases e <;> decide
  rw [store16, henc, patch_of_le (f.le_length (by decide))]
  rfl

theorem copy_sAddr : etherAddrCopy f.bytes 6 0 = .ok { f with dAddr := f.sAddr }.bytes := by
  have hslice : slice f.bytes 6 6 = .ok f.sAddr.bytes := by
    rw [slice_of_le (f.le_length (by decide))]
    rfl
  rw [etherAddrCopy, hslice, ok_bind, patch_of_le (f.le_length (show 6 ≤ 42 from by decide))]
  rfl

theorem patch_sAddr (mac : EtherAddr) :
    patch f.bytes 6 mac.bytes = .ok { f with sAddr := mac }.bytes := by
  rw [patch_of_le (f.le_length (show 12 ≤ 42 from by decide))]
  rfl

theorem copy_sha : etherAddrCopy f.bytes 22 32 = .ok { f with tha := f.sha }.bytes := by
  have hslice : slice f.bytes 22 6 = .ok f.sha.bytes := by
    rw [slice_of_le (f.le_length (by decide))]
    rfl
  rw [etherAddrCopy, hslice, ok_bind, patch_of_le (f.le_length (show 38 ≤ 42 from by decide))]
  rfl

theorem patch_sha (mac : EtherAddr) :
    patch f.bytes 22 mac.bytes = .ok { f with sha := mac }.bytes := by
  rw [patch_of_le (f.le_length (show 28 ≤ 42 from by decide))]
  rfl

theorem store_tip (a : WireIp) :
    store32 e f.bytes 38 (UInt32.ofNat (e.decode a.bytes)) = .ok { f with tip := a }.bytes := by
  rw [store32, encode_decode32 e rfl, patch_of_le (f.le_length (show 42 ≤ 42 from by decide))]
  rfl

theorem store_sip (a : WireIp) :
    store32 e f.bytes 28 (UInt32.ofNat (e.decode a.bytes)) = .ok { f with sip := a }.bytes := by
  rw [store32, encode_decode32 e rfl, patch_of_le (f.le_length (show 32 ≤ 42 from by decide))]
  rfl

end ArpFrame

/-! ### Answering -/

theorem myIp_little : myIp = UInt32.ofNat (Endian.little.decode myAddrReversed.bytes) := by decide

/-- The operation is compared in network order on either host. -/
theorem op_eq_request (e : Endian) (f : ArpFrame) :
    UInt16.ofNat (e.decode [f.op.1, f.op.2]) = rteCpuToBe16 e 1 ↔ f.op = (0, 1) := by
  have hone : Endian.big.encode 2 1 = [0, 1] := by decide
  rw [rteCpuToBe16, hone, decode16_inj e rfl rfl, Prod.ext_iff]
  simp

/-- A little-endian host finds its address in a frame when the bytes of it are reversed. -/
theorem tip_eq_myIp (f : ArpFrame) :
    UInt32.ofNat (Endian.little.decode f.tip.bytes) = myIp ↔ f.tip = myAddrReversed := by
  rw [myIp_little, decode32_inj .little rfl rfl]
  rcases f.tip with ⟨b0, b1, b2, b3⟩
  simp [WireIp.bytes, myAddrReversed]

/-- What a little-endian host does with an ARP frame: it answers requests for the reversed address,
    and speaks for the reversed address. -/
theorem arpBranch_little (mac : EtherAddr) (f : ArpFrame) :
    arpBranch .little mac f.bytes =
      .ok (if f.op = (0, 1) ∧ f.tip = myAddrReversed then f.reply mac myAddrReversed else f).bytes := by
  rw [arpBranch, f.load_tip, ok_bind]
  by_cases htip : f.tip = myAddrReversed
  · rw [if_pos ((tip_eq_myIp f).mpr htip), f.load_op, ok_bind]
    by_cases hop : f.op = (0, 1)
    · rw [if_pos ((op_eq_request .little f).mpr hop), if_pos ⟨hop, htip⟩, f.store_reply, ok_bind,
        ArpFrame.copy_sAddr, ok_bind, ArpFrame.patch_sAddr, ok_bind, ArpFrame.copy_sha, ok_bind,
        ArpFrame.load_sip, ok_bind, ArpFrame.store_tip, ok_bind, ArpFrame.patch_sha, ok_bind,
        myIp_little, ArpFrame.store_sip]
      rfl
    · rw [if_neg fun h => hop ((op_eq_request .little f).mp h), if_neg fun h => hop h.1]
  · rw [if_neg fun h => htip ((tip_eq_myIp f).mp h), if_neg fun h => htip h.2]

theorem packetHandler_arp (e : Endian) (mac : EtherAddr) (f : ArpFrame) :
    packetHandler e mac f.bytes = arpBranch e mac f.bytes := by
  rw [packetHandler_type e mac f.slice_type rfl, if_pos (by decide)]

/-- A reply is not the request. -/
theorem reply_ne {f : ArpFrame} (h : f.op = (0, 1)) (mac : EtherAddr) (sip : WireIp) :
    (f.reply mac sip).bytes ≠ f.bytes := by
  intro heq
  have hrequest : f.bytes[21]? = some f.op.2 := rfl
  have hreply : (f.reply mac sip).bytes[21]? = some 2 := rfl
  rw [heq, hrequest, h] at hreply
  exact absurd hreply (by decide)

/-- CORRECT (but for its own address, either way round): a little-endian host does with an ARP frame
    what it should exactly when the frame is no request for its address or for the reverse of it. -/
theorem arp_answering (mac : EtherAddr) (frame : List UInt8) (hlen : 42 ≤ frame.length)
    (htype : slice frame 12 2 = .ok [0x08, 0x06]) :
    ∃ f : ArpFrame, frame = f.bytes ∧
      (packetHandler .little mac frame = .ok (f.answer mac).bytes ↔
        ¬ (f.op = (0, 1) ∧ (f.tip = myAddr ∨ f.tip = myAddrReversed))) := by
  obtain ⟨f, rfl⟩ := exists_arpFrame hlen htype
  refine ⟨f, rfl, ?_⟩
  rw [packetHandler_arp, arpBranch_little, Except.ok.injEq, ArpFrame.answer]
  by_cases hop : f.op = (0, 1)
  · by_cases hmine : f.tip = myAddr
    · have hrev : f.tip ≠ myAddrReversed := by rw [hmine]; decide
      rw [if_neg fun h => hrev h.2, if_pos ⟨hop, hmine⟩]
      exact iff_of_false (fun h => reply_ne hop mac myAddr h.symm) (fun h => h ⟨hop, Or.inl hmine⟩)
    · by_cases hrev : f.tip = myAddrReversed
      · rw [if_pos ⟨hop, hrev⟩, if_neg fun h => hmine h.2]
        exact iff_of_false (reply_ne hop mac myAddrReversed) (fun h => h ⟨hop, Or.inr hrev⟩)
      · rw [if_neg fun h => hrev h.2, if_neg fun h => hmine h.2]
        exact iff_of_true rfl fun h => h.2.elim hmine hrev
  · rw [if_neg fun h => hop h.1, if_neg fun h => hop h.1]
    exact iff_of_true rfl fun h => hop h.1

/-- A request of 192.168.10.1 for 192.168.10.97. -/
def requestForMe : ArpFrame where
  dAddr := ⟨0xFF, 0xFF, 0xFF, 0xFF, 0xFF, 0xFF⟩
  sAddr := ⟨2, 0, 0, 0, 0, 1⟩
  hrd := (0, 1)
  pro := (8, 0)
  hln := 6
  pln := 4
  op := (0, 1)
  sha := ⟨2, 0, 0, 0, 0, 1⟩
  sip := ⟨192, 168, 10, 1⟩
  tha := ⟨0, 0, 0, 0, 0, 0⟩
  tip := myAddr
  rest := []

/-- The same request for 192.168.10.1 is left alone, as it should be. -/
theorem arp_answering_other : ∃ f : ArpFrame,
    { requestForMe with tip := ⟨192, 168, 10, 1⟩ }.bytes = f.bytes ∧
      (packetHandler .little ⟨2, 0, 0, 0, 0, 2⟩ { requestForMe with tip := ⟨192, 168, 10, 1⟩ }.bytes =
          .ok (f.answer ⟨2, 0, 0, 0, 0, 2⟩).bytes ↔
        ¬ (f.op = (0, 1) ∧ (f.tip = myAddr ∨ f.tip = myAddrReversed))) :=
  arp_answering ⟨2, 0, 0, 0, 0, 2⟩ { requestForMe with tip := ⟨192, 168, 10, 1⟩ }.bytes (by decide)
    (by decide)

/-- The request for 192.168.10.97 gets no reply. -/
theorem request_ignored :
    packetHandler .little ⟨2, 0, 0, 0, 0, 2⟩ requestForMe.bytes = .ok requestForMe.bytes ∧
    packetHandler .little ⟨2, 0, 0, 0, 0, 2⟩ requestForMe.bytes ≠
      .ok (requestForMe.answer ⟨2, 0, 0, 0, 0, 2⟩).bytes := by
  constructor <;> decide

end Diversity.Dpdk
