import Diversity.Schemes.Text
import Diversity.Programs.Net.RawSocket

/-! @src fast_leveldb/src/net.c (parse_addr, net_gethostbyname, addr_to_str) |
    name:Addresses as text | scheme:text | family:representation

    `parse_addr` splits a text at its last colon into host and port and fills a `struct net_addr`,
    `addr_to_str` prints one. Both go by the tag `ipver`, and they do not agree on it: the first sets
    6 for IPv6, the second prints IPv6 for 16 and a question mark for anything it does not know. The
    length of the address is that of a `sockaddr_in` for either family. `inet_pton` and `inet_ntop`
    are parameters.

        1.2.3.4:80      ipver 4   →   1.2.3.4:80
        fe80::1:80      ipver 6   →   ?:0                                     -/

namespace Diversity.Addr
open Schemes
open Net (htons)

abbrev Text := List UInt8

/-- `struct in_addr`. -/
abbrev InAddr := Vector UInt8 4

/-- `struct in6_addr`. -/
abbrev In6Addr := Vector UInt8 16

/-- `inet_pton` and `inet_ntop` for both families; `none` stands for a result other than 1. -/
structure Inet where
  pton4 : Text → Option InAddr
  pton6 : Text → Option In6Addr
  ntop4 : InAddr → Text
  ntop6 : In6Addr → Text

/-- `INET6_ADDRSTRLEN`. -/
def inet6Addrstrlen : ℕ := 46

/-- `struct sockaddr_in` and `struct sockaddr_in6`: family, port as it lies in memory, address. -/
structure Sockaddr (A : Type) where
  family : ℕ
  port : UInt16
  addr : A
  deriving DecidableEq, Repr

/-- `sizeof(struct sockaddr_in)`. -/
def sizeofSin4 : ℤ := 16

/-- `sizeof(struct sockaddr_in6)`. -/
def sizeofSin6 : ℤ := 28

/-- Where `sockaddr` points to. -/
inductive SockaddrPtr where
  | null | sin4 | sin6
  deriving DecidableEq, Repr

/-- `struct net_addr`. -/
structure NetAddr where
  ipver : ℤ
  sin4 : Sockaddr InAddr
  sin6 : Sockaddr In6Addr
  sockaddr : SockaddrPtr
  sockaddrLen : ℤ
  deriving DecidableEq, Repr

/-- After `memset(shost, 0, sizeof(struct net_addr))`. -/
def NetAddr.zero : NetAddr where
  ipver := 0
  sin4 := ⟨0, 0, Vector.replicate 4 0⟩
  sin6 := ⟨0, 0, Vector.replicate 16 0⟩
  sockaddr := .null
  sockaddrLen := 0

/-- The end of the program in `FATAL`. -/
inductive Fatal where
  | noPort
  | invalidPort (port : ℤ)
  | inetPton (host : Text)
  deriving DecidableEq, Repr

/-- The characters of a text. -/
def shown (t : Text) : String := String.ofList (t.map fun c => Char.ofNat c.toNat)

/-- `str_quote`. -/
def strQuote (t : Text) : String := "\"" ++ shown (t.take 1020) ++ "\""

/-- The message. -/
def Fatal.text : Fatal → String
  | .noPort => "You forgot to specify port"
  | .invalidPort port => "Invalid port number " ++ toString port
  | .inetPton host => "inet_pton(" ++ strQuote host ++ ")"

/-- `ntohs`. -/
def ntohs (e : Endian) (w : UInt16) : ℕ := Endian.big.decode (e.encode 2 w.toNat)

/-- From the label `got_ipv4` on. -/
def gotIpv4 (e : Endian) (inAddr : InAddr) (port : ℕ) : NetAddr :=
  { NetAddr.zero with
    ipver := 4
    sockaddr := .sin4
    sockaddrLen := sizeofSin4
    sin4 := { family := 2, port := htons e port, addr := inAddr } }

/-- From the label `got_ipv6` on; the length is that of `sin4` here too. -/
def gotIpv6 (e : Endian) (in6Addr : In6Addr) (port : ℕ) : NetAddr :=
  { NetAddr.zero with
    ipver := 6
    sockaddr := .sin6
    sockaddrLen := sizeofSin4
    sin6 := { family := 10, port := htons e port, addr := in6Addr } }

/-- `net_gethostbyname`. -/
def netGethostbyname (inet : Inet) (e : Endian) (host : Text) (port : ℕ) : Except Fatal NetAddr :=
  match inet.pton4 host with
  | some inAddr => .ok (gotIpv4 e inAddr port)
  | none =>
    match inet.pton6 host with
    | some in6Addr => .ok (gotIpv6 e in6Addr port)
    | none => .error (.inetPton host)

/-- `parse_addr`. -/
def parseAddr (inet : Inet) (e : Endian) (addr : Text) : Except Fatal NetAddr :=
  match strrchr addr 58 with
  | none => .error .noPort
  | some colon =>
    let port := atoi (addr.drop (colon + 1))
    if port < 0 ∨ port > 65535 then .error (.invalidPort port)
    else
      let addrLen := if colon > 254 then 254 else colon
      netGethostbyname inet e (addr.take addrLen) port.toNat

/-- `inet_ntop` into a buffer that held the string `dst`; a text that does not fit leaves it. -/
def inetNtop (text dst : Text) : Text := if text.length < inet6Addrstrlen then text else dst

/-- `addr_to_str`; `dst` is what the buffer on the stack held. -/
def addrToStr (inet : Inet) (e : Endian) (dst : Text) (addr : NetAddr) : Text :=
  let (dst, port) :=
    if addr.ipver = 4 then (inetNtop (inet.ntop4 addr.sin4.addr) dst, ntohs e addr.sin4.port)
    else if addr.ipver = 16 then (inetNtop (inet.ntop6 addr.sin6.addr) dst, ntohs e addr.sin6.port)
    else ([63], 0)
  (dst ++ 58 :: decimal port).take 254

/-! ### What is promised -/

/-- An address of either family. -/
inductive Address where
  | v4 (a : InAddr)
  | v6 (a : In6Addr)
  deriving DecidableEq, Repr

/-- Its canonical text. -/
def Address.ntop (inet : Inet) : Address → Text
  | .v4 a => inet.ntop4 a
  | .v6 a => inet.ntop6 a

/-- The canonical text of an address is short, is read back by the `inet_pton` of its family and is
    rejected by the other. -/
def Canonical (inet : Inet) : Address → Prop
  | .v4 a => inet.pton4 (inet.ntop4 a) = some a ∧ inet.pton6 (inet.ntop4 a) = none ∧
      (inet.ntop4 a).length < inet6Addrstrlen
  | .v6 a => inet.pton6 (inet.ntop6 a) = some a ∧ inet.pton4 (inet.ntop6 a) = none ∧
      (inet.ntop6 a).length < inet6Addrstrlen

instance (inet : Inet) : (a : Address) → Decidable (Canonical inet a)
  | .v4 _ => inferInstanceAs (Decidable (_ ∧ _ ∧ _))
  | .v6 _ => inferInstanceAs (Decidable (_ ∧ _ ∧ _))

/-- The structure of the right family, and its size. -/
def Address.sockaddr : Address → SockaddrPtr × ℤ
  | .v4 _ => (.sin4, sizeofSin4)
  | .v6 _ => (.sin6, sizeofSin6)

/-- `<inet_ntop form>:<port>`. -/
def addressText (inet : Inet) (a : Address) (port : ℕ) : Text := a.ntop inet ++ 58 :: decimal port

/-- The text of an address and a port is parsed and printed again, and the parsed address points at
    the structure of its family, with its size. -/
def RoundTrip (inet : Inet) (e : Endian) (a : Address) (port : ℕ) : Prop :=
  ∃ addr, parseAddr inet e (addressText inet a port) = .ok addr ∧
    (∀ dst, addrToStr inet e dst addr = addressText inet a port) ∧
    (addr.sockaddr, addr.sockaddrLen) = a.sockaddr

/-! ### Parsing and printing -/

variable {inet : Inet} {e : Endian} {port : ℕ}

theorem ntohs_htons (e : Endian) {x : ℕ} (h : x ≤ 65535) : ntohs e (htons e x) = x := by
  have hlen : (Endian.big.encode 2 x).length = 2 := Endian.length_encode _ _ _
  have henc := e.encode_decode (Endian.big.encode 2 x)
  rw [hlen] at henc
  rw [ntohs, htons, toNat_decode16 e hlen, henc, Endian.decode_encode]
  omega

theorem colon_not_mem_decimal (n : ℕ) : (58 : UInt8) ∉ decimal n := by
  intro h
  exact absurd (decimal_isDigit n 58 h) (by decide)

/-- The text splits at the colon before the port. -/
theorem parseAddr_text (e : Endian) {host : Text} (hhost : host.length < inet6Addrstrlen)
    (hport : port ≤ 65535) :
    parseAddr inet e (host ++ 58 :: decimal port) = netGethostbyname inet e host port := by
  have hdrop : (host ++ 58 :: decimal port).drop (host.length + 1) = decimal port := by
    rw [List.drop_append, List.drop_of_length_le (by omega)]
    simp
  have hshort : ¬ host.length > 254 := by
    rw [inet6Addrstrlen] at hhost
    omega
  have hrange : ¬ ((port : ℤ) < 0 ∨ (port : ℤ) > 65535) := by omega
  simp only [parseAddr, strrchr_append (colon_not_mem_decimal port), hdrop, atoi_decimal,
    if_neg hrange, if_neg hshort, List.take_left, Int.toNat_natCast]

theorem length_text {t : Text} (ht : t.length < inet6Addrstrlen) (hport : port ≤ 65535) :
    (t ++ 58 :: decimal port).length ≤ 254 := by
  have hdigits := length_decimal_le (k := 5) (by decide) (show port < 10 ^ 5 by omega)
  rw [inet6Addrstrlen] at ht
  simp only [List.length_append, List.length_cons]
  omega

theorem roundTrip_v4 {a : InAddr} (ha : Canonical inet (.v4 a)) (hport : port ≤ 65535) :
    RoundTrip inet e (.v4 a) port := by
  obtain ⟨hpton, -, hlen⟩ := ha
  refine ⟨gotIpv4 e a port, ?_, fun dst => ?_, rfl⟩
  · rw [addressText, Address.ntop, parseAddr_text e hlen hport, netGethostbyname, hpton]
  · have htext : inetNtop (inet.ntop4 a) dst = inet.ntop4 a := if_pos hlen
    simp only [addrToStr, gotIpv4, if_true, htext, ntohs_htons e hport]
    exact List.take_of_length_le (length_text hlen hport)

/-- An IPv6 address is parsed with the wrong size and printed as a question mark. -/
theorem parseAddr_v6 {a : In6Addr} (ha : Canonical inet (.v6 a)) (hport : port ≤ 65535) :
    ∃ addr, parseAddr inet e (addressText inet (.v6 a) port) = .ok addr ∧
      addr.sockaddr = .sin6 ∧ addr.sockaddrLen = sizeofSin4 ∧
      ∀ dst, addrToStr inet e dst addr = [63, 58, 48] := by
  obtain ⟨hpton, hreject, hlen⟩ := ha
  refine ⟨gotIpv6 e a port, ?_, rfl, rfl, fun dst => rfl⟩
  rw [addressText, Address.ntop, parseAddr_text e hlen hport, netGethostbyname, hreject]
  simp only [hpton]

/-- CORRECT: the round trip works for IPv4 and for nothing else. -/
theorem address_round_trip (inet : Inet) (e : Endian) (a : Address) (port : ℕ)
    (ha : Canonical inet a) (hport : port ≤ 65535) :
    RoundTrip inet e a port ↔ ∃ a4, a = .v4 a4 := by
  constructor
  · intro h
    cases a with
    | v4 a4 => exact ⟨a4, rfl⟩
    | v6 a6 =>
      obtain ⟨addr, hparse, -, hsock⟩ := h
      obtain ⟨addr', hparse', -, hsize, -⟩ := parseAddr_v6 (e := e) ha hport
      obtain rfl : addr = addr' := Except.ok.inj (hparse.symm.trans hparse')
      have hlen := congrArg Prod.snd hsock
      have hne : addr.sockaddrLen ≠ sizeofSin6 := by rw [hsize]; decide
      exact absurd hlen hne
  · rintro ⟨a4, rfl⟩
    exact roundTrip_v4 ha hport

/-- 127.0.0.1. -/
def loopback4 : InAddr := #v[127, 0, 0, 1]

/-- ::1. -/
def loopback6 : In6Addr := #v[0, 0, 0, 0, 0, 0, 0, 0, 0, 0, 0, 0, 0, 0, 0, 1]

/-- `127.0.0.1`. -/
def loopbackText4 : Text := [49, 50, 55, 46, 48, 46, 48, 46, 49]

/-- `::1`. -/
def loopbackText6 : Text := [58, 58, 49]

/-- What `inet_pton` and `inet_ntop` do with the two loopback addresses and their texts. -/
def loopbackInet : Inet where
  pton4 t := if t = loopbackText4 then some loopback4 else none
  pton6 t := if t = loopbackText6 then some loopback6 else none
  ntop4 _ := loopbackText4
  ntop6 _ := loopbackText6

/-- `127.0.0.1:4321`. -/
theorem address_round_trip_loopback : RoundTrip loopbackInet .little (.v4 loopback4) 4321 :=
  (address_round_trip loopbackInet .little (.v4 loopback4) 4321 (by decide) (by decide)).mpr
    ⟨loopback4, rfl⟩

/-- `::1:4321` is parsed with 16 for the size of a `sockaddr_in6` and printed as `?:0`. -/
theorem loopback6_not_printed : Canonical loopbackInet (.v6 loopback6) ∧
    (∃ addr, parseAddr loopbackInet .little (addressText loopbackInet (.v6 loopback6) 4321) = .ok addr ∧
      addr.sockaddr = .sin6 ∧ addr.sockaddrLen = 16 ∧ sizeofSin6 = 28 ∧
      addrToStr loopbackInet .little [] addr = [63, 58, 48]) ∧
    ¬ RoundTrip loopbackInet .little (.v6 loopback6) 4321 := by
  have hparse : parseAddr loopbackInet .little (addressText loopbackInet (.v6 loopback6) 4321) =
      .ok (gotIpv6 .little loopback6 4321) := by decide
  refine ⟨by decide, ⟨_, hparse, rfl, rfl, rfl, rfl⟩, ?_⟩
  rintro ⟨addr, hparse', -, hsock⟩
  obtain rfl := Except.ok.inj (hparse'.symm.trans hparse)
  exact absurd hsock (by decide)

end Diversity.Addr
