import Diversity.Schemes.Bytes

/-! @src struct_serialization/src/message.c, client.c | name:Client request | scheme:bytes |
    family:message

    A `client_request` goes over the wire as its memory: `length`, four bytes of padding, the two
    halves of `ts`, and the content from offset 24 on, which the last member only opens. The sizes are
    those of an LP64 platform. `malloc` does not clear the block, so what it held before stays in the
    bytes that nothing is stored to.

        0        4        8               24                 24 + data_size
        | length | -      | tv_sec tv_nsec | content …        | 7 more bytes   -/

namespace Diversity.Serialization
open Schemes

/-- `sizeof (struct client_request)`. -/
def sizeofRequest : ℕ := 32

/-- `DATA_SIZE`. -/
def dataSize : UInt32 := 16

/-- `struct timespec`, as the two 64-bit patterns. -/
structure Timespec where
  tvSec : UInt64
  tvNsec : UInt64
  deriving DecidableEq, Repr

/-- The memory of a `timespec`. -/
def Timespec.bytes (e : Endian) (ts : Timespec) : List UInt8 :=
  e.encode 8 ts.tvSec.toNat ++ e.encode 8 ts.tvNsec.toNat

/-- `message_length`. -/
def messageLength (length : UInt32) : UInt32 :=
  UInt32.ofNat ((length.toNat + 2 ^ 64 - (sizeofRequest - 1)) % 2 ^ 64)

/-- `create_client_request`: `mem` is what the block from `malloc` held. -/
def createClientRequest (e : Endian) (mem : ℕ → UInt8) (data : List UInt8) (size : UInt32) :
    C (List UInt8) := do
  let messageSize := UInt32.ofNat (sizeofRequest + size.toNat - 1)
  let request ← newArray mem messageSize.toNat
  let request ← store32 e request 0 messageSize
  let content ← slice data 0 size.toNat
  patch request 24 content

/-- `alphanum`. -/
def alphanum : List UInt8 :=
  [48, 49, 50, 51, 52, 53, 54, 55, 56, 57, 97, 98, 99, 100, 101, 102, 103, 104, 105, 106, 107, 108,
    109, 110, 111, 112, 113, 114, 115, 116, 117, 118, 119, 120, 121, 122]

/-- `random_string`, on the results of `rand`. -/
def randomString (rand : ℕ → ℕ) (len : ℕ) : List UInt8 :=
  (List.range (len - 1)).map (fun i => alphanum.getD (rand i % alphanum.length) 0) ++ [0]

/-- What the environment gives one `send_request`: the results of `rand`, the clock, and the contents
    of the block that `malloc` returns. -/
structure Supply where
  rand : ℕ → ℕ
  now : Timespec
  mem : ℕ → UInt8

/-- A request that was sent: its members and its bytes on the wire. -/
structure Request where
  ts : Timespec
  content : List UInt8
  wire : List UInt8
  deriving DecidableEq, Repr

/-- `send_request`: what it passes to `bufferevent_write`. -/
def sendRequest (e : Endian) (supply : Supply) : C Request := do
  let data := randomString supply.rand dataSize.toNat
  let request ← createClientRequest e supply.mem data dataSize
  let request ← patch request 8 (supply.now.bytes e)
  let length ← load32 e request 0
  let wire ← slice request 0 length.toNat
  .ok { ts := supply.now, content := data, wire }

/-- What `readcb` makes of its buffer: `length`, `ts`, `content` as a string, and the size that it
    prints beside it. -/
structure Response where
  length : UInt32
  ts : Timespec
  content : List UInt8
  size : UInt32
  deriving DecidableEq, Repr

/-- `(struct client_request *)buffer`. -/
def decodeResponse (e : Endian) (buffer : List UInt8) : C Response := do
  let length ← load32 e buffer 0
  let sec ← slice buffer 8 8
  let nsec ← slice buffer 16 8
  let content ← cString (buffer.drop 24)
  .ok {
    length
    ts := ⟨UInt64.ofNat (e.decode sec), UInt64.ofNat (e.decode nsec)⟩
    content
    size := messageLength length }

/-- A response is the decoding of a whole request: it has its length, its time and its content. -/
def Response.Echoes (resp : Response) (r : Request) : Prop :=
  resp.length.toNat = r.wire.length ∧ resp.ts = r.ts ∧ cString r.content = .ok resp.content

/-! ### Layout -/

variable (e : Endian)

@[simp] theorem Timespec.length_bytes (ts : Timespec) : (ts.bytes e).length = 16 := by
  simp [Timespec.bytes]

@[simp] theorem length_randomString (rand : ℕ → ℕ) (len : ℕ) :
    (randomString rand len).length = len - 1 + 1 := by
  simp [randomString]

/-- The bytes of a block from `malloc` between two offsets. -/
def left (mem : ℕ → UInt8) (i n : ℕ) : List UInt8 := (List.range n).map (fun j => mem (i + j))

@[simp] theorem length_left (mem : ℕ → UInt8) (i n : ℕ) : (left mem i n).length = n := by
  simp [left]

/-- The memory of a request: what `create_client_request` and `send_request` store, and the bytes of
    the block between and behind. -/
def layout (ts : Timespec) (content : List UInt8) (mem : ℕ → UInt8) : List UInt8 :=
  e.encode 4 47 ++ left mem 4 4 ++ ts.bytes e ++ content ++ left mem 40 7

theorem length_layout (ts : Timespec) {content : List UInt8} (h : content.length = 16)
    (mem : ℕ → UInt8) : (layout e ts content mem).length = 47 := by
  simp [layout, h]

theorem load_length (ts : Timespec) (content : List UInt8) (mem : ℕ → UInt8) (rest : List UInt8) :
    load32 e (layout e ts content mem ++ rest) 0 = .ok 47 := by
  simp only [load32, layout, List.append_assoc]
  rw [slice_head (by simp), ok_bind, e.decode_encode]
  rfl

theorem left_add (mem : ℕ → UInt8) (i m n : ℕ) :
    left mem i (m + n) = left mem i m ++ left mem (i + m) n := by
  simp only [left, List.range_add, List.map_append, List.map_map, Function.comp_def, Nat.add_assoc]

/-- What `create_client_request` stores, and the bytes of the block between and behind, when the size of
    the message fits `unsigned`. -/
theorem createClientRequest_bytes (mem : ℕ → UInt8) {data : List UInt8} {n : UInt32}
    (hn : n.toNat + 31 < 2 ^ 32) (hdata : n.toNat ≤ data.length) :
    createClientRequest e mem data n =
      .ok (e.encode 4 (31 + n.toNat) ++ left mem 4 4 ++ left mem 8 16 ++ data.take n.toNat ++
        left mem (24 + n.toNat) 7) := by
  have hsize : (UInt32.ofNat (sizeofRequest + n.toNat - 1)).toNat = 31 + n.toNat := by
    rw [UInt32.toNat_ofNat', sizeofRequest, Nat.mod_eq_of_lt (by omega)]
    omega
  have hblock : newArray mem ((31 + n.toNat : ℕ) : ℤ) = .ok (left mem 0 4 ++ left mem 4 4 ++
      left mem 8 16 ++ left mem 24 n.toNat ++ left mem (24 + n.toNat) 7) := by
    have hall : (List.range (31 + n.toNat)).map mem = left mem 0 (4 + 4 + 16 + n.toNat + 7) := by
      rw [left, show 4 + 4 + 16 + n.toNat + 7 = 31 + n.toNat by omega]
      simp only [Nat.zero_add]
    rw [newArray_natCast, hall, left_add, left_add, left_add, left_add]
    simp only [Nat.zero_add]
  have hcontent : slice data 0 n.toNat = .ok (data.take n.toNat) := by
    rw [slice_of_le (by omega), List.drop_zero]
  have hlength : store32 e (left mem 0 4 ++ left mem 4 4 ++ left mem 8 16 ++ left mem 24 n.toNat ++
      left mem (24 + n.toNat) 7) 0 (UInt32.ofNat (sizeofRequest + n.toNat - 1)) =
      .ok (e.encode 4 (31 + n.toNat) ++ left mem 4 4 ++ left mem 8 16 ++ left mem 24 n.toNat ++
        left mem (24 + n.toNat) 7) := by
    simp only [store32, hsize, List.append_assoc]
    exact patch_head (by simp)
  simp only [createClientRequest, hsize, hblock, ok_bind, hlength, hcontent]
  exact patch_append (by simp) (by simp [hdata])

theorem createClientRequest_layout (mem : ℕ → UInt8) {data : List UInt8} (h : data.length = 16) :
    createClientRequest e mem data dataSize =
      .ok (e.encode 4 47 ++ left mem 4 4 ++ left mem 8 16 ++ data ++ left mem 40 7) := by
  have h16 : dataSize.toNat = 16 := rfl
  rw [createClientRequest_bytes e mem (by rw [h16]; omega) (by omega), h16,
    List.take_of_length_le (by omega)]

theorem sendRequest_layout (supply : Supply) :
    sendRequest e supply = .ok {
      ts := supply.now
      content := randomString supply.rand 16
      wire := layout e supply.now (randomString supply.rand 16) supply.mem } := by
  have hlen : (randomString supply.rand 16).length = 16 := length_randomString _ _
  have hts : patch (e.encode 4 47 ++ left supply.mem 4 4 ++ left supply.mem 8 16 ++
      randomString supply.rand 16 ++ left supply.mem 40 7) 8 (supply.now.bytes e) =
        .ok (layout e supply.now (randomString supply.rand 16) supply.mem) := by
    rw [List.append_assoc _ (randomString supply.rand 16), patch_append (by simp) (by simp),
      ← List.append_assoc, layout]
  have hload : load32 e (layout e supply.now (randomString supply.rand 16) supply.mem) 0 =
      .ok 47 := by
    have h := load_length e supply.now (randomString supply.rand 16) supply.mem []
    rwa [List.append_nil] at h
  have hall : slice (layout e supply.now (randomString supply.rand 16) supply.mem) 0
      (47 : UInt32).toNat = .ok (layout e supply.now (randomString supply.rand 16) supply.mem) :=
    slice_all (length_layout e supply.now hlen supply.mem)
  simp only [sendRequest, show dataSize.toNat = 16 from rfl,
    createClientRequest_layout e supply.mem hlen, ok_bind, hts, hload, hall]

/-! ### Decoding -/

theorem ne_zero_of_mem_alphanum : ∀ c ∈ alphanum, c ≠ 0 := by decide +kernel

/-- A random string has no zero before its last byte. -/
theorem cString_randomString (rand : ℕ → ℕ) (len : ℕ) (rest : List UInt8) :
    ∃ s, cString (randomString rand len) = .ok s ∧
      cString (randomString rand len ++ rest) = .ok s := by
  have hchars : ∀ c ∈ (List.range (len - 1)).map
      (fun i => alphanum.getD (rand i % alphanum.length) 0), c ≠ 0 := by
    intro c hc
    obtain ⟨i, -, rfl⟩ := List.mem_map.mp hc
    have hlt : rand i % alphanum.length < alphanum.length := Nat.mod_lt _ (by decide)
    rw [List.getD_eq_getElem _ _ hlt]
    exact ne_zero_of_mem_alphanum _ (List.getElem_mem hlt)
  refine ⟨_, cString_append hchars, ?_⟩
  rw [randomString, List.append_assoc]
  exact cString_append hchars

/-- A buffer that starts with the bytes of a request decodes to the request. -/
theorem decodeResponse_layout (ts : Timespec) (rand : ℕ → ℕ) (mem : ℕ → UInt8) (rest : List UInt8) :
    ∃ resp, decodeResponse e (layout e ts (randomString rand 16) mem ++ rest) = .ok resp ∧
      resp.Echoes ⟨ts, randomString rand 16, layout e ts (randomString rand 16) mem⟩ := by
  have hlen : (randomString rand 16).length = 16 := length_randomString _ _
  obtain ⟨content, hcontent, hstring⟩ := cString_randomString rand 16 (left mem 40 7 ++ rest)
  have hsec : slice (layout e ts (randomString rand 16) mem ++ rest) 8 8 =
      .ok (e.encode 8 ts.tvSec.toNat) := by
    simp only [layout, Timespec.bytes, List.append_assoc]
    rw [← List.append_assoc (e.encode 4 47), ← List.append_assoc _ (e.encode 8 ts.tvSec.toNat)]
    exact slice_append (by simp) (by simp)
  have hnsec : slice (layout e ts (randomString rand 16) mem ++ rest) 16 8 =
      .ok (e.encode 8 ts.tvNsec.toNat) := by
    simp only [layout, Timespec.bytes, List.append_assoc]
    rw [← List.append_assoc (e.encode 4 47), ← List.append_assoc _ (e.encode 8 ts.tvSec.toNat),
      ← List.append_assoc _ (e.encode 8 ts.tvNsec.toNat)]
    exact slice_append (by simp) (by simp)
  have hdrop : (layout e ts (randomString rand 16) mem ++ rest).drop 24 =
      randomString rand 16 ++ (left mem 40 7 ++ rest) := by
    have h24 : (e.encode 4 47 ++ left mem 4 4 ++ ts.bytes e).length = 24 := by simp
    rw [layout, List.append_assoc, List.append_assoc, ← h24, List.drop_left]
  have h64 : ∀ x : UInt64, UInt64.ofNat (e.decode (e.encode 8 x.toNat)) = x := by
    intro x
    rw [e.decode_encode, Nat.mod_eq_of_lt (show x.toNat < 256 ^ 8 from x.toNat_lt), UInt64.ofNat_toNat]
  refine ⟨⟨47, ts, content, messageLength 47⟩, ?_, ?_⟩
  · simp only [decodeResponse, load_length, hsec, hnsec, hdrop, hstring, ok_bind, h64]
  · exact ⟨(length_layout e ts hlen mem).symm, rfl, hcontent⟩

end Diversity.Serialization
