import Diversity.Programs.Serialization.Message

/-! @src struct_serialization/src/message.c (message_length, create_client_request), client.c
    (send_request) | name:The bytes of a request | scheme:bytes | family:message

    `create_client_request` counts the struct and takes off the one `char` of `content` that is part of
    it. But the struct ends with seven bytes of padding behind that `char`, so the message is seven bytes
    longer than what is written into it, and there are four more bytes of padding behind `length`. All of
    them go out as `malloc` left them:

        0        4        8                24                24 + n           31 + n
        | length | memory | tv_sec tv_nsec | data            | memory         |

    The count is made in 64 bits and kept in 32. From `n = 2^32 - 31` on it wraps around, and the block is
    smaller than the header. -/

namespace Diversity.Serialization
open Schemes

variable (e : Endian)

/-- What `send_request` passes to `bufferevent_write`, for `data` of `n` bytes and the time `ts`: the
    request is made, `ts` is set, and `request->length` bytes from its start on are sent. -/
def transmit (mem : ℕ → UInt8) (data : List UInt8) (n : UInt32) (ts : Timespec) : C (List UInt8) := do
  let request ← createClientRequest e mem data n
  let request ← patch request 8 (ts.bytes e)
  let length ← load32 e request 0
  slice request 0 length.toNat

/-- The message of `n` bytes of data, with the bytes of the block that nothing was stored to. -/
def messageBytes (mem : ℕ → UInt8) (data : List UInt8) (n : ℕ) (ts : Timespec) : List UInt8 :=
  e.encode 4 (31 + n) ++ left mem 4 4 ++ (ts.bytes e ++ data.take n) ++ left mem (24 + n) 7

/-- Byte `i` of the message does not depend on what the block held. -/
def Fixed (data : List UInt8) (n : UInt32) (ts : Timespec) (i : ℕ) : Prop :=
  ∀ mem mem' w w', transmit e mem data n ts = .ok w → transmit e mem' data n ts = .ok w' → w[i]? = w'[i]?

/-- The sizes of a request agree: the block has room for the header and the data, `length` is the size of
    the struct and the data less one, and `message_length` gives the size of the data. -/
def SizesFit (mem : ℕ → UInt8) (data : List UInt8) (n : UInt32) : Prop :=
  ∃ request length, createClientRequest e mem data n = .ok request ∧ 24 + n.toNat ≤ request.length ∧
    load32 e request 0 = .ok length ∧ length.toNat = request.length ∧
    length.toNat = sizeofRequest + n.toNat - 1 ∧ messageLength length = n

/-! ### The message -/

variable {data : List UInt8} {n : UInt32}

/-- The length of a message is loaded back. -/
theorem load32_length {k : ℕ} (hk : k < 2 ^ 32) (rest : List UInt8) :
    load32 e (e.encode 4 k ++ rest) 0 = .ok (UInt32.ofNat k) := by
  rw [load32, slice_head (by simp), ok_bind, e.decode_encode, Nat.mod_eq_of_lt (by omega)]

theorem length_messageBytes (mem : ℕ → UInt8) (hdata : n.toNat ≤ data.length) (ts : Timespec) :
    (messageBytes e mem data n.toNat ts).length = 31 + n.toNat := by
  simp only [messageBytes, List.length_append, Endian.length_encode, length_left, Timespec.length_bytes,
    List.length_take]
  omega

theorem transmit_eq (mem : ℕ → UInt8) (hn : n.toNat + 31 < 2 ^ 32) (hdata : n.toNat ≤ data.length)
    (ts : Timespec) : transmit e mem data n ts = .ok (messageBytes e mem data n.toNat ts) := by
  have hts : patch (e.encode 4 (31 + n.toNat) ++ left mem 4 4 ++ left mem 8 16 ++ data.take n.toNat ++
      left mem (24 + n.toNat) 7) 8 (ts.bytes e) = .ok (messageBytes e mem data n.toNat ts) := by
    rw [List.append_assoc _ (data.take n.toNat), patch_append (by simp) (by simp), messageBytes]
    simp only [List.append_assoc]
  have hload : load32 e (messageBytes e mem data n.toNat ts) 0 = .ok (UInt32.ofNat (31 + n.toNat)) := by
    simp only [messageBytes, List.append_assoc]
    exact load32_length e (by omega) _
  have hlength : (UInt32.ofNat (31 + n.toNat)).toNat = 31 + n.toNat := by
    rw [UInt32.toNat_ofNat', Nat.mod_eq_of_lt (by omega)]
  rw [transmit, createClientRequest_bytes e mem hn hdata, ok_bind, hts, ok_bind, hload, ok_bind, hlength]
  exact slice_all (length_messageBytes e mem hdata ts)

/-- The request that `send_request` makes is the one for `DATA_SIZE`. -/
theorem sendRequest_transmit (supply : Supply) :
    (sendRequest e supply).map (·.wire) =
      transmit e supply.mem (randomString supply.rand 16) dataSize supply.now := by
  have h16 : dataSize.toNat = 16 := rfl
  have hlen : (randomString supply.rand 16).length = 16 := length_randomString _ _
  rw [sendRequest_layout, transmit_eq e supply.mem (by rw [h16]; omega) (by rw [hlen, h16]), h16]
  simp only [Except.map, layout, messageBytes, List.append_assoc, List.take_of_length_le hlen.le]

/-! ### Sizes -/

/-- `message_length` takes off what `create_client_request` has added, also where the sum has wrapped
    around. -/
theorem messageLength_size (n : UInt32) :
    messageLength (UInt32.ofNat (sizeofRequest + n.toNat - 1)) = n := by
  have hlt := n.toNat_lt
  apply UInt32.toNat_inj.mp
  rw [messageLength, UInt32.toNat_ofNat', UInt32.toNat_ofNat', sizeofRequest]
  omega

/-- A size that has wrapped around gives a block that the header and the data do not fit into. -/
theorem createClientRequest_wrapped (mem : ℕ → UInt8) (hn : 2 ^ 32 ≤ n.toNat + 31)
    (hdata : n.toNat ≤ data.length) : createClientRequest e mem data n = .error .outOfBounds := by
  have hlt := n.toNat_lt
  have hsize : (UInt32.ofNat (sizeofRequest + n.toNat - 1)).toNat = n.toNat + 31 - 2 ^ 32 := by
    rw [UInt32.toNat_ofNat', sizeofRequest]
    omega
  have hcontent : slice data 0 n.toNat = .ok (data.take n.toNat) := by
    rw [slice_of_le (by omega), List.drop_zero]
  have hshort : ∀ request : List UInt8, request.length = n.toNat + 31 - 2 ^ 32 →
      patch request 24 (data.take n.toNat) = .error .outOfBounds := by
    intro request hlen
    rw [patch, if_neg (by rw [List.length_take]; omega)]
  rw [createClientRequest, hsize, newArray_natCast, ok_bind, store32]
  by_cases hheader : 4 ≤ n.toNat + 31 - 2 ^ 32
  · rw [patch_of_le (by simpa using hheader), ok_bind, hcontent, ok_bind]
    refine hshort _ ?_
    simp [splice]
    omega
  · rw [patch, if_neg (by simpa using hheader)]
    rfl

/-- The sizes of a request fit exactly if the size of the message fits `unsigned`. -/
theorem sizesFit_iff (e : Endian) (mem : ℕ → UInt8) (data : List UInt8) (n : UInt32)
    (hdata : n.toNat ≤ data.length) : SizesFit e mem data n ↔ n.toNat + 31 < 2 ^ 32 := by
  constructor
  · rintro ⟨request, length, hrequest, -⟩
    by_contra hn
    rw [createClientRequest_wrapped e mem (by omega) hdata] at hrequest
    cases hrequest
  · intro hn
    have hsum : sizeofRequest + n.toNat - 1 = 31 + n.toNat := by
      rw [sizeofRequest]
      omega
    have hlength : (UInt32.ofNat (31 + n.toNat)).toNat = 31 + n.toNat := by
      rw [UInt32.toNat_ofNat', Nat.mod_eq_of_lt (by omega)]
    have hblock : (e.encode 4 (31 + n.toNat) ++ left mem 4 4 ++ left mem 8 16 ++ data.take n.toNat ++
        left mem (24 + n.toNat) 7).length = 31 + n.toNat := by
      simp only [List.length_append, Endian.length_encode, length_left, List.length_take]
      omega
    refine ⟨_, UInt32.ofNat (31 + n.toNat), createClientRequest_bytes e mem hn hdata, ?_, ?_, ?_, ?_, ?_⟩
    · rw [hblock]
      omega
    · simp only [List.append_assoc]
      exact load32_length e (by omega) _
    · rw [hlength, hblock]
    · rw [hlength, hsum]
    · rw [← hsum, messageLength_size]

theorem sizesFit_iff_data :
    SizesFit .little (fun _ => 0) (List.replicate 16 97) dataSize ↔ dataSize.toNat + 31 < 2 ^ 32 :=
  sizesFit_iff .little (fun _ => 0) (List.replicate 16 97) dataSize (by decide)

/-- With `2^32 - 31` bytes of data the message size is 0. -/
theorem size_wraps_to_zero :
    (UInt32.ofNat (sizeofRequest + (4294967265 : UInt32).toNat - 1)).toNat = 0 ∧
      createClientRequest .little (fun _ => 0) (List.replicate 4294967265 97) 4294967265 =
        .error .outOfBounds ∧
      ¬ SizesFit .little (fun _ => 0) (List.replicate 4294967265 97) 4294967265 := by
  have hdata : (4294967265 : UInt32).toNat ≤ (List.replicate 4294967265 (97 : UInt8)).length :=
    (List.length_replicate ..).ge
  have hrun := createClientRequest_wrapped .little (fun _ => 0) (n := 4294967265)
    (by decide) hdata
  refine ⟨by decide, hrun, ?_⟩
  rintro ⟨request, length, hrequest, -⟩
  rw [hrun] at hrequest
  cases hrequest

/-! ### Bytes of the block -/

theorem getElem?_left (mem : ℕ → UInt8) {i n k : ℕ} (hk : k < n) :
    (left mem i n)[k]? = some (mem (i + k)) := by
  rw [left, List.getElem?_map, List.getElem?_range hk]
  rfl

/-- The places of a message that nothing is stored to. -/
def Residue (n i : ℕ) : Prop := (4 ≤ i ∧ i < 8) ∨ 24 + n ≤ i

/-- There the message has what the block held. -/
theorem messageBytes_residue (mem : ℕ → UInt8) (hdata : n.toNat ≤ data.length) (ts : Timespec) {i : ℕ}
    (hi : i < 31 + n.toNat) (h : Residue n.toNat i) :
    (messageBytes e mem data n.toNat ts)[i]? = some (mem i) := by
  rcases h with ⟨hlo, hhi⟩ | htail
  · have hhead : (e.encode 4 (31 + n.toNat) ++ left mem 4 4).length = 8 := by simp
    rw [messageBytes, List.append_assoc, List.getElem?_append_left (by omega),
      List.getElem?_append_right (by simpa using hlo), Endian.length_encode, getElem?_left mem (by omega)]
    congr 2
    omega
  · have hfront : (e.encode 4 (31 + n.toNat) ++ left mem 4 4 ++
        (ts.bytes e ++ data.take n.toNat)).length = 24 + n.toNat := by
      simp only [List.length_append, Endian.length_encode, length_left, Timespec.length_bytes,
        List.length_take]
      omega
    rw [messageBytes, List.getElem?_append_right (by omega), hfront, getElem?_left mem (by omega)]
    congr 2
    omega

/-- Everywhere else the message is the same whatever the block held. -/
theorem messageBytes_stored (mem mem' : ℕ → UInt8) (hdata : n.toNat ≤ data.length) (ts : Timespec)
    {i : ℕ} (h : ¬ Residue n.toNat i) :
    (messageBytes e mem data n.toNat ts)[i]? = (messageBytes e mem' data n.toNat ts)[i]? := by
  have hhead : ∀ mem : ℕ → UInt8, (e.encode 4 (31 + n.toNat) ++ left mem 4 4).length = 8 := by simp
  have hbody : (ts.bytes e ++ data.take n.toNat).length = 16 + n.toNat := by
    simp only [List.length_append, Timespec.length_bytes, List.length_take]
    omega
  have hcases : i < 4 ∨ (8 ≤ i ∧ i < 24 + n.toNat) := by
    simp only [Residue] at h
    omega
  rcases hcases with hlt | ⟨hlo, hhi⟩
  · simp only [messageBytes, List.append_assoc]
    rw [List.getElem?_append_left (by simpa using hlt), List.getElem?_append_left (by simpa using hlt)]
  · have hmiddle : ∀ mem : ℕ → UInt8, (messageBytes e mem data n.toNat ts)[i]? =
        (ts.bytes e ++ data.take n.toNat)[i - 8]? := by
      intro mem
      rw [messageBytes, List.append_assoc _ (ts.bytes e ++ data.take n.toNat),
        List.getElem?_append_right (by rw [hhead]; exact hlo), hhead,
        List.getElem?_append_left (by omega)]
    rw [hmiddle, hmiddle]

/-- NEVER: whatever is sent, the message depends on what the block held before. The bytes that do are
    the padding behind `length` and the last seven, and no others. -/
theorem request_leaks (e : Endian) (data : List UInt8) (n : UInt32) (ts : Timespec)
    (hn : n.toNat + 31 < 2 ^ 32) (hdata : n.toNat ≤ data.length) :
    (¬ ∀ mem mem', transmit e mem data n ts = transmit e mem' data n ts) ∧
      ∀ i < 31 + n.toNat, Fixed e data n ts i ↔ ¬ Residue n.toNat i := by
  have hfixed : ∀ i < 31 + n.toNat, Fixed e data n ts i ↔ ¬ Residue n.toNat i := by
    intro i hi
    refine ⟨fun hfix hres => ?_, fun hres mem mem' w w' hw hw' => ?_⟩
    · have hbyte := hfix (fun _ => 0) (fun _ => 1) _ _ (transmit_eq e _ hn hdata ts)
        (transmit_eq e _ hn hdata ts)
      rw [messageBytes_residue e _ hdata ts hi hres, messageBytes_residue e _ hdata ts hi hres] at hbyte
      exact absurd (Option.some.inj hbyte) (by decide)
    · rw [transmit_eq e _ hn hdata] at hw hw'
      rw [← Except.ok.inj hw, ← Except.ok.inj hw']
      exact messageBytes_stored e mem mem' hdata ts hres
  refine ⟨fun hsame => ?_, hfixed⟩
  have hfix : Fixed e data n ts 4 := by
    intro mem mem' w w' hw hw'
    rw [hsame mem mem'] at hw
    rw [Except.ok.inj (hw.symm.trans hw')]
  exact (hfixed 4 (by omega)).mp hfix (Or.inl ⟨le_rfl, by omega⟩)

theorem request_leaks_data :
    (¬ ∀ mem mem', transmit .little mem [97, 98] 2 ⟨5, 6⟩ = transmit .little mem' [97, 98] 2 ⟨5, 6⟩) ∧
      ∀ i < 31 + (2 : UInt32).toNat, Fixed .little [97, 98] 2 ⟨5, 6⟩ i ↔ ¬ Residue (2 : UInt32).toNat i :=
  request_leaks .little [97, 98] 2 ⟨5, 6⟩ (by decide) (by decide)

/-- One byte of data, the time 5.6, and a block that held zeros or ones: what goes out differs. -/
theorem request_bytes_differ :
    transmit .little (fun _ => 0) [97] 1 ⟨5, 6⟩ =
        .ok [32, 0, 0, 0, 0, 0, 0, 0, 5, 0, 0, 0, 0, 0, 0, 0, 6, 0, 0, 0, 0, 0, 0, 0, 97, 0, 0, 0, 0, 0,
          0, 0] ∧
      transmit .little (fun _ => 1) [97] 1 ⟨5, 6⟩ =
        .ok [32, 0, 0, 0, 1, 1, 1, 1, 5, 0, 0, 0, 0, 0, 0, 0, 6, 0, 0, 0, 0, 0, 0, 0, 97, 1, 1, 1, 1, 1,
          1, 1] ∧
      transmit .little (fun _ => 0) [97] 1 ⟨5, 6⟩ ≠ transmit .little (fun _ => 1) [97] 1 ⟨5, 6⟩ := by
  have hzero : transmit .little (fun _ => 0) [97] 1 ⟨5, 6⟩ = .ok [32, 0, 0, 0, 0, 0, 0, 0, 5, 0, 0, 0, 0,
      0, 0, 0, 6, 0, 0, 0, 0, 0, 0, 0, 97, 0, 0, 0, 0, 0, 0, 0] := rfl
  have hone : transmit .little (fun _ => 1) [97] 1 ⟨5, 6⟩ = .ok [32, 0, 0, 0, 1, 1, 1, 1, 5, 0, 0, 0, 0,
      0, 0, 0, 6, 0, 0, 0, 0, 0, 0, 0, 97, 1, 1, 1, 1, 1, 1, 1] := rfl
  refine ⟨hzero, hone, ?_⟩
  rw [hzero, hone]
  simp

end Diversity.Serialization
