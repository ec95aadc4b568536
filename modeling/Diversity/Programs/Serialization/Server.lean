import Diversity.Schemes.Bytes

/-! @src struct_serialization/src/server.c | name:Echo server | scheme:stream | family:server

    `echo_read_cb` runs once for each arrival on a connection. It copies from the input to the output
    buffer of the bufferevent through a local buffer of 128 bytes, where the comment above it, and the
    `evbuffer_add_buffer` that is commented out, move everything. No byte is reordered, but what exceeds
    128 bytes waits in the input buffer for the next arrival. In between, the callback prints the content
    of the request it takes the buffer for. Nothing clears the buffer, so that the string ends with the
    bytes that arrived, with what the stack held behind them, or outside.

        received = output ++ input      after every arrival
        input = []                      as long as every arrival fits and ends its string   -/

namespace Diversity.Serialization
open Schemes

/-- The two buffers of a `bufferevent`. -/
structure Bufferevent where
  input : List UInt8
  output : List UInt8
  deriving DecidableEq, Repr

/-- The counter of `struct stat` that the callback increments. `on_stats` sets it back once a second, and
    it is taken to stay inside `int`. -/
structure Stat where
  pps : ℤ
  deriving DecidableEq, Repr

/-- `sizeof (buffer)`. -/
def bufferSize : ℕ := 128

/-- `evbuffer_remove`: up to `size` bytes leave the front of the buffer. `none` is -1, with the buffer as
    it was. -/
def evbufferRemove (ok : Bool) (input : List UInt8) (size : ℕ) : Option (List UInt8 × List UInt8) :=
  if ok then some (input.take size, input.drop size) else none

/-- `evbuffer_add`: the bytes go to the end of the buffer. `none` is -1, with the buffer as it was. -/
def evbufferAdd (ok : Bool) (output chunk : List UInt8) : Option (List UInt8) :=
  if ok then some (output ++ chunk) else none

/-- What a run of the callback meets: the bytes its local buffer holds before anything is stored to it,
    and whether the two calls of libevent succeed. -/
structure Frame where
  mem : ℕ → UInt8
  removes : Bool
  adds : Bool

/-- `buffer` once `chunk` is in it. -/
def localBuffer (mem : ℕ → UInt8) (chunk : List UInt8) : List UInt8 :=
  overlay chunk ((List.range bufferSize).map mem)

/-- What is printed: the line `content`, and the message of `perror`. -/
inductive Line where
  | content (s : List UInt8)
  | perror
  deriving DecidableEq, Repr

/-- `echo_read_cb`. The content starts at offset 24 of a request. -/
def echoReadCb (frame : Frame) (bev : Bufferevent) (stat : Stat) : C (Bufferevent × Stat × List Line) :=
  match evbufferRemove frame.removes bev.input bufferSize with
  | none => .ok (bev, stat, [])
  | some (chunk, input) => do
    let content ← cString ((localBuffer frame.mem chunk).drop 24)
    match evbufferAdd frame.adds bev.output chunk with
    | none => .ok ({ bev with input }, { pps := stat.pps + 1 }, [.content content, .perror])
    | some output => .ok ({ input, output }, { pps := stat.pps + 1 }, [.content content])

/-- A connection: its bufferevent, the counter, and what was printed. -/
structure Connection where
  bev : Bufferevent
  stat : Stat
  printed : List Line
  deriving DecidableEq, Repr

/-- A chunk arrives on the connection, which runs `echo_read_cb`. -/
def arrive (frame : Frame) (conn : Connection) (chunk : List UInt8) : C Connection := do
  let (bev, stat, lines) ← echoReadCb frame { conn.bev with input := conn.bev.input ++ chunk } conn.stat
  .ok { bev, stat, printed := conn.printed ++ lines }

/-- `accept_conn_cb`: a connection starts with empty buffers. -/
def acceptConnCb (stat : Stat) : Connection := { bev := { input := [], output := [] }, stat, printed := [] }

/-- A chunk of at least one byte, and what the callback that it triggers meets. -/
structure Arrival where
  bytes : List UInt8
  nonempty : bytes ≠ []
  frame : Frame

/-- A connection after some arrivals. -/
def connection (stat : Stat) (arrivals : List Arrival) : C Connection :=
  arrivals.foldlM (fun conn a => arrive a.frame conn a.bytes) (acceptConnCb stat)

/-- The bytes received. -/
def received (arrivals : List Arrival) : List UInt8 := arrivals.flatMap Arrival.bytes

/-- The string that is printed when `waiting` is in the input buffer ends inside the local buffer. -/
def Frame.Readable (frame : Frame) (waiting : List UInt8) : Prop :=
  frame.removes = true → 0 ∈ (localBuffer frame.mem (waiting.take bufferSize)).drop 24

instance (frame : Frame) (waiting : List UInt8) : Decidable (frame.Readable waiting) :=
  inferInstanceAs (Decidable (_ → _))

/-- An arrival that an idle connection echoes whole: it is not larger than the local buffer, its string
    ends there, and both calls succeed. -/
def Arrival.Fits (a : Arrival) : Prop :=
  a.bytes.length ≤ bufferSize ∧ a.frame.Readable a.bytes ∧ a.frame.removes = true ∧ a.frame.adds = true

/-! ### One arrival -/

variable {frame : Frame} {conn conn' : Connection} {chunk : List UInt8}

/-- When nothing is removed the callback returns at once. -/
theorem arrive_returns (h : frame.removes = false) :
    arrive frame conn chunk = .ok { conn with bev := { conn.bev with input := conn.bev.input ++ chunk } } := by
  rw [arrive, echoReadCb, evbufferRemove, h]
  simp only [Bool.false_eq_true, if_false, ok_bind, List.append_nil]

/-- When bytes are removed, they are printed, and added to the output unless that fails. -/
theorem arrive_removes (h : frame.removes = true) :
    arrive frame conn chunk =
      cString ((localBuffer frame.mem ((conn.bev.input ++ chunk).take bufferSize)).drop 24) >>= fun content =>
        .ok {
          bev := {
            input := (conn.bev.input ++ chunk).drop bufferSize
            output := conn.bev.output ++
              if frame.adds then (conn.bev.input ++ chunk).take bufferSize else [] }
          stat := { pps := conn.stat.pps + 1 }
          printed := conn.printed ++ .content content :: if frame.adds then [] else [.perror] } := by
  simp only [arrive, echoReadCb, evbufferRemove, h, if_true, bind_assoc]
  refine bind_congr fun content => ?_
  cases hadds : frame.adds with
  | false => simp [evbufferAdd]
  | true => simp [evbufferAdd]

/-- The callback faults exactly when the string it prints does not end in its buffer. -/
theorem arrive_ok_iff :
    (∃ conn', arrive frame conn chunk = .ok conn') ↔ frame.Readable (conn.bev.input ++ chunk) := by
  cases h : frame.removes with
  | false =>
    refine iff_of_true ⟨_, arrive_returns h⟩ fun htrue => ?_
    rw [h] at htrue
    cases htrue
  | true =>
    rw [arrive_removes h, cString, Frame.Readable, h]
    constructor
    · rintro ⟨conn', hrun⟩ -
      by_contra hnone
      rw [if_neg hnone] at hrun
      cases hrun
    · intro hends
      exact ⟨_, by rw [if_pos (hends rfl), ok_bind]⟩

/-- What `echo_read_cb` does with the bytes that wait: nothing, or it takes as many as its buffer
    holds. -/
theorem arrive_cases (h : arrive frame conn chunk = .ok conn') :
    (frame.removes = false ∧ conn'.bev = { conn.bev with input := conn.bev.input ++ chunk }) ∨
    (frame.removes = true ∧ conn'.bev = {
      input := (conn.bev.input ++ chunk).drop bufferSize
      output := conn.bev.output ++ if frame.adds then (conn.bev.input ++ chunk).take bufferSize else [] }) := by
  cases hremoves : frame.removes with
  | false =>
    rw [arrive_returns hremoves] at h
    cases h
    exact Or.inl ⟨rfl, rfl⟩
  | true =>
    rw [arrive_removes hremoves] at h
    obtain ⟨content, -, h⟩ := exists_of_bind_ok h
    cases h
    exact Or.inr ⟨rfl, rfl⟩

/-- Unless bytes were removed in vain, none is lost or moved. -/
theorem arrive_stream (h : arrive frame conn chunk = .ok conn') (hadds : frame.adds = true) :
    conn'.bev.output ++ conn'.bev.input = conn.bev.output ++ conn.bev.input ++ chunk := by
  rcases arrive_cases h with ⟨-, hbev⟩ | ⟨-, hbev⟩
  · rw [hbev, List.append_assoc]
  · rw [hbev, hadds, if_pos rfl, List.append_assoc, List.take_append_drop, List.append_assoc]

/-- An idle connection echoes an arrival whole and is idle again exactly when the arrival fits. -/
theorem arrive_fits (hidle : conn.bev.input = []) (a : Arrival) :
    (∃ conn', arrive a.frame conn a.bytes = .ok conn' ∧
      conn'.bev = { input := [], output := conn.bev.output ++ a.bytes }) ↔ a.Fits := by
  constructor
  · rintro ⟨conn', hrun, hbev⟩
    have hreadable := arrive_ok_iff.mp ⟨conn', hrun⟩
    rw [hidle, List.nil_append] at hreadable
    rcases arrive_cases hrun with ⟨-, hbev'⟩ | ⟨hremoves, hbev'⟩
    · rw [hbev, hidle, Bufferevent.mk.injEq] at hbev'
      exact absurd hbev'.1.symm a.nonempty
    · rw [hbev, hidle, Bufferevent.mk.injEq, List.append_cancel_left_eq, List.nil_append] at hbev'
      refine ⟨List.drop_eq_nil_iff.mp hbev'.1.symm, hreadable, hremoves, ?_⟩
      by_contra hadds
      rw [if_neg hadds] at hbev'
      exact a.nonempty hbev'.2
  · rintro ⟨hlen, hreadable, hremoves, hadds⟩
    have hwaits : a.frame.Readable (conn.bev.input ++ a.bytes) := by
      rw [hidle]
      exact hreadable
    obtain ⟨conn', hrun⟩ := arrive_ok_iff.mpr hwaits
    rcases arrive_cases hrun with ⟨hfails, -⟩ | ⟨-, hbev⟩
    · rw [hremoves] at hfails
      cases hfails
    · refine ⟨conn', hrun, ?_⟩
      rw [hbev, hadds, if_pos rfl, hidle, List.nil_append, List.drop_of_length_le hlen,
        List.take_of_length_le hlen]

/-! ### Whole connections -/

theorem connection_concat (stat : Stat) (arrivals : List Arrival) (a : Arrival) :
    connection stat (arrivals ++ [a]) =
      connection stat arrivals >>= fun conn => arrive a.frame conn a.bytes := by
  simp only [connection, List.foldlM_append, List.foldlM_cons, List.foldlM_nil, bind_pure]

theorem received_concat (arrivals : List Arrival) (a : Arrival) :
    received (arrivals ++ [a]) = received arrivals ++ a.bytes := by
  simp [received]

/-- RUN: every byte received is in one of the two buffers, in order, if no adding failed. -/
theorem connection_stream (stat : Stat) {arrivals : List Arrival}
    (hadds : ∀ a ∈ arrivals, a.frame.adds = true) {conn : Connection}
    (hrun : connection stat arrivals = .ok conn) :
    conn.bev.output ++ conn.bev.input = received arrivals := by
  induction arrivals using List.reverseRecOn generalizing conn with
  | nil =>
    cases hrun
    rfl
  | append_singleton arrivals a ih =>
    rw [List.forall_mem_append, List.forall_mem_singleton] at hadds
    rw [connection_concat] at hrun
    obtain ⟨before, hbefore, hlast⟩ := exists_of_bind_ok hrun
    rw [arrive_stream hlast hadds.2, ih hadds.1 hbefore, received_concat]

/-- RUN: a connection whose arrivals all fit has echoed them and is idle. -/
theorem connection_echoes (stat : Stat) {arrivals : List Arrival} (h : ∀ a ∈ arrivals, a.Fits) :
    ∃ conn, connection stat arrivals = .ok conn ∧
      conn.bev = { input := [], output := received arrivals } := by
  induction arrivals using List.reverseRecOn with
  | nil => exact ⟨_, rfl, rfl⟩
  | append_singleton arrivals a ih =>
    rw [List.forall_mem_append, List.forall_mem_singleton] at h
    obtain ⟨before, hbefore, hbev⟩ := ih h.1
    obtain ⟨conn, hlast, hconn⟩ := (arrive_fits (congrArg Bufferevent.input hbev) a).mpr h.2
    refine ⟨conn, ?_, ?_⟩
    · rw [connection_concat, hbefore, ok_bind, hlast]
    · rw [hconn, hbev, received_concat]

/-- CORRECT (for arrivals that fit): after every arrival the echoed bytes are those received and nothing
    waits in the input buffer, exactly when no arrival is larger than the local buffer, the string
    printed from it ends inside, and no call of libevent fails. That nothing is lost or reordered holds as
    long as no adding fails. -/
theorem echo_withholds_nothing (stat : Stat) (arrivals : List Arrival) :
    (∀ n ≤ arrivals.length, (∀ a ∈ arrivals.take n, a.frame.adds = true) →
      ∀ conn, connection stat (arrivals.take n) = .ok conn →
        conn.bev.output ++ conn.bev.input = received (arrivals.take n)) ∧
    ((∀ n ≤ arrivals.length, ∃ conn, connection stat (arrivals.take n) = .ok conn ∧
      conn.bev = { input := [], output := received (arrivals.take n) }) ↔ ∀ a ∈ arrivals, a.Fits) := by
  refine ⟨fun n _ hadds conn hrun => connection_stream stat hadds hrun, ?_, ?_⟩
  · intro h a ha
    obtain ⟨i, hi, rfl⟩ := List.getElem_of_mem ha
    obtain ⟨before, hbefore, hidle⟩ := h i hi.le
    obtain ⟨conn, hrun, hconn⟩ := h (i + 1) hi
    rw [← List.take_append_getElem hi, connection_concat, hbefore, ok_bind] at hrun
    refine (arrive_fits (congrArg Bufferevent.input hidle) arrivals[i]).mp ⟨conn, hrun, ?_⟩
    rw [hconn, hidle, ← List.take_append_getElem hi, received_concat]
  · intro h n _
    exact connection_echoes stat fun a ha => h a (List.mem_of_mem_take ha)

/-- A frame of zeros, in which both calls succeed. -/
def zeroFrame : Frame := ⟨fun _ => 0, true, true⟩

/-- One arrival of 129 bytes, with a zero among them: the last one is not echoed. -/
theorem echo_withholds_byte :
    (connection ⟨0⟩ [⟨List.replicate 39 7 ++ 0 :: List.replicate 89 7, by simp, zeroFrame⟩]).map
        Connection.bev =
      .ok { input := [7], output := List.replicate 39 7 ++ 0 :: List.replicate 88 7 } ∧
    List.replicate 39 7 ++ 0 :: List.replicate 88 7 ≠
      received [⟨List.replicate 39 7 ++ 0 :: List.replicate 89 7, by simp, zeroFrame⟩] := by
  constructor <;> decide +kernel

-- 128 bytes without a zero fill the local buffer, and the string runs out of it
example : connection ⟨0⟩ [⟨List.replicate 128 7, by simp, zeroFrame⟩] = .error .outOfBounds := by
  decide +kernel

end Diversity.Serialization
