import Diversity.Schemes.Buffer

/-! @src client_server/msg_hdr/src/server.c | name:Batching echo server | scheme:buffer |
    family:server

    `on_read` receives up to `VLEN` datagrams with one `recvmmsg` and sends the same message headers
    back with one `sendmmsg`. Headers, iovecs, buffers and addresses are global and serve both calls.
    A reply therefore goes to the right remote, but it is `iov_len` bytes long, and `iov_len` stays at
    `BUFSIZE` from `init_msghdr` on: behind the text of a shorter datagram and its terminating zero
    follows whatever an earlier datagram left in the slot.

        slot:  [ datagram | 0 | stale … ]          recvmmsg writes msg_len bytes
               └────── BUFSIZE bytes ──────┘       sendmmsg sends iov_len bytes   -/

namespace Diversity.Echo
open Schemes

/-- `VLEN`. -/
def vlen : ℕ := 32

/-- `BUFSIZE`. -/
def bufsize : ℕ := 128

/-- A datagram on the wire, with the address of the other side. -/
structure Packet (A : Type) where
  remote : A
  bytes : List UInt8
  deriving DecidableEq, Repr

/-- A datagram that arrives: it fits the buffer of its slot. -/
structure Arrival (A : Type) extends Packet A where
  fits : bytes.length ≤ bufsize

/-- What one `recvmmsg` returns. -/
structure Batch (A : Type) where
  packets : List (Arrival A)
  nonempty : packets ≠ []
  fits : packets.length ≤ vlen

/-- `msgs[i]` with its iovec, its buffer and its address. -/
structure Slot (A : Type) where
  buf : List UInt8
  iovLen : ℕ
  remote : A
  msgLen : ℕ

/-- The globals and the counters of `server_context`, which are `int`: fewer than 2 ^ 31 seconds, and
    fewer than 2 ^ 31 messages in one of them. -/
structure Server (A : Type) where
  slots : List (Slot A)
  atSecond : ℤ
  messagePerSecond : ℤ

variable {A : Type}

/-- `init_msghdr`, on globals that the loader zeroed; `any` is the zeroed `sockaddr_in`. -/
def initMsghdr (any : A) : Server A where
  slots := List.replicate vlen
    { buf := List.replicate (bufsize + 1) 0, iovLen := bufsize, remote := any, msgLen := 0 }
  atSecond := 0
  messagePerSecond := 0

/-- `recvmmsg`: one datagram to each slot, from the first on. -/
def recvmmsg : List (Slot A) → List (Arrival A) → List (Slot A)
  | s :: ss, d :: ds =>
    { s with buf := overlay d.bytes s.buf, remote := d.remote, msgLen := d.bytes.length } ::
      recvmmsg ss ds
  | ss, _ => ss

/-- `for (i = 0; i < retval; i++) bufs[i][msgs[i].msg_len] = 0;` -/
def terminate : ℕ → List (Slot A) → C (List (Slot A))
  | 0, ss => .ok ss
  | _ + 1, [] => .error .outOfBounds
  | n + 1, s :: ss => do
    let buf ← store s.buf s.msgLen 0
    let ss ← terminate n ss
    .ok ({ s with buf } :: ss)

/-- `respond`: what it hands to `sendmmsg`. -/
def respond : ℕ → List (Slot A) → C (List (Packet A))
  | 0, _ => .ok []
  | _ + 1, [] => .error .outOfBounds
  | n + 1, s :: ss => do
    let bytes ← slice s.buf 0 s.iovLen
    let out ← respond n ss
    .ok (⟨s.remote, bytes⟩ :: out)

/-- `on_read`, when `recvmmsg` returns a batch. -/
def onRead (sv : Server A) (batch : Batch A) : C (Server A × List (Packet A)) := do
  let retval := batch.packets.length
  let slots ← terminate retval (recvmmsg sv.slots batch.packets)
  let out ← respond retval slots
  .ok ({ sv with slots, messagePerSecond := sv.messagePerSecond + retval }, out)

/-- `on_perf`. -/
def onPerf (sv : Server A) : Server A :=
  { sv with atSecond := sv.atSecond + 1, messagePerSecond := 0 }

/-- What the event loop runs: `on_read` with what `recvmmsg` returned, or `on_perf`. -/
inductive Event (A : Type) where
  | read (batch : Batch A)
  | readFailed
  | perf

/-- A run of the event loop, with the replies of each `on_read`. -/
def serve : Server A → List (Event A) → C (Server A × List (List (Packet A)))
  | sv, [] => .ok (sv, [])
  | sv, .read batch :: es => do
    let (sv, out) ← onRead sv batch
    let (sv, outs) ← serve sv es
    .ok (sv, out :: outs)
  -- `exit (EXIT_FAILURE)`
  | sv, .readFailed :: _ => .ok (sv, [])
  | sv, .perf :: es => serve (onPerf sv) es

/-- The batches that were received before `recvmmsg` failed. -/
def received : List (Event A) → List (Batch A)
  | [] => []
  | .read batch :: es => batch :: received es
  | .readFailed :: _ => []
  | .perf :: es => received es

/-- The packets of a batch as they came. -/
def Batch.wire (batch : Batch A) : List (Packet A) := batch.packets.map Arrival.toPacket

/-! ### One slot -/

/-- A slot as `init_msghdr` set it up, with any contents. -/
def Slot.Ready (s : Slot A) : Prop := s.buf.length = bufsize + 1 ∧ s.iovLen = bufsize

/-- The bytes that leave a slot after a datagram of length `n` came in: `BUFSIZE` of them, which are
    the datagram when it is as long. -/
theorem slot_reply {buf d : List UInt8} (hbuf : buf.length = bufsize + 1)
    (hd : d.length ≤ bufsize) : ∃ buf', store (overlay d buf) d.length 0 = .ok buf' ∧
      buf'.length = bufsize + 1 ∧ ∃ out, slice buf' 0 bufsize = .ok out ∧
        (out = d ↔ d.length = bufsize) := by
  have hlen : (overlay d buf).length = bufsize + 1 := by rw [length_overlay (by omega), hbuf]
  have hset : ((overlay d buf).set d.length 0).length = bufsize + 1 := by rw [List.length_set, hlen]
  have hout : (((overlay d buf).set d.length 0).take bufsize).length = bufsize := by
    rw [List.length_take, hset]
    omega
  refine ⟨_, store_of_lt (by omega) 0, hset, ((overlay d buf).set d.length 0).take bufsize, ?_, ?_⟩
  · rw [slice_of_le (by omega), List.drop_zero]
  · constructor
    · intro h
      rw [← h, hout]
    · intro h
      have htake : ((overlay d buf).drop 0).take d.length = (d.drop 0).take d.length :=
        take_drop_overlay (by omega) buf
      rw [List.drop_zero, List.drop_zero, List.take_length] at htake
      rw [← h, List.take_set_of_le (Nat.le_refl _), htake]

/-! ### One batch -/

/-- `on_read` on slots that are ready: they stay ready, every reply has the remote of its datagram,
    and the replies are the batch exactly when no datagram of it is short. -/
theorem batch_reply : ∀ (ss : List (Slot A)) (ds : List (Arrival A)), ds.length ≤ ss.length →
    (∀ s ∈ ss, s.Ready) → ∃ ss' out, terminate ds.length (recvmmsg ss ds) = .ok ss' ∧
      ss'.length = ss.length ∧ (∀ s ∈ ss', s.Ready) ∧ respond ds.length ss' = .ok out ∧
      out.map Packet.remote = ds.map (·.remote) ∧
      (out = ds.map Arrival.toPacket ↔ ∀ d ∈ ds, d.bytes.length = bufsize)
  | ss, [], _, hss => ⟨ss, [], by cases ss <;> rfl, rfl, hss, rfl, rfl, by simp⟩
  | [], d :: ds, hlen, _ => absurd hlen (by simp)
  | s :: ss, d :: ds, hlen, hss => by
    obtain ⟨⟨hbuf, hiov⟩, hss⟩ := List.forall_mem_cons.mp hss
    obtain ⟨ss', outs, hterm, hlen', hready, hresp, hremotes, hiff⟩ :=
      batch_reply ss ds (by simpa using hlen) hss
    obtain ⟨buf', hstore, hbuf', out, hslice, hout⟩ := slot_reply hbuf d.fits
    refine ⟨{ s with buf := buf', remote := d.remote, msgLen := d.bytes.length } :: ss',
      ⟨d.remote, out⟩ :: outs, ?_, ?_, ?_, ?_, ?_, ?_⟩
    · simp only [List.length_cons, recvmmsg, terminate, hstore, hterm, ok_bind]
    · rw [List.length_cons, List.length_cons, hlen']
    · rintro t (_ | ⟨_, ht⟩)
      · exact ⟨hbuf', hiov⟩
      · exact hready t ht
    · simp only [List.length_cons, respond, hiov, hslice, hresp, ok_bind]
    · rw [List.map_cons, List.map_cons, hremotes]
    · rw [List.map_cons, List.cons.injEq, hiff, List.forall_mem_cons, ← hout]
      exact and_congr_left' (by rcases d with ⟨⟨r, b⟩, hb⟩; simp)

/-! ### Whole runs -/

/-- The slots of a server between two events. -/
def Server.Ready (sv : Server A) : Prop := sv.slots.length = vlen ∧ ∀ s ∈ sv.slots, s.Ready

theorem ready_initMsghdr (any : A) : (initMsghdr any).Ready := by
  refine ⟨List.length_replicate, ?_⟩
  intro s hs
  rw [List.eq_of_mem_replicate hs]
  exact ⟨List.length_replicate, rfl⟩

theorem onRead_reply {sv : Server A} (h : sv.Ready) (batch : Batch A) :
    ∃ sv' out, onRead sv batch = .ok (sv', out) ∧ sv'.Ready ∧
      out.map Packet.remote = batch.wire.map Packet.remote ∧
      (out = batch.wire ↔ ∀ d ∈ batch.packets, d.bytes.length = bufsize) := by
  obtain ⟨ss', out, hterm, hlen, hready, hresp, hremotes, hiff⟩ :=
    batch_reply sv.slots batch.packets (by rw [h.1]; exact batch.fits) h.2
  refine ⟨{ sv with
    slots := ss'
    messagePerSecond := sv.messagePerSecond + batch.packets.length }, out, ?_, ?_, ?_, hiff⟩
  · simp only [onRead, hterm, hresp, ok_bind]
  · exact ⟨hlen.trans h.1, hready⟩
  · rw [hremotes, Batch.wire, List.map_map]
    rfl

/-- A run never faults, every reply goes where its datagram came from, and all replies are the
    datagrams exactly when none of these is shorter than the buffer. -/
theorem serve_reply : ∀ (es : List (Event A)) {sv : Server A}, sv.Ready →
    ∃ sv' outs, serve sv es = .ok (sv', outs) ∧
      outs.map (List.map Packet.remote) = (received es).map (List.map Packet.remote ∘ Batch.wire) ∧
      (outs = (received es).map Batch.wire ↔
        ∀ batch ∈ received es, ∀ d ∈ batch.packets, d.bytes.length = bufsize)
  | [], sv, _ => ⟨sv, [], rfl, rfl, by simp [received]⟩
  | .readFailed :: _, sv, _ => ⟨sv, [], rfl, rfl, by simp [received]⟩
  | .perf :: es, sv, h => serve_reply es (show (onPerf sv).Ready from h)
  | .read batch :: es, sv, h => by
    obtain ⟨sv₁, out, hread, h₁, hremotes, hiff⟩ := onRead_reply h batch
    obtain ⟨sv₂, outs, hserve, hremotes', hiff'⟩ := serve_reply es h₁
    refine ⟨sv₂, out :: outs, ?_, ?_, ?_⟩
    · simp only [serve, hread, hserve, ok_bind]
    · rw [received, List.map_cons, List.map_cons, hremotes, hremotes']
      rfl
    · rw [received, List.map_cons, List.cons.injEq, hiff, hiff', List.forall_mem_cons]

/-- CORRECT (for datagrams of `BUFSIZE` bytes): over every run of the server each reply is addressed to
    the remote of its datagram, and the replies are the datagrams received exactly when every one of
    these fills the buffer. -/
theorem server_echoes (any : A) (es : List (Event A)) :
    ∃ sv outs, serve (initMsghdr any) es = .ok (sv, outs) ∧
      outs.map (List.map Packet.remote) = (received es).map (List.map Packet.remote ∘ Batch.wire) ∧
      (outs = (received es).map Batch.wire ↔
        ∀ batch ∈ received es, ∀ d ∈ batch.packets, d.bytes.length = bufsize) :=
  serve_reply es (ready_initMsghdr any)

/-- Remote 1 sends "SECRET", then remote 2 sends "hi". -/
def shortDatagrams : List (Event ℕ) :=
  [.read ⟨[⟨⟨1, [83, 69, 67, 82, 69, 84]⟩, by decide⟩], by decide, by decide⟩,
    .read ⟨[⟨⟨2, [104, 105]⟩, by decide⟩], by decide, by decide⟩]

/-- The reply to remote 2 ends in the "RET" of remote 1. -/
theorem server_leaks :
    Except.map Prod.snd (serve (initMsghdr 0) shortDatagrams) =
      .ok [[⟨1, [83, 69, 67, 82, 69, 84] ++ List.replicate 122 0⟩],
        [⟨2, [104, 105, 0, 82, 69, 84] ++ List.replicate 122 0⟩]] ∧
    Except.map Prod.snd (serve (initMsghdr 0) shortDatagrams) ≠
      .ok ((received shortDatagrams).map Batch.wire) := by
  constructor <;> decide +kernel

end Diversity.Echo
