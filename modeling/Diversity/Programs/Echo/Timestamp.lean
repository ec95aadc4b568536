import Diversity.Schemes.Bytes
import Diversity.Schemes.Text

/-! @src client_server/asio/src/timer_server.cc, timer_client.cc | name:Timestamp echo |
    scheme:decimal | family:protocol

    A `timer_client` sends the time as decimal text and reads it back from the echo. Neither side looks
    at `bytes_transferred`: the server returns its whole buffer of 128 bytes and the client reads a
    number from the start of its own of 1024 bytes, so the text goes on into the digits that an
    earlier and longer datagram, of any client, left behind it.

        server:  [ text of t | stale … ]                 128 bytes, all of them echoed
        client:  [ text of t | stale … | older … ]       1024 bytes, read up to the first zero

    A run is any order of datagrams sent, served and delivered; one that is lost is never picked. -/

namespace Diversity.Echo
open Schemes

/-- A receive buffer. -/
structure RecvBuffer (n : ℕ) where
  bytes : List UInt8
  full : bytes.length = n

/-- `async_receive_from`: the datagram overwrites the start of the buffer. -/
def RecvBuffer.receive {n : ℕ} (b : RecvBuffer n) (d : List UInt8) (h : d.length ≤ n) :
    RecvBuffer n where
  bytes := overlay d b.bytes
  full := by rw [length_overlay (by rw [b.full]; exact h), b.full]

/-- `std::to_string (start_ns)`. -/
def toText (t : UInt64) : List UInt8 := decimal t.toNat

theorem length_toText_le (t : UInt64) : (toText t).length ≤ 20 :=
  length_decimal_le (by decide) (t.toNat_lt.trans (by decide))

/-- A reply on its way to `client`: the server's buffer, which starts with the text of the time that
    the client sent. -/
structure Reply where
  client : ℕ
  stamp : UInt64
  buffer : RecvBuffer 128
  text : (toText stamp) <+: buffer.bytes

/-- The server, the clients and the datagrams under way. `mps` is a `uint` that is set to 0 once a second;
    it is taken to count fewer than 2 ^ 32 datagrams in between. -/
structure TimerNet where
  server : RecvBuffer 128
  mps : ℕ
  clients : ℕ → RecvBuffer 1024
  requests : List (ℕ × UInt64)
  replies : List Reply

/-- What can happen: a client starts and sends the time, the server receives one of the requests, a
    client receives one of the replies at time `now`. -/
inductive TimerEvent where
  | send (client : ℕ) (now : UInt64)
  | serve (i : ℕ)
  | deliver (i : ℕ) (now : UInt64)

/-- The sign in front of a number, if there is one. -/
def takeSign : List UInt8 → Bool × List UInt8
  | 43 :: s => (false, s)
  | 45 :: s => (true, s)
  | s => (false, s)

/-- `iss >> start_ns`: white space, a sign, and the digits that follow; out of range is a failure. -/
def extract (s : List UInt8) : Option UInt64 :=
  let (negative, s) := takeSign (s.dropWhile isspace)
  let digits := s.takeWhile isDigit
  if digits = [] ∨ 2 ^ 64 ≤ digitsValue digits then none
  else some (if negative then -UInt64.ofNat (digitsValue digits)
    else UInt64.ofNat (digitsValue digits))

/-- `udp_server::handle_receive` with the datagram of one client. -/
def serverReceive (server : RecvBuffer 128) (client : ℕ) (t : UInt64) : Reply where
  client := client
  stamp := t
  buffer := server.receive (toText t) ((length_toText_le t).trans (by decide))
  text := List.prefix_append _ _

/-- `timer_client::handle_receive`: the buffer afterwards and the `start_ns` that it parsed. -/
def clientReceive (buffer : RecvBuffer 1024) (reply : Reply) :
    C (RecvBuffer 1024 × Option UInt64) := do
  let buffer := buffer.receive reply.buffer.bytes (by rw [reply.buffer.full]; decide)
  let s ← cString buffer.bytes
  .ok (buffer, extract s)

/-- A value that a client parsed, beside the one it had sent. -/
structure Parsed where
  stamp : UInt64
  value : Option UInt64
  deriving DecidableEq, Repr

/-- One event. The client answers every reply with the time at which it received it. -/
def netStep (net : TimerNet) : TimerEvent → C (TimerNet × Option Parsed)
  | .send client now => .ok ({ net with requests := net.requests ++ [(client, now)] }, none)
  | .serve i =>
    match net.requests[i]? with
    | none => .ok (net, none)
    | some (client, t) =>
      let reply := serverReceive net.server client t
      .ok ({ net with
        server := reply.buffer
        mps := net.mps + 1
        requests := net.requests.eraseIdx i
        replies := net.replies ++ [reply] }, none)
  | .deliver i now =>
    match net.replies[i]? with
    | none => .ok (net, none)
    | some reply => do
      let (buffer, value) ← clientReceive (net.clients reply.client) reply
      .ok ({ net with
        clients := Function.update net.clients reply.client buffer
        requests := net.requests ++ [(reply.client, now)]
        replies := net.replies.eraseIdx i }, some ⟨reply.stamp, value⟩)

/-- Along a run every client parses the time that it had sent. -/
def AllParsed (net : TimerNet) (es : List TimerEvent) : Prop :=
  ∃ net' outs, runOps netStep net es = .ok (net', outs) ∧
    ∀ out ∈ outs, ∀ p ∈ out, p.value = some p.stamp

/-- What the client reads on behind the text of a reply: the rest of the server's buffer, then the part
    of its own that a reply does not reach. -/
def behindText (reply : Reply) (client : RecvBuffer 1024) : List UInt8 :=
  reply.buffer.bytes.drop (toText reply.stamp).length ++ client.bytes.drop 128

/-- The text of a reply can be told from what stands behind it. -/
def Legible (reply : Reply) (client : RecvBuffer 1024) : Prop :=
  0 ∈ behindText reply client ∧
    ((behindText reply client).takeWhile isDigit = [] ∨
      reply.stamp = 0 ∧ ∀ c ∈ (behindText reply client).takeWhile isDigit, c = 48)

/-- Every reply of a run is legible when it is delivered. -/
def AllLegible : TimerNet → List TimerEvent → Prop
  | _, [] => True
  | net, ev :: es =>
    (∀ i now, ev = .deliver i now → ∀ reply, net.replies[i]? = some reply →
      Legible reply (net.clients reply.client)) ∧
    match netStep net ev with
    | .ok (net', _) => AllLegible net' es
    | .error _ => True

/-! ### Reading a number -/

theorem takeSign_of_isDigit {c : UInt8} (h : isDigit c = true) (s : List UInt8) :
    takeSign (c :: s) = (false, c :: s) := by
  have hc := isDigit_iff.mp h
  have hplus : c ≠ 43 := fun h => by simp [h] at hc
  have hminus : c ≠ 45 := fun h => by simp [h] at hc
  rw [takeSign]
  · exact fun s' heq => hplus (List.cons.inj heq).1
  · exact fun s' heq => hminus (List.cons.inj heq).1

/-- From a string that starts with a digit all the leading digits are extracted. -/
theorem extract_digit {c : UInt8} (h : isDigit c = true) (s : List UInt8) :
    extract (c :: s) = if 2 ^ 64 ≤ digitsValue ((c :: s).takeWhile isDigit) then none
      else some (UInt64.ofNat (digitsValue ((c :: s).takeWhile isDigit))) := by
  have hdigits : (c :: s).takeWhile isDigit ≠ [] := by
    rw [List.takeWhile_cons_of_pos h]
    exact List.cons_ne_nil _ _
  rw [extract, List.dropWhile_cons_of_neg (by simp [not_isspace_digit h]),
    takeSign_of_isDigit h]
  simp only [hdigits, false_or, Bool.false_eq_true, if_false]

/-- The time is extracted from its text and what follows exactly when the digits that follow do not
    change its value. -/
theorem extract_toText (t : UInt64) (rest : List UInt8) : extract (toText t ++ rest) = some t ↔
    rest.takeWhile isDigit = [] ∨ t = 0 ∧ ∀ c ∈ rest.takeWhile isDigit, c = 48 := by
  have hdigits : ∀ c ∈ rest.takeWhile isDigit, isDigit c = true := fun c hc =>
    List.mem_takeWhile_imp hc
  have hzero : t = 0 ↔ t.toNat = 0 := by
    rw [← UInt64.toNat_inj]
    rfl
  obtain ⟨c, text, htext⟩ := List.exists_cons_of_ne_nil (decimal_ne_nil t.toNat)
  have hc : isDigit c = true := decimal_isDigit t.toNat c (by rw [htext]; exact List.mem_cons_self)
  have hall : (c :: (text ++ rest)).takeWhile isDigit = decimal t.toNat ++ rest.takeWhile isDigit := by
    rw [← List.cons_append, ← htext, takeWhile_decimal_append]
  rw [toText, htext, List.cons_append, extract_digit hc, hall, hzero,
    ← digitsValue_decimal_append t.toNat hdigits]
  have hlt := t.toNat_lt
  constructor
  · intro h
    split at h
    · cases h
    · rename_i hrange
      have hval := congrArg UInt64.toNat (Option.some.inj h)
      rwa [UInt64.toNat_ofNat', Nat.mod_eq_of_lt (Nat.not_le.mp hrange)] at hval
  · intro h
    rw [h, if_neg (Nat.not_le.mpr hlt), UInt64.ofNat_toNat]

/-! ### One exchange -/

theorem zero_not_mem_toText (t : UInt64) : (0 : UInt8) ∉ toText t := fun h =>
  absurd (decimal_isDigit t.toNat 0 h) (by decide)

/-- The client's buffer after a reply: the text, and what it reads on behind it. -/
theorem receive_reply (client : RecvBuffer 1024) (reply : Reply)
    (h : reply.buffer.bytes.length ≤ 1024) :
    (client.receive reply.buffer.bytes h).bytes = toText reply.stamp ++ behindText reply client := by
  obtain ⟨rest, hrest⟩ := reply.text
  change overlay reply.buffer.bytes client.bytes = _
  rw [overlay, reply.buffer.full, behindText, ← hrest, List.drop_left, List.append_assoc]

/-- The string in a buffer with a text at its start goes on to the first zero behind the text. -/
theorem cString_toText (t : UInt64) {rest : List UInt8} (h : 0 ∈ rest) :
    cString (toText t ++ rest) = .ok (toText t ++ rest.takeWhile (· ≠ 0)) := by
  have hne : ∀ c ∈ toText t, decide (c ≠ 0) = true := by
    intro c hc
    rw [decide_eq_true_iff]
    rintro rfl
    exact zero_not_mem_toText t hc
  rw [cString, if_pos (List.mem_append_right _ h), List.takeWhile_append_of_pos hne]

theorem takeWhile_digit_string (rest : List UInt8) :
    (rest.takeWhile (· ≠ 0)).takeWhile isDigit = rest.takeWhile isDigit := by
  rw [List.takeWhile_takeWhile]
  congr 1
  funext c
  by_cases hc : c = 0
  · subst hc
    rfl
  · simp [hc]

/-- A client parses the time that it sent exactly when the reply is legible. -/
theorem clientReceive_parses (client : RecvBuffer 1024) (reply : Reply) :
    (∃ buffer, clientReceive client reply = .ok (buffer, some reply.stamp)) ↔
      Legible reply client := by
  have hbytes := receive_reply client reply (by rw [reply.buffer.full]; decide)
  by_cases h0 : 0 ∈ behindText reply client
  · simp only [clientReceive, hbytes, cString_toText reply.stamp h0, ok_bind, Except.ok.injEq,
      Prod.mk.injEq, exists_eq_left', extract_toText, takeWhile_digit_string, Legible, h0, true_and]
  · have hnone : (0 : UInt8) ∉ toText reply.stamp ++ behindText reply client := by
      rw [List.mem_append]
      exact not_or.mpr ⟨zero_not_mem_toText _, h0⟩
    simp [clientReceive, hbytes, cString, hnone, Legible, h0]

/-! ### Whole runs -/

theorem allParsed_nil (net : TimerNet) : AllParsed net [] := ⟨net, [], rfl, by simp⟩

theorem allParsed_ok {net net' : TimerNet} {ev : TimerEvent} {out : Option Parsed}
    (h : netStep net ev = .ok (net', out)) (es : List TimerEvent) :
    AllParsed net (ev :: es) ↔ (∀ p ∈ out, p.value = some p.stamp) ∧ AllParsed net' es := by
  constructor
  · rintro ⟨last, outs, hrun, hall⟩
    rcases hes : runOps netStep net' es with f | ⟨last', outs'⟩
    · simp [runOps, h, hes] at hrun
    · simp only [runOps, h, hes, ok_bind, Except.ok.injEq, Prod.mk.injEq] at hrun
      rw [← hrun.2, List.forall_mem_cons] at hall
      exact ⟨hall.1, last', outs', hes, hall.2⟩
  · rintro ⟨hout, last, outs, hrun, hall⟩
    refine ⟨last, out :: outs, ?_, List.forall_mem_cons.mpr ⟨hout, hall⟩⟩
    simp only [runOps, h, hrun, ok_bind]

theorem not_allParsed_error {net : TimerNet} {ev : TimerEvent} {f : Fault}
    (h : netStep net ev = .error f) (es : List TimerEvent) : ¬ AllParsed net (ev :: es) := by
  rintro ⟨last, outs, hrun, -⟩
  simp [runOps, h] at hrun

/-- What a delivery can do: the client reads on behind its buffer, or it parses a value, which is the
    time of the reply exactly when this is legible. -/
theorem deliver_cases {net : TimerNet} {i : ℕ} {reply : Reply} (h : net.replies[i]? = some reply)
    (now : UInt64) :
    (∃ f, netStep net (.deliver i now) = .error f ∧ ¬ Legible reply (net.clients reply.client)) ∨
    ∃ net' value, netStep net (.deliver i now) = .ok (net', some ⟨reply.stamp, value⟩) ∧
      (value = some reply.stamp ↔ Legible reply (net.clients reply.client)) := by
  rw [← clientReceive_parses]
  rcases hc : clientReceive (net.clients reply.client) reply with f | ⟨buffer, value⟩
  · exact Or.inl ⟨f, by simp [netStep, h, hc], by simp⟩
  · have hstep : netStep net (.deliver i now) = .ok ({ net with
        clients := Function.update net.clients reply.client buffer
        requests := net.requests ++ [(reply.client, now)]
        replies := net.replies.eraseIdx i }, some ⟨reply.stamp, value⟩) := by
      simp only [netStep, h, hc, ok_bind]
    exact Or.inr ⟨_, value, hstep, by simp⟩

/-- CORRECT (for legible replies): in any order of sends, receipts at the server and deliveries, from
    any contents of the buffers, every client parses the time that it sent exactly when no digit that
    was there before follows the text of a reply it gets, or none that changes the value. -/
theorem timestamps_round_trip (net : TimerNet) (es : List TimerEvent) :
    AllParsed net es ↔ AllLegible net es := by
  induction es generalizing net with
  | nil => exact iff_of_true (allParsed_nil net) trivial
  | cons ev es ih =>
    rw [AllLegible]
    rcases ev with ⟨client, now⟩ | i | ⟨i, now⟩
    · rw [allParsed_ok rfl, ih]
      simp [netStep]
    · rcases h : net.requests[i]? with - | ⟨client, t⟩
      · rw [allParsed_ok (by rw [netStep, h]), ih]
        simp [netStep, h]
      · rw [allParsed_ok (by rw [netStep, h]), ih]
        simp [netStep, h]
    · rcases h : net.replies[i]? with - | reply
      · rw [allParsed_ok (by rw [netStep, h]), ih]
        simp [netStep, h]
      · rcases deliver_cases h now with ⟨f, hstep, hbad⟩ | ⟨net', value, hstep, hiff⟩
        · refine iff_of_false (not_allParsed_error hstep es) fun hall => ?_
          exact hbad (hall.1 i now rfl reply h)
        · rw [allParsed_ok hstep, ih, hstep]
          simp [h, hiff]

/-- The server and the clients with zeroed buffers, and nothing under way. -/
def idleNet : TimerNet where
  server := ⟨List.replicate 128 0, List.length_replicate⟩
  mps := 0
  clients _ := ⟨List.replicate 1024 0, List.length_replicate⟩
  requests := []
  replies := []

/-- Client 0 sends 1000 and client 1 sends 99; the server receives them in this order. -/
def longThenShort : List TimerEvent :=
  [.send 0 1000, .send 1 99, .serve 0, .serve 0, .deliver 1 0]

/-- Client 1 parses 9900. -/
theorem stale_digits_parsed :
    Except.map Prod.snd (runOps netStep idleNet longThenShort) =
      .ok [none, none, none, none, some ⟨99, some 9900⟩] ∧
    ¬ AllParsed idleNet longThenShort := by
  have hrun : Except.map Prod.snd (runOps netStep idleNet longThenShort) =
      .ok [none, none, none, none, some ⟨99, some 9900⟩] := by decide +kernel
  refine ⟨hrun, ?_⟩
  rintro ⟨net, outs, h, hall⟩
  rw [h] at hrun
  have houts : outs = _ := Except.ok.inj hrun
  rw [houts] at hall
  exact absurd (hall (some ⟨99, some 9900⟩) (by simp) _ rfl) (by decide)

end Diversity.Echo
