import Diversity.Programs.Serialization.Message
import Diversity.Programs.Serialization.Server

/-! @src struct_serialization/src/client.c, server.c | name:Closed loop | scheme:stream |
    family:protocol

    The client sends a request and, whenever bytes arrive, takes up to 128 of them for the whole echo
    of it and sends the next one. The two streams in between keep every byte in order, but they may
    deliver it in any pieces. As long as the client takes one whole message at a time there is one
    request under way, and its bytes are those in the two streams and the buffers at their ends; the
    first time it takes only a part of it, it sends a second request. The server copies any pieces, but
    it prints each as a string, which has to end in its local buffer.

        client ── toServer ──▶ [ input │ server │ output ] ──▶ [ input │ client ]
                 (written)                        (echoed)      (arrived)           -/

namespace Diversity.Serialization
open Schemes

/-- The client, the server's side of the connection, and the bytes between them. `sent`, `received`
    and `consumed` record the history: the requests, and the bytes that arrived at the client and that
    `readcb` took. -/
structure Loop where
  sent : List Request
  toServer : List UInt8
  server : Connection
  input : List UInt8
  received : ℕ
  consumed : ℕ

/-- An arrival of `n` bytes, at the server or at the client. `frame` is what `echo_read_cb` meets,
    `supply` what `send_request` uses, and `removes` is whether the client's `evbuffer_remove` succeeds. -/
inductive Event where
  | atServer (n : ℕ) (frame : Frame)
  | atClient (n : ℕ) (supply : Supply) (removes : Bool)

/-- An arrival has at least one byte, and no more than are under way. -/
def Event.enabled (st : Loop) : Event → Bool
  | .atServer n _ => decide (0 < n ∧ n ≤ st.toServer.length)
  | .atClient n _ _ => decide (0 < n ∧ n ≤ st.server.bev.output.length)

/-- `main` up to the event loop. -/
def start (e : Endian) (supply : Supply) : C Loop := do
  let request ← sendRequest e supply
  .ok {
    sent := [request]
    toServer := request.wire
    server := acceptConnCb { pps := 0 }
    input := []
    received := 0
    consumed := 0 }

/-- What `readcb` did with the bytes it took: their number, the response it saw in them and the request
    it sent. -/
structure Reading where
  taken : ℕ
  response : Response
  request : Request
  deriving DecidableEq, Repr

/-- `readcb`: what is left of the input, and what it did unless it returned at once. -/
def readcb (e : Endian) (removes : Bool) (input : List UInt8) (supply : Supply) :
    C (List UInt8 × Option Reading) :=
  match evbufferRemove removes input bufferSize with
  | none => .ok (input, none)
  | some (chunk, input) => do
    let buffer := overlay chunk (List.replicate bufferSize 0)
    let response ← decodeResponse e buffer
    let request ← sendRequest e supply
    .ok (input, some ⟨chunk.length, response, request⟩)

/-- The bytes that a reading removed, and the request that it added. -/
def Loop.note (st : Loop) : Option Reading → Loop
  | none => st
  | some reading => { st with
    sent := st.sent ++ [reading.request]
    toServer := st.toServer ++ reading.request.wire
    consumed := st.consumed + reading.taken }

/-- One arrival and the callback it triggers. -/
def step (e : Endian) (st : Loop) : Event → C (Loop × Option Response)
  | .atServer n frame => do
    let server ← arrive frame st.server (st.toServer.take n)
    .ok ({ st with toServer := st.toServer.drop n, server }, none)
  | .atClient n supply removes => do
    let (input, reading) ← readcb e removes (st.input ++ st.server.bev.output.take n) supply
    let bev := { st.server.bev with output := st.server.bev.output.drop n }
    let st := { st with server := { st.server with bev }, input, received := st.received + n }
    .ok (st.note reading, reading.map Reading.response)

/-- Every arrival of a run is possible in the state it happens in. -/
def possible (e : Endian) : Loop → List Event → Bool
  | _, [] => true
  | st, ev :: es => ev.enabled st &&
    match step e st ev with
    | .ok (st', _) => possible e st' es
    | .error _ => true

/-! ### What the loop is for -/

/-- How many of the requests are covered by the first `n` bytes of their stream. -/
def covered : List Request → ℕ → ℕ
  | [], _ => 0
  | r :: rs, n => if r.wire.length ≤ n then covered rs (n - r.wire.length) + 1 else 0

/-- The requests whose echo has not been received in full. -/
def outstanding (st : Loop) : ℕ := st.sent.length - covered st.sent st.received

/-- A response that `readcb` decodes in state `st` is one of the requests sent before, read from where
    that request starts in the stream. -/
def WholeEcho (st : Loop) (resp : Response) : Prop :=
  ∃ earlier r later, st.sent = earlier ++ r :: later ∧ resp.Echoes r ∧
    (earlier.map (·.wire.length)).sum = st.consumed

/-- Along a run there is never more than one request outstanding, and every response is whole. -/
def AlwaysFramed (e : Endian) : Loop → List Event → Prop
  | st, [] => outstanding st ≤ 1
  | st, ev :: es => outstanding st ≤ 1 ∧
    match step e st ev with
    | .ok (st', resp) => (∀ r ∈ resp, WholeEcho st r) ∧ AlwaysFramed e st' es
    | .error _ => False

/-- What a run needs of an arrival: at the server, the string that is printed ends inside the local buffer;
    at the client, what waits and what arrives make one whole message, if they are taken. -/
def Event.whole (st : Loop) : Event → Bool
  | .atServer n frame => decide (frame.Readable (st.server.bev.input ++ st.toServer.take n))
  | .atClient n _ removes => !removes || decide (st.input.length + n = 47)

/-- Every arrival of a run is so in the state it happens in. -/
def alwaysWhole (e : Endian) : Loop → List Event → Bool
  | _, [] => true
  | st, ev :: es => ev.whole st &&
    match step e st ev with
    | .ok (st', _) => alwaysWhole e st' es
    | .error _ => true

/-! ### Requests -/

/-- `send_request` always sends 47 bytes. -/
theorem sendRequest_total (e : Endian) (supply : Supply) :
    ∃ r, sendRequest e supply = .ok r ∧ r.wire.length = 47 :=
  ⟨_, sendRequest_layout e supply,
    length_layout e supply.now (length_randomString _ _) supply.mem⟩

theorem length_wire {e : Endian} {supply : Supply} {r : Request}
    (h : sendRequest e supply = .ok r) : r.wire.length = 47 := by
  obtain ⟨r', h', hlen⟩ := sendRequest_total e supply
  rw [h, Except.ok.injEq] at h'
  rwa [h']

/-- `readcb` on the bytes of one request sees that request, and takes them all. -/
theorem readcb_whole {e : Endian} {supply : Supply} {r : Request}
    (h : sendRequest e supply = .ok r) (supply' : Supply) : ∃ resp r',
      sendRequest e supply' = .ok r' ∧ resp.Echoes r ∧
      readcb e true r.wire supply' = .ok ([], some ⟨47, resp, r'⟩) := by
  have hlen := length_wire h
  rw [sendRequest_layout, Except.ok.injEq] at h
  subst h
  obtain ⟨r', hr', -⟩ := sendRequest_total e supply'
  obtain ⟨resp, hresp, hechoes⟩ := decodeResponse_layout e supply.now supply.rand supply.mem
    ((List.replicate bufferSize 0).drop 47)
  refine ⟨resp, r', hr', hechoes, ?_⟩
  have hle : (layout e supply.now (randomString supply.rand 16) supply.mem).length ≤ bufferSize := by
    rw [hlen]
    decide
  simp only [readcb, evbufferRemove, if_true, List.take_of_length_le hle, List.drop_of_length_le hle, overlay,
    hlen, hresp, hr', ok_bind]

/-- Whatever it takes, `readcb` sends another request. -/
theorem readcb_cases {e : Endian} {removes : Bool} {input rest : List UInt8} {supply : Supply}
    {reading : Option Reading} (h : readcb e removes input supply = .ok (rest, reading)) :
    (removes = false ∧ rest = input ∧ reading = none) ∨
    (removes = true ∧ ∃ taken response request, reading = some ⟨taken, response, request⟩) := by
  cases removes with
  | false =>
    cases h
    exact Or.inl ⟨rfl, rfl, rfl⟩
  | true =>
    obtain ⟨response, -, h⟩ := exists_of_bind_ok h
    obtain ⟨request, -, h⟩ := exists_of_bind_ok h
    cases h
    exact Or.inr ⟨rfl, _, response, request, rfl⟩

/-! ### Counting echoes -/

theorem covered_append (rs later : List Request) (n : ℕ) (h : ∀ r ∈ rs, r.wire.length = 47) :
    covered (rs ++ later) (47 * rs.length + n) = rs.length + covered later n := by
  induction rs with
  | nil => simp
  | cons r rs ih =>
    obtain ⟨hr, hrs⟩ := List.forall_mem_cons.mp h
    have hle : r.wire.length ≤ 47 * (rs.length + 1) + n := by omega
    have hsub : 47 * (rs.length + 1) + n - r.wire.length = 47 * rs.length + n := by omega
    rw [List.cons_append, List.length_cons, covered, if_pos hle, hsub, ih hrs]
    omega

theorem covered_part {r : Request} {n : ℕ} (h : n < r.wire.length) (later : List Request) :
    covered (r :: later) n = 0 := by
  rw [covered, if_neg (by omega)]

/-! ### One request under way -/

/-- The bytes that the client has not taken, from those that arrived there on. -/
def Loop.underWay (st : Loop) : List UInt8 :=
  st.input ++ st.server.bev.output ++ st.server.bev.input ++ st.toServer

/-- An arrival at the server, which has room for what waits, keeps the bytes under way or loses some. -/
theorem underWay_arrive {st : Loop} {n : ℕ} {frame : Frame} {server : Connection}
    (hserver : arrive frame st.server (st.toServer.take n) = .ok server)
    (hroom : st.server.bev.input.length + st.toServer.length ≤ bufferSize) :
    Loop.underWay { st with toServer := st.toServer.drop n, server } = st.underWay ∨
      (Loop.underWay { st with toServer := st.toServer.drop n, server }).length < st.underWay.length := by
  have hwaits : (st.server.bev.input ++ st.toServer.take n).length ≤ bufferSize := by
    rw [List.length_append, List.length_take]
    omega
  have hsplit : st.underWay = st.input ++ st.server.bev.output ++
      (st.server.bev.input ++ st.toServer.take n) ++ st.toServer.drop n := by
    simp only [Loop.underWay, List.append_assoc, List.take_append_drop]
  rcases arrive_cases hserver with ⟨-, hbev⟩ | ⟨-, hbev⟩
  · refine Or.inl ?_
    rw [hsplit, Loop.underWay, hbev]
  · rw [List.drop_of_length_le hwaits, List.take_of_length_le hwaits] at hbev
    cases hadds : frame.adds with
    | true =>
      refine Or.inl ?_
      rw [hsplit, Loop.underWay, hbev, hadds, if_pos rfl, List.append_nil]
      simp only [List.append_assoc]
    | false =>
      -- what was removed is gone
      rw [hsplit, Loop.underWay, hbev, hadds, if_neg (by decide), List.append_nil, List.append_nil]
      rcases eq_or_ne (st.server.bev.input ++ st.toServer.take n) [] with hnone | hsome
      · exact Or.inl (by rw [hnone, List.append_nil])
      · have hpos := List.length_pos_iff.mpr hsome
        refine Or.inr ?_
        simp only [List.length_append] at hpos ⊢
        omega

/-- All requests but the last are echoed, and the last one is under way, unless some of its bytes were
    lost. -/
structure Framed (e : Endian) (earlier : List Request) (last : Request) (st : Loop) : Prop where
  sent : st.sent = earlier ++ [last]
  made : ∀ r ∈ earlier ++ [last], ∃ supply, sendRequest e supply = .ok r
  stream : st.underWay = last.wire ∨ st.underWay.length < 47
  received : st.received = 47 * earlier.length + st.input.length
  consumed : st.consumed = 47 * earlier.length

namespace Framed

variable {e : Endian} {earlier : List Request} {last : Request} {st : Loop}

theorem length_last (h : Framed e earlier last st) : last.wire.length = 47 := by
  obtain ⟨supply, hs⟩ := h.made last (by simp)
  exact length_wire hs

theorem length_earlier (h : Framed e earlier last st) : ∀ r ∈ earlier, r.wire.length = 47 := by
  intro r hr
  obtain ⟨supply, hs⟩ := h.made r (List.mem_append_left _ hr)
  exact length_wire hs

theorem length_underWay (h : Framed e earlier last st) : st.underWay.length ≤ 47 := by
  rcases h.stream with hall | hlost
  · rw [hall, h.length_last]
  · exact hlost.le

theorem length_le (h : Framed e earlier last st) : st.input.length + st.server.bev.output.length +
    st.server.bev.input.length + st.toServer.length ≤ 47 := by
  have hlen := h.length_underWay
  simpa only [Loop.underWay, List.length_append] using hlen

theorem outstanding_le (h : Framed e earlier last st) : outstanding st ≤ 1 := by
  have hcovered := covered_append earlier [last] st.input.length h.length_earlier
  rw [outstanding, h.sent, h.received, hcovered, List.length_append, List.length_singleton]
  omega

/-- STEP: an arrival at the server. -/
theorem step_server (h : Framed e earlier last st) {n : ℕ} {frame : Frame}
    (hends : frame.Readable (st.server.bev.input ++ st.toServer.take n)) :
    ∃ st', step e st (.atServer n frame) = .ok (st', none) ∧ Framed e earlier last st' := by
  obtain ⟨server, hserver⟩ := arrive_ok_iff.mpr hends
  have hlen := h.length_le
  have hunder := underWay_arrive hserver (by rw [bufferSize]; omega)
  refine ⟨{ st with toServer := st.toServer.drop n, server }, by rw [step, hserver, ok_bind], ?_⟩
  exact {
    sent := h.sent
    made := h.made
    stream := by
      rcases hunder with hsame | hlost
      · rw [hsame]
        exact h.stream
      · exact Or.inr (hlost.trans_le h.length_underWay)
    received := h.received
    consumed := h.consumed }

/-- STEP: an arrival at the client that is not taken waits there. -/
theorem step_waits (h : Framed e earlier last st) {n : ℕ} (hn : n ≤ st.server.bev.output.length)
    (supply : Supply) : ∃ st', step e st (.atClient n supply false) = .ok (st', none) ∧
      Framed e earlier last st' := by
  refine ⟨_, rfl, ?_⟩
  exact {
    sent := h.sent
    made := h.made
    stream := by
      have hsame : st.input ++ st.server.bev.output.take n ++ st.server.bev.output.drop n ++
          st.server.bev.input ++ st.toServer = st.underWay := by
        rw [List.append_assoc st.input, List.take_append_drop, Loop.underWay]
      have hstream := h.stream
      rw [← hsame] at hstream
      exact hstream
    received := by
      change st.received + n = 47 * earlier.length + (st.input ++ st.server.bev.output.take n).length
      rw [h.received, List.length_append, List.length_take, min_eq_left hn, Nat.add_assoc]
    consumed := h.consumed }

/-- STEP: a whole message at the client is the echo of the request under way. -/
theorem step_whole (h : Framed e earlier last st) {n : ℕ} (supply : Supply)
    (hn : n ≤ st.server.bev.output.length) (hwhole : st.input.length + n = 47) :
    ∃ st' resp r, step e st (.atClient n supply true) = .ok (st', some resp) ∧ WholeEcho st resp ∧
      Framed e (earlier ++ [last]) r st' := by
  have hlen := h.length_le
  have htoServer : st.toServer = [] := List.eq_nil_of_length_eq_zero (by omega)
  have hwaits : st.server.bev.input = [] := List.eq_nil_of_length_eq_zero (by omega)
  have hout : st.server.bev.output.length ≤ n := by omega
  have hall : st.input ++ st.server.bev.output.take n = last.wire := by
    rw [List.take_of_length_le hout]
    rcases h.stream with hall | hlost
    · rwa [Loop.underWay, htoServer, hwaits, List.append_nil, List.append_nil] at hall
    · simp only [Loop.underWay, List.length_append] at hlost
      omega
  obtain ⟨supply₀, hlast⟩ := h.made last (by simp)
  obtain ⟨resp, r, hr, hechoes, hreadcb⟩ := readcb_whole hlast supply
  refine ⟨_, resp, r, by rw [step, hall, hreadcb, ok_bind]; rfl, ⟨earlier, last, [], h.sent, hechoes, ?_⟩,
    ?_⟩
  · rw [h.consumed, List.sum_eq_card_nsmul _ 47 (by simpa using h.length_earlier), List.length_map,
      smul_eq_mul, Nat.mul_comm]
  · exact {
      sent := by rw [Loop.note, h.sent]
      made := by
        intro r' hr'
        rcases List.mem_append.mp hr' with hold | hnew
        · exact h.made r' hold
        · exact ⟨supply, by rwa [List.mem_singleton.mp hnew]⟩
      stream := by
        refine Or.inl ?_
        rw [Loop.note, Loop.underWay, htoServer, hwaits, List.drop_of_length_le hout]
        rfl
      received := by
        rw [Loop.note, h.received, Nat.add_assoc, hwhole, List.length_append, List.length_singleton]
        rfl
      consumed := by
        rw [Loop.note, h.consumed, List.length_append, List.length_singleton]
        rfl }

/-- STEP: a part of the message makes the client send a second request. -/
theorem step_part (h : Framed e earlier last st) {n : ℕ} {supply : Supply}
    (hn : n ≤ st.server.bev.output.length) (hpart : st.input.length + n ≠ 47) {st' : Loop}
    {resp : Option Response} (hstep : step e st (.atClient n supply true) = .ok (st', resp)) :
    outstanding st' = 2 := by
  have hlen := h.length_le
  obtain ⟨⟨rest, reading⟩, hreadcb, hstep⟩ := exists_of_bind_ok hstep
  rcases readcb_cases hreadcb with ⟨hfalse, -⟩ | ⟨-, taken, response, request, rfl⟩
  · cases hfalse
  · obtain ⟨hst, -⟩ := Prod.mk.inj (Except.ok.inj hstep)
    have hsent : st'.sent = earlier ++ [last, request] := by
      rw [← hst, Loop.note, h.sent, List.append_assoc]
      rfl
    have hreceived : st'.received = 47 * earlier.length + (st.input.length + n) := by
      rw [← hst, Loop.note, h.received, Nat.add_assoc]
    have hcovered := covered_append earlier [last, request] (st.input.length + n) h.length_earlier
    rw [covered_part (by rw [h.length_last]; omega)] at hcovered
    rw [outstanding, hsent, hreceived, hcovered, List.length_append]
    simp

end Framed

/-! ### Whole runs -/

theorem AlwaysFramed.head {e : Endian} {st : Loop} {es : List Event} (h : AlwaysFramed e st es) :
    outstanding st ≤ 1 := by
  rcases es with - | ⟨ev, es⟩
  · exact h
  · exact h.1

theorem alwaysFramed_cons {e : Endian} {st st' : Loop} {resp : Option Response} {ev : Event}
    {es : List Event} (hstep : step e st ev = .ok (st', resp)) : AlwaysFramed e st (ev :: es) ↔
      outstanding st ≤ 1 ∧ (∀ r ∈ resp, WholeEcho st r) ∧ AlwaysFramed e st' es := by
  rw [AlwaysFramed, hstep]

theorem alwaysWhole_cons {e : Endian} {st st' : Loop} {resp : Option Response} {ev : Event}
    {es : List Event} (hstep : step e st ev = .ok (st', resp)) : alwaysWhole e st (ev :: es) = true ↔
      ev.whole st = true ∧ alwaysWhole e st' es = true := by
  rw [alwaysWhole, hstep, Bool.and_eq_true]

theorem whole_of_alwaysWhole {e : Endian} {st : Loop} {ev : Event} {es : List Event}
    (h : alwaysWhole e st (ev :: es) = true) : ev.whole st = true := by
  rw [alwaysWhole, Bool.and_eq_true] at h
  exact h.1

theorem possible_cons {e : Endian} {st st' : Loop} {resp : Option Response} {ev : Event}
    {es : List Event} (hstep : step e st ev = .ok (st', resp))
    (h : possible e st (ev :: es) = true) : possible e st' es = true := by
  rw [possible, hstep, Bool.and_eq_true] at h
  exact h.2

theorem enabled_of_possible {e : Endian} {st : Loop} {ev : Event} {es : List Event}
    (h : possible e st (ev :: es) = true) : ev.enabled st = true := by
  rw [possible, Bool.and_eq_true] at h
  exact h.1

/-- STEP: an arrival keeps the loop framed when it is as a run needs it, and else the run ends or there
    are two requests outstanding. -/
theorem Framed.step {e : Endian} {earlier : List Request} {last : Request} {st : Loop}
    (h : Framed e earlier last st) {ev : Event} (hp : ev.enabled st = true) :
    (ev.whole st = true ∧ ∃ st' resp earlier' last', Serialization.step e st ev = .ok (st', resp) ∧
      (∀ r ∈ resp, WholeEcho st r) ∧ Framed e earlier' last' st') ∨
    (ev.whole st = false ∧ ∀ st' resp, Serialization.step e st ev = .ok (st', resp) →
      outstanding st' = 2) := by
  cases ev with
  | atServer n frame =>
    by_cases hends : frame.Readable (st.server.bev.input ++ st.toServer.take n)
    · obtain ⟨st', hstep, h'⟩ := h.step_server hends
      exact Or.inl ⟨decide_eq_true hends, st', none, earlier, last, hstep, by simp, h'⟩
    · refine Or.inr ⟨decide_eq_false hends, fun st' resp hstep => absurd ?_ hends⟩
      obtain ⟨server, hserver, -⟩ := exists_of_bind_ok hstep
      exact arrive_ok_iff.mp ⟨server, hserver⟩
  | atClient n supply removes =>
    have hn := (of_decide_eq_true hp).2
    cases removes with
    | false =>
      obtain ⟨st', hstep, h'⟩ := h.step_waits hn supply
      exact Or.inl ⟨rfl, st', none, earlier, last, hstep, by simp, h'⟩
    | true =>
      by_cases hwhole : st.input.length + n = 47
      · obtain ⟨st', resp, r, hstep, hecho, h'⟩ := h.step_whole supply hn hwhole
        exact Or.inl ⟨decide_eq_true hwhole, st', some resp, _, r, hstep, by simpa using hecho, h'⟩
      · exact Or.inr ⟨decide_eq_false hwhole, fun st' resp hstep => h.step_part hn hwhole hstep⟩

/-- RUN: from a state with one request under way a possible run stays framed exactly when every arrival is
    as the run needs it. -/
theorem run_framed {e : Endian} (es : List Event) {earlier : List Request} {last : Request} {st : Loop}
    (h : Framed e earlier last st) (hp : possible e st es = true) :
    AlwaysFramed e st es ↔ alwaysWhole e st es = true := by
  induction es generalizing earlier last st with
  | nil => exact iff_of_true h.outstanding_le rfl
  | cons ev es ih =>
    rcases h.step (enabled_of_possible hp) with
      ⟨hwhole, st', resp, earlier', last', hstep, hecho, h'⟩ | ⟨hpart, htwo⟩
    · rw [alwaysFramed_cons hstep, alwaysWhole_cons hstep, ih h' (possible_cons hstep hp)]
      simp only [h.outstanding_le, hwhole, true_and]
      exact and_iff_right hecho
    · refine iff_of_false (fun hframed => ?_) fun hall => ?_
      · rcases hstep : Serialization.step e st ev with f | ⟨st', resp⟩
        · rw [AlwaysFramed, hstep] at hframed
          exact hframed.2
        · have hone := ((alwaysFramed_cons hstep).mp hframed).2.2.head
          have := htwo st' resp hstep
          omega
      · rw [whole_of_alwaysWhole hall] at hpart
        cases hpart

theorem start_framed (e : Endian) (supply : Supply) :
    ∃ st₀ r, start e supply = .ok st₀ ∧ Framed e [] r st₀ := by
  obtain ⟨r, hr, -⟩ := sendRequest_total e supply
  refine ⟨_, r, by rw [start, hr, ok_bind], ?_⟩
  exact {
    sent := rfl
    made := by
      intro r' hr'
      exact ⟨supply, by rwa [List.mem_singleton.mp hr']⟩
    stream := Or.inl rfl
    received := rfl
    consumed := rfl }

/-- CORRECT (when the client takes whole messages and the server's strings end): however the two streams
    cut the bytes, at most one request is outstanding in every state of a run, no callback faults, and
    every response is a whole request sent before, exactly when `readcb` never takes anything but the 47
    bytes of one message and each string the server prints ends in its local buffer. -/
theorem closed_loop_framing (e : Endian) (supply : Supply) (es : List Event) :
    ∃ st₀, start e supply = .ok st₀ ∧
      (possible e st₀ es = true → (AlwaysFramed e st₀ es ↔ alwaysWhole e st₀ es = true)) := by
  obtain ⟨st₀, r, hstart, hframed⟩ := start_framed e supply
  exact ⟨st₀, hstart, run_framed es hframed⟩

/-- A supply of zeros. -/
def noSupply : Supply := ⟨fun _ => 0, ⟨0, 0⟩, fun _ => 0⟩

/-- The stack of the server holds a zero at the end of the local buffer. -/
def lastZero : Frame := ⟨fun i => if i = 127 then 0 else 255, true, true⟩

/-- The server gets the second request in two pieces. -/
def piecesAtServer : List Event :=
  [.atServer 47 lastZero, .atClient 47 noSupply true, .atServer 20 lastZero, .atServer 27 lastZero,
    .atClient 47 noSupply true]

/-- Whatever reaches the server in pieces, and is printed, is framed again at the client. -/
theorem closed_loop_framing_pieces : ∃ st₀, start .little noSupply = .ok st₀ ∧
    possible .little st₀ piecesAtServer = true ∧ AlwaysFramed .little st₀ piecesAtServer := by
  obtain ⟨st₀, hstart, h⟩ := closed_loop_framing .little noSupply piecesAtServer
  have hrun : (start .little noSupply >>= fun st =>
      .ok (possible .little st piecesAtServer && alwaysWhole .little st piecesAtServer)) = .ok true := by
    decide +kernel
  rw [hstart, ok_bind, Except.ok.injEq, Bool.and_eq_true] at hrun
  exact ⟨st₀, hstart, hrun.1, (h hrun.1).mpr hrun.2⟩

/-- The echo of the first request reaches the client in two pieces. -/
def piecesAtClient : List Event := [.atServer 47 lastZero, .atClient 10 noSupply true]

/-- The client takes the first ten bytes for a response with no content, and has then two requests
    outstanding. -/
theorem split_echo_breaks_framing :
    (do let st₀ ← start .little noSupply
        let (st₁, _) ← step .little st₀ (.atServer 47 lastZero)
        let (st₂, resp) ← step .little st₁ (.atClient 10 noSupply true)
        .ok (possible .little st₀ piecesAtClient, outstanding st₂, resp.map (·.content),
          st₀.sent.map (·.content)) : C _) =
      .ok (true, 2, some [], [List.replicate 15 48 ++ [0]]) ∧
    ∃ st₀, start .little noSupply = .ok st₀ ∧ ¬ AlwaysFramed .little st₀ piecesAtClient := by
  have hrun : (start .little noSupply >>= fun st =>
      .ok (possible .little st piecesAtClient && !alwaysWhole .little st piecesAtClient)) =
      .ok true := by decide +kernel
  refine ⟨by decide +kernel, ?_⟩
  obtain ⟨st₀, r, hstart, hframed⟩ := start_framed .little noSupply
  rw [hstart, ok_bind, Except.ok.injEq, Bool.and_eq_true] at hrun
  refine ⟨st₀, hstart, fun h => ?_⟩
  have hwhole := (run_framed piecesAtClient hframed hrun.1).mp h
  rw [hwhole] at hrun
  exact absurd hrun.2 (by decide)

end Diversity.Serialization
