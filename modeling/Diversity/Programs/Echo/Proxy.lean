import Diversity.Schemes.KeyedTable

/-! @src client_server/uthash/src/server.c | name:Echo proxy | scheme:keyed-table | family:server

    `echo_read_cb` does not answer a connection itself: it enters the connection in `request_table` under
    `current_request_id`, and `respond_cb` looks the id up again, moves the input of the connection that
    it finds to its output, and deletes the entry. The ids are `int` and start over after 2^32 requests,
    so that they do not tell requests apart; that the right connection is found rests on the table being
    empty whenever a callback starts.

        echo_read_cb bev:   table = ∅  →  {(id, bev)}  →  respond_cb id  →  ∅

    The table is any `KeyedTable`. `malloc` is taken to succeed, and a bufferevent that is freed may be
    handed out again for a later connection. -/

namespace Diversity.Proxy
open Schemes

/-- `struct request_entry`; `B` are the addresses of bufferevents. -/
structure RequestEntry (B : Type) where
  requestId : Int32
  bev : B
  deriving DecidableEq

variable {B : Type} [DecidableEq B]

/-- What `HASH_ADD_INT`, `HASH_FIND_INT` and `HASH_DEL` work on. -/
abbrev RequestTable (B : Type) [DecidableEq B] :=
  KeyedTable Int32 (RequestEntry B) RequestEntry.requestId

/-- `struct proxy_server`. -/
structure ProxyServer (T : RequestTable B) where
  proxyId : Int32
  currentRequestId : Int32
  atSecond : Int32
  messagePerSecond : Int32
  requestTable : T.Carrier

/-- A bufferevent: its two buffers, and what its socket has received and sent so far. That the buffers keep
    the bytes in order, and that `evbuffer_add_buffer` moves all of one behind the other, is what libevent
    documents; libevent is not part of this repository. -/
structure Bufferevent where
  input : List UInt8
  output : List UInt8
  received : List UInt8
  sent : List UInt8
  deriving DecidableEq

/-- What the server prints: a line of `on_stats`, or a `perror`. -/
inductive Printed where
  | stats (atSecond messagePerSecond : Int32)
  | error
  deriving DecidableEq

/-- The server, and the bufferevents that are in use. -/
structure State (T : RequestTable B) where
  proxy : ProxyServer T
  bevs : B → Option Bufferevent
  printed : List Printed

variable {T : RequestTable B}

/-! ### The callbacks -/

/-- `bufferevent_socket_new`. -/
def Bufferevent.new : Bufferevent := { input := [], output := [], received := [], sent := [] }

/-- `evbuffer_add_buffer`, from the input of a bufferevent to its output. -/
def Bufferevent.addBuffer (c : Bufferevent) : Bufferevent :=
  { c with output := c.output ++ c.input, input := [] }

/-- `respond_cb`; none if it uses a bufferevent that was freed. -/
def respondCb (s : State T) (parmReqId : Int32) : Option (State T) :=
  match T.find s.proxy.requestTable parmReqId with
  | none => some s
  | some e => do
    let c ← s.bevs e.bev
    some { s with
      bevs := Function.update s.bevs e.bev (some c.addBuffer)
      proxy := { s.proxy with requestTable := T.del s.proxy.requestTable e } }

/-- `echo_read_cb`. -/
def echoReadCb (bev : B) (s : State T) : Option (State T) := do
  let e : RequestEntry B := { requestId := s.proxy.currentRequestId, bev }
  let s : State T :=
    { s with proxy := { s.proxy with requestTable := T.add s.proxy.requestTable e } }
  let s ← respondCb s s.proxy.currentRequestId
  some { s with proxy :=
    { s.proxy with
      messagePerSecond := s.proxy.messagePerSecond + 1
      currentRequestId := s.proxy.currentRequestId + 1 } }

/-- `BEV_EVENT_EOF`. -/
def bevEventEof : BitVec 16 := 0x10

/-- `BEV_EVENT_ERROR`. -/
def bevEventError : BitVec 16 := 0x20

/-- The events that end a connection. -/
def ends (events : BitVec 16) : Bool := events &&& (bevEventEof ||| bevEventError) ≠ 0

/-- `echo_event_cb`. -/
def echoEventCb (bev : B) (events : BitVec 16) (s : State T) : State T :=
  let s := if events &&& bevEventError ≠ 0 then { s with printed := s.printed ++ [.error] } else s
  if ends events then { s with bevs := Function.update s.bevs bev none } else s

/-- `accept_conn_cb`, with the address that the new bufferevent gets. -/
def acceptConnCb (bev : B) (s : State T) : State T :=
  { s with bevs := Function.update s.bevs bev (some .new) }

/-- `on_stats`. -/
def onStats (s : State T) : State T :=
  { s with
    printed := s.printed ++ [.stats s.proxy.atSecond s.proxy.messagePerSecond]
    proxy := { s.proxy with messagePerSecond := 0, atSecond := s.proxy.atSecond + 1 } }

/-! ### The event loop -/

/-- What happens: a callback, or bytes going between a bufferevent and its socket. -/
inductive Event (B : Type) where
  | accept (bev : B)
  | read (bev : B)
  | event (bev : B) (events : BitVec 16)
  | stats
  | arrive (bev : B) (bytes : List UInt8)
  | flush (bev : B) (n : ℕ)

/-- Bytes from the socket. -/
def Bufferevent.arrive (c : Bufferevent) (bytes : List UInt8) : Bufferevent :=
  { c with input := c.input ++ bytes, received := c.received ++ bytes }

/-- Bytes to the socket. -/
def Bufferevent.flush (c : Bufferevent) (n : ℕ) : Bufferevent :=
  { c with output := c.output.drop n, sent := c.sent ++ c.output.take n }

/-- One turn. A bufferevent that is not in use has no events, and only such a one is handed out. -/
def step (s : State T) : Event B → Option (State T)
  | .accept bev => if s.bevs bev = none then some (acceptConnCb bev s) else some s
  | .read bev => if s.bevs bev = none then some s else echoReadCb bev s
  | .event bev events => if s.bevs bev = none then some s else some (echoEventCb bev events s)
  | .stats => some (onStats s)
  | .arrive bev bytes =>
    some { s with bevs := Function.update s.bevs bev ((s.bevs bev).map (·.arrive bytes)) }
  | .flush bev n =>
    some { s with bevs := Function.update s.bevs bev ((s.bevs bev).map (·.flush n)) }

/-- A run of the event loop. -/
def run (s : State T) (es : List (Event B)) : Option (State T) := es.foldlM step s

/-- `main`, when the first request gets `id`. -/
def initial (T : RequestTable B) (id : Int32) : State T where
  proxy := { proxyId := 0, currentRequestId := id, atSecond := 0, messagePerSecond := 0,
             requestTable := T.empty }
  bevs := fun _ => none
  printed := []

/-! ### One connection by itself -/

/-- What an echo server does for the connection at `b`, with no table and no other connection. -/
def echoStep (b : B) (c : Option Bufferevent) : Event B → Option Bufferevent
  | .accept bev => if b = bev ∧ c = none then some .new else c
  | .read bev => if b = bev then c.map (·.addBuffer) else c
  | .event bev events => if b = bev ∧ ends events then none else c
  | .stats => c
  | .arrive bev bytes => if b = bev then c.map (·.arrive bytes) else c
  | .flush bev n => if b = bev then c.map (·.flush n) else c

/-- The connection at `b` after some events. -/
def echo (b : B) (es : List (Event B)) : Option Bufferevent := es.foldl (echoStep b) none

/-- What a socket has sent, and what waits in the two buffers, is what it has received. -/
def Bufferevent.InOrder (c : Bufferevent) : Prop := c.sent ++ c.output ++ c.input = c.received

namespace Bufferevent.InOrder

theorem addBuffer {c : Bufferevent} (h : c.InOrder) : c.addBuffer.InOrder := by
  rw [Bufferevent.InOrder] at h ⊢
  simp only [Bufferevent.addBuffer, List.append_nil, ← List.append_assoc]
  exact h

theorem arrive {c : Bufferevent} (h : c.InOrder) (bytes : List UInt8) : (c.arrive bytes).InOrder := by
  rw [Bufferevent.InOrder] at h ⊢
  simp only [Bufferevent.arrive, ← List.append_assoc]
  rw [h]

theorem flush {c : Bufferevent} (h : c.InOrder) (n : ℕ) : (c.flush n).InOrder := by
  rw [Bufferevent.InOrder] at h ⊢
  simp only [Bufferevent.flush]
  rw [List.append_assoc c.sent, List.take_append_drop]
  exact h

end Bufferevent.InOrder

/-- STEP: the echo keeps the bytes of the connection, each once and in order. -/
theorem echoStep_inOrder {b : B} {c : Option Bufferevent} (hc : ∀ x ∈ c, x.InOrder) (e : Event B) :
    ∀ x ∈ echoStep b c e, x.InOrder := by
  have hmap : ∀ f : Bufferevent → Bufferevent, (∀ x, x.InOrder → (f x).InOrder) →
      ∀ x ∈ c.map f, x.InOrder := by
    rintro f hf x hx
    obtain ⟨y, hy, rfl⟩ := Option.mem_map.mp hx
    exact hf y (hc y hy)
  cases e with
  | accept bev =>
    rw [echoStep]
    split
    · rintro x ⟨⟩
      rfl
    · exact hc
  | read bev =>
    rw [echoStep]
    split
    · exact hmap _ fun x hx => hx.addBuffer
    · exact hc
  | event bev events =>
    rw [echoStep]
    split
    · rintro x ⟨⟩
    · exact hc
  | stats => exact hc
  | arrive bev bytes =>
    rw [echoStep]
    split
    · exact hmap _ fun x hx => hx.arrive bytes
    · exact hc
  | flush bev n =>
    rw [echoStep]
    split
    · exact hmap _ fun x hx => hx.flush n
    · exact hc

/-- RUN: the same for all events. -/
theorem echo_inOrder (b : B) (es : List (Event B)) : ∀ c ∈ echo b es, c.InOrder := by
  induction es using List.reverseRecOn with
  | nil => rintro c ⟨⟩
  | append_singleton es e ih =>
    rw [echo, List.foldl_append]
    exact echoStep_inOrder ih e

/-! ### The proxy is an echo server -/

/-- STEP: on an empty table `echo_read_cb` finds the entry that it has made, and the table is empty
    again. -/
theorem echoReadCb_moves {s : State T} (hempty : T.entries s.proxy.requestTable = 0) {bev : B}
    {c : Bufferevent} (hc : s.bevs bev = some c) :
    ∃ s', echoReadCb bev s = some s' ∧ T.entries s'.proxy.requestTable = 0 ∧
      s'.bevs = Function.update s.bevs bev (some c.addBuffer) := by
  have hfresh : ∀ x ∈ T.entries s.proxy.requestTable, x.requestId ≠ s.proxy.currentRequestId := by
    rw [hempty]
    exact fun x hx => absurd hx (Multiset.notMem_zero x)
  have hfind : T.find (T.add s.proxy.requestTable ⟨s.proxy.currentRequestId, bev⟩)
      s.proxy.currentRequestId = some ⟨s.proxy.currentRequestId, bev⟩ :=
    T.find_add (e := ⟨s.proxy.currentRequestId, bev⟩) hfresh
  have hread : echoReadCb bev s = some
      { s with
        bevs := Function.update s.bevs bev (some c.addBuffer)
        proxy :=
          { s.proxy with
            requestTable := T.del (T.add s.proxy.requestTable ⟨s.proxy.currentRequestId, bev⟩)
              ⟨s.proxy.currentRequestId, bev⟩
            messagePerSecond := s.proxy.messagePerSecond + 1
            currentRequestId := s.proxy.currentRequestId + 1 } } := by
    simp only [echoReadCb, respondCb, hfind, hc, Option.bind_eq_bind, Option.bind_some]
  exact ⟨_, hread, (T.entries_del_add _ _).trans hempty, rfl⟩

/-- The events of a bufferevent that is not in use change nothing. -/
theorem echoStep_none {b bev : B} {c : Option Bufferevent} (hc : b = bev → c = none) :
    echoStep b c (.read bev) = c ∧ ∀ events, echoStep b c (.event bev events) = c := by
  by_cases hb : b = bev
  · subst hb
    rw [hc rfl]
    exact ⟨by simp [echoStep], fun events => by simp [echoStep]⟩
  · exact ⟨by simp [echoStep, hb], fun events => by simp [echoStep, hb]⟩

/-- `echo_event_cb` frees its bufferevent at the end of the connection, and touches no other. -/
theorem echoEventCb_frees (bev : B) (events : BitVec 16) (s : State T) :
    (echoEventCb bev events s).proxy = s.proxy ∧
      ∀ b, (echoEventCb bev events s).bevs b = if b = bev ∧ ends events then none else s.bevs b := by
  by_cases hprint : events &&& bevEventError = 0#16
  · by_cases hends : ends events
    · simp [echoEventCb, hprint, hends, Function.update_apply]
    · simp [echoEventCb, hprint, hends]
  · by_cases hends : ends events
    · simp [echoEventCb, hprint, hends, Function.update_apply]
    · simp [echoEventCb, hprint, hends]

/-- Changing the connection at `bev` in place, seen from any other. -/
theorem update_map_apply (bevs : B → Option Bufferevent) (bev b : B) (f : Bufferevent → Bufferevent) :
    Function.update bevs bev ((bevs bev).map f) b =
      if b = bev then (bevs b).map f else bevs b := by
  rw [Function.update_apply]
  exact ite_congr rfl (fun hb => by rw [hb]) (fun _ => rfl)

/-- STEP: whatever happens, no callback uses a freed bufferevent, the table is empty again, and every
    connection is as if it were alone. -/
theorem step_refines {s : State T} (hempty : T.entries s.proxy.requestTable = 0) (e : Event B) :
    ∃ s', step s e = some s' ∧ T.entries s'.proxy.requestTable = 0 ∧
      ∀ b, s'.bevs b = echoStep b (s.bevs b) e := by
  cases e with
  | accept bev =>
    by_cases hc : s.bevs bev = none
    · refine ⟨acceptConnCb bev s, by rw [step, if_pos hc], hempty, ?_⟩
      intro b
      simp only [acceptConnCb, Function.update_apply, echoStep]
      refine ite_congr ?_ (fun _ => rfl) (fun _ => rfl)
      exact propext ⟨fun hb => ⟨hb, hb ▸ hc⟩, fun hb => hb.1⟩
    · refine ⟨s, by rw [step, if_neg hc], hempty, ?_⟩
      intro b
      rw [echoStep, if_neg]
      rintro ⟨rfl, hb⟩
      exact hc hb
  | read bev =>
    cases hc : s.bevs bev with
    | none =>
      refine ⟨s, by rw [step, if_pos hc], hempty, ?_⟩
      intro b
      exact (echoStep_none fun hb => hb ▸ hc).1.symm
    | some c =>
      obtain ⟨s', hread, hempty', hbevs⟩ := echoReadCb_moves hempty hc
      refine ⟨s', by rw [step, if_neg (by simp [hc]), hread], hempty', ?_⟩
      intro b
      rw [hbevs, Function.update_apply, echoStep]
      refine ite_congr rfl ?_ (fun _ => rfl)
      rintro rfl
      rw [hc]
      rfl
  | event bev events =>
    by_cases hc : s.bevs bev = none
    · refine ⟨s, by rw [step, if_pos hc], hempty, ?_⟩
      intro b
      exact ((echoStep_none fun hb => hb ▸ hc).2 events).symm
    · obtain ⟨hproxy, hbevs⟩ := echoEventCb_frees bev events s
      refine ⟨echoEventCb bev events s, by rw [step, if_neg hc], ?_, ?_⟩
      · rw [hproxy]
        exact hempty
      · intro b
        rw [hbevs, echoStep]
  | stats => exact ⟨onStats s, rfl, hempty, fun b => rfl⟩
  | arrive bev bytes =>
    refine ⟨_, rfl, hempty, ?_⟩
    intro b
    rw [echoStep]
    exact update_map_apply s.bevs bev b _
  | flush bev n =>
    refine ⟨_, rfl, hempty, ?_⟩
    intro b
    rw [echoStep]
    exact update_map_apply s.bevs bev b _

/-- RUN: the same for all events, from any id on. -/
theorem run_refines (T : RequestTable B) (id : Int32) (es : List (Event B)) :
    ∃ s, run (initial T id) es = some s ∧ T.entries s.proxy.requestTable = 0 ∧
      ∀ b, s.bevs b = echo b es := by
  induction es using List.reverseRecOn with
  | nil => exact ⟨initial T id, rfl, T.entries_empty, fun b => rfl⟩
  | append_singleton es e ih =>
    obtain ⟨s, hrun, hempty, hbevs⟩ := ih
    obtain ⟨s', hstep, hempty', hbevs'⟩ := step_refines hempty e
    refine ⟨s', ?_, hempty', ?_⟩
    · rw [run] at hrun ⊢
      rw [List.foldlM_append, hrun]
      simpa using hstep
    · intro b
      rw [hbevs', hbevs, echo, echo, List.foldl_append]
      rfl

/-- In every run, from any id on: no callback touches a freed bufferevent, the table is empty after each
    of them, so that no entry refers to a freed one; and `echo_read_cb` on a connection moves all of its
    input behind its output, touches no other connection and leaves the table empty. Over the whole run a
    connection gets back the bytes that it has sent, in order and once. -/
theorem reply_to_asker (T : RequestTable B) (id : Int32) (es : List (Event B)) :
    ∃ s, run (initial T id) es = some s ∧ T.entries s.proxy.requestTable = 0 ∧
      (∀ e ∈ T.entries s.proxy.requestTable, s.bevs e.bev ≠ none) ∧
      ∀ b c, s.bevs b = some c → c.sent ++ c.output ++ c.input = c.received ∧
        ∃ s', echoReadCb b s = some s' ∧ T.entries s'.proxy.requestTable = 0 ∧
          s'.bevs b = some { c with input := [], output := c.output ++ c.input } ∧
          ∀ b', b' ≠ b → s'.bevs b' = s.bevs b' := by
  obtain ⟨s, hrun, hempty, hbevs⟩ := run_refines T id es
  refine ⟨s, hrun, hempty, ?_, ?_⟩
  · rw [hempty]
    exact fun e he => absurd he (Multiset.notMem_zero e)
  · intro b c hc
    have horder := echo_inOrder b es c (by rw [← hbevs]; exact hc)
    obtain ⟨s', hread, hempty', hbevs'⟩ := echoReadCb_moves hempty hc
    refine ⟨horder, s', hread, hempty', ?_, ?_⟩
    · rw [hbevs', Function.update_self]
      rfl
    · intro b' hb'
      rw [hbevs', Function.update_of_ne hb']

-- Two connections while the id starts over, on a table that is a list.
example :
    (run (initial (listTable (RequestEntry.requestId (B := ℕ))) Int32.maxValue)
      [.accept 0, .accept 1, .arrive 0 [1, 2], .arrive 1 [3], .read 1, .flush 1 1, .read 0]).map
        (fun s => (s.proxy.currentRequestId, s.bevs 0, s.bevs 1)) =
      some (Int32.minValue + 1, some ⟨[], [1, 2], [1, 2], []⟩, some ⟨[], [], [3], [3]⟩) := by
  decide

end Diversity.Proxy
