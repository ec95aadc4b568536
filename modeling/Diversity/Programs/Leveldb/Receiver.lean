import Diversity.Schemes.Buffer
import Diversity.Schemes.KeyValue

/-! @src fast_leveldb/src/udpreceiver.c | name:LevelDB UDP receiver | scheme:buffer | family:server

    `thread_loop` receives up to `MAX_MSG` datagrams at once, each into its own slot of `MTU_SIZE`
    bytes, and hands every slot to `deliver`, which takes the sizes of key and value from the slot.
    The length of the datagram is counted into `bps` and never given to `deliver`, and no slot is
    cleared. LevelDB is a parameter; what `deliver` reads of a slot is `parse`, and one lemma for
    each kind of request says which bytes these are.

        slot:  [ op | ksize | vsize | key … | value … | stale … ]
                 └──────── msg_len bytes ────────┘             -/

namespace Diversity.Leveldb
open Schemes

abbrev Bytes := List UInt8

/-- `MTU_SIZE`. -/
def mtuSize : ℕ := 2048 - 64 * 2

/-- `MAX_MSG`. -/
def maxMsg : ℕ := 512

instance : NeZero maxMsg := ⟨by decide⟩

/-- `enum command_t`. -/
inductive Command where
  | put | get | delete
  deriving DecidableEq, Repr

/-- The `switch` on the first byte. -/
def Command.ofChar (op : UInt8) : Option Command :=
  if op = 1 then some .put else if op = 2 then some .get else if op = 3 then some .delete else none

/-- `enum return_code`. -/
inductive ReturnCode where
  | success | gotValue | notFound | invalidOp | failed
  deriving DecidableEq, Repr

/-- A call of LevelDB with the bytes it is given. -/
inductive Operation where
  | put (key value : Bytes)
  | get (key : Bytes)
  | delete (key : Bytes)
  deriving DecidableEq, Repr

/-- LevelDB on stores `S`; the flag says that `err` was set. -/
structure LevelDb (S : Type) where
  put : S → Bytes → Bytes → S × Bool
  get : S → Bytes → Option Bytes × Bool
  delete : S → Bytes → S × Bool

/-- A LevelDB that is a map and reports no error. -/
def mapDb : LevelDb (KeyValue.Store Bytes Bytes) where
  put s key value := (KeyValue.put s key value, false)
  get s key := (s key, false)
  delete s key := (KeyValue.delete s key, false)

/-- What `deliver` leaves behind: its return code, the call it made, the store, and `*return_val`
    with `*return_vsize` as its length. -/
structure Reply (S : Type) where
  code : ReturnCode
  op : Option Operation
  store : S
  value : Option Bytes

variable {S : Type}

/-- The three cases of the `switch`, from the call of LevelDB on. -/
def perform (db : LevelDb S) (store : S) : Operation → Reply S
  | .put key value =>
    let (store, err) := db.put store key value
    { code := if err then .failed else .success, op := some (.put key value), store, value := none }
  | .get key =>
    let (value, err) := db.get store key
    { code := if err then .failed else if value.isSome then .gotValue else .notFound
      op := some (.get key), store, value }
  | .delete key =>
    let (store, err) := db.delete store key
    { code := if err then .failed else .success, op := some (.delete key), store, value := none }

/-- What `deliver` reads of a request: the call it asks for, or the code returned without one. -/
def parse (request : Bytes) : C (ReturnCode ⊕ Operation) := do
  let op ← load request 0
  if op = 0 then .ok (.inl .failed)
  else match Command.ofChar op with
    | some .put => do
      let ksize ← load request 1
      let vsize ← load request 2
      let key ← slice request 3 ksize.toNat
      let value ← slice request (3 + ksize.toNat) vsize.toNat
      .ok (.inr (.put key value))
    | some .get => do
      let ksize ← load request 1
      let key ← slice request 3 ksize.toNat
      .ok (.inr (.get key))
    | some .delete => do
      let ksize ← load request 1
      let key ← slice request 3 ksize.toNat
      .ok (.inr (.delete key))
    | none => .ok (.inl .invalidOp)

/-- `deliver`; the request is `none` for NULL. -/
def deliver (db : LevelDb S) (store : S) : Option Bytes → C (Reply S)
  | none => .ok { code := .failed, op := none, store, value := none }
  | some request => do
    match ← parse request with
    | .inl code => .ok { code, op := none, store, value := none }
    | .inr op => .ok (perform db store op)

/-! ### The receive loop -/

/-- What arrives in a slot: `recvmmsg` cuts a packet off at `iov_len`. -/
structure Datagram where
  bytes : Bytes
  fits : bytes.length ≤ mtuSize

/-- `buffers[i]` and `messages[i].msg_len`. -/
structure Slot where
  bytes : Bytes
  full : bytes.length = mtuSize
  msgLen : ℕ

/-- `recvmmsg` on one slot: only the first `msg_len` bytes are written. -/
def Slot.receive (s : Slot) (d : Datagram) : Slot where
  bytes := overlay d.bytes s.bytes
  full := (length_overlay (d.fits.trans_eq s.full.symm)).trans s.full
  msgLen := d.bytes.length

/-- `struct state`, with the contents of its database. -/
structure State (S : Type) where
  slots : Fin maxMsg → Slot
  bps : UInt64
  pps : UInt64
  store : S

/-- `errno` after a failed `recvmmsg`. -/
inductive Errno where
  | eagain | ewouldblock | eintr | other
  deriving DecidableEq, Repr

/-- The result of a blocking `recvmmsg`: `r <= 0`, or at least one datagram. -/
inductive Recv where
  | failed (errno : Errno)
  | received (d : Datagram) (ds : List Datagram)

/-- At most `MAX_MSG` datagrams of a batch are received. -/
def Recv.datagrams : Recv → List Datagram
  | .failed _ => []
  | .received d ds => (d :: ds).take maxMsg

def recvmmsg (st : State S) (ds : List Datagram) : State S :=
  { st with slots := fun i =>
      match ds[i.val]? with
      | some d => (st.slots i).receive d
      | none => st.slots i }

/-- The body of `for (i = 0; i < r; i++)`, with `bytes` and the calls of LevelDB so far. -/
def handle (db : LevelDb S) (acc : State S × ℕ × List (Option Operation)) (i : Fin maxMsg) :
    C (State S × ℕ × List (Option Operation)) := do
  let (st, bytes, ops) := acc
  let msg := st.slots i
  let reply ← deliver db st.store (some msg.bytes)
  let len := msg.msgLen
  let st := { st with
    store := reply.store
    slots := Function.update st.slots i { msg with msgLen := 0 } }
  .ok (st, bytes + len, ops ++ [reply.op])

/-- The two atomic additions at the end of a batch. -/
def count (st : State S) (r bytes : ℕ) : State S :=
  { st with pps := st.pps + UInt64.ofNat r, bps := st.bps + UInt64.ofNat bytes }

/-- `thread_loop` on the results of its `recvmmsg` calls; the list has one entry for each datagram,
    the call that was made for it. -/
def threadLoop (db : LevelDb S) : State S → List Recv → C (State S × List (Option Operation))
  | st, [] => .ok (st, [])
  | st, .failed errno :: rs =>
    if errno = .eagain ∨ errno = .ewouldblock ∨ errno = .eintr then threadLoop db st rs
    else .ok (st, [])
  | st, .received d ds :: rs => do
    let batch := Recv.datagrams (.received d ds)
    let r := batch.length
    let (st, bytes, ops) ←
      ((List.finRange maxMsg).take r).foldlM (handle db) (recvmmsg st batch, 0, [])
    let (st, ops') ← threadLoop db (count st r bytes) rs
    .ok (st, ops ++ ops')

/-! ### What `deliver` reads -/

variable {op k v : UInt8} {b : Bytes}

/-- A PUT reads both sizes, the key and the value. -/
theorem parse_put (hop : Command.ofChar op = some .put) (h0 : b[0]? = some op) (h1 : b[1]? = some k)
    (h2 : b[2]? = some v) (hlen : 3 + k.toNat + v.toNat ≤ b.length) :
    parse b = .ok (.inr (.put ((b.drop 3).take k.toNat) ((b.drop (3 + k.toNat)).take v.toNat))) := by
  have hne : op ≠ 0 := by rintro rfl; simp [Command.ofChar] at hop
  have l0 : load b 0 = .ok op := load_of_getElem? h0
  have l1 : load b 1 = .ok k := load_of_getElem? h1
  have l2 : load b 2 = .ok v := load_of_getElem? h2
  simp only [parse, l0, ok_bind, if_neg hne, hop, l1, l2,
    slice_of_le (show 3 + k.toNat ≤ b.length by omega), slice_of_le hlen]

/-- The call of a GET or DELETE for a key. -/
def keyOp : Command → Bytes → Operation
  | .delete, key => .delete key
  | _, key => .get key

/-- A GET or DELETE reads the size of the key and the key. -/
theorem parse_key {c : Command} (hop : Command.ofChar op = some c) (hc : c ≠ .put)
    (h0 : b[0]? = some op) (h1 : b[1]? = some k) (hlen : 3 + k.toNat ≤ b.length) :
    parse b = .ok (.inr (keyOp c ((b.drop 3).take k.toNat))) := by
  have hne : op ≠ 0 := by rintro rfl; simp [Command.ofChar] at hop
  have l0 : load b 0 = .ok op := load_of_getElem? h0
  have l1 : load b 1 = .ok k := load_of_getElem? h1
  cases c with
  | put => exact absurd rfl hc
  | get => simp only [parse, l0, ok_bind, if_neg hne, hop, l1, slice_of_le hlen, keyOp]
  | delete => simp only [parse, l0, ok_bind, if_neg hne, hop, l1, slice_of_le hlen, keyOp]

/-- Any other first byte ends the reading. -/
theorem parse_other (hop : Command.ofChar op = none) (h0 : b[0]? = some op) :
    parse b = .ok (.inl (if op = 0 then .failed else .invalidOp)) := by
  have l0 : load b 0 = .ok op := load_of_getElem? h0
  by_cases h : op = 0
  · simp only [parse, l0, ok_bind, if_pos h]
  · simp only [parse, l0, ok_bind, if_neg h, hop]

theorem keyOp_inj {c : Command} {key key' : Bytes} (h : keyOp c key = keyOp c key') :
    key = key' := by
  cases c <;> simpa [keyOp] using h

/-- What `deliver` reads of a buffer lies in its first 513 bytes. -/
theorem parse_take (b : Bytes) (h : 513 ≤ b.length) :
    ∃ r, parse (b.take 513) = .ok r ∧ parse b = .ok r := by
  have hlen : (b.take 513).length = 513 := by rw [List.length_take]; omega
  have hsame : ∀ i < 513, (b.take 513)[i]? = b[i]? := fun i hi => List.getElem?_take_of_lt hi
  have hcut : ∀ off n, off + n ≤ 513 → ((b.take 513).drop off).take n = (b.drop off).take n := by
    intro off n hle
    rw [List.drop_take, List.take_take, Nat.min_eq_left (by omega)]
  have hbyte : ∀ i < 513, ∃ x, b[i]? = some x := fun i hi =>
    ⟨_, List.getElem?_eq_getElem (by omega)⟩
  obtain ⟨op, h0⟩ := hbyte 0 (by decide)
  obtain ⟨k, h1⟩ := hbyte 1 (by decide)
  obtain ⟨v, h2⟩ := hbyte 2 (by decide)
  have hk := k.toNat_lt
  have hv := v.toNat_lt
  have h0' := (hsame 0 (by decide)).trans h0
  have h1' := (hsame 1 (by decide)).trans h1
  have h2' := (hsame 2 (by decide)).trans h2
  cases hop : Command.ofChar op with
  | none => exact ⟨_, parse_other hop h0', parse_other hop h0⟩
  | some c =>
    by_cases hc : c = .put
    · subst hc
      refine ⟨_, parse_put hop h0' h1' h2' (by omega), ?_⟩
      rw [parse_put hop h0 h1 h2 (by omega), hcut 3 _ (by omega), hcut (3 + k.toNat) _ (by omega)]
    · refine ⟨_, parse_key hop hc h0' h1' (by omega), ?_⟩
      rw [parse_key hop hc h0 h1 (by omega), hcut 3 _ (by omega)]

/-- TOTAL: a slot has all that is read. -/
theorem parse_total (s : Slot) : ∃ r, parse s.bytes = .ok r := by
  have hfull : s.bytes.length = 1920 := s.full
  obtain ⟨r, -, hparse⟩ := parse_take s.bytes (by omega)
  exact ⟨r, hparse⟩

/-- The store after a call, or after none. -/
def after (db : LevelDb S) (store : S) : Option Operation → S
  | none => store
  | some op => (perform db store op).store

theorem deliver_of_parse (db : LevelDb S) (store : S) {r : ReturnCode ⊕ Operation}
    (h : parse b = .ok r) : ∃ reply, deliver db store (some b) = .ok reply ∧
      reply.op = r.getRight? ∧ reply.store = after db store r.getRight? := by
  rw [deliver, h, ok_bind]
  rcases r with code | op
  · exact ⟨_, rfl, rfl, rfl⟩
  · refine ⟨_, rfl, ?_, rfl⟩
    cases op <;> rfl

/-! ### Slots and batches -/

theorem Slot.length_receive (s : Slot) (d : Datagram) : (s.receive d).bytes.length = 1920 :=
  (s.receive d).full

/-- Whatever the two size bytes are, the slot holds what they announce. -/
theorem Slot.sizes_fit (s : Slot) (d : Datagram) (k v : UInt8) :
    3 + k.toNat + v.toNat ≤ (s.receive d).bytes.length := by
  have hk := k.toNat_lt
  have hv := v.toNat_lt
  rw [Slot.length_receive]
  omega

theorem Slot.size_fits (s : Slot) (d : Datagram) (k : UInt8) :
    3 + k.toNat ≤ (s.receive d).bytes.length :=
  (Nat.le_add_right _ _).trans (s.sizes_fit d k 0)

theorem Slot.getElem?_receive (s : Slot) (d : Datagram) {i : ℕ} {x : UInt8}
    (h : d.bytes[i]? = some x) : (s.receive d).bytes[i]? = some x :=
  (getElem?_overlay (List.getElem?_eq_some_iff.mp h).1 s.bytes).trans h

/-- `handle` makes the call that slot `i` asks for and leaves the bytes of the slots alone. -/
theorem handle_spec (db : LevelDb S) (st : State S) (n : ℕ) (ops : List (Option Operation))
    {i : Fin maxMsg} {q : ReturnCode ⊕ Operation} (h : parse (st.slots i).bytes = .ok q) :
    ∃ st' n', handle db (st, n, ops) i = .ok (st', n', ops ++ [q.getRight?]) ∧
      st'.store = after db st.store q.getRight? ∧
      ∀ j, (st'.slots j).bytes = (st.slots j).bytes := by
  obtain ⟨reply, hd, hop, hs⟩ := deliver_of_parse db st.store h
  refine ⟨{ st with
    store := reply.store
    slots := Function.update st.slots i { st.slots i with msgLen := 0 } },
    n + (st.slots i).msgLen, ?_, hs, ?_⟩
  · simp only [handle, hd, ok_bind, hop]
  · intro j
    by_cases hj : j = i
    · subst hj
      simp only [Function.update_self]
    · simp only [Function.update_of_ne hj]

theorem threadLoop_received {db : LevelDb S} {st st' st'' : State S} {d : Datagram}
    {ds : List Datagram} {rs : List Recv} {n : ℕ} {ops ops' : List (Option Operation)}
    (h : ((List.finRange maxMsg).take (Recv.datagrams (.received d ds)).length).foldlM (handle db)
      (recvmmsg st (Recv.datagrams (.received d ds)), 0, []) = .ok (st', n, ops))
    (h' : threadLoop db (count st' (Recv.datagrams (.received d ds)).length n) rs = .ok (st'', ops')) :
    threadLoop db st (.received d ds :: rs) = .ok (st'', ops ++ ops') := by
  simp only [threadLoop, h, ok_bind, h']

end Diversity.Leveldb
