import Diversity.Schemes.Fifo

/-! @src ring_buffer/ring_buffer.c | name:Ring buffer | scheme:fifo | family:container

    The ring buffer keeps `start`, `end` and `active` apart, so the full and the empty buffer, where
    `start == end`, are told apart by `active` alone. All three are `int`s and the two indices are
    taken modulo `size`, which is 0 in a buffer of size 0. `NewRingBuffer` allocates room for one
    pointer whatever `size` is; `asSlots` is the buffer with `ring` seen as an array of `size` slots,
    and on it every sequence of calls behaves like a list queue of capacity `max(size, 0)`.

        slots:  [ · · a b c · ]        start = 2, end = 5, active = 3, queue a, b, c
                [ e · · b c d ]        start = 3, end = 1, active = 4, queue b, c, d, e -/

namespace Diversity
open Schemes

/-- `struct ringbuf_t`; a pointer is `none` when it is NULL, `end_` is the field `end`. -/
structure RingBuf (P : Type) where
  ring : List (Option P)
  size : ℤ
  start : ℤ
  end_ : ℤ
  active : ℤ
  deriving DecidableEq, Repr

namespace RingBuf

variable {P : Type}

/-- `ERROR_BUFFER_FULL`. -/
def errorBufferFull : ℤ := 1

/-- `NewRingBuffer`: `malloc(sizeof(void*))` is one slot, of whatever the memory held. -/
def newRingBuffer (mem : ℕ → Option P) (size : ℤ) : RingBuf P :=
  { ring := (List.range 1).map mem, size, start := 0, end_ := 0, active := 0 }

/-- The buffer with `ring` viewed as an array of `size` slots. -/
def asSlots (mem : ℕ → Option P) (b : RingBuf P) : RingBuf P :=
  { b with ring := (List.range b.size.toNat).map mem }

/-- `PushToQueue`. -/
def pushToQueue (p : Option P) (b : RingBuf P) : C (RingBuf P × ℤ) :=
  if b.active < b.size then do
    let ring ← store b.ring b.end_ p
    let next ← addInt b.end_ 1
    let end_ ← modInt next b.size
    let active ← addInt b.active 1
    .ok ({ b with ring, end_, active }, 0)
  else .ok (b, errorBufferFull)

/-- `RetrieveFromQueue`. -/
def retrieveFromQueue (b : RingBuf P) : C (RingBuf P × Option P) :=
  if b.active = 0 then .ok (b, none)
  else do
    let p ← load b.ring b.start
    let next ← addInt b.start 1
    let start ← modInt next b.size
    let active ← addInt b.active (-1)
    .ok ({ b with start, active }, p)

/-- One turn of `PrintBuffer`'s loop: the pointers visited so far and the text printed for them. -/
def printSlot (int : P → ℤ) (b : RingBuf P) (out : List P × String) (i : ℕ) :
    C (List P × String) := do
  let sum ← addInt b.start i
  let idx ← modInt sum b.size
  match ← load b.ring idx with
  | none => .error .nullDeref
  | some p => .ok (out.1 ++ [p], out.2 ++ " " ++ toString (int p))

/-- `PrintBuffer`: the pointers it visits and what it prints; `int p` is `*(int *)p`. -/
def printBuffer (int : P → ℤ) (b : RingBuf P) : C (List P × String) := do
  let out ← (List.range b.active.toNat).foldlM (printSlot int b) ([], "")
  .ok (out.1, out.2 ++ "\n")

/-- The calls a client makes; only pointers that are not NULL are pushed. -/
inductive Call (P : Type) where
  | push (p : P)
  | retrieve

/-- What a call returns. -/
inductive Result (P : Type) where
  | code (c : ℤ)
  | pointer (p : Option P)
  deriving DecidableEq, Repr

def call (b : RingBuf P) : Call P → C (RingBuf P × Result P)
  | .push p => do
    let (b, c) ← pushToQueue (some p) b
    .ok (b, .code c)
  | .retrieve => do
    let (b, p) ← retrieveFromQueue b
    .ok (b, .pointer p)

/-- The same call on a list queue. -/
def queueCall {cap : ℕ} (q : Fifo P cap) : Call P → Fifo P cap × Result P
  | .push p => ((q.offer p).1, .code (if (q.offer p).2 then 0 else errorBufferFull))
  | .retrieve => (q.take.1, .pointer q.take.2)

/-! ### The buffer holds a queue -/

/-- `b` is a buffer of `size` slots that holds `q`, the oldest pointer at slot `s`. -/
structure Holds (size : ℤ) (b : RingBuf P) (s : ℕ) (q : List P) : Prop where
  size_eq : b.size = size
  slots : b.ring.length = size.toNat
  active_eq : b.active = q.length
  fits : q.length ≤ size.toNat
  start_eq : b.start = s
  start_lt : 0 < size.toNat → s < size.toNat
  end_eq : b.end_ = ((s + q.length) % size.toNat : ℕ)
  laid : Laid b.ring s (q.map some)

theorem asSlots_holds (mem : ℕ → Option P) (size : ℤ) :
    Holds size (asSlots mem (newRingBuffer mem size)) 0 [] where
  size_eq := rfl
  slots := by simp [asSlots, newRingBuffer]
  active_eq := rfl
  fits := Nat.zero_le _
  start_eq := rfl
  start_lt := id
  end_eq := by simp [asSlots, newRingBuffer]
  laid := laid_nil _ _

variable {size : ℤ} {b : RingBuf P} {s : ℕ} {q : List P}

/-- Stepping an index that is in the buffer neither overflows nor leaves it. -/
theorem step_index (hsize : IsInt size) {i : ℕ} (hi : i < size.toNat) :
    addInt i 1 = .ok ((i + 1 : ℕ) : ℤ) ∧
      modInt ((i + 1 : ℕ) : ℤ) size = .ok (((i + 1) % size.toNat : ℕ) : ℤ) := by
  obtain ⟨-, hmax⟩ := hsize
  have hcap : size = (size.toNat : ℤ) := by omega
  constructor
  · exact addInt_of_isInt ⟨by omega, by omega⟩
  · rw [hcap]
    exact modInt_natCast (i + 1) (by omega)

theorem push_room (hsize : IsInt size) (h : Holds size b s q) (hroom : (q.length : ℤ) < size)
    (p : P) : ∃ b', pushToQueue (some p) b = .ok (b', 0) ∧ Holds size b' s (q ++ [p]) := by
  have hpos : 0 < size.toNat := by omega
  have hlen : q.length < size.toNat := by omega
  have hend : (s + q.length) % size.toNat < size.toNat := Nat.mod_lt _ hpos
  obtain ⟨hadd, hmod⟩ := step_index hsize hend
  have hact : addInt (q.length : ℤ) 1 = .ok ((q.length + 1 : ℕ) : ℤ) := (step_index hsize hlen).1
  refine ⟨{ b with
    ring := b.ring.set ((s + q.length) % size.toNat) (some p)
    end_ := (((s + q.length) % size.toNat + 1) % size.toNat : ℕ)
    active := (q.length + 1 : ℕ) }, ?_, ?_⟩
  · rw [pushToQueue, h.size_eq, h.active_eq, if_pos hroom, h.end_eq,
      store_of_lt (by rw [h.slots]; exact hend), ok_bind, hadd, ok_bind, hmod, ok_bind, hact, ok_bind]
  · refine ⟨h.size_eq, by simp [h.slots], by simp, by simpa using hlen, h.start_eq, h.start_lt, ?_, ?_⟩
    · simp [Nat.add_assoc]
    · have hl := h.laid.append (by simp [h.slots, hlen]) (some p)
      simpa [h.slots] using hl

theorem push_full (h : Holds size b s q) (hfull : ¬ (q.length : ℤ) < size) (p : P) :
    pushToQueue (some p) b = .ok (b, errorBufferFull) := by
  rw [pushToQueue, h.size_eq, h.active_eq, if_neg hfull]

theorem retrieve_nil (h : Holds size b s []) : retrieveFromQueue b = .ok (b, none) := by
  rw [retrieveFromQueue, h.active_eq, if_pos (by simp)]

theorem retrieve_cons {p : P} (hsize : IsInt size) (h : Holds size b s (p :: q)) :
    ∃ b' s', retrieveFromQueue b = .ok (b', some p) ∧ Holds size b' s' q := by
  have hfits : q.length < size.toNat := h.fits
  have hs : s < size.toNat := h.start_lt (by omega)
  obtain ⟨hadd, hmod⟩ := step_index hsize hs
  have hact : addInt ((p :: q).length : ℤ) (-1) = .ok (q.length : ℤ) := by
    obtain ⟨-, hmax⟩ := hsize
    rw [List.length_cons, addInt_of_isInt ⟨by omega, by omega⟩]
    simp
  have hhead : b.ring[s]? = some (some p) := h.laid.head (by rw [h.slots]; exact hs)
  refine ⟨{ b with start := ((s + 1) % size.toNat : ℕ), active := (q.length : ℤ) },
    (s + 1) % size.toNat, ?_, ?_⟩
  · rw [retrieveFromQueue, h.active_eq, if_neg (by simp; omega), h.start_eq,
      load_of_getElem? hhead, ok_bind, hadd, ok_bind, h.size_eq, hmod, ok_bind, hact, ok_bind]
  · refine ⟨h.size_eq, h.slots, rfl, hfits.le, rfl, fun hpos => Nat.mod_lt _ hpos, ?_, ?_⟩
    · rw [Nat.mod_add_mod, h.end_eq, List.length_cons, Nat.add_assoc, Nat.add_comm 1 q.length]
    · have hl := Laid.tail h.laid
      rwa [h.slots] at hl

/-- REFINE: a call on the buffer is the call on the queue. -/
theorem call_refines (hsize : IsInt size) (b : RingBuf P) (q : Fifo P size.toNat) (c : Call P)
    (h : ∃ s, Holds size b s q.items) :
    ∃ b', call b c = .ok (b', (queueCall q c).2) ∧ ∃ s, Holds size b' s (queueCall q c).1.items := by
  obtain ⟨s, h⟩ := h
  cases c with
  | push p =>
    rcases Nat.lt_or_ge q.items.length size.toNat with hroom | hfull
    · obtain ⟨hitems, hflag⟩ := Fifo.offer_room hroom p
      obtain ⟨b', hpush, h'⟩ := push_room hsize h (by omega) p
      refine ⟨b', ?_, s, ?_⟩
      · rw [call, hpush, ok_bind, queueCall, hflag, if_pos rfl]
      · rw [queueCall, hitems]
        exact h'
    · have hoffer := Fifo.offer_full (Nat.not_lt.mpr hfull) p
      refine ⟨b, ?_, s, ?_⟩
      · rw [call, push_full h (by omega), ok_bind, queueCall, hoffer]
        rfl
      · rw [queueCall, hoffer]
        exact h
  | retrieve =>
    rcases q with ⟨_ | ⟨p, ps⟩, hfits⟩
    · refine ⟨b, ?_, s, h⟩
      rw [call, retrieve_nil h, ok_bind]
      rfl
    · obtain ⟨b', s', hret, h'⟩ := retrieve_cons hsize h
      refine ⟨b', ?_, s', h'⟩
      rw [call, hret, ok_bind]
      rfl

/-! ### `PrintBuffer` -/

/-- The text of the line that lists `ps`. -/
def lineText (int : P → ℤ) (ps : List P) : String :=
  ps.foldl (fun out p => out ++ " " ++ toString (int p)) ""

/-- Up to 2^30 the sum `start + i` stays an `int`, and the visited slots hold the queue in order. -/
theorem printBuffer_holds (int : P → ℤ) (h : Holds size b s q) (hsize : size ≤ 2 ^ 30) :
    printBuffer int b = .ok (q, lineText int q ++ "\n") := by
  have hstep : ∀ i out, i < q.length →
      out = (q.take i, lineText int (q.take i)) →
      ∃ out', printSlot int b out i = .ok out' ∧
        out' = (q.take (i + 1), lineText int (q.take (i + 1))) := by
    rintro i - hi rfl
    have hpos : 0 < size.toNat := by have := h.fits; omega
    have hs := h.start_lt hpos
    have hadd : addInt (s : ℤ) (i : ℤ) = .ok ((s + i : ℕ) : ℤ) := by
      have := h.fits
      rw [addInt_of_isInt ⟨by omega, by omega⟩, Nat.cast_add]
    have hmod : modInt ((s + i : ℕ) : ℤ) size = .ok (((s + i) % size.toNat : ℕ) : ℤ) := by
      have hcap : size = (size.toNat : ℤ) := by omega
      conv_lhs => rw [hcap]
      exact modInt_natCast (s + i) hpos
    have hslot : b.ring[(s + i) % size.toNat]? = some (some q[i]) := by
      have := h.laid i (some q[i]) (by simp [hi])
      rwa [h.slots] at this
    refine ⟨_, ?_, rfl⟩
    simp only [printSlot, h.start_eq, hadd, ok_bind, h.size_eq, hmod, load_of_getElem? hslot,
      List.take_succ_eq_append_getElem hi, lineText, List.foldl_append, List.foldl_cons,
      List.foldl_nil]
  obtain ⟨out, hrun, rfl⟩ := foldlM_range_total (I := fun i out =>
    out = (q.take i, lineText int (q.take i))) q.length ([], "") (by simp [lineText]) hstep
  rw [printBuffer, h.active_eq, Int.toNat_natCast, hrun, ok_bind, List.take_length]

/-! ### Whole runs -/

/-- CORRECT: for every `size` and every sequence of calls the buffer, seen as `size` slots, answers
    like a list queue of capacity `max(size, 0)` and never faults: no slot outside the array, no
    modulo by zero. In every state so reached a push succeeds exactly below `size` and is without
    effect otherwise, a retrieve gives NULL exactly when the queue is empty, and up to 2^30
    `PrintBuffer` visits the queue, oldest first. -/
theorem ringBuffer_fifo (size : ℤ) (hsize : IsInt size) (mem : ℕ → Option P) (calls : List (Call P))
    (int : P → ℤ) :
    ∃ b, runOps call (asSlots mem (newRingBuffer mem size)) calls =
        .ok (b, (specOps queueCall (Fifo.empty : Fifo P size.toNat) calls).2) ∧
      ∃ q, q = (specOps queueCall (Fifo.empty : Fifo P size.toNat) calls).1.items ∧
        b.ring.length = size.toNat ∧ b.active = q.length ∧
        (∀ p, ((q.length : ℤ) < size → ∃ b', pushToQueue (some p) b = .ok (b', 0)) ∧
          (¬ (q.length : ℤ) < size → pushToQueue (some p) b = .ok (b, errorBufferFull))) ∧
        (∃ b', retrieveFromQueue b = .ok (b', q.head?)) ∧
        (size ≤ 2 ^ 30 → printBuffer int b = .ok (q, lineText int q ++ "\n")) := by
  obtain ⟨b, hrun, s, h⟩ := runOps_refines (R := fun b (q : Fifo P size.toNat) =>
    ∃ s, Holds size b s q.items) (call_refines hsize) calls (asSlots mem (newRingBuffer mem size))
      Fifo.empty ⟨0, asSlots_holds mem size⟩
  refine ⟨b, hrun, _, rfl, h.slots, h.active_eq, ?_, ?_, printBuffer_holds int h⟩
  · intro p
    refine ⟨fun hroom => ?_, fun hfull => push_full h hfull p⟩
    obtain ⟨b', hpush, -⟩ := push_room hsize h hroom p
    exact ⟨b', hpush⟩
  · generalize (specOps queueCall (Fifo.empty : Fifo P size.toNat) calls).1.items = q at h
    cases q with
    | nil => exact ⟨b, retrieve_nil h⟩
    | cons p q =>
      obtain ⟨b', s', hret, -⟩ := retrieve_cons hsize h
      exact ⟨b', hret⟩

/-- The calls of `test_ringbuf_int`, on a buffer of seven: `&array[i]` is `i`, the eighth push and
    the one after it find the buffer full. -/
theorem ringBuffer_fifo_test : ∃ b,
    runOps call (asSlots (fun _ => none) (newRingBuffer (fun _ => none) 7))
      ([0, 1, 2, 3, 4, 5, 6, 7].map .push ++
        [.push 3, .retrieve, .push 3, .retrieve, .push (7 : ℕ)]) =
      .ok (b, List.replicate 7 (.code 0) ++ [.code 1, .code 1, .pointer (some 0), .code 0,
        .pointer (some 1), .code 0]) ∧
    ∃ line, printBuffer (fun i => (i : ℤ) + 1) b = .ok ([2, 3, 4, 5, 6, 3, 7], line) := by
  obtain ⟨b, hrun, q, rfl, -, -, -, -, hprint⟩ := ringBuffer_fifo 7 (by decide) (fun _ => none)
    ([0, 1, 2, 3, 4, 5, 6, 7].map .push ++ [.push 3, .retrieve, .push 3, .retrieve, .push (7 : ℕ)])
    (fun i => (i : ℤ) + 1)
  exact ⟨b, hrun, _, hprint (by decide)⟩

end RingBuf

end Diversity
