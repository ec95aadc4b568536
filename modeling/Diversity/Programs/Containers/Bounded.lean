import Diversity.Schemes.Fifo
import Diversity.Programs.Containers.Stack
import Diversity.Programs.Containers.Queue

/-! @src c++/src/stack.cpp, c++/src/graph.cpp (class Queue) | name:Stack and Queue as bounded lists |
    scheme:fifo | family:container

    Sequences of calls on a `Stack` and on a `Queue`, against a list of bounded length: the stack puts
    and takes at its front, the queue takes at its front and puts at its end. What a call returns and
    what it prints are its answer. `peek` does not check that there is something to see, so only calls
    of it on a container with an element are compared. As every access to the array is checked, a
    sequence that has answers used no index outside `[0, cap)`.

        Stack(2):   push 1, push 2, push 3, pop      full on the third, then 2
        Queue(2):   enqueue 1, enqueue 2, dequeue    1, with 2 moved to cell 0          -/

namespace Diversity
open Schemes

/-! ### The stack -/

namespace Stack

/-- A call on a stack. -/
inductive Op where
  | push (value : ℤ)
  | pop
  | peek
  | isEmpty
  | display
  deriving DecidableEq, Repr

/-- What a call returns and prints. -/
inductive Answer where
  | void (printed : List Msg)
  | value (v : ℤ) (printed : List Msg)
  | flag (b : Bool)
  | text (out : String)
  deriving DecidableEq, Repr

def call (s : Stack) : Op → C (Stack × Answer)
  | .push value => do
    let (s, msgs) ← push s value
    .ok (s, .void msgs)
  | .pop => do
    let (s, v, msgs) ← pop s
    .ok (s, .value v msgs)
  | .peek => do
    let v ← peek s
    .ok (s, .value v [])
  | .isEmpty => .ok (s, .flag (isEmpty s))
  | .display => do
    let out ← display s
    .ok (s, .text out)

/-- The same call on a list; `peek` is meant for a list that is not empty. -/
def listCall {cap : ℕ} (s : Lifo ℤ cap) : Op → Lifo ℤ cap × Answer
  | .push value => ((s.push value).1, .void (if (s.push value).2 then [] else [.full]))
  | .pop => (s.pop.1, s.pop.2.elim (.value (-1) [.empty]) fun v => .value v [])
  | .peek => (s, .value (s.items.headD 0) [])
  | .isEmpty => (s, .flag s.items.isEmpty)
  | .display => (s, .text (cellsText s.items.reverse ++ "\n"))

/-- `peek` is called only where there is an element. -/
def Sees {cap : ℕ} (s : Lifo ℤ cap) (op : Op) : Prop := op = .peek → s.items ≠ []

/-- STEP: a call on a stack that holds a list is the call on the list. -/
theorem call_refines {cap : ℕ} (s : Stack) (l : Lifo ℤ cap) (op : Op) (h : Holds s cap l.items)
    (hsees : Sees l op) :
    ∃ s', call s op = .ok (s', (listCall l op).2) ∧ Holds s' cap (listCall l op).1.items := by
  cases op with
  | push value =>
    rcases Nat.lt_or_ge l.items.length cap with hroom | hfull
    · obtain ⟨hitems, hflag⟩ := Lifo.push_room hroom value
      obtain ⟨s', hpush, h', -⟩ := push_room h hroom value
      refine ⟨s', ?_, ?_⟩
      · rw [call, hpush, ok_bind, listCall, hflag, if_pos rfl]
      · rw [listCall, hitems]
        exact h'
    · have hlist := Lifo.push_full (Nat.not_lt.mpr hfull) value
      refine ⟨s, ?_, ?_⟩
      · rw [call, push_full h (le_antisymm h.fits hfull), ok_bind, listCall, hlist]
        rfl
      · rw [listCall, hlist]
        exact h
  | pop =>
    rcases l with ⟨_ | ⟨x, xs⟩, hfits⟩
    · refine ⟨s, ?_, h⟩
      rw [call, pop_nil h, ok_bind]
      rfl
    · obtain ⟨s', hpop, h', -⟩ := pop_cons h
      refine ⟨s', ?_, h'⟩
      rw [call, hpop, ok_bind]
      rfl
  | peek =>
    rcases l with ⟨_ | ⟨x, xs⟩, hfits⟩
    · exact absurd rfl (hsees rfl)
    · refine ⟨s, ?_, h⟩
      rw [call, peek_cons h, ok_bind]
      rfl
  | isEmpty =>
    refine ⟨s, ?_, h⟩
    have hflag : isEmpty s = l.items.isEmpty := by
      rw [Bool.eq_iff_iff, isEmpty_iff h, List.isEmpty_iff]
    rw [call, listCall, hflag]
  | display =>
    refine ⟨s, ?_, h⟩
    rw [call, display_holds h, ok_bind, listCall]

/-- REFINE: every sequence of calls on a stack that holds a list. -/
theorem calls_refine {cap : ℕ} {s : Stack} {l : Lifo ℤ cap} (h : Holds s cap l.items) (ops : List Op)
    (hsees : Allowed Sees listCall l ops) :
    ∃ s', runOps call s ops = .ok (s', (specOps listCall l ops).2) ∧
      Holds s' cap (specOps listCall l ops).1.items :=
  runOps_refines_allowed (R := fun s (l : Lifo ℤ cap) => Holds s cap l.items) call_refines ops s l h
    hsees

theorem answers_refine {cap : ℕ} {s : Stack} {l : Lifo ℤ cap} (h : Holds s cap l.items)
    (ops : List Op) (hsees : Allowed Sees listCall l ops) :
    answers call s ops = .ok (specOps listCall l ops).2 := by
  obtain ⟨s', hrun, -⟩ := calls_refine h ops hsees
  exact answers_of_runOps hrun

end Stack

/-! ### The queue -/

namespace Queue

/-- A call on a queue. -/
inductive Op where
  | enqueue (value : ℤ)
  | dequeue
  | peek
  | isFull
  | isEmpty
  deriving DecidableEq, Repr

/-- What a call returns and prints. -/
inductive Answer where
  | void (printed : List Msg)
  | value (v : ℤ) (printed : List Msg)
  | flag (b : Bool)
  deriving DecidableEq, Repr

def call (q : Queue) : Op → C (Queue × Answer)
  | .enqueue value => do
    let (q, msgs) ← enqueue q value
    .ok (q, .void msgs)
  | .dequeue => do
    let (q, v, msgs) ← dequeue q
    .ok (q, .value v msgs)
  | .peek => do
    let v ← peek q
    .ok (q, .value v [])
  | .isFull => .ok (q, .flag (isFull q))
  | .isEmpty => .ok (q, .flag (isEmpty q))

/-- The same call on a list; `peek` is meant for a list that is not empty. -/
def listCall {cap : ℕ} (q : Fifo ℤ cap) : Op → Fifo ℤ cap × Answer
  | .enqueue value => ((q.offer value).1, .void (if (q.offer value).2 then [] else [.full]))
  | .dequeue => (q.take.1, q.take.2.elim (.value (-1) [.empty]) fun v => .value v [])
  | .peek => (q, .value (q.items.headD 0) [])
  | .isFull => (q, .flag (q.items.length = cap))
  | .isEmpty => (q, .flag q.items.isEmpty)

/-- `peek` is called only where there is an element. -/
def Sees {cap : ℕ} (q : Fifo ℤ cap) (op : Op) : Prop := op = .peek → q.items ≠ []

/-- STEP: a call on a queue that holds a list is the call on the list. -/
theorem call_refines {cap : ℕ} (q : Queue) (l : Fifo ℤ cap) (op : Op) (h : Holds q cap l.items)
    (hsees : Sees l op) :
    ∃ q', call q op = .ok (q', (listCall l op).2) ∧ Holds q' cap (listCall l op).1.items := by
  cases op with
  | enqueue value =>
    rcases Nat.lt_or_ge l.items.length cap with hroom | hfull
    · obtain ⟨hitems, hflag⟩ := Fifo.offer_room hroom value
      obtain ⟨q', hadd, h'⟩ := enqueue_room h hroom value
      refine ⟨q', ?_, ?_⟩
      · rw [call, hadd, ok_bind, listCall, hflag, if_pos rfl]
      · rw [listCall, hitems]
        exact h'
    · have hlist := Fifo.offer_full (Nat.not_lt.mpr hfull) value
      refine ⟨q, ?_, ?_⟩
      · rw [call, enqueue_full h (le_antisymm h.fits hfull), ok_bind, listCall, hlist]
        rfl
      · rw [listCall, hlist]
        exact h
  | dequeue =>
    rcases l with ⟨_ | ⟨x, xs⟩, hfits⟩
    · refine ⟨q, ?_, h⟩
      rw [call, dequeue_nil h, ok_bind]
      rfl
    · obtain ⟨q', htake, h'⟩ := dequeue_cons h
      refine ⟨q', ?_, h'⟩
      rw [call, htake, ok_bind]
      rfl
  | peek =>
    rcases l with ⟨_ | ⟨x, xs⟩, hfits⟩
    · exact absurd rfl (hsees rfl)
    · refine ⟨q, ?_, h⟩
      rw [call, peek_cons h, ok_bind]
      rfl
  | isFull =>
    refine ⟨q, ?_, h⟩
    have hflag : isFull q = decide (l.items.length = cap) := by
      rw [Bool.eq_iff_iff, isFull_iff h, decide_eq_true_iff]
    rw [call, listCall, hflag]
  | isEmpty =>
    refine ⟨q, ?_, h⟩
    have hflag : isEmpty q = l.items.isEmpty := by
      rw [Bool.eq_iff_iff, isEmpty_iff h, List.isEmpty_iff]
    rw [call, listCall, hflag]

/-- REFINE: every sequence of calls on a queue that holds a list. -/
theorem calls_refine {cap : ℕ} {q : Queue} {l : Fifo ℤ cap} (h : Holds q cap l.items) (ops : List Op)
    (hsees : Allowed Sees listCall l ops) :
    ∃ q', runOps call q ops = .ok (q', (specOps listCall l ops).2) ∧
      Holds q' cap (specOps listCall l ops).1.items :=
  runOps_refines_allowed (R := fun q (l : Fifo ℤ cap) => Holds q cap l.items) call_refines ops q l h
    hsees

theorem answers_refine {cap : ℕ} {q : Queue} {l : Fifo ℤ cap} (h : Holds q cap l.items)
    (ops : List Op) (hsees : Allowed Sees listCall l ops) :
    answers call q ops = .ok (specOps listCall l ops).2 := by
  obtain ⟨q', hrun, -⟩ := calls_refine h ops hsees
  exact answers_of_runOps hrun

end Queue

/-! ### Both from their constructors -/

/-- CORRECT: for every capacity and every sequence of calls, in which `peek` finds an element, a
    `Stack(cap)` answers like a list of at most `cap` elements that puts and takes at its front, and a
    `Queue(cap)` like one that takes at its front and puts at its end: a full one refuses and an empty
    one returns -1, and neither changes. No access leaves the array, which has `cap` cells to the end
    and holds the list. -/
theorem containers_refine (cap : ℕ) (mem : ℕ → ℤ) :
    (∀ (id : ℤ) (ops : List Stack.Op),
      Allowed Stack.Sees Stack.listCall (Lifo.empty : Lifo ℤ cap) ops →
      ∃ s s', Stack.new mem id cap = .ok s ∧
        runOps Stack.call s ops =
          .ok (s', (specOps Stack.listCall (Lifo.empty : Lifo ℤ cap) ops).2) ∧
        s.stack.length = cap ∧
        s'.Holds cap (specOps Stack.listCall (Lifo.empty : Lifo ℤ cap) ops).1.items) ∧
    ∀ ops : List Queue.Op, Allowed Queue.Sees Queue.listCall (Fifo.empty : Fifo ℤ cap) ops →
      ∃ q q', Queue.new mem cap = .ok q ∧
        runOps Queue.call q ops =
          .ok (q', (specOps Queue.listCall (Fifo.empty : Fifo ℤ cap) ops).2) ∧
        q.queue.length = cap ∧
        q'.Holds cap (specOps Queue.listCall (Fifo.empty : Fifo ℤ cap) ops).1.items := by
  constructor
  · intro id ops hsees
    obtain ⟨s, hnew, h, -⟩ := Stack.newWithId_holds mem cap id
    obtain ⟨s', hrun, h'⟩ := Stack.calls_refine (l := Lifo.empty) h ops hsees
    exact ⟨s, s', hnew, hrun, h.size, h'⟩
  · intro ops hsees
    obtain ⟨q, hnew, h⟩ := Queue.new_holds mem cap
    obtain ⟨q', hrun, h'⟩ := Queue.calls_refine (l := Fifo.empty) h ops hsees
    exact ⟨q, q', hnew, hrun, h.size, h'⟩

/-- Two cells, on memory that held 7: the third element is refused, and the last element is taken
    out before the container says that it is empty. -/
theorem containers_refine_two :
    (∃ s s', Stack.new (fun _ => 7) 0 2 = .ok s ∧
      runOps Stack.call s [.isEmpty, .push 1, .push 2, .push 3, .peek, .pop, .pop, .pop] =
        .ok (s', [.flag true, .void [], .void [], .void [.full], .value 2 [], .value 2 [], .value 1 [],
          .value (-1) [.empty]])) ∧
    ∃ q q', Queue.new (fun _ => 7) 2 = .ok q ∧
      runOps Queue.call q [.enqueue 1, .enqueue 2, .isFull, .enqueue 3, .peek, .dequeue, .peek,
          .dequeue, .dequeue] =
        .ok (q', [.void [], .void [], .flag true, .void [.full], .value 1 [], .value 1 [], .value 2 [],
          .value 2 [], .value (-1) [.empty]]) := by
  obtain ⟨hstack, hqueue⟩ := containers_refine 2 fun _ => 7
  constructor
  · obtain ⟨s, s', hnew, hrun, -, -⟩ := hstack 0
      [.isEmpty, .push 1, .push 2, .push 3, .peek, .pop, .pop, .pop]
      (by simp [Allowed, Stack.Sees, Stack.listCall, Lifo.push, Lifo.empty])
    exact ⟨s, s', hnew, hrun⟩
  · obtain ⟨q, q', hnew, hrun, -, -⟩ := hqueue
      [.enqueue 1, .enqueue 2, .isFull, .enqueue 3, .peek, .dequeue, .peek, .dequeue, .dequeue]
      (by simp [Allowed, Queue.Sees, Queue.listCall, Fifo.offer, Fifo.empty, Fifo.take])
    exact ⟨q, q', hnew, hrun⟩

end Diversity
