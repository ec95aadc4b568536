import Diversity.Schemes.Machine

/-! @src c++/src/graph.cpp (class Queue) | name:Queue | scheme:machine | family:container

    The array queue of `int`s behind the breadth-first search. The oldest value is always in cell 0:
    `dequeue` moves every later cell one down. The field `head` of the source is never read or
    written and is left out. As for the stack, `Holds q cap xs` says which list a queue holds,
    oldest first, and each operation has one lemma for each outcome. -/

namespace Diversity
open Schemes

/-- The fields of `class Queue`; `queue` is the block `new int[cap]`. -/
structure Queue where
  tail : ℤ
  queue : List ℤ
  capacity : ℤ
  deriving DecidableEq, Repr

namespace Queue

/-- What the operations print on `cout`. -/
inductive Msg where
  | full | empty
  deriving DecidableEq, Repr

/-- The text of a message. -/
def Msg.text : Msg → String
  | .full => "queue is full\n"
  | .empty => "queue is empty\n"

/-- `Queue(int cap)`. -/
def new (mem : ℕ → ℤ) (cap : ℤ) : C Queue := do
  let queue ← newArray mem cap
  .ok { tail := -1, queue, capacity := cap }

def isFull (q : Queue) : Bool := q.tail = q.capacity - 1

def isEmpty (q : Queue) : Bool := q.tail = -1

def enqueue (q : Queue) (value : ℤ) : C (Queue × List Msg) :=
  if isFull q then .ok (q, [.full])
  else do
    let tail := q.tail + 1
    let queue ← store q.queue tail value
    .ok ({ q with tail, queue }, [])

/-- One turn of `dequeue`'s loop: `queue[i] = queue[i+1]`. -/
def shiftCell (cells : List ℤ) (i : ℕ) : C (List ℤ) := do
  let v ← load cells (i + 1)
  store cells i v

def dequeue (q : Queue) : C (Queue × ℤ × List Msg) :=
  if isEmpty q then .ok (q, -1, [.empty])
  else do
    let ret ← load q.queue 0
    let queue ← (List.range q.tail.toNat).foldlM shiftCell q.queue
    .ok ({ q with tail := q.tail - 1, queue }, ret, [])

def peek (q : Queue) : C ℤ := load q.queue 0

/-! ### The list a queue holds -/

/-- `q` is a queue of capacity `cap` that holds `xs`, its oldest first. -/
structure Holds (q : Queue) (cap : ℕ) (xs : List ℤ) : Prop where
  capacity : q.capacity = cap
  size : q.queue.length = cap
  tail : q.tail = xs.length - 1
  cells : q.queue.take xs.length = xs

variable {q : Queue} {cap : ℕ} {xs : List ℤ} {x : ℤ}

theorem Holds.fits (h : Holds q cap xs) : xs.length ≤ cap := by
  have hl := congrArg List.length h.cells
  rw [List.length_take, h.size] at hl
  omega

theorem Holds.cell (h : Holds q cap xs) {i : ℕ} (hi : i < xs.length) : q.queue[i]? = xs[i]? := by
  have hc := congrArg (·[i]?) h.cells
  simpa [List.getElem?_take, hi] using hc

theorem new_holds (mem : ℕ → ℤ) (cap : ℕ) : ∃ q, new mem cap = .ok q ∧ Holds q cap [] := by
  refine ⟨⟨-1, (List.range cap).map mem, cap⟩, ?_, ⟨rfl, by simp, rfl, rfl⟩⟩
  rw [new, newArray_natCast, ok_bind]

theorem isEmpty_iff (h : Holds q cap xs) : isEmpty q = true ↔ xs = [] := by
  rw [isEmpty, decide_eq_true_iff, h.tail, ← List.length_eq_zero_iff]
  omega

theorem isFull_iff (h : Holds q cap xs) : isFull q = true ↔ xs.length = cap := by
  rw [isFull, decide_eq_true_iff, h.tail, h.capacity]
  omega

theorem enqueue_room (h : Holds q cap xs) (hroom : xs.length < cap) (x : ℤ) :
    ∃ q', enqueue q x = .ok (q', []) ∧ Holds q' cap (xs ++ [x]) := by
  have htail : q.tail + 1 = (xs.length : ℕ) := by rw [h.tail]; omega
  have hlt : xs.length < q.queue.length := by rw [h.size]; exact hroom
  have hfull : ¬ isFull q = true := by rw [isFull_iff h]; omega
  refine ⟨{ q with tail := xs.length, queue := q.queue.set xs.length x }, ?_, ?_⟩
  · rw [enqueue, if_neg hfull]
    simp only [htail, store_of_lt hlt, ok_bind]
  · refine ⟨h.capacity, by simp [h.size], by simp, ?_⟩
    rw [List.length_append, List.length_singleton, List.take_add_one, List.take_set_of_le le_rfl,
      List.getElem?_set_self hlt, Option.toList_some, h.cells]

theorem enqueue_full (h : Holds q cap xs) (hfull : xs.length = cap) (x : ℤ) :
    enqueue q x = .ok (q, [.full]) := by
  rw [enqueue, if_pos ((isFull_iff h).mpr hfull)]

theorem peek_cons (h : Holds q cap (x :: xs)) : peek q = .ok x :=
  load_of_getElem? (i := 0) (h.cell (by simp))

/-- `cells` after `i` turns of the shift of `old`: the first `i` have moved down, to hold the
    beginning of `xs`, and the rest is as it was. -/
structure Shifted (old xs : List ℤ) (i : ℕ) (cells : List ℤ) : Prop where
  size : cells.length = old.length
  moved : cells.take i = xs.take i
  rest : ∀ j, i ≤ j → cells[j]? = old[j]?

theorem shiftCell_step (h : Holds q cap (x :: xs)) {i : ℕ} {cells : List ℤ} (hi : i < xs.length)
    (hs : Shifted q.queue xs i cells) :
    ∃ cells', shiftCell cells i = .ok cells' ∧ Shifted q.queue xs (i + 1) cells' := by
  have hsrc : cells[i + 1]? = some (xs.get ⟨i, hi⟩) := by
    rw [hs.rest _ (Nat.le_succ i), h.cell (by simpa using hi)]
    simp [hi]
  have hdst : i < cells.length := by
    have := h.fits
    rw [List.length_cons] at this
    rw [hs.size, h.size]
    omega
  refine ⟨cells.set i (xs.get ⟨i, hi⟩), ?_, ?_, ?_, ?_⟩
  · have hload : load cells ((i : ℤ) + 1) = .ok (xs.get ⟨i, hi⟩) := load_of_getElem? (i := i + 1) hsrc
    rw [shiftCell, hload, ok_bind, store_of_lt hdst]
  · rw [List.length_set, hs.size]
  · rw [List.take_add_one, List.take_set_of_le le_rfl, List.getElem?_set_self hdst, hs.moved,
      List.take_add_one]
    simp [hi]
  · intro j hj
    rw [List.getElem?_set_ne (by omega), hs.rest j (by omega)]

theorem shift_holds (h : Holds q cap (x :: xs)) :
    ∃ cells, (List.range xs.length).foldlM shiftCell q.queue = .ok cells ∧
      Shifted q.queue xs xs.length cells :=
  foldlM_range_total xs.length q.queue ⟨rfl, by simp, fun _ _ => rfl⟩
    (fun _ _ hi hs => shiftCell_step h hi hs)

theorem dequeue_cons (h : Holds q cap (x :: xs)) :
    ∃ q', dequeue q = .ok (q', x, []) ∧ Holds q' cap xs := by
  have htail : q.tail = (xs.length : ℕ) := by rw [h.tail, List.length_cons]; omega
  have hne : ¬ isEmpty q = true := by rw [isEmpty_iff h]; simp
  have hhead : load q.queue 0 = .ok x := peek_cons h
  obtain ⟨cells, hrun, hs⟩ := shift_holds h
  refine ⟨{ q with tail := q.tail - 1, queue := cells }, ?_, h.capacity, ?_, by rw [htail], ?_⟩
  · rw [dequeue, if_neg hne, hhead, ok_bind, htail, Int.toNat_natCast, hrun, ok_bind]
  · exact hs.size.trans h.size
  · exact hs.moved.trans List.take_length

theorem dequeue_nil (h : Holds q cap []) : dequeue q = .ok (q, -1, [.empty]) := by
  rw [dequeue, if_pos ((isEmpty_iff h).mpr rfl)]

end Queue

end Diversity
