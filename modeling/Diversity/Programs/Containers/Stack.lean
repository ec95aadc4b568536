import Diversity.Schemes.Machine

/-! @src c++/src/stack.cpp, c++/include/stack.h | name:Stack | scheme:machine | family:container

    The array stack of `int`s that the graph search and the tower of Hanoi share. A `push` on a full
    stack and a `pop` on an empty one print a message and change nothing, so a caller that ignores
    the message loses a value silently; every operation therefore returns the messages it printed.
    `Holds s cap xs` says that `s` holds the list `xs`, top first, and there is one lemma for each
    operation and each of its outcomes in those terms. -/

namespace Diversity
open Schemes

/-- The fields of `class Stack`; `stack` is the block `new int[cap]`. -/
structure Stack where
  top : ℤ
  capacity : ℤ
  stack : List ℤ
  id : ℤ
  deriving DecidableEq, Repr

namespace Stack

/-- What the operations print on `cout`. -/
inductive Msg where
  | full | empty
  deriving DecidableEq, Repr

/-- The text of a message. -/
def Msg.text : Msg → String
  | .full => "stack is full\n"
  | .empty => "stack is empty\n"

/-- `Stack(int cap, int stack_id)`. -/
def newWithId (mem : ℕ → ℤ) (cap stackId : ℤ) : C Stack := do
  let stack ← newArray mem cap
  .ok { top := -1, capacity := cap, stack, id := stackId }

/-- `Stack(int cap)`: the constructor leaves `id` as it finds it. -/
def new (mem : ℕ → ℤ) (id cap : ℤ) : C Stack := newWithId mem cap id

def push (s : Stack) (value : ℤ) : C (Stack × List Msg) :=
  if s.top = s.capacity - 1 then .ok (s, [.full])
  else do
    let top := s.top + 1
    let stack ← store s.stack top value
    .ok ({ s with top, stack }, [])

def pop (s : Stack) : C (Stack × ℤ × List Msg) :=
  if s.top < 0 then .ok (s, -1, [.empty])
  else do
    let value ← load s.stack s.top
    .ok ({ s with top := s.top - 1 }, value, [])

def peek (s : Stack) : C ℤ := load s.stack s.top

def isEmpty (s : Stack) : Bool := s.top = -1

/-- One turn of `display`'s loop: the cell and the bar after it. -/
def displayCell (s : Stack) (out : String) (i : ℕ) : C String := do
  let d ← load s.stack i
  .ok (out ++ toString d ++ " | ")

/-- `display()`: the cells up to the top, bottom first, then the line end. -/
def display (s : Stack) : C String :=
  if isEmpty s then .ok "\n"
  else do
    let out ← (List.range (s.top + 1).toNat).foldlM (displayCell s) ""
    .ok (out ++ "\n")

/-! ### The list a stack holds -/

/-- `s` is a stack of capacity `cap` that holds `xs`, its top first. -/
structure Holds (s : Stack) (cap : ℕ) (xs : List ℤ) : Prop where
  capacity : s.capacity = cap
  size : s.stack.length = cap
  top : s.top = xs.length - 1
  cells : s.stack.take xs.length = xs.reverse

variable {s : Stack} {cap : ℕ} {xs : List ℤ} {x : ℤ}

theorem Holds.fits (h : Holds s cap xs) : xs.length ≤ cap := by
  have hl := congrArg List.length h.cells
  rw [List.length_take, List.length_reverse, h.size] at hl
  omega

theorem newWithId_holds (mem : ℕ → ℤ) (cap : ℕ) (stackId : ℤ) :
    ∃ s, newWithId mem cap stackId = .ok s ∧ Holds s cap [] ∧ s.id = stackId := by
  refine ⟨⟨-1, cap, (List.range cap).map mem, stackId⟩, ?_, ⟨rfl, by simp, rfl, rfl⟩, rfl⟩
  rw [newWithId, newArray_natCast, ok_bind]

theorem push_room (h : Holds s cap xs) (hroom : xs.length < cap) (x : ℤ) :
    ∃ s', push s x = .ok (s', []) ∧ Holds s' cap (x :: xs) ∧ s'.id = s.id := by
  have htop : s.top + 1 = (xs.length : ℕ) := by rw [h.top]; omega
  have hne : ¬ s.top = s.capacity - 1 := by rw [h.top, h.capacity]; omega
  have hlt : xs.length < s.stack.length := by rw [h.size]; exact hroom
  refine ⟨{ s with top := xs.length, stack := s.stack.set xs.length x }, ?_, ?_, rfl⟩
  · rw [push, if_neg hne]
    simp only [htop, store_of_lt hlt, ok_bind]
  · refine ⟨h.capacity, by simp [h.size], by simp, ?_⟩
    rw [List.length_cons, List.reverse_cons, ← h.cells, List.take_add_one, List.take_set_of_le le_rfl,
      List.getElem?_set_self hlt, Option.toList_some]

theorem push_full (h : Holds s cap xs) (hfull : xs.length = cap) (x : ℤ) :
    push s x = .ok (s, [.full]) := by
  rw [push, if_pos (by rw [h.top, h.capacity, hfull])]

/-- The cell below the top index is the last one pushed. -/
theorem Holds.top_cell (h : Holds s cap (x :: xs)) : s.stack[xs.length]? = some x := by
  have hc := congrArg (·[xs.length]?) h.cells
  simpa [List.getElem?_take] using hc

theorem pop_cons (h : Holds s cap (x :: xs)) :
    ∃ s', pop s = .ok (s', x, []) ∧ Holds s' cap xs ∧ s'.id = s.id := by
  have htop : s.top = (xs.length : ℕ) := by rw [h.top, List.length_cons]; omega
  have hnneg : ¬ s.top < 0 := by omega
  refine ⟨{ s with top := s.top - 1 }, ?_, ⟨h.capacity, h.size, by rw [htop], ?_⟩, rfl⟩
  · rw [pop, if_neg hnneg, htop, load_of_getElem? h.top_cell, ok_bind]
  · have hc := congrArg (List.take xs.length) h.cells
    simpa [List.take_take] using hc

theorem pop_nil (h : Holds s cap []) : pop s = .ok (s, -1, [.empty]) := by
  rw [pop, if_pos (by rw [h.top]; simp)]

theorem peek_cons (h : Holds s cap (x :: xs)) : peek s = .ok x := by
  have htop : s.top = (xs.length : ℕ) := by rw [h.top, List.length_cons]; omega
  rw [peek, htop, load_of_getElem? h.top_cell]

theorem isEmpty_iff (h : Holds s cap xs) : isEmpty s = true ↔ xs = [] := by
  rw [isEmpty, decide_eq_true_iff, h.top, ← List.length_eq_zero_iff]
  omega

/-- The text `display` has printed for the cells `ds`, in this order. -/
def cellsText (ds : List ℤ) : String := ds.foldl (fun out d => out ++ toString d ++ " | ") ""

theorem displayCells_holds (h : Holds s cap xs) :
    (List.range xs.length).foldlM (displayCell s) "" = .ok (cellsText xs.reverse) := by
  obtain ⟨out, hout, rfl⟩ := foldlM_range_total (f := displayCell s)
    (I := fun i out => out = cellsText (xs.reverse.take i)) xs.length "" (by simp [cellsText]) (by
      rintro i out hi rfl
      have hcell : s.stack[i]? = some (xs.reverse.get ⟨i, by simpa using hi⟩) := by
        have hc := congrArg (·[i]?) h.cells
        simpa [List.getElem?_take, hi] using hc
      refine ⟨_, by rw [displayCell, load_of_getElem? hcell, ok_bind], ?_⟩
      rw [List.take_succ_eq_append_getElem (by simpa using hi), cellsText, cellsText,
        List.foldl_append]
      rfl)
  rw [hout, List.take_of_length_le (by simp)]

theorem display_holds (h : Holds s cap xs) : display s = .ok (cellsText xs.reverse ++ "\n") := by
  have hn : (s.top + 1).toNat = xs.length := by rw [h.top]; omega
  rw [display, hn, displayCells_holds h, ok_bind]
  split
  · rename_i he
    rw [(isEmpty_iff h).mp he]
    rfl
  · rfl

end Stack

end Diversity
