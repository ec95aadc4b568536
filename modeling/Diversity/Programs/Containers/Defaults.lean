import Diversity.Programs.Containers.Bounded

/-! @src c++/src/stack.cpp (Stack::Stack), c++/src/graph.cpp (Queue::Queue) |
    name:Default constructors | scheme:fifo | family:container

    `Stack()` has the body `Stack(5);`, which is not a call of the other constructor for this object:
    it builds a second stack of five cells and drops it. The object itself stays what its memory was,
    and so does a `Queue()`. Here an object is that memory: the values of its fields, and in place of
    the pointer the `int`s that can be reached through it, none of them part of the object and none at
    all for a pointer that leads nowhere. Such an object is indistinguishable from one of capacity 5
    exactly if it happens to be empty, of capacity 5, and with five cells to write to. A queue also
    shows its first cell to a `peek` while it is empty. -/

namespace Diversity
open Schemes

/-! ### The stack -/

namespace Stack

/-- `Stack()`: the temporary is built on memory `mem`, with `id` whatever was there. -/
def newDefault (mem : ℕ → ℤ) (id : ℤ) (this : Stack) : C Stack := do
  let _ ← new mem id 5
  .ok this

/-- The answers to `ops` of the stack that `built` gives. -/
def replies (built : C Stack) (ops : List Op) : C (List Answer) := do
  let s ← built
  answers call s ops

/-- The stack with more cells behind those of its array. -/
def behind (s : Stack) (rest : List ℤ) : Stack := { s with stack := s.stack ++ rest }

theorem newDefault_eq (mem : ℕ → ℤ) (id : ℤ) (this : Stack) : newDefault mem id this = .ok this := by
  obtain ⟨s, hnew, -, -⟩ := newWithId_holds mem 5 id
  have htemp : new mem id 5 = .ok s := hnew
  rw [newDefault, htemp, ok_bind]

/-! More cells behind the array make no difference to a call that found those it needed. -/

section
variable {s s' : Stack} {rest : List ℤ}

theorem push_behind {value : ℤ} {msgs : List Msg} (h : push s value = .ok (s', msgs)) :
    push (s.behind rest) value = .ok (s'.behind rest, msgs) := by
  rw [push] at h ⊢
  split at h
  · next hfull =>
    cases h
    exact if_pos hfull
  · next hroom =>
    obtain ⟨cells, hstore, h⟩ := exists_of_bind_ok h
    cases h
    have hstore' : store (s.behind rest).stack (s.top + 1) value = .ok (cells ++ rest) :=
      store_left hstore rest
    rw [if_neg (show ¬ (s.behind rest).top = (s.behind rest).capacity - 1 from hroom)]
    exact congrArg (· >>= _) hstore'

theorem pop_behind {v : ℤ} {msgs : List Msg} (h : pop s = .ok (s', v, msgs)) :
    pop (s.behind rest) = .ok (s'.behind rest, v, msgs) := by
  rw [pop] at h ⊢
  split at h
  · next hempty =>
    cases h
    exact if_pos hempty
  · next hsome =>
    obtain ⟨x, hload, h⟩ := exists_of_bind_ok h
    cases h
    have hload' : load (s.behind rest).stack s.top = .ok v := load_left hload rest
    rw [if_neg (show ¬ (s.behind rest).top < 0 from hsome)]
    exact congrArg (· >>= _) hload'

theorem display_behind {out : String} (h : display s = .ok out) :
    display (s.behind rest) = .ok out := by
  rw [display] at h ⊢
  split at h
  · next hempty =>
    rw [← h]
    exact if_pos hempty
  · next hsome =>
    obtain ⟨text, hcells, h⟩ := exists_of_bind_ok h
    have hcell : ∀ out i out', displayCell s out i = .ok out' →
        displayCell (s.behind rest) out i = .ok out' := by
      intro out i out' hcell
      obtain ⟨d, hload, hcell⟩ := exists_of_bind_ok hcell
      have hload' : load (s.behind rest).stack i = .ok d := load_left hload rest
      rw [← hcell]
      exact congrArg (· >>= _) hload'
    rw [if_neg (show ¬ isEmpty (s.behind rest) = true from hsome), ← h]
    exact congrArg (· >>= _) (foldlM_map_ok (fun out => out) hcell hcells)

theorem call_behind {op : Op} {r : Answer} (h : call s op = .ok (s', r)) :
    call (s.behind rest) op = .ok (s'.behind rest, r) := by
  cases op with
  | push value =>
    obtain ⟨⟨s₁, msgs⟩, hpush, h⟩ := exists_of_bind_ok h
    cases h
    rw [call, push_behind hpush, ok_bind]
  | pop =>
    obtain ⟨⟨s₁, v, msgs⟩, hpop, h⟩ := exists_of_bind_ok h
    cases h
    rw [call, pop_behind hpop, ok_bind]
  | peek =>
    obtain ⟨v, hload, h⟩ := exists_of_bind_ok h
    cases h
    have hload' : peek (s.behind rest) = .ok v := load_left hload rest
    rw [call, hload', ok_bind]
  | isEmpty =>
    cases h
    rfl
  | display =>
    obtain ⟨out, hdisplay, h⟩ := exists_of_bind_ok h
    cases h
    rw [call, display_behind hdisplay, ok_bind]

end

/-! ### Two stacks that answer alike -/

/-- `s` and `t` hold the same list, `s` with more cells behind the `cap` it uses. -/
def Alike (cap : ℕ) (s t : Stack) : Prop :=
  ∃ (l : Lifo ℤ cap) (s₀ : Stack) (rest : List ℤ),
    s = s₀.behind rest ∧ Holds s₀ cap l.items ∧ Holds t cap l.items

/-- Below the bottom there is no cell. -/
theorem peek_bottom {s : Stack} (h : s.top = -1) : call s .peek = .error .outOfBounds := by
  rw [call, peek, h]
  rfl

theorem call_alike {cap : ℕ} (s t : Stack) (op : Op) (h : Alike cap s t) :
    (∃ e, call s op = .error e ∧ call t op = .error e) ∨
      ∃ s' t' r, call s op = .ok (s', r) ∧ call t op = .ok (t', r) ∧ Alike cap s' t' := by
  obtain ⟨l, s₀, rest, rfl, hs, ht⟩ := h
  by_cases hsees : Sees l op
  · obtain ⟨s', hcall, hs'⟩ := call_refines s₀ l op hs hsees
    obtain ⟨t', hcall', ht'⟩ := call_refines t l op ht hsees
    exact Or.inr ⟨s'.behind rest, t', _, call_behind hcall, hcall', (listCall l op).1, s', rest, rfl,
      hs', ht'⟩
  · -- only `peek` on an empty stack is left: both read cell -1
    rw [Sees, Classical.not_imp, not_not] at hsees
    obtain ⟨rfl, hempty⟩ := hsees
    rw [hempty] at hs ht
    exact Or.inl ⟨.outOfBounds, peek_bottom hs.top, peek_bottom ht.top⟩

/-- A `Stack(cap)` and an object that is empty, of capacity `cap` and with enough cells. -/
theorem alike_new {cap : ℕ} {this t : Stack} (htop : this.top = -1) (hcap : this.capacity = cap)
    (hcells : cap ≤ this.stack.length) (ht : Holds t cap []) : Alike cap this t := by
  refine ⟨Lifo.empty, { this with stack := this.stack.take cap }, this.stack.drop cap, ?_, ?_, ht⟩
  · rw [behind, List.take_append_drop]
  · exact ⟨hcap, by simpa using hcells, htop, rfl⟩

/-! ### What the answers tell about an object -/

theorem top_of_isEmpty {s : Stack} (h : answers call s [.isEmpty] = .ok [.flag true]) :
    s.top = -1 := by
  obtain ⟨s', hcall, -⟩ := answers_cons_ok h
  rw [call, Except.ok.injEq, Prod.mk.injEq, Answer.flag.injEq] at hcall
  simpa [isEmpty] using hcall.2

theorem push_accepted {s s' : Stack} {value : ℤ} (h : call s (.push value) = .ok (s', .void [])) :
    s'.top = s.top + 1 ∧ s'.top < s.stack.length ∧ s'.capacity = s.capacity ∧
      (s'.stack.length : ℤ) = s.stack.length := by
  obtain ⟨⟨s₁, msgs⟩, hpush, h⟩ := exists_of_bind_ok h
  cases h
  rw [push] at hpush
  split at hpush
  · cases hpush
  · obtain ⟨cells, hstore, hpush⟩ := exists_of_bind_ok hpush
    obtain ⟨⟨-, hlt⟩, rfl⟩ := store_ok hstore
    cases hpush
    exact ⟨rfl, hlt, rfl, by rw [List.length_set]⟩

theorem push_refused {s s' : Stack} {value : ℤ} (h : call s (.push value) = .ok (s', .void [.full])) :
    s.top = s.capacity - 1 := by
  obtain ⟨⟨s₁, msgs⟩, hpush, h⟩ := exists_of_bind_ok h
  cases h
  rw [push] at hpush
  split at hpush
  · next hfull => exact hfull
  · obtain ⟨cells, hstore, hpush⟩ := exists_of_bind_ok hpush
    cases hpush

/-- What answers like an empty list of at most five elements is empty, of capacity 5, and has five
    cells. -/
theorem five_of_answers {s : Stack} (h : ∀ ops, Allowed Sees listCall (Lifo.empty : Lifo ℤ 5) ops →
    answers call s ops = .ok (specOps listCall (Lifo.empty : Lifo ℤ 5) ops).2) :
    s.top = -1 ∧ s.capacity = 5 ∧ 5 ≤ s.stack.length := by
  have htop := top_of_isEmpty (h [.isEmpty] (by simp [Allowed, Sees]))
  obtain ⟨hcap, hcells⟩ := answers_fill Stack.top Stack.capacity (fun s => s.stack.length)
    (fun _ _ => push_accepted) (fun _ _ => push_refused) 5 s
    (h (List.replicate 5 (.push 0) ++ [.push 0]) (by simp [Allowed, Sees, List.replicate]))
  have hlast := hcells (by norm_num)
  exact ⟨htop, by omega, by omega⟩

/-- A default stack answers every sequence like a `Stack(5)` exactly if its memory was like one. -/
theorem replies_iff (mem mem' : ℕ → ℤ) (id : ℤ) (this : Stack) :
    (∀ ops, replies (newDefault mem' id this) ops = replies (new mem this.id 5) ops) ↔
      this.top = -1 ∧ this.capacity = 5 ∧ 5 ≤ this.stack.length := by
  obtain ⟨t, hnew, ht, -⟩ := newWithId_holds mem 5 this.id
  have hfive : new mem this.id 5 = .ok t := hnew
  simp only [replies, newDefault_eq, hfive, ok_bind]
  constructor
  · intro h
    refine five_of_answers fun ops hsees => ?_
    rw [h ops]
    exact answers_refine (l := (Lifo.empty : Lifo ℤ 5)) ht ops hsees
  · rintro ⟨htop, hcap, hcells⟩ ops
    exact answers_agree call_alike ops this t (alike_new htop hcap hcells ht)

end Stack

/-! ### The queue -/

namespace Queue

/-- `Queue()`: the temporary is built on memory `mem`. -/
def newDefault (mem : ℕ → ℤ) (this : Queue) : C Queue := do
  let _ ← new mem 5
  .ok this

/-- The answers to `ops` of the queue that `built` gives. -/
def replies (built : C Queue) (ops : List Op) : C (List Answer) := do
  let q ← built
  answers call q ops

/-- The queue with more cells behind those of its array. -/
def behind (q : Queue) (rest : List ℤ) : Queue := { q with queue := q.queue ++ rest }

theorem newDefault_eq (mem : ℕ → ℤ) (this : Queue) : newDefault mem this = .ok this := by
  obtain ⟨q, hnew, -⟩ := new_holds mem 5
  have htemp : new mem 5 = .ok q := hnew
  rw [newDefault, htemp, ok_bind]

section
variable {q q' : Queue} {rest : List ℤ}

theorem enqueue_behind {value : ℤ} {msgs : List Msg} (h : enqueue q value = .ok (q', msgs)) :
    enqueue (q.behind rest) value = .ok (q'.behind rest, msgs) := by
  rw [enqueue] at h ⊢
  split at h
  · next hfull =>
    cases h
    exact if_pos hfull
  · next hroom =>
    obtain ⟨cells, hstore, h⟩ := exists_of_bind_ok h
    cases h
    have hstore' : store (q.behind rest).queue (q.tail + 1) value = .ok (cells ++ rest) :=
      store_left hstore rest
    rw [if_neg (show ¬ isFull (q.behind rest) = true from hroom)]
    exact congrArg (· >>= _) hstore'

theorem shiftCell_behind {cells cells' : List ℤ} {i : ℕ} (h : shiftCell cells i = .ok cells') :
    shiftCell (cells ++ rest) i = .ok (cells' ++ rest) := by
  obtain ⟨v, hload, hstore⟩ := exists_of_bind_ok h
  rw [shiftCell, load_left hload rest, ok_bind, store_left hstore rest]

theorem dequeue_behind {v : ℤ} {msgs : List Msg} (h : dequeue q = .ok (q', v, msgs)) :
    dequeue (q.behind rest) = .ok (q'.behind rest, v, msgs) := by
  rw [dequeue] at h ⊢
  split at h
  · next hempty =>
    cases h
    exact if_pos hempty
  · next hsome =>
    obtain ⟨ret, hload, h⟩ := exists_of_bind_ok h
    obtain ⟨cells, hshift, h⟩ := exists_of_bind_ok h
    cases h
    have hload' : load (q.behind rest).queue 0 = .ok v := load_left hload rest
    have hshift' : (List.range (q.behind rest).tail.toNat).foldlM shiftCell (q.behind rest).queue =
        .ok (cells ++ rest) :=
      foldlM_map_ok (· ++ rest) (fun _ _ _ => shiftCell_behind) hshift
    rw [if_neg (show ¬ isEmpty (q.behind rest) = true from hsome), hload', ok_bind, hshift', ok_bind]
    rfl

theorem call_behind {op : Op} {r : Answer} (h : call q op = .ok (q', r)) :
    call (q.behind rest) op = .ok (q'.behind rest, r) := by
  cases op with
  | enqueue value =>
    obtain ⟨⟨q₁, msgs⟩, hadd, h⟩ := exists_of_bind_ok h
    cases h
    rw [call, enqueue_behind hadd, ok_bind]
  | dequeue =>
    obtain ⟨⟨q₁, v, msgs⟩, htake, h⟩ := exists_of_bind_ok h
    cases h
    rw [call, dequeue_behind htake, ok_bind]
  | peek =>
    obtain ⟨v, hload, h⟩ := exists_of_bind_ok h
    cases h
    have hload' : peek (q.behind rest) = .ok v := load_left hload rest
    rw [call, hload', ok_bind]
  | isFull =>
    cases h
    rfl
  | isEmpty =>
    cases h
    rfl

end

/-! ### Two queues that answer alike -/

/-- `q` and `t` hold the same list, `q` with more cells behind the `cap` it uses, and have the same
    first cell, which `peek` shows also when the list is empty. -/
def Alike (cap : ℕ) (q t : Queue) : Prop :=
  ∃ (l : Fifo ℤ cap) (q₀ : Queue) (rest : List ℤ), q = q₀.behind rest ∧ Holds q₀ cap l.items ∧
    Holds t cap l.items ∧ q₀.queue[0]? = t.queue[0]?

/-- Taking the only element moves no cell. -/
theorem dequeue_single {q : Queue} {cap : ℕ} {x : ℤ} (h : Holds q cap [x]) :
    dequeue q = .ok ({ q with tail := q.tail - 1 }, x, []) := by
  have hne : ¬ isEmpty q = true := by rw [isEmpty_iff h]; simp
  have hhead : load q.queue 0 = .ok x := peek_cons h
  have htail : q.tail.toNat = 0 := by rw [h.tail]; rfl
  rw [dequeue, if_neg hne, hhead, ok_bind, htail]
  rfl

/-- A call after which the queue is empty has left the first cell alone. -/
theorem call_head {cap : ℕ} (hpos : 0 < cap) {q q' : Queue} {l : Fifo ℤ cap} {op : Op} {r : Answer}
    (h : Holds q cap l.items) (hcall : call q op = .ok (q', r))
    (hempty : (listCall l op).1.items = []) : q'.queue[0]? = q.queue[0]? := by
  cases op with
  | enqueue value =>
    rcases Nat.lt_or_ge l.items.length cap with hroom | hfull
    · rw [listCall, (Fifo.offer_room hroom value).1] at hempty
      simp at hempty
    · rw [listCall, Fifo.offer_full (Nat.not_lt.mpr hfull) value] at hempty
      have hnil : l.items = [] := hempty
      rw [hnil] at hfull
      exact absurd (hfull : cap ≤ 0) (Nat.not_le.mpr hpos)
  | dequeue =>
    rcases l with ⟨_ | ⟨x, xs⟩, hfits⟩
    · rw [call, dequeue_nil h, ok_bind] at hcall
      cases hcall
      rfl
    · obtain rfl : xs = [] := hempty
      rw [call, dequeue_single h, ok_bind] at hcall
      cases hcall
      rfl
  | peek =>
    obtain ⟨v, -, hcall⟩ := exists_of_bind_ok hcall
    cases hcall
    rfl
  | isFull =>
    cases hcall
    rfl
  | isEmpty =>
    cases hcall
    rfl

/-- Two queues that hold the same list have the same first cell, after a call that they answered from
    the same first cell. -/
theorem head_eq {cap : ℕ} (hpos : 0 < cap) {q q' t t' : Queue} {l : Fifo ℤ cap} {op : Op}
    {r : Answer} (hq : Holds q cap l.items) (ht : Holds t cap l.items)
    (hhead : q.queue[0]? = t.queue[0]?) (hcall : call q op = .ok (q', r))
    (hcall' : call t op = .ok (t', r)) (hq' : Holds q' cap (listCall l op).1.items)
    (ht' : Holds t' cap (listCall l op).1.items) : q'.queue[0]? = t'.queue[0]? := by
  rcases hitems : (listCall l op).1.items with _ | ⟨x, xs⟩
  · rw [call_head hpos hq hcall hitems, call_head hpos ht hcall' hitems, hhead]
  · rw [hitems] at hq' ht'
    rw [hq'.cell (by simp), ht'.cell (by simp)]

theorem call_alike {cap : ℕ} (hpos : 0 < cap) (q t : Queue) (op : Op) (h : Alike cap q t) :
    (∃ e, call q op = .error e ∧ call t op = .error e) ∨
      ∃ q' t' r, call q op = .ok (q', r) ∧ call t op = .ok (t', r) ∧ Alike cap q' t' := by
  have hwhole := h
  obtain ⟨l, q₀, rest, rfl, hq, ht, hhead⟩ := h
  by_cases hsees : Sees l op
  · obtain ⟨q', hcall, hq'⟩ := call_refines q₀ l op hq hsees
    obtain ⟨t', hcall', ht'⟩ := call_refines t l op ht hsees
    exact Or.inr ⟨q'.behind rest, t', _, call_behind hcall, hcall', (listCall l op).1, q', rest, rfl,
      hq', ht', head_eq hpos hq ht hhead hcall hcall' hq' ht'⟩
  · -- only `peek` on an empty queue is left: both show their first cell
    rw [Sees, Classical.not_imp, not_not] at hsees
    obtain ⟨rfl, -⟩ := hsees
    obtain ⟨v, hv⟩ : ∃ v, t.queue[0]? = some v :=
      ⟨_, List.getElem?_eq_getElem (by rw [ht.size]; exact hpos)⟩
    have hcall : call q₀ .peek = .ok (q₀, .value v []) := by
      have hload : peek q₀ = .ok v := load_of_getElem? (hhead.trans hv)
      rw [call, hload, ok_bind]
    have hcall' : call t .peek = .ok (t, .value v []) := by
      have hload : peek t = .ok v := load_of_getElem? hv
      rw [call, hload, ok_bind]
    exact Or.inr ⟨_, _, _, call_behind hcall, hcall', hwhole⟩

/-- A `Queue(cap)` and an object that is empty, of capacity `cap` and with enough cells, the first of
    them as the other has it. -/
theorem alike_new {cap : ℕ} (hpos : 0 < cap) {this t : Queue} (htail : this.tail = -1)
    (hcap : this.capacity = cap) (hcells : cap ≤ this.queue.length) (ht : Holds t cap [])
    (hhead : this.queue[0]? = t.queue[0]?) : Alike cap this t := by
  refine ⟨Fifo.empty, { this with queue := this.queue.take cap }, this.queue.drop cap, ?_, ?_, ht, ?_⟩
  · rw [behind, List.take_append_drop]
  · exact ⟨hcap, by simpa using hcells, htail, rfl⟩
  · rw [List.getElem?_take_of_lt hpos, hhead]

/-! ### What the answers tell about an object -/

theorem tail_of_isEmpty {q : Queue} (h : answers call q [.isEmpty] = .ok [.flag true]) :
    q.tail = -1 := by
  obtain ⟨q', hcall, -⟩ := answers_cons_ok h
  rw [call, Except.ok.injEq, Prod.mk.injEq, Answer.flag.injEq] at hcall
  simpa [isEmpty] using hcall.2

theorem enqueue_accepted {q q' : Queue} {value : ℤ}
    (h : call q (.enqueue value) = .ok (q', .void [])) :
    q'.tail = q.tail + 1 ∧ q'.tail < q.queue.length ∧ q'.capacity = q.capacity ∧
      (q'.queue.length : ℤ) = q.queue.length := by
  obtain ⟨⟨q₁, msgs⟩, hadd, h⟩ := exists_of_bind_ok h
  cases h
  rw [enqueue] at hadd
  split at hadd
  · cases hadd
  · obtain ⟨cells, hstore, hadd⟩ := exists_of_bind_ok hadd
    obtain ⟨⟨-, hlt⟩, rfl⟩ := store_ok hstore
    cases hadd
    exact ⟨rfl, hlt, rfl, by rw [List.length_set]⟩

theorem enqueue_refused {q q' : Queue} {value : ℤ}
    (h : call q (.enqueue value) = .ok (q', .void [.full])) : q.tail = q.capacity - 1 := by
  obtain ⟨⟨q₁, msgs⟩, hadd, h⟩ := exists_of_bind_ok h
  cases h
  rw [enqueue] at hadd
  split at hadd
  · next hfull => simpa [isFull] using hfull
  · obtain ⟨cells, hstore, hadd⟩ := exists_of_bind_ok hadd
    cases hadd

theorem new_cell {mem : ℕ → ℤ} {cap : ℕ} (hpos : 0 < cap) {q : Queue} (h : new mem cap = .ok q) :
    q.queue[0]? = some (mem 0) := by
  rw [new, newArray_natCast, ok_bind] at h
  cases h
  simp [hpos]

/-- What answers like an empty list of at most five elements is empty, of capacity 5, and has five
    cells. -/
theorem five_of_answers {q : Queue} (h : ∀ ops, Allowed Sees listCall (Fifo.empty : Fifo ℤ 5) ops →
    answers call q ops = .ok (specOps listCall (Fifo.empty : Fifo ℤ 5) ops).2) :
    q.tail = -1 ∧ q.capacity = 5 ∧ 5 ≤ q.queue.length := by
  have htail := tail_of_isEmpty (h [.isEmpty] (by simp [Allowed, Sees]))
  obtain ⟨hcap, hcells⟩ := answers_fill Queue.tail Queue.capacity (fun q => q.queue.length)
    (fun _ _ => enqueue_accepted) (fun _ _ => enqueue_refused) 5 q
    (h (List.replicate 5 (.enqueue 0) ++ [.enqueue 0]) (by simp [Allowed, Sees, List.replicate]))
  have hlast := hcells (by norm_num)
  exact ⟨htail, by omega, by omega⟩

theorem answers_peek_iff {q : Queue} {v : ℤ} :
    answers call q [.peek] = .ok [.value v []] ↔ q.queue[0]? = some v := by
  constructor
  · intro h
    obtain ⟨q', hcall, -⟩ := answers_cons_ok h
    obtain ⟨w, hload, hcall⟩ := exists_of_bind_ok hcall
    cases hcall
    exact load_eq_ok.mp hload
  · intro h
    have hload : peek q = .ok v := load_of_getElem? h
    rw [answers_cons, call, hload]
    rfl

/-- A default queue answers every sequence like a `Queue(5)` exactly if its memory was like one. -/
theorem replies_iff (mem mem' : ℕ → ℤ) (this : Queue) :
    (∀ ops, replies (newDefault mem' this) ops = replies (new mem 5) ops) ↔
      this.tail = -1 ∧ this.capacity = 5 ∧ 5 ≤ this.queue.length ∧
        this.queue[0]? = some (mem 0) := by
  obtain ⟨t, hnew, ht⟩ := new_holds mem 5
  have hfive : new mem 5 = .ok t := hnew
  have hcell := new_cell (by norm_num) hnew
  simp only [replies, newDefault_eq, hfive, ok_bind]
  constructor
  · intro h
    obtain ⟨htail, hcap, hcells⟩ := five_of_answers fun ops hsees => by
      rw [h ops]
      exact answers_refine (l := (Fifo.empty : Fifo ℤ 5)) ht ops hsees
    -- the empty queue of five shows `mem 0`
    refine ⟨htail, hcap, hcells, answers_peek_iff.mp ?_⟩
    rw [h]
    exact answers_peek_iff.mpr hcell
  · rintro ⟨htail, hcap, hcells, hhead⟩ ops
    exact answers_agree (call_alike (by norm_num)) ops this t
      (alike_new (by norm_num) htail hcap hcells ht (hhead.trans hcell.symm))

end Queue

/-! ### Both from their constructors -/

/-- CORRECT by chance: a `Stack()` answers every sequence of calls like a `Stack(5)` exactly if the
    memory it was built on had `top` -1, `capacity` 5 and a pointer to at least five `int`s, and a
    `Queue()` like a `Queue(5)` exactly if the same was true of it and the first of the `int`s is what
    `Queue(5)` finds in its own array. -/
theorem defaults_as_five_iff (mem mem' : ℕ → ℤ) (id : ℤ) (s : Stack) (q : Queue) :
    ((∀ ops, Stack.replies (Stack.newDefault mem' id s) ops =
        Stack.replies (Stack.new mem s.id 5) ops) ↔
      s.top = -1 ∧ s.capacity = 5 ∧ 5 ≤ s.stack.length) ∧
    ((∀ ops, Queue.replies (Queue.newDefault mem' q) ops = Queue.replies (Queue.new mem 5) ops) ↔
      q.tail = -1 ∧ q.capacity = 5 ∧ 5 ≤ q.queue.length ∧ q.queue[0]? = some (mem 0)) :=
  ⟨Stack.replies_iff mem mem' id s, Queue.replies_iff mem mem' q⟩

/-- On memory of zeros, with a null pointer, neither says that it is empty, and the first element put
    into either is written behind the pointer. -/
theorem zeroed_default_differs :
    (Stack.replies (Stack.newDefault (fun _ => 0) 0 ⟨0, 0, [], 0⟩) [.isEmpty] ≠
      Stack.replies (Stack.new (fun _ => 0) 0 5) [.isEmpty] ∧
    Stack.replies (Stack.newDefault (fun _ => 0) 0 ⟨0, 0, [], 0⟩) [.push 1] = .error .outOfBounds) ∧
    (Queue.replies (Queue.newDefault (fun _ => 0) ⟨0, [], 0⟩) [.isEmpty] ≠
      Queue.replies (Queue.new (fun _ => 0) 5) [.isEmpty] ∧
    Queue.replies (Queue.newDefault (fun _ => 0) ⟨0, [], 0⟩) [.enqueue 1] =
      .error .outOfBounds) := by
  refine ⟨⟨?_, rfl⟩, ?_, rfl⟩
  · intro h
    have hflags : (.ok [.flag false] : C (List Stack.Answer)) = .ok [.flag true] := h
    cases hflags
  · intro h
    have hflags : (.ok [.flag false] : C (List Queue.Answer)) = .ok [.flag true] := h
    cases hflags

end Diversity
