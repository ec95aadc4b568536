import Diversity.Schemes.Machine

/-! @scheme fifo | name:Bounded queues and stacks, circular arrays | family:data-structure

    A queue and a stack of bounded capacity, whose bound is part of the value, and the layout of a
    queue's contents in a circular array. `Laid ring s q` places the element of age `i` in slot
    `(s + i) % length`; the two lemmas about it are the two moves a circular queue makes, and hold for
    any number of wrap-arounds because they only speak about the residue of the start. A container
    that is filled until it refuses an element shows its capacity in the answers it gave. -/

namespace Schemes

universe u

variable {α : Type u}

/-- A queue of at most `cap` elements, the oldest first. -/
structure Fifo (α : Type u) (cap : ℕ) where
  items : List α
  fits : items.length ≤ cap
  deriving DecidableEq

namespace Fifo

variable {cap : ℕ}

def empty : Fifo α cap := ⟨[], Nat.zero_le _⟩

/-- Append when there is room; the flag says whether there was. -/
def offer (q : Fifo α cap) (x : α) : Fifo α cap × Bool :=
  if h : q.items.length < cap then (⟨q.items ++ [x], by simpa using h⟩, true) else (q, false)

/-- Remove the oldest element, if any. -/
def take : Fifo α cap → Fifo α cap × Option α
  | ⟨[], h⟩ => (⟨[], h⟩, none)
  | ⟨x :: xs, h⟩ => (⟨xs, Nat.le_of_succ_le h⟩, some x)

theorem offer_room {q : Fifo α cap} (h : q.items.length < cap) (x : α) :
    (q.offer x).1.items = q.items ++ [x] ∧ (q.offer x).2 = true := by
  simp [offer, h]

theorem offer_full {q : Fifo α cap} (h : ¬ q.items.length < cap) (x : α) :
    q.offer x = (q, false) := by
  simp [offer, h]

end Fifo

/-! ### Stacks -/

/-- A stack of at most `cap` elements, the top first. -/
structure Lifo (α : Type u) (cap : ℕ) where
  items : List α
  fits : items.length ≤ cap
  deriving DecidableEq

namespace Lifo

variable {cap : ℕ}

def empty : Lifo α cap := ⟨[], Nat.zero_le _⟩

/-- Put on top when there is room; the flag says whether there was. -/
def push (s : Lifo α cap) (x : α) : Lifo α cap × Bool :=
  if h : s.items.length < cap then (⟨x :: s.items, by simpa using h⟩, true) else (s, false)

/-- Remove the top, if any. -/
def pop : Lifo α cap → Lifo α cap × Option α
  | ⟨[], h⟩ => (⟨[], h⟩, none)
  | ⟨x :: xs, h⟩ => (⟨xs, Nat.le_of_succ_le h⟩, some x)

theorem push_room {s : Lifo α cap} (h : s.items.length < cap) (x : α) :
    (s.push x).1.items = x :: s.items ∧ (s.push x).2 = true := by
  simp [push, h]

theorem push_full {s : Lifo α cap} (h : ¬ s.items.length < cap) (x : α) :
    s.push x = (s, false) := by
  simp [push, h]

end Lifo

/-! ### Filling a container -/

/-- An array container whose `add` is `accepted` as long as the index of its last element, `idx`, is
    not `cap - 1`, and then `refused`: `n` accepted elements and a refusal tell what `cap` is, and
    that the last of the `n` had a cell. -/
theorem answers_fill {σ ι ρ : Type u} {step : σ → ι → C (σ × ρ)} {add : ι} {accepted refused : ρ}
    (idx cap len : σ → ℤ)
    (haccept : ∀ s s', step s add = .ok (s', accepted) →
      idx s' = idx s + 1 ∧ idx s' < len s ∧ cap s' = cap s ∧ len s' = len s)
    (hrefuse : ∀ s s', step s add = .ok (s', refused) → idx s = cap s - 1) :
    ∀ (n : ℕ) (s : σ),
      answers step s (List.replicate n add ++ [add]) = .ok (List.replicate n accepted ++ [refused]) →
      cap s = idx s + n + 1 ∧ (0 < n → idx s + n < len s)
  | 0, s, h => by
    obtain ⟨s', hstep, -⟩ := answers_cons_ok h
    have hidx := hrefuse s s' hstep
    exact ⟨by push_cast; omega, fun h0 => absurd h0 (lt_irrefl 0)⟩
  | n + 1, s, h => by
    obtain ⟨s', hstep, hrest⟩ := answers_cons_ok h
    obtain ⟨hidx, hlt, hcap, hlen⟩ := haccept s s' hstep
    obtain ⟨hcap', hlen'⟩ := answers_fill idx cap len haccept hrefuse n s' hrest
    refine ⟨by push_cast; omega, fun _ => ?_⟩
    rcases Nat.eq_zero_or_pos n with rfl | hn
    · push_cast
      omega
    · have := hlen' hn
      push_cast
      omega

/-! ### Circular arrays -/

/-- From slot `s` on, wrapping around, `ring` holds the elements of `q`. -/
def Laid (ring : List α) (s : ℕ) (q : List α) : Prop :=
  ∀ i x, q[i]? = some x → ring[(s + i) % ring.length]? = some x

theorem laid_nil (ring : List α) (s : ℕ) : Laid ring s [] := by
  intro i x h
  cases h

/-- Two ages below the number of slots are in different slots. -/
theorem slot_ne {n s i j : ℕ} (hi : i < n) (hj : j < n) (hne : i ≠ j) :
    (s + i) % n ≠ (s + j) % n := by
  intro h
  have hmod : i % n = j % n := Nat.ModEq.add_left_cancel' s h
  rw [Nat.mod_eq_of_lt hi, Nat.mod_eq_of_lt hj] at hmod
  exact hne hmod

/-- Writing the slot behind the last element appends. -/
theorem Laid.append {ring q : List α} {s : ℕ} (h : Laid ring s q) (hroom : q.length < ring.length)
    (x : α) : Laid (ring.set ((s + q.length) % ring.length) x) s (q ++ [x]) := by
  intro i y hy
  rw [List.length_set]
  have hlt : i < (q ++ [x]).length := (List.getElem?_eq_some_iff.mp hy).1
  rw [List.length_append, List.length_singleton] at hlt
  rcases Nat.lt_or_ge i q.length with hi | hi
  · rw [List.getElem?_append_left hi] at hy
    rw [List.getElem?_set_ne (slot_ne hroom (hi.trans hroom) hi.ne')]
    exact h i y hy
  · obtain rfl : i = q.length := by omega
    rw [List.getElem?_concat_length] at hy
    rw [List.getElem?_set_self (Nat.mod_lt _ (by omega)), hy]

/-- Moving the start by one slot forgets the oldest element. -/
theorem Laid.tail {ring q : List α} {s : ℕ} {x : α} (h : Laid ring s (x :: q)) :
    Laid ring ((s + 1) % ring.length) q := by
  intro i y hy
  have := h (i + 1) y hy
  rwa [Nat.mod_add_mod, Nat.add_assoc, Nat.add_comm 1 i]

/-- The oldest element is in the start slot. -/
theorem Laid.head {ring q : List α} {s : ℕ} {x : α} (h : Laid ring s (x :: q))
    (hs : s < ring.length) : ring[s]? = some x := by
  have := h 0 x rfl
  rwa [Nat.add_zero, Nat.mod_eq_of_lt hs] at this

end Schemes
