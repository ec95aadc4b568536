import Diversity.Programs.Containers.RingBuffer

/-! @src ring_buffer/ring_buffer.c (NewRingBuffer) | name:The slots of a ring buffer | scheme:fifo |
    family:container

    `malloc(sizeof(void*))` in `NewRingBuffer` is room for one pointer, while `end` goes through all the
    indices below `size`. The buffer as it is allocated is good for one push:

        slots:  [ · ]  ──push──▶  [ a ]  end = 1  ──push──▶  ring[1], behind the allocation

    What is retrieved in between makes no difference, since `end` does not go back. With `size == 1` it
    stays at 0, and the one slot is enough. -/

namespace Diversity.RingBuf
open Schemes

variable {P : Type}

/-- A call on the buffer; any pointer may be pushed, NULL too. -/
inductive SlotCall (P : Type) where
  | push (p : Option P)
  | retrieve

def slotCall (b : RingBuf P) : SlotCall P → C (RingBuf P × Result P)
  | .push p => do
    let (b, c) ← pushToQueue p b
    .ok (b, .code c)
  | .retrieve => do
    let (b, p) ← retrieveFromQueue b
    .ok (b, .pointer p)

/-- Calls of `PushToQueue` in a sequence. -/
def pushes : List (SlotCall P) → ℕ
  | [] => 0
  | .push _ :: calls => pushes calls + 1
  | .retrieve :: calls => pushes calls

/-- A buffer with the one slot that was allocated: empty, or with one pointer in that slot, and with `end`
    where one push takes it. -/
structure OneSlot (size : ℤ) (e : ℕ) (b : RingBuf P) : Prop where
  slot : b.ring.length = 1
  size_eq : b.size = size
  end_eq : b.end_ = e
  held : (b.active = 0 ∧ b.start = e) ∨ (b.active = 1 ∧ b.start = 0 ∧ e = 1 % size.toNat)

theorem newRingBuffer_oneSlot (mem : ℕ → Option P) (size : ℤ) :
    OneSlot size 0 (newRingBuffer mem size) where
  slot := rfl
  size_eq := rfl
  end_eq := rfl
  held := Or.inl ⟨rfl, rfl⟩

variable {size : ℤ} {e : ℕ} {b : RingBuf P}

/-- STEP: a push at slot 0 is inside the allocation. -/
theorem push_slot (hsize : IsInt size) (hpos : 1 ≤ size) (h : OneSlot size 0 b) (p : Option P) :
    ∃ b' c, pushToQueue p b = .ok (b', c) ∧ OneSlot size (1 % size.toNat) b' := by
  rcases h.held with ⟨hactive, hstart⟩ | ⟨hactive, -, hwrap⟩
  · have hroom : b.active < b.size := by
      rw [hactive, h.size_eq]
      exact hpos
    obtain ⟨hadd, hmod⟩ := step_index hsize (i := 0) (by omega)
    have hstore : store b.ring b.end_ p = .ok (b.ring.set 0 p) := by
      rw [h.end_eq]
      exact store_of_lt (by rw [h.slot]; exact Nat.one_pos) p
    rw [pushToQueue, if_pos hroom, hstore, ok_bind, h.end_eq, hadd, ok_bind, h.size_eq, hmod, ok_bind,
      hactive, addInt_of_isInt (by decide), ok_bind]
    exact ⟨_, _, rfl, by simp [h.slot], rfl, rfl, Or.inr ⟨rfl, hstart, rfl⟩⟩
  · -- `end` is back at 0 behind a push only when there is one slot, and that is taken
    have hone : size.toNat = 1 := Nat.dvd_one.mp (Nat.dvd_of_mod_eq_zero hwrap.symm)
    have hfull : ¬ b.active < b.size := by
      rw [hactive, h.size_eq]
      omega
    rw [pushToQueue, if_neg hfull, ← hwrap]
    exact ⟨b, _, rfl, h⟩

/-- STEP: a push at slot 1 is not. -/
theorem push_behind (hsize : 2 ≤ size) (h : OneSlot size 1 b) (p : Option P) :
    pushToQueue p b = .error .outOfBounds := by
  have hroom : b.active < b.size := by
    rw [h.size_eq]
    rcases h.held with ⟨ha, -⟩ | ⟨ha, -⟩ <;> omega
  have hstore : store b.ring b.end_ p = .error .outOfBounds := by
    have hslot := h.slot
    rw [store, h.end_eq, if_neg (by omega)]
  rw [pushToQueue, if_pos hroom, hstore]
  rfl

/-- STEP: a retrieve takes what is in slot 0, if anything. -/
theorem retrieve_slot (hsize : IsInt size) (hpos : 1 ≤ size) (h : OneSlot size e b) :
    ∃ b' p, retrieveFromQueue b = .ok (b', p) ∧ OneSlot size e b' := by
  rcases h.held with ⟨ha, hs⟩ | ⟨ha, hs, hwrap⟩
  · rw [retrieveFromQueue, if_pos ha]
    exact ⟨b, none, rfl, h⟩
  · obtain ⟨hadd, hmod⟩ := step_index hsize (i := 0) (by omega)
    obtain ⟨p, hring⟩ := List.length_eq_one_iff.mp h.slot
    have hload : load b.ring ((0 : ℕ) : ℤ) = .ok p := load_of_getElem? (by rw [hring]; rfl)
    have hs' : b.start = ((0 : ℕ) : ℤ) := hs
    rw [retrieveFromQueue, if_neg (by omega), hs', hload, ok_bind, hadd, ok_bind, h.size_eq, hmod,
      ok_bind, ha, addInt_of_isInt (by decide), ok_bind]
    exact ⟨_, _, rfl, h.slot, rfl, h.end_eq, Or.inl ⟨rfl, by rw [hwrap]⟩⟩

/-! ### Runs -/

/-- One slot is enough for the calls to come, with `end` at `e`. -/
def Enough (size : ℤ) (e : ℕ) (calls : List (SlotCall P)) : Prop := size = 1 ∨ pushes calls + e ≤ 1

/-- How a run ends: without a fault if one slot is enough, else at an index behind it. -/
def Ends (size : ℤ) (e : ℕ) (b : RingBuf P) (calls : List (SlotCall P)) : Prop :=
  (Enough size e calls → ∃ r, runOps slotCall b calls = .ok r) ∧
    (¬ Enough size e calls → runOps slotCall b calls = .error .outOfBounds)

/-- A call without a fault leaves it to the rest of the run. -/
theorem Ends.cons {c : SlotCall P} {calls : List (SlotCall P)} {b' : RingBuf P} {r : Result P} {e' : ℕ}
    (hcall : slotCall b c = .ok (b', r)) (henough : Enough size e (c :: calls) ↔ Enough size e' calls)
    (h : Ends size e' b' calls) : Ends size e b (c :: calls) := by
  refine ⟨fun hroom => ?_, fun hroom => ?_⟩
  · obtain ⟨⟨b'', rs⟩, hrest⟩ := h.1 (henough.mp hroom)
    exact ⟨(b'', r :: rs), by simp only [runOps, hcall, hrest, ok_bind]⟩
  · have hrest := h.2 fun hroom' => hroom (henough.mpr hroom')
    simp only [runOps, hcall, ok_bind, hrest]
    rfl

/-- RUN: from a buffer with one slot, by cases on the next call. -/
theorem run_ends (hsize : IsInt size) (hpos : 1 ≤ size) :
    ∀ (calls : List (SlotCall P)) {e : ℕ} {b : RingBuf P}, e ≤ 1 % size.toNat → OneSlot size e b →
      Ends size e b calls
  | [], e, b, he, _ => by
    have hmod := Nat.mod_le 1 size.toNat
    exact ⟨fun _ => ⟨_, rfl⟩, fun h => absurd (Or.inr (by simp only [pushes]; omega)) h⟩
  | .retrieve :: calls, e, b, he, h => by
    obtain ⟨b', p, hret, h'⟩ := retrieve_slot hsize hpos h
    have hcall : slotCall b .retrieve = .ok (b', .pointer p) := by rw [slotCall, hret]; rfl
    exact Ends.cons hcall Iff.rfl (run_ends hsize hpos calls he h')
  | .push p :: calls, 0, b, he, h => by
    obtain ⟨b', c, hpush, h'⟩ := push_slot hsize hpos h p
    have hcall : slotCall b (.push p) = .ok (b', .code c) := by rw [slotCall, hpush]; rfl
    refine Ends.cons hcall ?_ (run_ends hsize hpos calls le_rfl h')
    rcases hpos.eq_or_lt with rfl | hlt
    · exact iff_of_true (Or.inl rfl) (Or.inl rfl)
    · rw [Nat.mod_eq_of_lt (by omega)]
      exact Iff.rfl
  | .push p :: calls, e + 1, b, he, h => by
    have hmod := Nat.mod_le 1 size.toNat
    obtain rfl : e = 0 := by omega
    have hlt : 2 ≤ size := by
      rcases hpos.eq_or_lt with rfl | hlt
      · exact absurd he (by decide)
      · exact hlt
    refine ⟨fun hroom => ?_, fun _ => ?_⟩
    · rcases hroom with hone | hfew
      · omega
      · simp only [pushes] at hfew
        omega
    · simp only [runOps, slotCall, push_behind hlt h p]
      rfl

/-- In every run the indices of `ring` stay below the slots allocated exactly if `size` is 1 or there is
    at most one push. -/
theorem ringBuffer_stays_allocated (size : ℤ) (hsize : IsInt size) (hpos : 1 ≤ size)
    (mem : ℕ → Option P) (calls : List (SlotCall P)) :
    (runOps slotCall (newRingBuffer mem size) calls ≠ .error .outOfBounds ↔
        size = 1 ∨ pushes calls ≤ 1) ∧
      (size = 1 ∨ pushes calls ≤ 1 → ∃ r, runOps slotCall (newRingBuffer mem size) calls = .ok r) := by
  obtain ⟨henough, hover⟩ := run_ends hsize hpos calls (Nat.zero_le _) (newRingBuffer_oneSlot mem size)
  refine ⟨⟨fun hrun => ?_, fun hfew => ?_⟩, henough⟩
  · by_contra hmany
    exact hrun (hover hmany)
  · obtain ⟨r, hrun⟩ := henough hfew
    rw [hrun]
    exact fun h => by cases h

/-- A pointer pushed and retrieved, and another one retrieved, on a buffer of five. -/
theorem ringBuffer_stays_allocated_once :
    (runOps slotCall (newRingBuffer (fun _ => none) 5) [.push (some 7), .retrieve, .retrieve] ≠
        .error .outOfBounds ↔ (5 : ℤ) = 1 ∨ pushes [.push (some 7), .retrieve, .retrieve] ≤ 1) ∧
      ((5 : ℤ) = 1 ∨ pushes [.push (some 7), .retrieve, .retrieve] ≤ 1 →
        ∃ r, runOps slotCall (newRingBuffer (fun _ => none) 5) [.push (some 7), .retrieve, .retrieve] =
          .ok r) :=
  ringBuffer_stays_allocated 5 (by decide) (by decide) (fun _ => none)
    [.push (some 7), .retrieve, .retrieve]

/-- Two pushes into a buffer of two: the second one writes `ring[1]`. -/
theorem second_push_behind_allocation :
    (newRingBuffer (fun _ => none) 2 : RingBuf ℕ).ring.length = 1 ∧
      runOps slotCall (newRingBuffer (fun _ => none) 2) [.push (some 0), .push (some 1)] =
        .error .outOfBounds :=
  ⟨rfl, rfl⟩

end Diversity.RingBuf
