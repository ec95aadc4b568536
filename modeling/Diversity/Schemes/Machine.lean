import Mathlib

/-! @scheme machine | name:Checked C machine | family:semantics

    The part of the C abstract machine that the programs run on: arrays whose every access is
    checked, `int` arithmetic whose overflow is a fault, loops bounded by fuel. A computation is a
    value or the fault that stopped it, so "no access leaves the array" and "no modulo by zero" are
    the statement that the computation is `.ok`. The rules at the end are the ones proofs use: a
    simulation rule for `loop`, an invariant rule for counting loops, and a forward simulation for
    sequences of operations. -/

namespace Schemes

universe u

variable {α β σ τ ρ ι : Type u}

/-- Why a computation has no value. `outOfFuel` is the bound of `loop` and of fuelled recursion,
    the others are undefined behaviour (or, for `badAlloc`, an exception) of the source. -/
inductive Fault where
  | outOfBounds | overflow | divByZero | nullDeref | badAlloc | outOfFuel
  deriving DecidableEq, Repr

/-- A computation of the machine. -/
abbrev C (α : Type u) : Type u := Except Fault α

/-! ### Results -/

@[simp] theorem ok_bind (a : α) (f : α → C β) : ((.ok a : C α) >>= f) = f a := rfl

@[simp] theorem error_bind (e : Fault) (f : α → C β) : ((.error e : C α) >>= f) = .error e := rfl

@[simp] theorem pure_eq_ok (a : α) : (pure a : C α) = .ok a := rfl

/-- A sequence has a value only through a value of its first part. -/
theorem exists_of_bind_ok {x : C α} {f : α → C β} {b : β} (h : (x >>= f) = .ok b) :
    ∃ a, x = .ok a ∧ f a = .ok b := by
  cases x with
  | error e => cases h
  | ok a => exact ⟨a, rfl, h⟩

/-! ### Arrays -/

/-- `new T[n]`: `n` cells of whatever the memory held before. -/
def newArray (mem : ℕ → α) (n : ℤ) : C (List α) :=
  if n < 0 then .error .badAlloc else .ok ((List.range n.toNat).map mem)

theorem newArray_natCast (mem : ℕ → α) (n : ℕ) :
    newArray mem n = .ok ((List.range n).map mem) := by
  rw [newArray, if_neg (Int.not_lt.mpr (Int.natCast_nonneg n)), Int.toNat_natCast]

/-- Read `a[i]`. -/
def load (a : List α) (i : ℤ) : C α :=
  if 0 ≤ i then
    match a[i.toNat]? with
    | some x => .ok x
    | none => .error .outOfBounds
  else .error .outOfBounds

/-- Write `a[i] = x`. -/
def store (a : List α) (i : ℤ) (x : α) : C (List α) :=
  if 0 ≤ i ∧ i < a.length then .ok (a.set i.toNat x) else .error .outOfBounds

/-- A read at index `i` is `.ok` exactly of what the array holds there. -/
theorem load_eq_ok {a : List α} {i : ℕ} {x : α} : load a i = .ok x ↔ a[i]? = some x := by
  rw [load, if_pos (Int.natCast_nonneg i), Int.toNat_natCast]
  cases h : a[i]? <;> simp

theorem load_of_getElem? {a : List α} {i : ℕ} {x : α} (h : a[i]? = some x) :
    load a i = .ok x :=
  load_eq_ok.mpr h

theorem store_of_lt {a : List α} {i : ℕ} (h : i < a.length) (x : α) :
    store a i x = .ok (a.set i x) := by
  rw [store, if_pos ⟨Int.natCast_nonneg i, Int.ofNat_lt.mpr h⟩, Int.toNat_natCast]

theorem store_ok {a a' : List α} {i : ℤ} {x : α} (h : store a i x = .ok a') :
    (0 ≤ i ∧ i < a.length) ∧ a' = a.set i.toNat x := by
  rw [store] at h
  split at h
  · next hin => exact ⟨hin, (Except.ok.inj h).symm⟩
  · cases h

/-- What can be read can be read with more cells behind the array. -/
theorem load_left {a : List α} {i : ℤ} {x : α} (h : load a i = .ok x) (rest : List α) :
    load (a ++ rest) i = .ok x := by
  rcases lt_or_ge i 0 with hneg | hnn
  · rw [load, if_neg (not_le.mpr hneg)] at h
    cases h
  · lift i to ℕ using hnn
    have hi := load_eq_ok.mp h
    rw [load_eq_ok, List.getElem?_append_left (List.getElem?_eq_some_iff.mp hi).1, hi]

/-- What can be written can be written with more cells behind the array, and leaves these. -/
theorem store_left {a a' : List α} {i : ℤ} {x : α} (h : store a i x = .ok a') (rest : List α) :
    store (a ++ rest) i x = .ok (a' ++ rest) := by
  obtain ⟨⟨hnn, hlt⟩, rfl⟩ := store_ok h
  lift i to ℕ using hnn
  rw [store_of_lt (by rw [List.length_append]; omega), Int.toNat_natCast,
    List.set_append_left _ _ (Int.ofNat_lt.mp hlt)]

/-! ### `int` arithmetic -/

/-- The values of a 32-bit `int`. -/
def IsInt (x : ℤ) : Prop := -2 ^ 31 ≤ x ∧ x < 2 ^ 31

instance (x : ℤ) : Decidable (IsInt x) := inferInstanceAs (Decidable (_ ∧ _))

/-- `a + b` on `int`. -/
def addInt (a b : ℤ) : C ℤ := if IsInt (a + b) then .ok (a + b) else .error .overflow

/-- `a - b` on `int`. -/
def subInt (a b : ℤ) : C ℤ := if IsInt (a - b) then .ok (a - b) else .error .overflow

/-- `a * b` on `int`. -/
def mulInt (a b : ℤ) : C ℤ := if IsInt (a * b) then .ok (a * b) else .error .overflow

/-- `a / b` on `int`, rounded towards zero. -/
def divInt (a b : ℤ) : C ℤ :=
  if b = 0 then .error .divByZero
  else if a = -2 ^ 31 ∧ b = -1 then .error .overflow
  else .ok (a.tdiv b)

/-- `a % b` on `int`: the sign follows `a`. -/
def modInt (a b : ℤ) : C ℤ :=
  if b = 0 then .error .divByZero
  else if a = -2 ^ 31 ∧ b = -1 then .error .overflow
  else .ok (a.tmod b)

theorem addInt_of_isInt {a b : ℤ} (h : IsInt (a + b)) : addInt a b = .ok (a + b) := if_pos h

theorem subInt_of_isInt {a b : ℤ} (h : IsInt (a - b)) : subInt a b = .ok (a - b) := if_pos h

theorem mulInt_of_isInt {a b : ℤ} (h : IsInt (a * b)) : mulInt a b = .ok (a * b) := if_pos h

theorem addInt_ok {a b c : ℤ} (h : addInt a b = .ok c) : IsInt (a + b) ∧ c = a + b := by
  rw [addInt] at h
  split at h
  · next hint => exact ⟨hint, (Except.ok.inj h).symm⟩
  · cases h

theorem subInt_ok {a b c : ℤ} (h : subInt a b = .ok c) : IsInt (a - b) ∧ c = a - b := by
  rw [subInt] at h
  split at h
  · next hint => exact ⟨hint, (Except.ok.inj h).symm⟩
  · cases h

theorem mulInt_ok {a b c : ℤ} (h : mulInt a b = .ok c) : IsInt (a * b) ∧ c = a * b := by
  rw [mulInt] at h
  split at h
  · next hint => exact ⟨hint, (Except.ok.inj h).symm⟩
  · cases h

/-- The quotient of a dividend that is not negative. -/
theorem divInt_of_ne_zero {a b : ℤ} (ha : 0 ≤ a) (hb : b ≠ 0) : divInt a b = .ok (a.tdiv b) := by
  have hneg : ¬ (a = -2 ^ 31 ∧ b = -1) := by
    rintro ⟨h, -⟩
    omega
  rw [divInt, if_neg hb, if_neg hneg]

theorem divInt_ok {a b c : ℤ} (h : divInt a b = .ok c) : b ≠ 0 ∧ c = a.tdiv b := by
  rw [divInt] at h
  split at h
  · cases h
  · next hb =>
    split at h
    · cases h
    · exact ⟨hb, (Except.ok.inj h).symm⟩

/-- On a dividend that is not negative and a positive divisor `%` is the remainder of `ℕ`. -/
theorem modInt_natCast (a : ℕ) {b : ℕ} (hb : 0 < b) :
    modInt a b = .ok (((a % b : ℕ) : ℤ)) := by
  have hb0 : (b : ℤ) ≠ 0 := by omega
  have hneg : ¬ ((a : ℤ) = -2 ^ 31 ∧ (b : ℤ) = -1) := by rintro ⟨-, h⟩; omega
  rw [modInt, if_neg hb0, if_neg hneg, Int.ofNat_tmod]

/-! ### Loops -/

/-- How one iteration of a loop ends: with another one to come, or out of the loop. -/
inductive Iter (σ ρ : Type u) where
  | next (s : σ)
  | done (r : ρ)

/-- `while (1) body`, for at most `fuel` iterations. -/
def loop (body : σ → C (Iter σ ρ)) : ℕ → σ → C ρ
  | 0, _ => .error .outOfFuel
  | fuel + 1, s =>
    match body s with
    | .error e => .error e
    | .ok (.done r) => .ok r
    | .ok (.next s') => loop body fuel s'

theorem loop_done {body : σ → C (Iter σ ρ)} {s : σ} {r : ρ} (h : body s = .ok (.done r))
    (fuel : ℕ) : loop body (fuel + 1) s = .ok r := by
  rw [loop, h]

theorem loop_next {body : σ → C (Iter σ ρ)} {s s' : σ} (h : body s = .ok (.next s'))
    (fuel : ℕ) : loop body (fuel + 1) s = loop body fuel s' := by
  rw [loop, h]

/-- An iteration that computes what it goes on with. -/
theorem loop_bind_next {body : σ → C (Iter σ ρ)} {s : σ} {x : C β} {st : β → σ}
    (h : body s = (x >>= fun y => .ok (.next (st y)))) (fuel : ℕ) :
    loop body (fuel + 1) s = (x >>= fun y => loop body fuel (st y)) := by
  cases x with
  | error e => rw [loop, h]; rfl
  | ok y => exact loop_next h fuel

/-- A loop with a result is left at once, or goes on to a loop with this result. -/
theorem loop_ok_cases {body : σ → C (Iter σ ρ)} {fuel : ℕ} {s : σ} {r : ρ}
    (h : loop body (fuel + 1) s = .ok r) :
    body s = .ok (.done r) ∨ ∃ s', body s = .ok (.next s') ∧ loop body fuel s' = .ok r := by
  rw [loop] at h
  rcases hbody : body s with e | (s' | r')
  · rw [hbody] at h
    cases h
  · rw [hbody] at h
    exact Or.inr ⟨s', rfl, h⟩
  · rw [hbody] at h
    cases h
    exact Or.inl rfl

/-- More fuel does not change a result. -/
theorem loop_ok_mono {body : σ → C (Iter σ ρ)} {r : ρ} : ∀ {fuel fuel' : ℕ} {s : σ},
    loop body fuel s = .ok r → fuel ≤ fuel' → loop body fuel' s = .ok r
  | 0, _, _, h, _ => by cases h
  | fuel + 1, 0, _, _, hle => absurd hle (Nat.not_succ_le_zero fuel)
  | fuel + 1, fuel' + 1, s, h, hle => by
    rcases loop_ok_cases h with hdone | ⟨s', hnext, hrest⟩
    · exact loop_done hdone fuel'
    · rw [loop_next hnext]
      exact loop_ok_mono hrest (Nat.le_of_succ_le_succ hle)

/-- A loop that goes through the states `st 0`, `st 1`, ... and is left in the `m`-th of them. -/
theorem loop_steps {body : σ → C (Iter σ ρ)} {r : ρ} : ∀ (fuel m : ℕ) (st : ℕ → σ),
    (∀ s < m, body (st s) = .ok (.next (st (s + 1)))) → body (st m) = .ok (.done r) → m < fuel →
      loop body fuel (st 0) = .ok r
  | 0, _, _, _, _, hfuel => absurd hfuel (Nat.not_lt_zero _)
  | fuel + 1, 0, _, _, hdone, _ => loop_done hdone fuel
  | fuel + 1, m + 1, st, hnext, hdone, hfuel => by
    rw [loop_next (hnext 0 (Nat.succ_pos m))]
    exact loop_steps fuel m (fun s => st (s + 1)) (fun s hs => hnext (s + 1) (Nat.succ_lt_succ hs))
      hdone (Nat.lt_of_succ_lt_succ hfuel)

/-- SIMULATE: when every iteration follows an abstract machine `next`, along which `μ` falls, and
    the loop is left where `next` has nothing more to do, the loop ends in the final state of the
    abstract run. -/
theorem loop_simulates {body : σ → C (Iter σ ρ)} {next : τ → Option τ} {R : σ → τ → Prop}
    {P : ρ → τ → Prop} (μ : τ → ℕ)
    (hnext : ∀ s t t', R s t → next t = some t' →
      ∃ s', body s = .ok (.next s') ∧ R s' t' ∧ μ t' < μ t)
    (hdone : ∀ s t, R s t → next t = none → ∃ r, body s = .ok (.done r) ∧ P r t) :
    ∀ (fuel : ℕ) (s : σ) (t : τ), R s t → μ t < fuel →
      ∃ r t', loop body fuel s = .ok r ∧ Relation.ReflTransGen (fun a b => next a = some b) t t' ∧
        next t' = none ∧ P r t'
  | 0, _, _, _, h => absurd h (Nat.not_lt_zero _)
  | fuel + 1, s, t, hR, h => by
    cases ht : next t with
    | none =>
      obtain ⟨r, hb, hr⟩ := hdone s t hR ht
      exact ⟨r, t, loop_done hb fuel, .refl, ht, hr⟩
    | some t' =>
      obtain ⟨s', hb, hR', hlt⟩ := hnext s t t' hR ht
      obtain ⟨r, t'', hl, hrun, hend, hr⟩ :=
        loop_simulates μ hnext hdone fuel s' t' hR' (by omega)
      exact ⟨r, t'', by rw [loop_next hb, hl], .head ht hrun, hend, hr⟩

/-- SIMULATE: two loops that go on and stop together, from every state where `I` holds, have the same
    results, with any fuel. -/
theorem loop_map {body : σ → C (Iter σ ρ)} {body' : τ → C (Iter τ β)} {I : σ → Prop} (f : σ → τ)
    (g : ρ → β)
    (hstep : ∀ s, I s → (∃ r, body s = .ok (.done r) ∧ body' (f s) = .ok (.done (g r))) ∨
      ∃ s', body s = .ok (.next s') ∧ body' (f s) = .ok (.next (f s')) ∧ I s') :
    ∀ (fuel : ℕ) (s : σ), I s → loop body' fuel (f s) = (loop body fuel s).map g
  | 0, _, _ => rfl
  | fuel + 1, s, hI => by
    rcases hstep s hI with ⟨r, hdone, hdone'⟩ | ⟨s', hnext, hnext', hI'⟩
    · rw [loop_done hdone, loop_done hdone']
      rfl
    · rw [loop_next hnext, loop_next hnext', loop_map f g hstep fuel s' hI']

/-- A deterministic machine has one final state. -/
theorem final_unique {next : τ → Option τ} {t t₁ t₂ : τ}
    (h₁ : Relation.ReflTransGen (fun a b => next a = some b) t t₁) (hend₁ : next t₁ = none)
    (h₂ : Relation.ReflTransGen (fun a b => next a = some b) t t₂) (hend₂ : next t₂ = none) :
    t₁ = t₂ := by
  have hdet : Relator.RightUnique (fun a b => next a = some b) :=
    fun a b c hb hc => Option.some.inj (hb.symm.trans hc)
  have hstuck : ∀ {a b : τ}, next a = none →
      Relation.ReflTransGen (fun a b => next a = some b) a b → a = b := by
    intro a b ha h
    rcases h.cases_head with rfl | ⟨c, hc, -⟩
    · rfl
    · rw [ha] at hc; cases hc
  rcases Relation.ReflTransGen.total_of_right_unique hdet h₁ h₂ with h | h
  · exact hstuck hend₁ h
  · exact (hstuck hend₂ h).symm

/-- `for (i = 0; i < n; i++) f`: an invariant indexed by `i` reaches `n`. -/
theorem foldlM_range_total {f : σ → ℕ → C σ} {I : ℕ → σ → Prop} :
    ∀ (n : ℕ) (s : σ), I 0 s →
      (∀ i s, i < n → I i s → ∃ s', f s i = .ok s' ∧ I (i + 1) s') →
      ∃ s', (List.range n).foldlM f s = .ok s' ∧ I n s'
  | 0, s, h0, _ => ⟨s, rfl, h0⟩
  | n + 1, s, h0, hstep => by
    obtain ⟨s₁, h₁, hi₁⟩ :=
      foldlM_range_total n s h0 (fun i s hi => hstep i s (Nat.lt_succ_of_lt hi))
    obtain ⟨s₂, h₂, hi₂⟩ := hstep n s₁ (Nat.lt_succ_self n) hi₁
    refine ⟨s₂, ?_, hi₂⟩
    rw [List.range_succ, List.foldlM_append, h₁, ok_bind, List.foldlM_cons, h₂, ok_bind]
    rfl

/-- SIMULATE: a loop whose turns another loop follows, through `f`, gives what the other makes of its
    result. -/
theorem foldlM_map_ok {step : σ → ι → C σ} {step' : τ → ι → C τ} (f : σ → τ)
    (hstep : ∀ s i s', step s i = .ok s' → step' (f s) i = .ok (f s')) {s' : σ} {is : List ι} :
    ∀ {s : σ}, is.foldlM step s = .ok s' → is.foldlM step' (f s) = .ok (f s') := by
  induction is with
  | nil =>
    intro s h
    cases h
    rfl
  | cons i is ih =>
    intro s h
    rw [List.foldlM_cons] at h
    obtain ⟨s₁, hturn, hrest⟩ := exists_of_bind_ok h
    rw [List.foldlM_cons, hstep s i s₁ hturn, ok_bind]
    exact ih hrest

/-- One turn of `for (int i = from; i < n; i++) body`, where the body assigns neither `i` nor `n`. -/
def forBody (n : ℤ) (body : σ → ℤ → C σ) (t : σ × ℤ) : C (Iter (σ × ℤ) σ) :=
  if t.2 < n then do
    let s ← body t.1 t.2
    .ok (.next (s, t.2 + 1))
  else .ok (.done t.1)

/-- The loop, from `i` on. -/
def forLoop (n : ℤ) (body : σ → ℤ → C σ) (fuel : ℕ) (i : ℤ) (s : σ) : C σ :=
  loop (forBody n body) fuel (s, i)

theorem forLoop_of_le {n i : ℤ} (body : σ → ℤ → C σ) (s : σ) {fuel : ℕ} (hfuel : 0 < fuel)
    (hle : n ≤ i) : forLoop n body fuel i s = .ok s := by
  obtain ⟨fuel, rfl⟩ := Nat.exists_eq_add_of_lt hfuel
  have hturn : forBody n body (s, i) = .ok (.done s) := by rw [forBody, if_neg (not_lt.mpr hle)]
  exact loop_done hturn _

/-- An invariant indexed by the counter reaches the bound. -/
theorem forLoop_total {n : ℕ} (body : σ → ℤ → C σ) {I : ℕ → σ → Prop}
    (hstep : ∀ (i : ℕ) s, i < n → I i s → ∃ s', body s i = .ok s' ∧ I (i + 1) s') :
    ∀ {fuel i : ℕ} {s : σ}, i ≤ n → n < fuel + i → I i s →
      ∃ s', forLoop n body fuel i s = .ok s' ∧ I n s'
  | 0, i, s, hi, hfuel, _ => by omega
  | fuel + 1, i, s, hi, hfuel, hI => by
    rcases hi.eq_or_lt with rfl | hlt
    · exact ⟨s, forLoop_of_le body s (Nat.succ_pos fuel) le_rfl, hI⟩
    · obtain ⟨s', hbody, hI'⟩ := hstep i s hlt hI
      obtain ⟨s'', hrest, hend⟩ := forLoop_total body hstep (show i + 1 ≤ n from hlt)
        (show n < fuel + (i + 1) by omega) hI'
      have hturn : forBody n body (s, (i : ℤ)) = .ok (.next (s', ((i + 1 : ℕ) : ℤ))) := by
        rw [forBody, if_pos (by omega), hbody, ok_bind, Nat.cast_succ]
      exact ⟨s'', by rw [forLoop, loop_next hturn]; exact hrest, hend⟩

/-! ### Sequences of operations -/

/-- Run a sequence of operations, collecting their results in order. -/
def runOps (step : σ → ι → C (σ × ρ)) : σ → List ι → C (σ × List ρ)
  | s, [] => .ok (s, [])
  | s, i :: is => do
    let (s', r) ← step s i
    let (s'', rs) ← runOps step s' is
    .ok (s'', r :: rs)

/-- The same for an abstract machine, whose operations cannot fault. -/
def specOps (step : σ → ι → σ × ρ) : σ → List ι → σ × List ρ
  | s, [] => (s, [])
  | s, i :: is =>
    let (s', r) := step s i
    let (s'', rs) := specOps step s' is
    (s'', r :: rs)

/-- Every operation of a sequence is one that `P` allows in the abstract state it meets. -/
def Allowed (P : τ → ι → Prop) (spec : τ → ι → τ × ρ) : τ → List ι → Prop
  | _, [] => True
  | t, i :: is => P t i ∧ Allowed P spec (spec t i).1 is

theorem allowed_of_forall {P : τ → ι → Prop} {spec : τ → ι → τ × ρ} (h : ∀ t i, P t i) :
    ∀ (is : List ι) (t : τ), Allowed P spec t is
  | [], _ => trivial
  | i :: is, t => ⟨h t i, allowed_of_forall h is (spec t i).1⟩

/-- REFINE: when `R` relates the states and every allowed operation gives the abstract result and
    keeps `R`, a whole sequence of them does, and none of them faults. -/
theorem runOps_refines_allowed {step : σ → ι → C (σ × ρ)} {spec : τ → ι → τ × ρ}
    {P : τ → ι → Prop} {R : σ → τ → Prop}
    (hstep : ∀ s t i, R s t → P t i →
      ∃ s', step s i = .ok (s', (spec t i).2) ∧ R s' (spec t i).1) :
    ∀ (is : List ι) (s : σ) (t : τ), R s t → Allowed P spec t is →
      ∃ s', runOps step s is = .ok (s', (specOps spec t is).2) ∧ R s' (specOps spec t is).1
  | [], s, _, h, _ => ⟨s, rfl, h⟩
  | i :: is, s, t, h, ⟨hi, his⟩ => by
    obtain ⟨s₁, h₁, hR₁⟩ := hstep s t i h hi
    obtain ⟨s₂, h₂, hR₂⟩ := runOps_refines_allowed hstep is s₁ (spec t i).1 hR₁ his
    refine ⟨s₂, ?_, hR₂⟩
    simp only [runOps, h₁, h₂, ok_bind, specOps]

/-- REFINE: the same where every operation is allowed everywhere. -/
theorem runOps_refines {step : σ → ι → C (σ × ρ)} {spec : τ → ι → τ × ρ}
    {R : σ → τ → Prop}
    (hstep : ∀ s t i, R s t → ∃ s', step s i = .ok (s', (spec t i).2) ∧ R s' (spec t i).1)
    (is : List ι) (s : σ) (t : τ) (h : R s t) :
    ∃ s', runOps step s is = .ok (s', (specOps spec t is).2) ∧ R s' (specOps spec t is).1 :=
  runOps_refines_allowed (P := fun _ _ => True) (fun s t i hR _ => hstep s t i hR) is s t h
    (allowed_of_forall (fun _ _ => trivial) is t)

/-- The sequences of results that an abstract machine allows when it may choose: `spec t i r t'` says
    that operation `i` may take `t` to `t'` with result `r`. -/
inductive Runs (spec : τ → ι → ρ → τ → Prop) : τ → List ι → List ρ → τ → Prop
  | nil (t : τ) : Runs spec t [] [] t
  | cons {t t' t'' : τ} {i : ι} {is : List ι} {r : ρ} {rs : List ρ} (head : spec t i r t')
      (tail : Runs spec t' is rs t'') : Runs spec t (i :: is) (r :: rs) t''

/-- REFINE: when every operation, with `n` more to come, does something that the abstract machine allows
    and keeps the relation for `n`, a whole sequence does, and none of its operations faults. -/
theorem runOps_refines_runs {step : σ → ι → C (σ × ρ)} {spec : τ → ι → ρ → τ → Prop} {P : ι → Prop}
    {R : ℕ → σ → τ → Prop}
    (hstep : ∀ n s t i, R (n + 1) s t → P i →
      ∃ s' r t', step s i = .ok (s', r) ∧ spec t i r t' ∧ R n s' t') :
    ∀ (is : List ι) (s : σ) (t : τ), R is.length s t → (∀ i ∈ is, P i) →
      ∃ s' rs t', runOps step s is = .ok (s', rs) ∧ Runs spec t is rs t' ∧ R 0 s' t'
  | [], s, t, h, _ => ⟨s, [], t, rfl, .nil t, h⟩
  | i :: is, s, t, h, hP => by
    obtain ⟨s₁, r, t₁, h₁, hspec, hR₁⟩ := hstep is.length s t i h (hP i List.mem_cons_self)
    obtain ⟨s₂, rs, t₂, h₂, hruns, hR₂⟩ := runOps_refines_runs hstep is s₁ t₁ hR₁
      fun j hj => hP j (List.mem_cons_of_mem i hj)
    refine ⟨s₂, r :: rs, t₂, ?_, .cons hspec hruns, hR₂⟩
    simp only [runOps, h₁, h₂, ok_bind]

/-- The results of a sequence, without the state behind it. -/
def answers (step : σ → ι → C (σ × ρ)) (s : σ) (is : List ι) : C (List ρ) := do
  let (_, rs) ← runOps step s is
  .ok rs

theorem answers_of_runOps {step : σ → ι → C (σ × ρ)} {s s' : σ} {is : List ι} {rs : List ρ}
    (h : runOps step s is = .ok (s', rs)) : answers step s is = .ok rs := by
  rw [answers, h, ok_bind]

theorem answers_cons (step : σ → ι → C (σ × ρ)) (s : σ) (i : ι) (is : List ι) :
    answers step s (i :: is) =
      (step s i >>= fun p => answers step p.1 is >>= fun rs => .ok (p.2 :: rs)) := by
  rw [answers, runOps]
  rcases step s i with e | ⟨s', r⟩
  · rfl
  · simp only [ok_bind, answers]
    rcases runOps step s' is with e | ⟨s'', rs⟩ <;> rfl

/-- A sequence with results starts with an operation that has the first of them. -/
theorem answers_cons_ok {step : σ → ι → C (σ × ρ)} {s : σ} {i : ι} {is : List ι} {r : ρ}
    {rs : List ρ} (h : answers step s (i :: is) = .ok (r :: rs)) :
    ∃ s', step s i = .ok (s', r) ∧ answers step s' is = .ok rs := by
  rw [answers_cons] at h
  obtain ⟨⟨s', r'⟩, hhead, h⟩ := exists_of_bind_ok h
  obtain ⟨rs', htail, h⟩ := exists_of_bind_ok h
  cases h
  exact ⟨s', hhead, htail⟩

/-- SIMULATE: two states from which every operation faults, or gives one result and leads to two such
    states, have the same results for every sequence. -/
theorem answers_agree {step : σ → ι → C (σ × ρ)} {R : σ → σ → Prop}
    (hstep : ∀ s t i, R s t → (∃ e, step s i = .error e ∧ step t i = .error e) ∨
      ∃ s' t' r, step s i = .ok (s', r) ∧ step t i = .ok (t', r) ∧ R s' t') :
    ∀ (is : List ι) (s t : σ), R s t → answers step s is = answers step t is
  | [], _, _, _ => rfl
  | i :: is, s, t, h => by
    rw [answers_cons, answers_cons]
    rcases hstep s t i h with ⟨e, hs, ht⟩ | ⟨s', t', r, hs, ht, h'⟩
    · rw [hs, ht]
    · rw [hs, ht, ok_bind, ok_bind, answers_agree hstep is s' t' h']

end Schemes
