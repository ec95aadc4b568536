import Diversity.Schemes.Machine

/-! @src fast_leveldb/src/net.c (net_set_buffer_size) | name:Socket buffer size | scheme:machine |
    family:doubling

    `net_set_buffer_size` is to double a socket's buffer until it has `max` bytes, ten times at most.
    Its loop runs while the `size` declared before it is not 0, which it is from the start; the
    doubled value goes to another `size`, declared inside the body. So no turn is ever made and the
    buffer stays as it is. `growFrom` is the loop with any outer `size`: from any value but 0 it
    grows the buffer as it should. The kernel is a parameter.

        b = 2304, max = 4096        outer size 1:  2304 → 4608
                                    outer size 0:  2304                                     -/

namespace Diversity.Net
open Schemes

/-- `SO_SNDBUF` and `SO_RCVBUF`. -/
inductive SockOpt where
  | soSndbuf | soRcvbuf
  deriving DecidableEq, Repr

/-- `getsockopt` and `setsockopt` at `SOL_SOCKET`, on the states `K` of a kernel; `none` stands for a
    negative result. -/
structure Sockets (K : Type) where
  getsockopt : K → ℤ → SockOpt → Option ℤ
  setsockopt : K → ℤ → SockOpt → ℤ → Option K

/-- How the function ends: it returns, or `PFATAL` ends the program. -/
inductive Ended (K : Type) where
  | returned (kernel : K)
  | pfatal (what : String)

/-- What the loop changes: the kernel and `i`. `size` is the variable declared before the loop, which
    the condition reads. -/
structure Turn (K : Type) where
  kernel : K
  i : ℤ
  size : ℤ

variable {K : Type}

/-- One turn of `for (i = 0; i < 10 && size; i++)`. The `size` of the body is a `socklen_t`, and
    `setsockopt` reads an `int` from its four bytes. -/
def growBody (S : Sockets K) (cd max : ℤ) (flag : SockOpt) (t : Turn K) :
    C (Iter (Turn K) (Ended K)) :=
  if t.i < 10 ∧ t.size ≠ 0 then
    match S.getsockopt t.kernel cd flag with
    | none => .ok (.done (.pfatal "getsockopt(SOL_SOCKET)"))
    | some bef =>
      if max ≤ bef then .ok (.done (.returned t.kernel))
      else do
        let twice ← mulInt bef 2
        let size := BitVec.ofInt 32 twice
        match S.setsockopt t.kernel cd flag size.toInt with
        | none => .ok (.done (.returned t.kernel))
        | some kernel => .ok (.next { t with kernel, i := t.i + 1 })
  else .ok (.done (.returned t.kernel))

/-- The loop, for an outer `size` of any value. Eleven turns are enough for the ten of the counter. -/
def growFrom (S : Sockets K) (cd max : ℤ) (flag : SockOpt) (size : ℤ) (kernel : K) : C (Ended K) :=
  loop (growBody S cd max flag) 11 { kernel, i := 0, size }

/-- The option that `send` selects. -/
def bufferFlag (send : ℤ) : SockOpt := if send ≠ 0 then .soSndbuf else .soRcvbuf

/-- `net_set_buffer_size`: the loop from `int size = 0`. -/
def netSetBufferSize (S : Sockets K) (cd max send : ℤ) (kernel : K) : C (Ended K) :=
  growFrom S cd max (bufferFlag send) 0 kernel

/-! ### The size to reach -/

/-- The first of `b`, `2 b`, ..., `2^10 b` that is at least `max`, or `2^10 b` if none is. -/
def grown (b max : ℤ) : ℤ :=
  (((List.range 11).map fun j => b * 2 ^ j).find? fun v => max ≤ v).getD (b * 2 ^ 10)

/-- A kernel in which `setsockopt` succeeds and sets the size, and `getsockopt` reports it. -/
def Obliging (S : Sockets K) : Prop :=
  ∀ kernel cd flag v, ∃ kernel', S.setsockopt kernel cd flag v = some kernel' ∧
    S.getsockopt kernel' cd flag = some v

/-- `run` returns, with a buffer grown from `b` as far as `max` asks for. -/
def Grows (S : Sockets K) (cd max : ℤ) (flag : SockOpt) (b : ℤ) (run : C (Ended K)) : Prop :=
  ∃ kernel, run = .ok (.returned kernel) ∧ S.getsockopt kernel cd flag = some (grown b max)

theorem grown_eq_find (b max : ℤ) : grown b max =
    (((List.range 11).find? fun j => max ≤ b * 2 ^ j).map fun j => b * 2 ^ j).getD (b * 2 ^ 10) := by
  rw [grown, List.find?_map]
  rfl

/-- The size after `j` doublings, where those before were too small, and this one is not or is the
    last. -/
theorem grown_eq {b max : ℤ} {j : ℕ} (hj : j ≤ 10) (hsmall : ∀ i < j, b * 2 ^ i < max)
    (hend : max ≤ b * 2 ^ j ∨ j = 10) : grown b max = b * 2 ^ j := by
  rw [grown_eq_find]
  by_cases hle : max ≤ b * 2 ^ j
  · have hfind : (List.range 11).find? (fun i => decide (max ≤ b * 2 ^ i)) = some j := by
      rw [List.find?_range_eq_some]
      refine ⟨by simpa using hle, List.mem_range.mpr (by omega), ?_⟩
      intro i hi
      simpa using hsmall i hi
    rw [hfind]
    rfl
  · obtain rfl : j = 10 := hend.resolve_left hle
    have hnone : (List.range 11).find? (fun i => decide (max ≤ b * 2 ^ i)) = none := by
      rw [List.find?_eq_none]
      intro i hi
      rcases Nat.lt_or_ge i 10 with hlt | hge
      · simpa using hsmall i hlt
      · obtain rfl : i = 10 := by have := List.mem_range.mp hi; omega
        simpa using hle
    rw [hnone]
    rfl

theorem grown_enough (b max : ℤ) : max ≤ grown b max ∨ grown b max = b * 2 ^ 10 := by
  rw [grown_eq_find]
  cases hfind : (List.range 11).find? fun j => decide (max ≤ b * 2 ^ j) with
  | none => exact Or.inr rfl
  | some j => exact Or.inl (by simpa using List.find?_some hfind)

/-- A buffer that is too small is to grow. -/
theorem grown_ne {b max : ℤ} (hb : 0 < b) (hlt : b < max) : grown b max ≠ b := by
  rcases grown_enough b max with hle | hlast
  · omega
  · rw [hlast]
    omega

/-! ### The loop -/

section
variable {S : Sockets K} {cd max b size : ℤ} {flag : SockOpt} {kernel : K}

/-- Without an outer `size` no turn is made, whatever the kernel does. -/
theorem growFrom_zero (S : Sockets K) (cd max : ℤ) (flag : SockOpt) (kernel : K) :
    growFrom S cd max flag 0 kernel = .ok (.returned kernel) := by
  have hturn : growBody S cd max flag { kernel, i := 0, size := 0 } =
      .ok (.done (.returned kernel)) := by simp [growBody]
  exact loop_done hturn 10

/-- A turn that finds enough room is the last. -/
theorem growBody_enough {t : Turn K} (hi : t.i < 10) (hsize : t.size ≠ 0)
    (hget : S.getsockopt t.kernel cd flag = some b) (hle : max ≤ b) :
    growBody S cd max flag t = .ok (.done (.returned t.kernel)) := by
  rw [growBody, if_pos ⟨hi, hsize⟩, hget]
  simp [hle]

/-- A turn that finds too little doubles it. -/
theorem growBody_doubles (hS : Obliging S) {t : Turn K} (hi : t.i < 10) (hsize : t.size ≠ 0)
    (hget : S.getsockopt t.kernel cd flag = some b) (hlt : b < max) (hint : IsInt (b * 2)) :
    ∃ kernel', growBody S cd max flag t = .ok (.next { t with kernel := kernel', i := t.i + 1 }) ∧
      S.getsockopt kernel' cd flag = some (b * 2) := by
  obtain ⟨kernel', hset, hget'⟩ := hS t.kernel cd flag (b * 2)
  refine ⟨kernel', ?_, hget'⟩
  have hbits : (BitVec.ofInt 32 (b * 2)).toInt = b * 2 := by
    obtain ⟨hmin, hmax⟩ := hint
    rw [BitVec.toInt_ofInt]
    exact Int.bmod_eq_of_le (by norm_num; omega) (by norm_num; omega)
  rw [growBody, if_pos ⟨hi, hsize⟩, hget]
  simp only [if_neg (not_le.mpr hlt), mulInt_of_isInt hint, ok_bind, hbits, hset]

/-- After `j` doublings the remaining turns bring the buffer to its size. -/
theorem loop_grows (hS : Obliging S) (hsize : size ≠ 0) (hb : 0 < b) (hint : IsInt (b * 2 ^ 10)) :
    ∀ (n j : ℕ) (kernel : K), n + j = 10 → S.getsockopt kernel cd flag = some (b * 2 ^ j) →
      (∀ i < j, b * 2 ^ i < max) →
      Grows S cd max flag b (loop (growBody S cd max flag) (n + 1) { kernel, i := j, size })
  | 0, j, kernel, hn, hget, hsmall => by
    obtain rfl : j = 10 := by omega
    refine ⟨kernel, loop_done (by simp [growBody]) 0, ?_⟩
    rw [hget, grown_eq le_rfl hsmall (Or.inr rfl)]
  | n + 1, j, kernel, hn, hget, hsmall => by
    have hi : ((j : ℕ) : ℤ) < 10 := by omega
    rcases lt_or_ge (b * 2 ^ j) max with hlt | hle
    · have hnext : b * 2 ^ j * 2 = b * 2 ^ (j + 1) := by ring
      have hfits : IsInt (b * 2 ^ j * 2) := by
        have hpow : (2 : ℤ) ^ (j + 1) ≤ 2 ^ 10 := pow_le_pow_right₀ (by norm_num) (by omega)
        have hup : b * 2 ^ (j + 1) ≤ b * 2 ^ 10 := mul_le_mul_of_nonneg_left hpow hb.le
        have hpos : 0 < b * 2 ^ (j + 1) := by positivity
        rw [hnext]
        exact ⟨by omega, lt_of_le_of_lt hup hint.2⟩
      obtain ⟨kernel', hbody, hget'⟩ := growBody_doubles hS (t := ⟨kernel, j, size⟩) hi hsize hget
        hlt hfits
      rw [loop_next hbody]
      refine loop_grows hS hsize hb hint n (j + 1) kernel' (by omega) (hnext ▸ hget') ?_
      intro i hij
      rcases Nat.lt_succ_iff_lt_or_eq.mp hij with hlt' | rfl
      · exact hsmall i hlt'
      · exact hlt
    · refine ⟨kernel, loop_done (growBody_enough (t := ⟨kernel, j, size⟩) hi hsize hget hle) _, ?_⟩
      rw [hget, grown_eq (by omega) hsmall (Or.inl hle)]

/-- The loop does its work exactly from an outer `size` that is not 0, or where there is no work. -/
theorem growFrom_grows_iff (hS : Obliging S) (hget : S.getsockopt kernel cd flag = some b)
    (hb : 0 < b) (hint : IsInt (b * 2 ^ 10)) :
    Grows S cd max flag b (growFrom S cd max flag size kernel) ↔ size ≠ 0 ∨ max ≤ b := by
  by_cases hsize : size = 0
  · subst hsize
    rw [growFrom_zero]
    constructor
    · rintro ⟨kernel', hret, hend⟩
      cases hret
      rw [hget] at hend
      by_contra hnot
      exact grown_ne hb (by omega) (Option.some.inj hend).symm
    · intro h
      refine ⟨kernel, rfl, ?_⟩
      rw [hget, grown_eq (Nat.zero_le 10) (by simp) (Or.inl (by simpa using h)), pow_zero, mul_one]
  · have hgrows : Grows S cd max flag b (growFrom S cd max flag size kernel) :=
      loop_grows hS hsize hb hint 10 0 kernel rfl (by simpa using hget) (by simp)
    exact iff_of_true hgrows (Or.inl hsize)

end

/-! ### The function -/

/-- CORRECT only where there is nothing to do: with a kernel that does what it is asked, a buffer of
    `b` bytes ends at the first of its doublings that is at least `max`, or the tenth, exactly if it
    has `max` bytes already. -/
theorem netSetBufferSize_grows_iff (S : Sockets K) (hS : Obliging S) (cd max send b : ℤ) (kernel : K)
    (hget : S.getsockopt kernel cd (bufferFlag send) = some b) (hb : 0 < b)
    (hint : IsInt (b * 2 ^ 10)) :
    Grows S cd max (bufferFlag send) b (netSetBufferSize S cd max send kernel) ↔ max ≤ b := by
  rw [netSetBufferSize, growFrom_grows_iff hS hget hb hint]
  simp

/-- A kernel that keeps a size for each socket and option. -/
def keepingSockets : Sockets (ℤ → SockOpt → ℤ) where
  getsockopt sizes cd flag := some (sizes cd flag)
  setsockopt sizes cd flag v := some (Function.update sizes cd (Function.update (sizes cd) flag v))

theorem keepingSockets_obliging : Obliging keepingSockets := by
  intro sizes cd flag v
  refine ⟨_, rfl, ?_⟩
  simp [keepingSockets]

/-- The receiver asks for 4096 bytes on a socket that has 212992. -/
theorem netSetBufferSize_grows_large : Grows keepingSockets 3 4096 .soRcvbuf 212992
    (netSetBufferSize keepingSockets 3 4096 0 fun _ _ => 212992) :=
  (netSetBufferSize_grows_iff keepingSockets keepingSockets_obliging 3 4096 0 212992 _ rfl
    (by decide) (by decide)).mpr (by decide)

/-- On a socket that has 2304 bytes the same request leaves 2304, where one doubling was due. -/
theorem small_buffer_not_grown : Obliging keepingSockets ∧
    netSetBufferSize keepingSockets 3 4096 0 (fun _ _ => 2304) = .ok (.returned fun _ _ => 2304) ∧
    grown 2304 4096 = 4608 ∧
    ¬ Grows keepingSockets 3 4096 .soRcvbuf 2304
      (netSetBufferSize keepingSockets 3 4096 0 fun _ _ => 2304) := by
  refine ⟨keepingSockets_obliging, growFrom_zero .., by decide, ?_⟩
  rintro ⟨kernel, hret, hend⟩
  rw [netSetBufferSize, growFrom_zero] at hret
  cases hret
  exact absurd hend (by decide)

end Diversity.Net
