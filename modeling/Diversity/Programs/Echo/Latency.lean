import Mathlib

/-! @src client_server/msg_hdr/src/client.c | name:Latency accounting | scheme:fold | family:client

    The client sends its clock, gets it back in the reply and adds what has passed since to `stat`.
    `timespec_diff` borrows a second when the nanoseconds have gone down, and it returns the order of
    the seconds alone. A reply whose clock went back within one second is therefore counted, and its
    negative difference is added to an unsigned sum:

        end.sec < start.sec                          excluded
        end.sec = start.sec, end.nsec < start.nsec   counted, with latency + 2 ^ 64 - …
        end ≥ start                                  counted                              -/

namespace Diversity.Latency

/-- `struct timespec`. -/
structure Timespec where
  tvSec : ℤ
  tvNsec : ℤ
  deriving DecidableEq, Repr

/-- `0 <= tv_nsec < NS_PER_S`. -/
def Timespec.Normalised (t : Timespec) : Prop := 0 ≤ t.tvNsec ∧ t.tvNsec < 1000000000

instance (t : Timespec) : Decidable t.Normalised := inferInstanceAs (Decidable (_ ∧ _))

/-- The time in nanoseconds. -/
def Timespec.nanos (t : Timespec) : ℤ := t.tvSec * 1000000000 + t.tvNsec

/-- `timespec_diff`, with `*result`. -/
def timespecDiff (fin start : Timespec) : Timespec × ℤ :=
  let result : Timespec :=
    if fin.tvNsec < start.tvNsec then
      ⟨fin.tvSec - start.tvSec - 1, 1000000000 + fin.tvNsec - start.tvNsec⟩
    else ⟨fin.tvSec - start.tvSec, fin.tvNsec - start.tvNsec⟩
  (result, if fin.tvSec < start.tvSec then 1 else 0)

/-- `stat`. -/
structure Stat where
  nbPackets : UInt64
  latency : UInt64
  deriving DecidableEq, Repr

/-- A reply: the time it echoes and the clock when it is handled. -/
structure Reply where
  start : Timespec
  fin : Timespec
  startNormalised : start.Normalised
  finNormalised : fin.Normalised

/-- A `long` as an operand of unsigned arithmetic. -/
def uint64 (x : ℤ) : UInt64 := UInt64.ofNat (x % 2 ^ 64).toNat

/-- `on_read`, from `timespec_diff` on. -/
def onRead (stat : Stat) (r : Reply) : Stat :=
  let (result, negative) := timespecDiff r.fin r.start
  if negative < 1 then
    { latency := stat.latency + uint64 (result.tvSec * 1000000000 + result.tvNsec)
      nbPackets := stat.nbPackets + 1 }
  else stat

/-- `on_perf`, after it has printed the average. -/
def onPerf (_ : Stat) : Stat := { latency := 0, nbPackets := 0 }

inductive Event where
  | read (r : Reply)
  | perf

def Event.handle (stat : Stat) : Event → Stat
  | .read r => onRead stat r
  | .perf => onPerf stat

/-- `stat` after some events; it is static, so it starts at zero. -/
def account (events : List Event) : Stat := events.foldl Event.handle ⟨0, 0⟩

/-- The replies since the last `on_perf`. -/
def sinceReset (events : List Event) : List Reply :=
  events.foldl (fun rs e => match e with
    | .read r => rs ++ [r]
    | .perf => []) []

/-- What has passed, in nanoseconds. -/
def Reply.elapsed (r : Reply) : ℤ := r.fin.nanos - r.start.nanos

/-- The replies that are to be counted: those with `end >= start`. -/
def forward (rs : List Reply) : List Reply := rs.filter fun r => 0 ≤ r.elapsed

/-- Their latencies. -/
def total (rs : List Reply) : ℤ := ((forward rs).map Reply.elapsed).sum

/-- `stat` accounts for exactly the replies `rs`. -/
structure Exact (rs : List Reply) (stat : Stat) : Prop where
  nbPackets : stat.nbPackets.toNat = (forward rs).length
  latency : (stat.latency.toNat : ℤ) = total rs

/-- The clock went back within one second. -/
def Reply.SteppedBack (r : Reply) : Prop :=
  r.fin.tvSec = r.start.tvSec ∧ r.fin.tvNsec < r.start.tvNsec

/-! ### One reply -/

/-- Borrow or not, the result is the difference. -/
theorem timespecDiff_nanos (fin start : Timespec) :
    (timespecDiff fin start).1.nanos = fin.nanos - start.nanos := by
  simp only [timespecDiff, Timespec.nanos]
  split_ifs
  · simp only
    ring
  · simp only
    ring

theorem onRead_excluded {r : Reply} (h : r.fin.tvSec < r.start.tvSec) (stat : Stat) :
    onRead stat r = stat := by
  simp [onRead, timespecDiff, h]

theorem onRead_counted {r : Reply} (h : ¬ r.fin.tvSec < r.start.tvSec) (stat : Stat) :
    onRead stat r = ⟨stat.nbPackets + 1, stat.latency + uint64 r.elapsed⟩ := by
  have hsum : (timespecDiff r.fin r.start).1.tvSec * 1000000000 +
      (timespecDiff r.fin r.start).1.tvNsec = r.elapsed := timespecDiff_nanos r.fin r.start
  have hflag : (timespecDiff r.fin r.start).2 < 1 := by simp [timespecDiff, h]
  simp only [onRead, if_pos hflag, hsum]

/-- Replies that are excluded have gone back. -/
theorem elapsed_neg_of_sec_lt {r : Reply} (h : r.fin.tvSec < r.start.tvSec) : r.elapsed < 0 := by
  obtain ⟨hs, -⟩ := r.startNormalised
  obtain ⟨-, hf⟩ := r.finNormalised
  simp only [Reply.elapsed, Timespec.nanos]
  omega

/-- Replies that are counted have not, unless it was within one second. -/
theorem elapsed_nonneg_iff {r : Reply} (h : ¬ r.fin.tvSec < r.start.tvSec) :
    0 ≤ r.elapsed ↔ ¬ r.SteppedBack := by
  obtain ⟨hs, hs'⟩ := r.startNormalised
  obtain ⟨hf, hf'⟩ := r.finNormalised
  simp only [Reply.elapsed, Timespec.nanos, Reply.SteppedBack]
  omega

theorem forward_concat (rs : List Reply) (r : Reply) :
    forward (rs ++ [r]) = if 0 ≤ r.elapsed then forward rs ++ [r] else forward rs := by
  rw [forward, List.filter_append]
  by_cases h : 0 ≤ r.elapsed <;> simp [h, forward]

theorem total_concat (rs : List Reply) (r : Reply) :
    total (rs ++ [r]) = if 0 ≤ r.elapsed then total rs + r.elapsed else total rs := by
  rw [total, forward_concat]
  by_cases h : 0 ≤ r.elapsed <;> simp [h, total]

theorem total_nonneg (rs : List Reply) : 0 ≤ total rs := by
  refine List.sum_nonneg fun x hx => ?_
  obtain ⟨r, hr, rfl⟩ := List.mem_map.mp hx
  simpa using (List.mem_filter.mp hr).2

theorem toNat_uint64 {x : ℤ} (h : 0 ≤ x) (h' : x < 2 ^ 64) : ((uint64 x).toNat : ℤ) = x := by
  rw [uint64, UInt64.toNat_ofNat']
  omega

/-- A reply that did not go back within a second keeps the account exact, as long as neither number
    overflows. -/
theorem exact_onRead {rs : List Reply} {stat : Stat} (h : Exact rs stat) {r : Reply}
    (hr : ¬ r.SteppedBack) (hcount : (forward (rs ++ [r])).length < 2 ^ 64)
    (hsum : total (rs ++ [r]) < 2 ^ 63) : Exact (rs ++ [r]) (onRead stat r) := by
  by_cases hsec : r.fin.tvSec < r.start.tvSec
  · have hneg : ¬ 0 ≤ r.elapsed := not_le.mpr (elapsed_neg_of_sec_lt hsec)
    rw [onRead_excluded hsec]
    exact ⟨by rw [forward_concat, if_neg hneg, h.nbPackets],
      by rw [total_concat, if_neg hneg, h.latency]⟩
  · have hnonneg : 0 ≤ r.elapsed := (elapsed_nonneg_iff hsec).mpr hr
    have htotal := total_nonneg rs
    have hnb := h.nbPackets
    have hlat := h.latency
    rw [forward_concat, if_pos hnonneg, List.length_append, List.length_singleton] at hcount
    rw [total_concat, if_pos hnonneg] at hsum
    rw [onRead_counted hsec]
    refine ⟨?_, ?_⟩
    · have hone : (1 : UInt64).toNat = 1 := rfl
      rw [forward_concat, if_pos hnonneg, List.length_append, List.length_singleton, UInt64.toNat_add,
        hone, hnb, Nat.mod_eq_of_lt hcount]
    · have helapsed := toNat_uint64 hnonneg (by omega)
      rw [total_concat, if_pos hnonneg, UInt64.toNat_add]
      omega

/-- One that did go back within a second is counted all the same. -/
theorem not_exact_onRead {rs : List Reply} {stat : Stat} (h : Exact rs stat) {r : Reply}
    (hr : r.SteppedBack) : ¬ Exact (rs ++ [r]) (onRead stat r) := by
  intro h'
  have hsec : ¬ r.fin.tvSec < r.start.tvSec := by rw [hr.1]; exact lt_irrefl _
  have hneg : ¬ 0 ≤ r.elapsed := fun hnonneg => (elapsed_nonneg_iff hsec).mp hnonneg hr
  have hnb := h'.nbPackets
  have hone : (1 : UInt64).toNat = 1 := rfl
  have hlt := stat.nbPackets.toNat_lt
  rw [onRead_counted hsec, forward_concat, if_neg hneg, ← h.nbPackets, UInt64.toNat_add, hone] at hnb
  omega

/-! ### Sequences of events -/

theorem account_concat (events : List Event) (e : Event) :
    account (events ++ [e]) = e.handle (account events) := by
  rw [account, List.foldl_append]
  rfl

theorem sinceReset_read (events : List Event) (r : Reply) :
    sinceReset (events ++ [.read r]) = sinceReset events ++ [r] := by
  rw [sinceReset, List.foldl_append]
  rfl

theorem sinceReset_perf (events : List Event) : sinceReset (events ++ [.perf]) = [] := by
  rw [sinceReset, List.foldl_append]
  rfl

theorem exact_nil : Exact [] ⟨0, 0⟩ := ⟨rfl, rfl⟩

/-- Along events without a step back within a second the account stays exact. -/
theorem exact_account {events : List Event} (hback : ∀ r, .read r ∈ events → ¬ r.SteppedBack)
    (hcount : ∀ pre, pre <+: events → (forward (sinceReset pre)).length < 2 ^ 64)
    (hsum : ∀ pre, pre <+: events → total (sinceReset pre) < 2 ^ 63) :
    Exact (sinceReset events) (account events) := by
  induction events using List.reverseRecOn with
  | nil => exact exact_nil
  | append_singleton events e ih =>
    have hinit : ∀ pre, pre <+: events → pre <+: events ++ [e] := fun pre h =>
      h.trans (List.prefix_append events [e])
    have ih := ih (fun r hr => hback r (List.mem_append_left _ hr)) (fun pre h => hcount pre (hinit pre h))
      (fun pre h => hsum pre (hinit pre h))
    have hcount' := hcount _ (List.prefix_refl _)
    have hsum' := hsum _ (List.prefix_refl _)
    rw [account_concat]
    cases e with
    | read r =>
      rw [sinceReset_read] at hcount' hsum' ⊢
      exact exact_onRead ih (hback r (by simp)) hcount' hsum'
    | perf =>
      rw [sinceReset_perf]
      exact exact_nil

/-- CORRECT: with latencies that sum up to less than `2 ^ 63` between two resets, the account is exact
    after every event if and only if no reply comes with a clock stepped back within one second and
    less than `2 ^ 64` replies are to be counted between two resets. -/
theorem latency_exact (events : List Event)
    (hsum : ∀ pre, pre <+: events → total (sinceReset pre) < 2 ^ 63) :
    (∀ pre, pre <+: events → Exact (sinceReset pre) (account pre)) ↔
      (∀ r, .read r ∈ events → ¬ r.SteppedBack) ∧
      ∀ pre, pre <+: events → (forward (sinceReset pre)).length < 2 ^ 64 := by
  constructor
  · intro h
    refine ⟨fun r hr hback => ?_, fun pre hpre => ?_⟩
    · obtain ⟨pre, post, rfl⟩ := List.append_of_mem hr
      have hbefore := h pre (List.prefix_append _ _)
      have hafter := h (pre ++ [.read r]) ⟨post, by simp⟩
      rw [sinceReset_read, account_concat] at hafter
      exact not_exact_onRead hbefore hback hafter
    · rw [← (h pre hpre).nbPackets]
      exact (account pre).nbPackets.toNat_lt
  · rintro ⟨hback, hcount⟩ pre hpre
    have hin : ∀ pre', pre' <+: pre → pre' <+: events := fun _ h => h.trans hpre
    exact exact_account (fun r hr => hback r (hpre.subset hr)) (fun pre' h => hcount pre' (hin pre' h))
      (fun pre' h => hsum pre' (hin pre' h))

/-- Sent at 5.900000000, handled at 6.100000000. -/
def acrossSecond : Reply where
  start := ⟨5, 900000000⟩
  fin := ⟨6, 100000000⟩
  startNormalised := by decide
  finNormalised := by decide

theorem latency_exact_acrossSecond : account [.read acrossSecond] = ⟨1, 200000000⟩ ∧
    ∀ pre, pre <+: [.read acrossSecond, .perf] → Exact (sinceReset pre) (account pre) := by
  have hinits : ∀ pre, pre <+: [Event.read acrossSecond, .perf] →
      pre = [] ∨ pre = [.read acrossSecond] ∨ pre = [.read acrossSecond, .perf] := by
    intro pre hpre
    simpa using (List.mem_inits _ _).mpr hpre
  refine ⟨rfl, (latency_exact _ fun pre hpre => ?_).mpr ⟨?_, fun pre hpre => ?_⟩⟩
  · rcases hinits pre hpre with rfl | rfl | rfl <;> decide
  · simp [Reply.SteppedBack, acrossSecond]
  · rcases hinits pre hpre with rfl | rfl | rfl <;> decide

/-- Sent at 5.000000500, handled at 5.000000400. -/
def stepBack : Reply where
  start := ⟨5, 500⟩
  fin := ⟨5, 400⟩
  startNormalised := by decide
  finNormalised := by decide

/-- It is counted, as a latency of `2 ^ 64 - 100` nanoseconds. -/
theorem stepBack_counted : account [.read stepBack] = ⟨1, 18446744073709551516⟩ ∧
    stepBack.elapsed = -100 ∧ forward (sinceReset [.read stepBack]) = [] ∧
    ¬ Exact (sinceReset [.read stepBack]) (account [.read stepBack]) :=
  ⟨rfl, rfl, rfl, not_exact_onRead exact_nil ⟨rfl, by decide⟩⟩

end Diversity.Latency
