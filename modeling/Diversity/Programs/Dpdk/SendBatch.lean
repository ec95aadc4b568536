import Diversity.Schemes.Machine

/-! @src dpdk/gen_packet/main.c (send_batch) | name:Sending a batch | scheme:machine | family:driver

    `send_batch` offers a batch of mbufs to the driver, which takes the first `nb_tx` of them and owns
    these from then on. The loop goes on while `nb_tx == count`, that is while everything was taken,
    and it offers the same `count` mbufs from the start again:

        nb_tx = count   →  once more, with mbufs that are the driver's
        nb_tx < count   →  return, with mbufs that nobody has taken            -/

namespace Diversity.Dpdk
open Schemes

/-- State of the loop: the bursts so far, the mbufs handed over, in order, and `counter`. -/
structure Sending where
  bursts : ℕ
  owned : List ℕ
  counter : UInt32
  deriving DecidableEq, Repr

/-- What a burst offers: `rte_eth_tx_burst` takes the number as a `uint16_t`. -/
def offered (mbufs : List ℕ) (count : ℤ) : List ℕ := mbufs.take (count % 2 ^ 16).toNat

/-- One turn of `do … while (nb_tx == count)`; `driver k` is what burst `k` returns. -/
def sendBody (driver : ℕ → UInt16) (mbufs : List ℕ) (count : ℤ) (s : Sending) :
    C (Iter Sending Sending) :=
  let nbTx := driver s.bursts
  let s := { s with
    bursts := s.bursts + 1
    owned := s.owned ++ (offered mbufs count).take nbTx.toNat
    counter := s.counter + nbTx.toUInt32 }
  if (nbTx.toNat : ℤ) = count then .ok (.next s) else .ok (.done s)

/-- `send_batch`, on a batch of which the driver owns nothing. -/
def sendBatch (fuel : ℕ) (driver : ℕ → UInt16) (mbufs : List ℕ) (count : ℤ) (counter : UInt32) :
    C Sending :=
  loop (sendBody driver mbufs count) fuel ⟨0, [], counter⟩

/-- Each packet is transmitted exactly once: no burst offers what the driver owns, and on return all
    mbufs are handed over and counted. -/
structure ExactlyOnce (driver : ℕ → UInt16) (mbufs : List ℕ) (count : ℤ) (counter : UInt32) :
    Prop where
  fresh : ∀ s, Relation.ReflTransGen (fun a b => sendBody driver mbufs count a = .ok (.next b))
    ⟨0, [], counter⟩ s → ∀ m ∈ offered mbufs count, m ∉ s.owned
  handedOver : ∀ fuel s, sendBatch fuel driver mbufs count counter = .ok s → s.owned.Perm mbufs
  counted : ∀ fuel s, sendBatch fuel driver mbufs count counter = .ok s →
    s.counter = counter + UInt32.ofNat count.toNat

/-- What the driver may answer to an offer. -/
def Fair (driver : ℕ → UInt16) (mbufs : List ℕ) (count : ℤ) : Prop :=
  ∀ k, (driver k).toNat ≤ (offered mbufs count).length

variable {driver : ℕ → UInt16} {mbufs : List ℕ} {count : ℤ} {counter : UInt32}

/-- A batch that is taken at once is offered again. -/
theorem not_exactlyOnce_of_eq (hcount : 1 ≤ count) (hlen : (mbufs.length : ℤ) = count)
    (hall : ((driver 0).toNat : ℤ) = count) : ¬ ExactlyOnce driver mbufs count counter := by
  intro h
  have hsmall := (driver 0).toNat_lt
  have hoffered : offered mbufs count = mbufs := by
    rw [offered, List.take_of_length_le (by omega)]
  have hstep : sendBody driver mbufs count ⟨0, [], counter⟩ =
      .ok (.next ⟨1, mbufs, counter + (driver 0).toUInt32⟩) := by
    have htake : mbufs.take (driver 0).toNat = mbufs := List.take_of_length_le (by omega)
    simp only [sendBody, if_pos hall, hoffered, htake, List.nil_append]
  obtain ⟨m, hm⟩ := List.exists_mem_of_length_pos (by omega : 0 < mbufs.length)
  have hfresh := h.fresh _ (Relation.ReflTransGen.single hstep) m
  rw [hoffered] at hfresh
  exact hfresh hm hm

/-- A batch that is not taken at once is given up. -/
theorem not_exactlyOnce_of_ne (hlen : (mbufs.length : ℤ) = count) (hfair : Fair driver mbufs count)
    (hpart : ((driver 0).toNat : ℤ) ≠ count) : ¬ ExactlyOnce driver mbufs count counter := by
  intro h
  have hstep : sendBody driver mbufs count ⟨0, [], counter⟩ =
      .ok (.done ⟨1, (offered mbufs count).take (driver 0).toNat, counter + (driver 0).toUInt32⟩) := by
    simp only [sendBody, if_neg hpart, List.nil_append]
  have hperm := (h.handedOver 1 _ (loop_done hstep 0)).length_eq
  have hfair0 := hfair 0
  rw [List.length_take, Nat.min_eq_left hfair0] at hperm
  omega

/-- NEVER: there is no batch and no driver for which `send_batch` transmits each packet once. -/
theorem send_batch_never (driver : ℕ → UInt16) (mbufs : List ℕ) (count : ℤ) (counter : UInt32)
    (hcount : 1 ≤ count) (hlen : (mbufs.length : ℤ) = count) (hfair : Fair driver mbufs count) :
    ¬ ExactlyOnce driver mbufs count counter := by
  by_cases hall : ((driver 0).toNat : ℤ) = count
  · exact not_exactlyOnce_of_eq hcount hlen hall
  · exact not_exactlyOnce_of_ne hlen hfair hall

/-- A driver that takes one mbuf at a time. -/
theorem send_batch_never_one :
    ¬ ExactlyOnce (fun _ => 1) [10, 11] 2 0 :=
  send_batch_never (fun _ => 1) [10, 11] 2 0 (by decide) rfl fun _ => show 1 ≤ 2 by decide

/-- A driver that takes both mbufs is offered them again, and one that takes one of them is never
    offered the other. -/
theorem batch_sent_twice :
    (sendBody (fun k => if k = 0 then 2 else 0) [10, 11] 2 ⟨0, [], 0⟩ =
        .ok (.next ⟨1, [10, 11], 2⟩) ∧ offered [10, 11] 2 = [10, 11] ∧
      ¬ ExactlyOnce (fun k => if k = 0 then 2 else 0) [10, 11] 2 0) ∧
    (sendBatch 1 (fun _ => 1) [10, 11] 2 0 = .ok ⟨1, [10], 1⟩ ∧
      ¬ ExactlyOnce (fun _ => 1) [10, 11] 2 0) := by
  refine ⟨⟨rfl, rfl, not_exactlyOnce_of_eq (by decide) rfl rfl⟩, rfl, ?_⟩
  exact not_exactlyOnce_of_ne rfl (fun _ => show 1 ≤ 2 by decide) (by decide)

end Diversity.Dpdk
