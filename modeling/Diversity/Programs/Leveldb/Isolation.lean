import Diversity.Programs.Leveldb.Receiver

/-! @src fast_leveldb/src/udpreceiver.c (thread_loop, deliver) | name:Datagram isolation |
    scheme:buffer | family:server

    Whether a datagram acts on its own. `deliver` does not know where the datagram ends, so it acts
    on its own exactly when everything `deliver` reads lies inside it; otherwise the bytes of an
    earlier datagram take part, as a slot of zeros and a slot of ones show. Over whole runs the
    relation between two receivers is that their stores are equal and the slots just filled ask for
    the same calls. -/

namespace Diversity.Leveldb
open Schemes

variable {S : Type} {op k v : UInt8} {b : Bytes}

/-- The call made for `d` and the store after it, when `d` lands in slot `s`. -/
def effect (db : LevelDb S) (store : S) (s : Slot) (d : Datagram) : C (Option Operation × S) := do
  let reply ← deliver db store (some (s.receive d).bytes)
  .ok (reply.op, reply.store)

/-- The datagram holds all that `deliver` reads for it: the first byte; for a PUT both sizes, the
    key and the value; for a GET or DELETE the size of the key and, unless that is 0, the key. -/
def complete : Bytes → Bool
  | [] => false
  | op :: rest =>
    match Command.ofChar op, rest with
    | some .put, ksize :: vsize :: body => ksize.toNat + vsize.toNat ≤ body.length
    | some .put, _ => false
    | some _, ksize :: body => ksize = 0 ∨ ksize.toNat + 1 ≤ body.length
    | some _, [] => false
    | none, _ => true

theorem effect_of_parse (db : LevelDb S) (store : S) {s : Slot} {d : Datagram}
    {r : ReturnCode ⊕ Operation} (h : parse (s.receive d).bytes = .ok r) :
    effect db store s d = .ok (r.getRight?, after db store r.getRight?) := by
  obtain ⟨reply, hr, hop, hstore⟩ := deliver_of_parse db store h
  rw [effect, hr, ok_bind, hop, hstore]

/-! ### Complete datagrams -/

/-- A complete datagram is read the same in every slot. -/
theorem parse_complete {d : Datagram} (h : complete d.bytes = true) (s₁ s₂ : Slot) :
    parse (s₁.receive d).bytes = parse (s₂.receive d).bytes := by
  obtain ⟨d, hfits⟩ := d
  have hslice : ∀ (s : Slot) (off n : ℕ), off + n ≤ d.length →
      ((s.receive ⟨d, hfits⟩).bytes.drop off).take n = (d.drop off).take n :=
    fun s off n hn => take_drop_overlay hn s.bytes
  rcases d with _ | ⟨op, rest⟩
  · simp [complete] at h
  have h0 := fun s : Slot => s.getElem?_receive ⟨op :: rest, hfits⟩ (i := 0) rfl
  cases hop : Command.ofChar op with
  | none => rw [parse_other hop (h0 s₁), parse_other hop (h0 s₂)]
  | some c =>
    rcases rest with _ | ⟨k, body⟩
    · cases c <;> simp [complete, hop] at h
    have h1 := fun s : Slot => s.getElem?_receive ⟨op :: k :: body, hfits⟩ (i := 1) rfl
    have hk := k.toNat_lt
    by_cases hc : c = .put
    · subst hc
      rcases body with _ | ⟨v, body⟩
      · simp [complete, hop] at h
      have h2 := fun s : Slot => s.getElem?_receive ⟨op :: k :: v :: body, hfits⟩ (i := 2) rfl
      have hroom : k.toNat + v.toNat ≤ body.length := by simpa [complete, hop] using h
      have hp := fun s : Slot => parse_put hop (h0 s) (h1 s) (h2 s) (s.sizes_fit _ k v)
      rw [hp s₁, hp s₂]
      simp only [hslice _ 3 k.toNat (by simp; omega), hslice _ (3 + k.toNat) v.toNat (by simp; omega)]
    · have hroom : k = 0 ∨ k.toNat + 1 ≤ body.length := by
        cases c with
        | put => exact absurd rfl hc
        | get => simpa [complete, hop] using h
        | delete => simpa [complete, hop] using h
      have hp := fun s : Slot => parse_key hop hc (h0 s) (h1 s) (s.size_fits _ k)
      rw [hp s₁, hp s₂]
      rcases hroom with rfl | hroom
      · simp
      · rw [hslice s₁ 3 k.toNat (by simp; omega), hslice s₂ 3 k.toNat (by simp; omega)]

/-! ### Incomplete datagrams -/

/-- A slot that holds nothing but `x`. -/
def Slot.filled (x : UInt8) : Slot := ⟨List.replicate mtuSize x, List.length_replicate, 0⟩

/-- Behind the datagram the old byte is still there. -/
theorem Slot.filled_stale (x : UInt8) (d : Datagram) {i : ℕ} (h : d.bytes.length ≤ i)
    (hi : i < 1920) : ((Slot.filled x).receive d).bytes[i]? = some x :=
  (getElem?_overlay_stale h _).trans (List.getElem?_replicate_of_lt hi)

/-- A slice that ends behind the datagram is not the same in the two slots. -/
theorem Slot.filled_ne (d : Datagram) {o n : ℕ} (hn : 0 < n) (hd : d.bytes.length < o + n)
    (hcap : o + n ≤ 1920) : (((Slot.filled 0).receive d).bytes.drop o).take n ≠
      (((Slot.filled 1).receive d).bytes.drop o).take n :=
  take_drop_overlay_ne (by decide) hn hd hcap

/-- An incomplete PUT. -/
theorem put_incomplete {rest : Bytes} {hfits : (op :: rest).length ≤ mtuSize}
    (hop : Command.ofChar op = some .put) (h : complete (op :: rest) = false) :
    ∃ r₀ r₁, parse ((Slot.filled 0).receive ⟨op :: rest, hfits⟩).bytes = .ok r₀ ∧
      parse ((Slot.filled 1).receive ⟨op :: rest, hfits⟩).bytes = .ok r₁ ∧
      r₀.getRight? ≠ r₁.getRight? := by
  have h0 := fun x => (Slot.filled x).getElem?_receive ⟨op :: rest, hfits⟩ (i := 0) rfl
  rcases rest with _ | ⟨k, _ | ⟨v, body⟩⟩
  · -- both sizes are stale: the keys have 0 bytes and 1 byte
    have h1 := fun x => Slot.filled_stale x ⟨[op], hfits⟩ (i := 1) (by simp) (by decide)
    have h2 := fun x => Slot.filled_stale x ⟨[op], hfits⟩ (i := 2) (by simp) (by decide)
    refine ⟨_, _, parse_put hop (h0 0) (h1 0) (h2 0) (Slot.sizes_fit _ _ 0 0),
      parse_put hop (h0 1) (h1 1) (h2 1) (Slot.sizes_fit _ _ 1 1), ?_⟩
    intro he
    simp only [Sum.getRight?_inr, Option.some.injEq, Operation.put.injEq] at he
    exact take_drop_length_ne (by decide) (Slot.size_fits _ _ 0) (Slot.size_fits _ _ 1) he.1
  · -- the size of the value is stale
    have h1 := fun x => (Slot.filled x).getElem?_receive ⟨[op, k], hfits⟩ (i := 1) rfl
    have h2 := fun x => Slot.filled_stale x ⟨[op, k], hfits⟩ (i := 2) (by simp) (by decide)
    refine ⟨_, _, parse_put hop (h0 0) (h1 0) (h2 0) (Slot.sizes_fit _ _ k 0),
      parse_put hop (h0 1) (h1 1) (h2 1) (Slot.sizes_fit _ _ k 1), ?_⟩
    intro he
    simp only [Sum.getRight?_inr, Option.some.injEq, Operation.put.injEq] at he
    exact take_drop_length_ne (by decide) (Slot.sizes_fit _ _ k 0) (Slot.sizes_fit _ _ k 1) he.2
  · -- the last byte of key and value is stale
    have hk := k.toNat_lt
    have hv := v.toNat_lt
    have hshort : body.length < k.toNat + v.toNat := by simpa [complete, hop] using h
    have h1 := fun x => (Slot.filled x).getElem?_receive ⟨op :: k :: v :: body, hfits⟩ (i := 1) rfl
    have h2 := fun x => (Slot.filled x).getElem?_receive ⟨op :: k :: v :: body, hfits⟩ (i := 2) rfl
    refine ⟨_, _, parse_put hop (h0 0) (h1 0) (h2 0) (Slot.sizes_fit _ _ k v),
      parse_put hop (h0 1) (h1 1) (h2 1) (Slot.sizes_fit _ _ k v), ?_⟩
    intro he
    simp only [Sum.getRight?_inr, Option.some.injEq, Operation.put.injEq] at he
    refine Slot.filled_ne ⟨op :: k :: v :: body, hfits⟩ (o := 3) (n := k.toNat + v.toNat)
      (by omega) (by simp; omega) (by omega) ?_
    rw [take_drop_add, take_drop_add, he.1, he.2]

/-- An incomplete GET or DELETE. -/
theorem key_incomplete {rest : Bytes} {c : Command} {hfits : (op :: rest).length ≤ mtuSize}
    (hop : Command.ofChar op = some c) (hc : c ≠ .put) (h : complete (op :: rest) = false) :
    ∃ r₀ r₁, parse ((Slot.filled 0).receive ⟨op :: rest, hfits⟩).bytes = .ok r₀ ∧
      parse ((Slot.filled 1).receive ⟨op :: rest, hfits⟩).bytes = .ok r₁ ∧
      r₀.getRight? ≠ r₁.getRight? := by
  have h0 := fun x => (Slot.filled x).getElem?_receive ⟨op :: rest, hfits⟩ (i := 0) rfl
  rcases rest with _ | ⟨k, body⟩
  · have h1 := fun x => Slot.filled_stale x ⟨[op], hfits⟩ (i := 1) (by simp) (by decide)
    refine ⟨_, _, parse_key hop hc (h0 0) (h1 0) (Slot.size_fits _ _ 0),
      parse_key hop hc (h0 1) (h1 1) (Slot.size_fits _ _ 1), ?_⟩
    intro he
    simp only [Sum.getRight?_inr, Option.some.injEq] at he
    exact take_drop_length_ne (by decide) (Slot.size_fits _ _ 0) (Slot.size_fits _ _ 1) (keyOp_inj he)
  · have hk := k.toNat_lt
    have hshort : k ≠ 0 ∧ body.length < k.toNat + 1 := by
      cases c with
      | put => exact absurd rfl hc
      | get => simpa [complete, hop] using h
      | delete => simpa [complete, hop] using h
    have hpos : 0 < k.toNat := Nat.pos_of_ne_zero fun h0 => hshort.1 (UInt8.toNat_inj.mp h0)
    have h1 := fun x => (Slot.filled x).getElem?_receive ⟨op :: k :: body, hfits⟩ (i := 1) rfl
    refine ⟨_, _, parse_key hop hc (h0 0) (h1 0) (Slot.size_fits _ _ k),
      parse_key hop hc (h0 1) (h1 1) (Slot.size_fits _ _ k), ?_⟩
    intro he
    simp only [Sum.getRight?_inr, Option.some.injEq] at he
    exact Slot.filled_ne ⟨op :: k :: body, hfits⟩ hpos (by simp; omega) (by omega) (keyOp_inj he)

/-- An incomplete datagram asks for different calls in a slot of zeros and in one of ones. -/
theorem parse_incomplete {d : Datagram} (h : complete d.bytes = false) :
    ∃ r₀ r₁, parse ((Slot.filled 0).receive d).bytes = .ok r₀ ∧
      parse ((Slot.filled 1).receive d).bytes = .ok r₁ ∧ r₀.getRight? ≠ r₁.getRight? := by
  obtain ⟨_ | ⟨op, rest⟩, hfits⟩ := d
  · have hx := fun x i hi => Slot.filled_stale x ⟨[], hfits⟩ (i := i) (Nat.zero_le _) hi
    refine ⟨_, _, parse_other (by decide) (hx 0 0 (by decide)), parse_put (by decide)
      (hx 1 0 (by decide)) (hx 1 1 (by decide)) (hx 1 2 (by decide)) (Slot.sizes_fit _ _ 1 1), ?_⟩
    simp
  · cases hop : Command.ofChar op with
    | none => simp [complete, hop] at h
    | some c =>
      by_cases hc : c = .put
      · subst hc
        exact put_incomplete hop h
      · exact key_incomplete hop hc h

/-! ### Runs of the receiver -/

/-- Two receivers with the same store whose slots `r` ask for the same calls. -/
structure Alike (r : List (Fin maxMsg)) (st₁ st₂ : State S) : Prop where
  store : st₁.store = st₂.store
  parse : ∀ i ∈ r, parse (st₁.slots i).bytes = parse (st₂.slots i).bytes

theorem handle_alike (db : LevelDb S) {r : List (Fin maxMsg)} {st₁ st₂ : State S}
    (h : Alike r st₁ st₂) (n₁ n₂ : ℕ) (ops : List (Option Operation)) {i : Fin maxMsg} (hi : i ∈ r) :
    ∃ st₁' st₂' n₁' n₂' ops', handle db (st₁, n₁, ops) i = .ok (st₁', n₁', ops') ∧
      handle db (st₂, n₂, ops) i = .ok (st₂', n₂', ops') ∧ Alike r st₁' st₂' := by
  obtain ⟨q, hq⟩ := parse_total (st₁.slots i)
  obtain ⟨st₁', n₁', h₁, hs₁, hb₁⟩ := handle_spec db st₁ n₁ ops hq
  obtain ⟨st₂', n₂', h₂, hs₂, hb₂⟩ := handle_spec db st₂ n₂ ops ((h.parse i hi).symm.trans hq)
  refine ⟨st₁', st₂', n₁', n₂', _, h₁, h₂, by rw [hs₁, hs₂, h.store], ?_⟩
  intro j hj
  rw [hb₁, hb₂]
  exact h.parse j hj

theorem handleAll_alike (db : LevelDb S) {r : List (Fin maxMsg)} : ∀ (is : List (Fin maxMsg))
    (st₁ st₂ : State S) (n₁ n₂ : ℕ) (ops : List (Option Operation)), is ⊆ r → Alike r st₁ st₂ →
    ∃ st₁' st₂' n₁' n₂' ops', is.foldlM (handle db) (st₁, n₁, ops) = .ok (st₁', n₁', ops') ∧
      is.foldlM (handle db) (st₂, n₂, ops) = .ok (st₂', n₂', ops') ∧ Alike r st₁' st₂'
  | [], st₁, st₂, n₁, n₂, ops, _, h => ⟨st₁, st₂, n₁, n₂, ops, rfl, rfl, h⟩
  | i :: is, st₁, st₂, n₁, n₂, ops, hr, h => by
    obtain ⟨t₁, t₂, m₁, m₂, ops₁, h₁, h₂, hs⟩ :=
      handle_alike db h n₁ n₂ ops (hr (List.mem_cons_self ..))
    obtain ⟨u₁, u₂, k₁, k₂, ops₂, h₁', h₂', hs'⟩ := handleAll_alike db is t₁ t₂ m₁ m₂ ops₁
      (fun j hj => hr (List.mem_cons_of_mem _ hj)) hs
    exact ⟨u₁, u₂, k₁, k₂, ops₂, by rw [List.foldlM_cons, h₁, ok_bind, h₁'],
      by rw [List.foldlM_cons, h₂, ok_bind, h₂'], hs'⟩

/-- A batch of complete datagrams makes the slots it lands in alike. -/
theorem recvmmsg_alike {st₁ st₂ : State S} (hstore : st₁.store = st₂.store) {ds : List Datagram}
    (hds : ∀ d ∈ ds, complete d.bytes = true) :
    Alike ((List.finRange maxMsg).take ds.length) (recvmmsg st₁ ds) (recvmmsg st₂ ds) := by
  refine ⟨hstore, ?_⟩
  intro i hi
  obtain ⟨n, hn, rfl⟩ := List.mem_iff_getElem.mp hi
  rw [List.length_take] at hn
  have hlt : n < ds.length := by omega
  have hd : ds[(((List.finRange maxMsg).take ds.length)[n]).val]? = some ds[n] := by
    simp [hlt]
  simp only [recvmmsg, hd]
  exact parse_complete (hds _ (List.getElem_mem hlt)) _ _

/-- Over whole runs complete datagrams make the same calls whatever the slots held. -/
theorem threadLoop_alike (db : LevelDb S) : ∀ (rs : List Recv) (st₁ st₂ : State S),
    st₁.store = st₂.store → (∀ r ∈ rs, ∀ d ∈ r.datagrams, complete d.bytes = true) →
    ∃ st₁' st₂' ops, threadLoop db st₁ rs = .ok (st₁', ops) ∧
      threadLoop db st₂ rs = .ok (st₂', ops) ∧ st₁'.store = st₂'.store
  | [], st₁, st₂, h, _ => ⟨st₁, st₂, [], rfl, rfl, h⟩
  | .failed errno :: rs, st₁, st₂, h, hrs => by
    by_cases hretry : errno = .eagain ∨ errno = .ewouldblock ∨ errno = .eintr
    · simp only [threadLoop, if_pos hretry]
      exact threadLoop_alike db rs st₁ st₂ h fun r hr => hrs r (List.mem_cons_of_mem _ hr)
    · simp only [threadLoop, if_neg hretry]
      exact ⟨st₁, st₂, [], rfl, rfl, h⟩
  | .received d ds :: rs, st₁, st₂, h, hrs => by
    have halike := recvmmsg_alike h (hrs _ (List.mem_cons_self ..))
    obtain ⟨t₁, t₂, n₁, n₂, ops, h₁, h₂, hs⟩ := handleAll_alike db _ _ _ 0 0 []
      (List.Subset.refl _) halike
    obtain ⟨u₁, u₂, ops', h₁', h₂', hs'⟩ := threadLoop_alike db rs (count t₁ _ n₁) (count t₂ _ n₂)
      hs.store fun r hr => hrs r (List.mem_cons_of_mem _ hr)
    exact ⟨u₁, u₂, ops ++ ops', threadLoop_received h₁ h₁', threadLoop_received h₂ h₂', hs'⟩

/-- CORRECT: a datagram has the same effect in every slot, on every store, exactly when it is
    complete; and two receivers with the same store that receive the same batches of complete
    datagrams make the same calls and end with the same store, whatever their slots held. -/
theorem datagram_isolation (db : LevelDb S) :
    (∀ (store : S) (d : Datagram),
      (∀ s₁ s₂ : Slot, effect db store s₁ d = effect db store s₂ d) ↔ complete d.bytes = true) ∧
    ∀ (rs : List Recv) (st₁ st₂ : State S), st₁.store = st₂.store →
      (∀ r ∈ rs, ∀ d ∈ r.datagrams, complete d.bytes = true) →
      ∃ st₁' st₂' ops, threadLoop db st₁ rs = .ok (st₁', ops) ∧
        threadLoop db st₂ rs = .ok (st₂', ops) ∧ st₁'.store = st₂'.store := by
  refine ⟨?_, threadLoop_alike db⟩
  intro store d
  constructor
  · intro h
    by_contra hc
    obtain ⟨r₀, r₁, hr₀, hr₁, hne⟩ := parse_incomplete (Bool.eq_false_iff.mpr hc)
    have heq := h (Slot.filled 0) (Slot.filled 1)
    rw [effect_of_parse db store hr₀, effect_of_parse db store hr₁] at heq
    exact hne (congrArg Prod.fst (Except.ok.inj heq))
  · intro hc s₁ s₂
    obtain ⟨r, hr⟩ := parse_total (s₁.receive d)
    rw [effect_of_parse db store hr,
      effect_of_parse db store ((parse_complete hc s₁ s₂).symm.trans hr)]

/-- The receiver after `calloc` and `state_init`, on an empty database. -/
def fresh : State (KeyValue.Store Bytes Bytes) :=
  { slots := fun _ => Slot.filled 0, bps := 0, pps := 0, store := fun _ => none }

/-- PUT of the value `v` under the key `k`, both of one byte. -/
def putDatagram (k v : UInt8) : Datagram := ⟨[1, 1, 1, k, v], by simp [mtuSize]⟩

/-- DELETE of the key `k`. -/
def deleteDatagram (k : UInt8) : Datagram := ⟨[3, 1, 0, k], by simp [mtuSize]⟩

/-- An empty UDP packet. -/
def emptyDatagram : Datagram := ⟨[], by decide⟩

/-- Two receivers with other bytes in their slots handle a PUT and a GET alike. -/
theorem datagram_isolation_putGet :
    ∃ st₁ st₂ ops, threadLoop mapDb fresh
        [.failed .eintr, .received (putDatagram 107 118) [⟨[2, 1, 0, 107], by decide⟩]] =
          .ok (st₁, ops) ∧
      threadLoop mapDb { fresh with slots := fun _ => Slot.filled 7 }
        [.failed .eintr, .received (putDatagram 107 118) [⟨[2, 1, 0, 107], by decide⟩]] =
          .ok (st₂, ops) ∧
      st₁.store = st₂.store :=
  (datagram_isolation mapDb).2 _ _ _ rfl (by
    simp only [List.mem_cons, List.not_mem_nil, or_false, forall_eq_or_imp, forall_eq]
    decide)

theorem parse_putDatagram (s : Slot) (k v : UInt8) :
    parse (s.receive (putDatagram k v)).bytes = .ok (.inr (.put [k] [v])) := by
  have h := fun {i : ℕ} {x : UInt8} => s.getElem?_receive (putDatagram k v) (i := i) (x := x)
  rw [parse_put rfl (h rfl) (h rfl) (h rfl) (Slot.sizes_fit _ _ _ _)]
  rfl

theorem parse_deleteDatagram (s : Slot) (k : UInt8) :
    parse (s.receive (deleteDatagram k)).bytes = .ok (.inr (.delete [k])) := by
  have h := fun {i : ℕ} {x : UInt8} => s.getElem?_receive (deleteDatagram k) (i := i) (x := x)
  rw [parse_key (c := .delete) rfl (by decide) (h rfl) (h rfl) (Slot.size_fits _ _ _)]
  rfl

theorem firstSlot : (List.finRange maxMsg).take 1 = [0] := by decide +kernel

theorem firstSlots : (List.finRange maxMsg).take 2 = [0, 1] := by decide +kernel

/-- A single packet goes to slot 0. -/
theorem threadLoop_single (st : State (KeyValue.Store Bytes Bytes)) (d : Datagram)
    {q : ReturnCode ⊕ Operation} (h : parse ((st.slots 0).receive d).bytes = .ok q) :
    ∃ st', threadLoop mapDb st [.received d []] = .ok (st', [q.getRight?]) ∧
      st'.store = after mapDb st.store q.getRight? := by
  obtain ⟨st', n, hrun, hstore, -⟩ :=
    handle_spec mapDb (recvmmsg st (Recv.datagrams (.received d []))) 0 [] (i := 0) h
  have hlen : (Recv.datagrams (.received d [])).length = 1 := rfl
  have hall : ((List.finRange maxMsg).take (Recv.datagrams (.received d [])).length).foldlM
      (handle mapDb) (recvmmsg st (Recv.datagrams (.received d [])), 0, []) =
        .ok (st', n, [q.getRight?]) := by
    rw [hlen, firstSlot, List.foldlM_cons, hrun, ok_bind, List.foldlM_nil]
    rfl
  exact ⟨count st' 1 n, threadLoop_received hall rfl, hstore⟩

/-- After a PUT into slot 0 and a DELETE of the same key into slot 1 the store is that of a fresh
    receiver; an empty packet then repeats the PUT, where a fresh receiver does nothing. -/
theorem emptyDatagram_repeats_put : ∃ st₁ st₁' st₂ st₂' ops,
    threadLoop mapDb fresh [.received (putDatagram 107 118) [deleteDatagram 107]] = .ok (st₁, ops) ∧
    threadLoop mapDb fresh [] = .ok (st₂, []) ∧ st₁.store = st₂.store ∧
    threadLoop mapDb st₁ [.received emptyDatagram []] = .ok (st₁', [some (.put [107] [118])]) ∧
    threadLoop mapDb st₂ [.received emptyDatagram []] = .ok (st₂', [none]) ∧
    st₁'.store [107] = some [118] ∧ st₂'.store [107] = none := by
  have hlen :
      (Recv.datagrams (.received (putDatagram 107 118) [deleteDatagram 107])).length = 2 := rfl
  obtain ⟨t, n, ht, hstore₁, hbytes₁⟩ := handle_spec mapDb (recvmmsg fresh
    (Recv.datagrams (.received (putDatagram 107 118) [deleteDatagram 107]))) 0 [] (i := 0)
      (parse_putDatagram _ 107 118)
  obtain ⟨u, n', hu, hstore₂, hbytes₂⟩ := handle_spec mapDb t n [some (.put [107] [118])] (i := 1)
    ((congrArg parse (hbytes₁ 1)).trans (parse_deleteDatagram _ 107))
  have hall : ((List.finRange maxMsg).take (Recv.datagrams (.received (putDatagram 107 118)
      [deleteDatagram 107])).length).foldlM (handle mapDb) (recvmmsg fresh (Recv.datagrams
        (.received (putDatagram 107 118) [deleteDatagram 107])), 0, []) =
          .ok (u, n', [some (.put [107] [118]), some (.delete [107])]) := by
    rw [hlen, firstSlots, List.foldlM_cons, ht, ok_bind, List.foldlM_cons]
    exact congrArg (· >>= pure) hu
  have hempty : u.store = fresh.store := by
    rw [hstore₂, hstore₁]
    funext key
    by_cases hk : key = [107] <;>
      simp [after, perform, mapDb, KeyValue.put, KeyValue.delete, hk, recvmmsg, fresh]
  have hslot : (u.slots 0).bytes = ((Slot.filled 0).receive (putDatagram 107 118)).bytes :=
    (hbytes₂ 0).trans (hbytes₁ 0)
  obtain ⟨st₁', h₁, hs₁⟩ := threadLoop_single (count u 2 n') emptyDatagram
    ((congrArg parse hslot).trans (parse_putDatagram _ 107 118))
  obtain ⟨st₂', h₂, hs₂⟩ := threadLoop_single fresh emptyDatagram
    (parse_other rfl (Slot.filled_stale 0 emptyDatagram (Nat.zero_le _) (by decide)))
  refine ⟨count u 2 n', st₁', fresh, st₂', _, threadLoop_received hall rfl, rfl, hempty, h₁, h₂,
    ?_, ?_⟩
  · rw [hs₁]
    simp [after, perform, mapDb, KeyValue.put]
  · rw [hs₂]
    rfl

end Diversity.Leveldb
