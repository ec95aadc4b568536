import Diversity.Programs.Leveldb.Receiver

/-! @src fast_leveldb/src/udpreceiver.c (deliver) | name:deliver as a key-value map |
    scheme:key-value | family:server

    `deliver` against a reference map. A complete datagram holds all the bytes that its sizes announce,
    so what lies behind it in the slot is never looked at, and each request is the operation of the
    map that its bytes spell. The sizes are `unsigned char`, so no request reaches further than

        3 + 255 + 255 = 513

    bytes into the slot: the same buffer cut off there gives the same reply, without a fault. -/

namespace Diversity.Leveldb
open Schemes

variable {S : Type}

/-- LevelDB works as the map that `view` sees in it: it reports no error, and `leveldb_get` returns a
    pointer exactly for a key that is there. -/
structure IsMap (db : LevelDb S) (view : S → KeyValue.Store Bytes Bytes) : Prop where
  put : ∀ s key value, (db.put s key value).2 = false ∧
    view (db.put s key value).1 = KeyValue.put (view s) key value
  get : ∀ s key, db.get s key = (view s key, false)
  delete : ∀ s key, (db.delete s key).2 = false ∧
    view (db.delete s key).1 = KeyValue.delete (view s) key

theorem mapDb_isMap : IsMap mapDb id where
  put _ _ _ := ⟨rfl, rfl⟩
  get _ _ := rfl
  delete _ _ := ⟨rfl, rfl⟩

/-- The reference map: what a datagram does to it and what it is answered. -/
def reference (s : KeyValue.Store Bytes Bytes) :
    Bytes → KeyValue.Store Bytes Bytes × ReturnCode × Option Bytes
  | op :: ksize :: vsize :: rest =>
    let key := rest.take ksize.toNat
    let value := (rest.drop ksize.toNat).take vsize.toNat
    if op = 1 then (KeyValue.put s key value, .success, none)
    else if op = 2 then
      match s key with
      | some value => (s, .gotValue, some value)
      | none => (s, .notFound, none)
    else if op = 3 then (KeyValue.delete s key, .success, none)
    else if op = 0 then (s, .failed, none)
    else (s, .invalidOp, none)
  | _ => (s, .failed, none)

/-- At least three bytes, and all that their sizes announce. -/
def Complete : Bytes → Prop
  | op :: ksize :: vsize :: rest =>
    (op = 1 → ksize.toNat + vsize.toNat ≤ rest.length) ∧
    (op = 2 ∨ op = 3 → ksize.toNat ≤ rest.length)
  | _ => False

/-- A complete datagram and the slot it is received into, with whatever is stale there. -/
structure Request where
  slot : Slot
  datagram : Datagram
  complete : Complete datagram.bytes

/-- `deliver` on the slot, with its return code and `*return_val`. -/
def Request.deliver (db : LevelDb S) (s : S) (r : Request) : C (S × ReturnCode × Option Bytes) := do
  let reply ← Leveldb.deliver db s (some (r.slot.receive r.datagram).bytes)
  .ok (reply.store, reply.code, reply.value)

/-! ### Sizes -/

/-- The reply to what was read of a request. -/
def replyTo (db : LevelDb S) (s : S) : ReturnCode ⊕ Operation → Reply S
  | .inl code => { code, op := none, store := s, value := none }
  | .inr op => perform db s op

theorem deliver_eq_replyTo (db : LevelDb S) (s : S) {b : Bytes} {r : ReturnCode ⊕ Operation}
    (h : parse b = .ok r) : deliver db s (some b) = .ok (replyTo db s r) := by
  rw [deliver, h, ok_bind]
  cases r <;> rfl

theorem deliver_take (db : LevelDb S) (s : S) (slot : Slot) :
    ∃ reply, deliver db s (some (slot.bytes.take 513)) = .ok reply ∧
      deliver db s (some slot.bytes) = .ok reply := by
  have hfull : slot.bytes.length = 1920 := slot.full
  obtain ⟨r, hcut, hall⟩ := parse_take slot.bytes (by omega)
  exact ⟨_, deliver_eq_replyTo db s hcut, deliver_eq_replyTo db s hall⟩

/-! ### One request -/

/-- The call that a complete datagram spells. -/
def spelled (op ksize vsize : UInt8) (rest : Bytes) : ReturnCode ⊕ Operation :=
  let key := rest.take ksize.toNat
  match Command.ofChar op with
  | some .put => .inr (.put key ((rest.drop ksize.toNat).take vsize.toNat))
  | some .get => .inr (.get key)
  | some .delete => .inr (.delete key)
  | none => .inl (if op = 0 then .failed else .invalidOp)

/-- The bytes that are commands. -/
theorem ofChar_some {op : UInt8} {c : Command} (h : Command.ofChar op = some c) :
    (op = 1 ∧ c = .put) ∨ (op = 2 ∧ c = .get) ∨ (op = 3 ∧ c = .delete) := by
  rw [Command.ofChar] at h
  split_ifs at h with h1 h2 h3
  · exact Or.inl ⟨h1, (Option.some.inj h).symm⟩
  · exact Or.inr (Or.inl ⟨h2, (Option.some.inj h).symm⟩)
  · exact Or.inr (Or.inr ⟨h3, (Option.some.inj h).symm⟩)

/-- A complete datagram is read as it is spelled, over any stale bytes. -/
theorem parse_spelled (slot : Slot) (d : Datagram) {op k v : UInt8} {rest : Bytes}
    (hd : d.bytes = op :: k :: v :: rest) (hc : Complete d.bytes) :
    parse (slot.receive d).bytes = .ok (spelled op k v rest) := by
  rw [hd] at hc
  obtain ⟨hput, hkey⟩ := hc
  have h0 := slot.getElem?_receive d (i := 0) (x := op) (by rw [hd]; rfl)
  have h1 := slot.getElem?_receive d (i := 1) (x := k) (by rw [hd]; rfl)
  have h2 := slot.getElem?_receive d (i := 2) (x := v) (by rw [hd]; rfl)
  have hlen : d.bytes.length = rest.length + 3 := by rw [hd]; rfl
  have hread : ∀ off n, off + n ≤ rest.length →
      (((slot.receive d).bytes.drop (3 + off)).take n) = (rest.drop off).take n := by
    intro off n hle
    rw [Slot.receive, take_drop_overlay (by omega), hd, Nat.add_comm 3 off]
    rfl
  have hread0 : ∀ n ≤ rest.length, ((slot.receive d).bytes.drop 3).take n = rest.take n :=
    fun n hle => hread 0 n (by omega)
  cases hop : Command.ofChar op with
  | none => rw [parse_other hop h0, spelled, hop]
  | some c =>
    rcases ofChar_some hop with ⟨hone, rfl⟩ | ⟨htwo, rfl⟩ | ⟨hthree, rfl⟩
    · have hfit := hput hone
      rw [parse_put hop h0 h1 h2 (slot.sizes_fit d k v), spelled, hop, hread0 _ (by omega),
        hread _ _ hfit]
    · have hfit := hkey (Or.inl htwo)
      rw [parse_key hop (by decide) h0 h1 (slot.size_fits d k), spelled, hop, hread0 _ hfit]
      rfl
    · have hfit := hkey (Or.inr hthree)
      rw [parse_key hop (by decide) h0 h1 (slot.size_fits d k), spelled, hop, hread0 _ hfit]
      rfl

/-- The reply to what a datagram spells is the one of the reference map. -/
theorem replyTo_spelled {db : LevelDb S} {view : S → KeyValue.Store Bytes Bytes}
    (hmap : IsMap db view) (s : S) (op k v : UInt8) (rest : Bytes) :
    view (replyTo db s (spelled op k v rest)).store = (reference (view s) (op :: k :: v :: rest)).1 ∧
    ((replyTo db s (spelled op k v rest)).code, (replyTo db s (spelled op k v rest)).value) =
      (reference (view s) (op :: k :: v :: rest)).2 := by
  by_cases h1 : op = 1
  · obtain ⟨herr, hview⟩ := hmap.put s (rest.take k.toNat) ((rest.drop k.toNat).take v.toNat)
    simp only [spelled, reference, Command.ofChar, if_pos h1, replyTo, perform]
    exact ⟨hview, by simp [herr]⟩
  · by_cases h2 : op = 2
    · have hget := hmap.get s (rest.take k.toNat)
      simp only [spelled, reference, Command.ofChar, if_neg h1, if_pos h2, replyTo, perform, hget]
      cases view s (rest.take k.toNat) <;> simp
    · by_cases h3 : op = 3
      · obtain ⟨herr, hview⟩ := hmap.delete s (rest.take k.toNat)
        simp only [spelled, reference, Command.ofChar, if_neg h1, if_neg h2, if_pos h3, replyTo,
          perform]
        exact ⟨hview, by simp [herr]⟩
      · simp only [spelled, reference, Command.ofChar, if_neg h1, if_neg h2, if_neg h3, replyTo]
        by_cases h0 : op = 0 <;> simp [h0]

/-- A request does in LevelDB what it does in the reference map. -/
theorem request_refines {db : LevelDb S} {view : S → KeyValue.Store Bytes Bytes}
    (hmap : IsMap db view) (s : S) (r : Request) :
    ∃ s', r.deliver db s = .ok (s', (reference (view s) r.datagram.bytes).2) ∧
      view s' = (reference (view s) r.datagram.bytes).1 := by
  obtain ⟨op, k, v, rest, hd⟩ : ∃ op k v rest, r.datagram.bytes = op :: k :: v :: rest := by
    have hc := r.complete
    rcases hb : r.datagram.bytes with - | ⟨op, - | ⟨k, - | ⟨v, rest⟩⟩⟩
    all_goals rw [hb] at hc
    all_goals first
      | exact ⟨op, k, v, rest, rfl⟩
      | exact hc.elim
  obtain ⟨hview, hreply⟩ := replyTo_spelled hmap s op k v rest
  refine ⟨(replyTo db s (spelled op k v rest)).store, ?_, by rw [hd, hview]⟩
  rw [Request.deliver, deliver_eq_replyTo db s (parse_spelled r.slot r.datagram hd r.complete),
    ok_bind, hd, ← hreply]

/-! ### Sequences of requests -/

/-- CORRECT: complete datagrams delivered in order, whatever is stale in their slots, get the codes
    and values of the reference map, and leave LevelDB with its contents; and no buffer whatever is
    read at or behind offset 513. -/
theorem deliver_refines (db : LevelDb S) (view : S → KeyValue.Store Bytes Bytes)
    (hmap : IsMap db view) :
    (∀ (s : S) (rs : List Request),
      ∃ s', runOps (fun s r => r.deliver db s) s rs =
          .ok (s', (specOps (fun m r => reference m r.datagram.bytes) (view s) rs).2) ∧
        view s' = (specOps (fun m r => reference m r.datagram.bytes) (view s) rs).1) ∧
    ∀ (s : S) (slot : Slot), ∃ reply, deliver db s (some (slot.bytes.take 513)) = .ok reply ∧
      deliver db s (some slot.bytes) = .ok reply := by
  refine ⟨fun s rs => ?_, deliver_take db⟩
  refine runOps_refines (R := fun s m => view s = m) ?_ rs s (view s) rfl
  rintro s _ r rfl
  exact request_refines hmap s r

/-- A slot that was never written. -/
def zeroSlot : Slot := ⟨List.replicate mtuSize 0, List.length_replicate, 0⟩

/-- PUT of `x` for `a`, GET of `a`, DELETE of `a`, GET of `a`. -/
def putGetDelete : List Request :=
  [⟨zeroSlot, ⟨[1, 1, 1, 97, 120], by decide⟩, by decide, by decide⟩,
    ⟨zeroSlot, ⟨[2, 1, 0, 97], by decide⟩, by decide, by decide⟩,
    ⟨zeroSlot, ⟨[3, 1, 0, 97], by decide⟩, by decide, by decide⟩,
    ⟨zeroSlot, ⟨[2, 1, 0, 97], by decide⟩, by decide, by decide⟩]

theorem deliver_refines_putGetDelete :
    ∃ s', runOps (fun s r => r.deliver mapDb s) (fun _ => none) putGetDelete = .ok (s',
      [(.success, none), (.gotValue, some [120]), (.success, none), (.notFound, none)]) := by
  obtain ⟨s', hrun, -⟩ := (deliver_refines mapDb id mapDb_isMap).1 (fun _ => none) putGetDelete
  exact ⟨s', hrun⟩

end Diversity.Leveldb
