import Diversity.Programs.HashTable.Integrity

/-! @src client_server/uthash/src/server.c | name:Request table | scheme:linked-list | family:server

    The request table of the proxy server, over uthash as it is. A request allocates an entry and adds it;
    a response finds the entry of its id, deletes and frees it; `proxy_free` does that to all of them, in
    the loop that fetches the successor of an entry before the body frees it.

        entries    [e₁, e₂, e₃]          a list, in the order of the requests
           ▲
        state      head, table, memory   the allocated addresses are those of the list, and no others

    That nothing faults says that no freed entry is used and none is freed twice; that the addresses are
    those of the list says that none is lost. -/

namespace Diversity.Uthash
open Schemes Schemes.LinkedList

variable {A E K : Type} [DecidableEq A] {hash : K → UInt32} {key : E → K} {s : State A E} {order : List A}
  {a : A}

/-! ### Memory that the hash does not use -/

/-- An entry may be allocated where no element lies. -/
theorem Inv.malloc (hI : Inv hash key s order) (ha : a ∉ order) (e : E) :
    Inv hash key { s with mem := s.mem.malloc a e } order where
  nodup := hI.nodup
  live := fun c hc => Finset.mem_insert_of_mem (hI.live c hc)
  app := hI.app
  head := hI.head
  hashv := by
    intro c hc
    have hne : c ≠ a := fun heq => ha (heq ▸ hc)
    change s.mem.hashv c = hash (key (Function.update s.mem.entry a e c))
    rw [Function.update_of_ne hne]
    exact hI.hashv c hc
  table := by
    intro hne
    obtain ⟨htail, hitems, b, chain, hT⟩ := hI.table hne
    exact ⟨htail, hitems, b, chain, hT.le, hT.log2, hT.numBuckets, hT.length,
      hT.chains.of_agree rfl rfl (fun _ => Iff.rfl) fun _ _ => rfl⟩

/-- An entry that is out of the hash may be freed. -/
theorem Inv.free (hI : Inv hash key s order) (ha : a ∉ order) (hlive : a ∈ s.mem.live) :
    ∃ m, s.mem.free a = .ok m ∧ Inv hash key { s with mem := m } order ∧
      m.live = s.mem.live.erase a ∧ m.entry = s.mem.entry := by
  refine ⟨_, Mem.write_ok hlive _, ⟨hI.nodup, fun c hc => ?_, hI.app, hI.head, hI.hashv, fun hne => ?_⟩, rfl, rfl⟩
  · exact Finset.mem_erase.mpr ⟨fun heq => ha (heq ▸ hc), hI.live c hc⟩
  · obtain ⟨htail, hitems, b, chain, hT⟩ := hI.table hne
    exact ⟨htail, hitems, b, chain, hT.le, hT.log2, hT.numBuckets, hT.length,
      hT.chains.of_agree rfl rfl (fun _ => Iff.rfl) fun _ _ => rfl⟩

/-! ### `HASH_ITER` -/

/-- ITER: a body that takes the first element of what is left, and leaves the successor of the next one
    to be read, is run for every element. -/
theorem hashIter_spec {σ : Type} (mem : σ → Mem A E) (body : σ → A → C σ) {I : List A → σ → Prop}
    (hnext : ∀ l s, I l s → nextOf (mem s) l.head? = .ok l.tail.head?)
    (hbody : ∀ a l s, I (a :: l) s → ∃ s', body s a = .ok s' ∧ I l s') (l : List A) (s : σ) {fuel : ℕ}
    (h : I l s) (hfuel : l.length < fuel) : ∃ s', hashIter mem body fuel s l.head? = .ok s' ∧ I [] s' := by
  rw [hashIter, hnext l s h, ok_bind]
  induction l generalizing s fuel with
  | nil =>
    obtain ⟨fuel, rfl⟩ : ∃ k, fuel = k + 1 := ⟨fuel - 1, by omega⟩
    exact ⟨s, loop_done rfl fuel, h⟩
  | cons a l ih =>
    obtain ⟨fuel, rfl⟩ : ∃ k, fuel = k + 1 := ⟨fuel - 1, by omega⟩
    obtain ⟨s₁, hrun, h₁⟩ := hbody a l s h
    have hturn : iterBody mem body (s, some a, l.head?) = .ok (.next (s₁, l.head?, l.tail.head?)) := by
      rw [iterBody, hrun, ok_bind, hnext l s₁ h₁, ok_bind]
    rw [List.head?_cons, List.tail_cons, loop_next hturn]
    exact ih s₁ h₁ (Nat.lt_of_succ_lt_succ hfuel)

/-- The successor of the first element. -/
theorem Inv.nextOf_head (hI : Inv hash key s order) : nextOf s.mem order.head? = .ok order.tail.head? := by
  cases order with
  | nil => rfl
  | cons a l =>
    obtain ⟨-, hnext, -⟩ := hI.app
    rw [List.head?_cons, nextOf, Mem.read_ok (hI.live a List.mem_cons_self), hnext, Option.or_none]
    rfl

/-! ### The server -/

/-- What `malloc` returns for a request: an address that is not in use, or NULL. The second field is
    whether uthash gets an array of so many buckets; it never gets one of more than 2^30. -/
structure Heap (A : Type) where
  entry : Finset A → Option A
  grants : ℕ → Bool
  fresh : ∀ live, ∀ a ∈ entry live, a ∉ live
  bounded : ∀ n, grants n = true → n ≤ 2 ^ 30

/-- What the server does with its table. -/
inductive Op (A E K : Type) where
  | request (e : E) (heap : Heap A)
  | respond (k : K)
  | free
  | count
  | fsck

/-- What comes out of it. -/
inductive Res (E : Type) where
  | done
  | answered (e : Option E)
  | count (n : ℕ)
  | intact (ok : Bool)

/-- `malloc` and `HASH_ADD_INT` of `echo_read_cb`. -/
def request (hash : K → UInt32) (key : E → K) (s : State A E) (e : E) (heap : Heap A) : C (State A E) :=
  match heap.entry s.mem.live with
  | none => .error .nullDeref
  | some a => hashAdd hash key heap.grants { s with mem := s.mem.malloc a e } a

/-- `HASH_DEL` and `free`. -/
def dispose (s : State A E) (a : A) : C (State A E) := do
  let s ← hashDelete s a
  let m ← s.mem.free a
  .ok { s with mem := m }

/-- `respond_cb`: the entry that is answered. -/
def respond [DecidableEq K] (hash : K → UInt32) (key : E → K) (s : State A E) (k : K) :
    C (State A E × Option E) := do
  match ← hashFind hash key s k with
  | none => .ok (s, none)
  | some a => do
    let e ← s.mem.read s.mem.entry a
    let s ← dispose s a
    .ok (s, some e)

/-- `HASH_COUNT`. -/
def hashCnt (s : State A E) : ℕ :=
  match s.head with
  | none => 0
  | some _ => s.tbl.numItems

/-- The loop of `proxy_free`. -/
def freeEntries (s : State A E) : C (State A E) :=
  hashIter State.mem dispose (hashCnt s + 1) s s.head

/-- One of them. -/
def step [DecidableEq K] (hash : K → UInt32) (key : E → K) (s : State A E) :
    Op A E K → C (State A E × Res E)
  | .request e heap => do
    let s ← request hash key s e heap
    .ok (s, .done)
  | .respond k => do
    let (s, e) ← respond hash key s k
    .ok (s, .answered e)
  | .free => do
    let s ← freeEntries s
    .ok (s, .done)
  | .count => .ok (s, .count (hashCnt s))
  | .fsck => do
    let ok ← hashFsck s
    .ok (s, .intact ok)

/-- What it may do to the list of entries. -/
def Spec (key : E → K) (t : List E) : Op A E K → Res E → List E → Prop
  | .request e _, .done, t' => t' = t ++ [e]
  | .respond k, .answered none, t' => (∀ e ∈ t, key e ≠ k) ∧ t' = t
  | .respond k, .answered (some e), t' => key e = k ∧ ∃ t₁ t₂, t = t₁ ++ e :: t₂ ∧ t' = t₁ ++ t₂
  | .free, .done, t' => t' = []
  | .count, .count n, t' => n = t.length ∧ t' = t
  | .fsck, .intact ok, t' => ok = true ∧ t' = t
  | _, _, _ => False

/-- The program ends on a request that gets no memory: uthash exits, and the server itself writes to NULL. -/
def Refused : Op A E K → Fault → Prop
  | .request _ heap, f =>
    f = .badAlloc ∧ (∃ n, heap.grants n = false) ∨ f = .nullDeref ∧ ∃ live, heap.entry live = none
  | _, _ => False

/-- The hash holds these entries, and its elements are what is allocated. `budget` more may be added. -/
def Holds (hash : K → UInt32) (key : E → K) (budget : ℕ) (s : State A E) (t : List E) : Prop :=
  ∃ order, Inv hash key s order ∧ s.mem.live = order.toFinset ∧ t = order.map s.mem.entry ∧
    order.length + budget < 2 ^ 32

/-- The server when it starts, with whatever is in memory that it has not allocated. -/
def State.init (mem : Mem A E) (tbl : Table A) : State A E :=
  { mem := { mem with live := ∅ }, head := none, tbl := tbl }

/-- REQUEST: the entry is behind the others, or there was no memory for it. -/
theorem request_spec (hI : Inv hash key s order) (hlive : s.mem.live = order.toFinset)
    (hlt : order.length + 1 < 2 ^ 32) (e : E) (heap : Heap A) :
    (∃ f, request hash key s e heap = .error f ∧ Refused (.request e heap : Op A E K) f) ∨
      ∃ s' a, request hash key s e heap = .ok s' ∧ Inv hash key s' (order ++ [a]) ∧
        s'.mem.live = (order ++ [a]).toFinset ∧
        (order ++ [a]).map s'.mem.entry = order.map s.mem.entry ++ [e] := by
  cases hentry : heap.entry s.mem.live with
  | none =>
    refine Or.inl ⟨.nullDeref, ?_, Or.inr ⟨rfl, s.mem.live, hentry⟩⟩
    rw [request, hentry]
  | some a =>
    have hnew : a ∉ order := by
      have hfresh := heap.fresh s.mem.live a hentry
      rwa [hlive, List.mem_toFinset] at hfresh
    rcases hashAdd_spec heap.bounded (hI.malloc hnew e) (Finset.mem_insert_self a s.mem.live) hnew hlt with
      ⟨hfatal, hrefused⟩ | ⟨s', hadd, hI', hlive', hentry'⟩
    · refine Or.inl ⟨.badAlloc, ?_, Or.inl ⟨rfl, hrefused⟩⟩
      rw [request, hentry]
      exact hfatal
    · refine Or.inr ⟨s', a, ?_, hI', ?_, ?_⟩
      · rw [request, hentry]
        exact hadd
      · rw [hlive', List.toFinset_append, ← hlive, Finset.union_comm]
        rfl
      · have hothers : order.map s'.mem.entry = order.map s.mem.entry := by
          refine List.map_congr_left fun c hc => ?_
          rw [hentry']
          refine Function.update_of_ne ?_ _ _
          rintro rfl
          exact hnew hc
        have hself : s'.mem.entry a = e := by
          rw [hentry']
          exact Function.update_self a e s.mem.entry
        rw [List.map_append, hothers, List.map_singleton, hself]

/-- DISPOSE: the element is out of the hash and out of memory. -/
theorem dispose_spec (hI : Inv hash key s order) (hlive : s.mem.live = order.toFinset)
    (hlt : order.length < 2 ^ 32) (ha : a ∈ order) :
    ∃ s', dispose s a = .ok s' ∧ Inv hash key s' (order.erase a) ∧
      s'.mem.live = (order.erase a).toFinset ∧ s'.mem.entry = s.mem.entry := by
  obtain ⟨s₁, hdel, hI₁, hlive₁, hentry₁⟩ := hashDelete_spec hI ha hlt
  have hout : a ∉ order.erase a := fun hmem => (hI.nodup.mem_erase_iff.mp hmem).1 rfl
  obtain ⟨m, hfree, hI₂, hlive₂, hentry₂⟩ := hI₁.free hout (by rw [hlive₁]; exact hI.live a ha)
  refine ⟨{ s₁ with mem := m }, ?_, hI₂, ?_, hentry₂.trans hentry₁⟩
  · rw [dispose, hdel, ok_bind, hfree, ok_bind]
  · change m.live = (order.erase a).toFinset
    rw [hlive₂, hlive₁, hlive]
    ext c
    rw [Finset.mem_erase, List.mem_toFinset, List.mem_toFinset, hI.nodup.mem_erase_iff]

/-- RESPOND: an entry with the id is answered and gone, or there is none. -/
theorem respond_spec [DecidableEq K] (hI : Inv hash key s order) (hlive : s.mem.live = order.toFinset)
    (hlt : order.length < 2 ^ 32) (k : K) :
    ∃ s' out order', respond hash key s k = .ok (s', out) ∧ Inv hash key s' order' ∧
      s'.mem.live = order'.toFinset ∧ order'.length ≤ order.length ∧
      Spec key (order.map s.mem.entry) (.respond k : Op A E K) (.answered out) (order'.map s'.mem.entry) := by
  obtain ⟨out, hfind, ⟨rfl, habsent⟩ | ⟨a, ha, rfl, hkey⟩⟩ := hashFind_spec hI k
  · refine ⟨s, none, order, ?_, hI, hlive, le_rfl, ?_, rfl⟩
    · rw [respond, hfind, ok_bind]
    · rintro e he
      obtain ⟨c, hc, rfl⟩ := List.mem_map.mp he
      exact habsent c hc
  · obtain ⟨s', hdispose, hI', hlive', hentry'⟩ := dispose_spec hI hlive hlt ha
    refine ⟨s', some (s.mem.entry a), order.erase a, ?_, hI', hlive', List.length_erase_le, hkey, ?_⟩
    · simp only [respond, hfind, ok_bind, Mem.read_ok (hI.live a ha), hdispose]
    · obtain ⟨l₁, l₂, hnot, hsplit, herase⟩ := List.exists_erase_eq ha
      refine ⟨l₁.map s.mem.entry, l₂.map s.mem.entry, ?_, ?_⟩
      · rw [hsplit, List.map_append, List.map_cons]
      · rw [herase, hentry', List.map_append]

omit [DecidableEq A] in
/-- The count is that of the list. -/
theorem Inv.hashCnt_eq (hI : Inv hash key s order) : hashCnt s = order.length := by
  cases order with
  | nil => rw [hashCnt, show s.head = none from hI.head]; rfl
  | cons a l =>
    rw [hashCnt, show s.head = some a from hI.head]
    exact (hI.table (List.cons_ne_nil a l)).2.1

/-- FREE: every entry is freed, each once. -/
theorem freeEntries_spec (hI : Inv hash key s order) (hlive : s.mem.live = order.toFinset)
    (hlt : order.length < 2 ^ 32) :
    ∃ s', freeEntries s = .ok s' ∧ Inv hash key s' [] ∧ s'.mem.live = ∅ := by
  obtain ⟨s', hrun, hI', hlive', -⟩ := hashIter_spec State.mem dispose
    (I := fun l s => Inv hash key s l ∧ s.mem.live = l.toFinset ∧ l.length < 2 ^ 32)
    (fun l s h => h.1.nextOf_head) (by
      rintro a l s ⟨hI, hlive, hlt⟩
      obtain ⟨s', hdispose, hI', hlive', -⟩ := dispose_spec hI hlive hlt List.mem_cons_self
      rw [List.erase_cons_head] at hI' hlive'
      exact ⟨s', hdispose, hI', hlive', (Nat.lt_succ_self _).trans hlt⟩)
    order s ⟨hI, hlive, hlt⟩ (Nat.lt_succ_self _)
  refine ⟨s', ?_, hI', hlive'⟩
  rw [freeEntries, hI.hashCnt_eq, hI.head]
  exact hrun

/-- STEP: each does to the table what it may do to the list. -/
theorem step_refines [DecidableEq K] {budget : ℕ} {t : List E} (op : Op A E K)
    (hh : Holds hash key (budget + 1) s t) :
    (∃ f, step hash key s op = .error f ∧ Refused op f) ∨
      ∃ s' r t', step hash key s op = .ok (s', r) ∧ Spec key t op r t' ∧ Holds hash key budget s' t' := by
  obtain ⟨order, hI, hlive, rfl, hbudget⟩ := hh
  cases op with
  | request e heap =>
    rcases request_spec hI hlive (by omega) e heap with ⟨f, hf, hrefused⟩ | ⟨s', a, hrun, hI', hlive', hmap⟩
    · exact Or.inl ⟨f, by rw [step, hf]; rfl, hrefused⟩
    · refine Or.inr ⟨s', .done, _, ?_, rfl, order ++ [a], hI', hlive', hmap.symm, ?_⟩
      · rw [step, hrun, ok_bind]
      · rw [List.length_append, List.length_singleton]
        omega
  | respond k =>
    obtain ⟨s', out, order', hrun, hI', hlive', hle, hspec⟩ := respond_spec hI hlive (by omega) k
    refine Or.inr ⟨s', .answered out, _, ?_, hspec, order', hI', hlive', rfl, by omega⟩
    rw [step, hrun, ok_bind]
  | free =>
    obtain ⟨s', hrun, hI', hlive'⟩ := freeEntries_spec hI hlive (by omega)
    refine Or.inr ⟨s', .done, [], ?_, rfl, [], hI', hlive', rfl, ?_⟩
    · rw [step, hrun, ok_bind]
    · rw [List.length_nil]
      omega
  | count =>
    refine Or.inr ⟨s, .count (hashCnt s), _, rfl, ⟨?_, rfl⟩, order, hI, hlive, rfl, by omega⟩
    rw [hI.hashCnt_eq, List.length_map]
  | fsck =>
    refine Or.inr ⟨s, .intact true, _, ?_, ⟨rfl, rfl⟩, order, hI, hlive, rfl, by omega⟩
    rw [step, hashFsck_spec hI (by omega), ok_bind]

end Diversity.Uthash
