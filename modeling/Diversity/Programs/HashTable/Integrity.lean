import Diversity.Programs.HashTable.Chains

/-! @src client_server/uthash/src/uthash.h | name:uthash integrity | scheme:linked-list |
    family:data-structure

    Each macro of uthash keeps the invariant. `HASH_ADD` puts the element behind the last one and to the
    front of its bucket, and expands the buckets where one has grown too long; `HASH_FIND` goes through one
    bucket; `HASH_DELETE` takes the element out of both lists. `HASH_FSCK`, the check that the library runs
    on itself when it is compiled for debugging, never fails. -/

namespace Diversity.Uthash
open Schemes Schemes.LinkedList

variable {A E K : Type} [DecidableEq A] {hash : K → UInt32} {key : E → K} {grants : ℕ → Bool}
  {s : State A E} {order : List A} {chain : ℕ → List A} {a : A} {b : ℕ}

/-- The table of a hash with elements. -/
structure TableInv (m : Mem A E) (t : Table A) (order : List A) (b : ℕ) (chain : ℕ → List A) : Prop where
  le : b ≤ 30
  log2 : t.log2NumBuckets = b
  numBuckets : t.numBuckets = 2 ^ b
  length : t.buckets.length = 2 ^ b
  chains : Chains m (2 ^ b) t.buckets order chain

/-- What holds of a hash between calls. -/
structure Inv (hash : K → UInt32) (key : E → K) (s : State A E) (order : List A) : Prop where
  nodup : order.Nodup
  live : ∀ a ∈ order, a ∈ s.mem.live
  app : Seg s.mem.prev s.mem.next none order none
  head : s.head = order.head?
  hashv : ∀ a ∈ order, s.mem.hashv a = hash (key (s.mem.entry a))
  table : order ≠ [] → s.tbl.tail = order.getLast? ∧ s.tbl.numItems = order.length ∧
    ∃ b chain, TableInv s.mem s.tbl order b chain

/-! ### Expansion -/

/-- `ceil(n/b)` is not 0 for a table with elements. -/
theorem ideal_spec (items : ℕ) (hb : b ≤ 30) (hpos : 0 < items) (hlt : items < 2 ^ 32) :
    ∃ share, shr32 items (u32 (b + 1)) = .ok share ∧
      u32 (share + if items &&& u32 (u32 (2 ^ b * 2) + (2 ^ 32 - 1)) ≠ 0 then 1 else 0) ≠ 0 := by
  have hle : 2 ^ (b + 1) ≤ 2 ^ 31 := Nat.pow_le_pow_right (by norm_num) (by omega)
  have hpow : 0 < 2 ^ (b + 1) := Nat.two_pow_pos _
  have hlog : u32 (b + 1) = b + 1 := Nat.mod_eq_of_lt (by omega)
  have hmask : u32 (u32 (2 ^ b * 2) + (2 ^ 32 - 1)) = 2 ^ (b + 1) - 1 := by
    rw [u32, u32, ← pow_succ]
    omega
  refine ⟨items / 2 ^ (b + 1), ?_, ?_⟩
  · rw [hlog, shr32, if_pos (by omega), Nat.shiftRight_eq_div_pow]
  · rw [hmask, Nat.and_two_pow_sub_one_eq_mod]
    have hdiv := Nat.div_add_mod items (2 ^ (b + 1))
    have hshare : items / 2 ^ (b + 1) ≤ items := Nat.div_le_self _ _
    have htwo : items / 2 ^ (b + 1) ≤ items / 2 := Nat.div_le_div_left (by rw [pow_succ]; omega) (by norm_num)
    rw [u32, Nat.mod_eq_of_lt (by split <;> omega)]
    split
    · exact Nat.succ_ne_zero _
    · next hzero =>
      rw [not_not.mp hzero, Nat.add_zero] at hdiv
      intro hshare0
      rw [Nat.add_zero] at hshare0
      rw [hshare0, Nat.mul_zero] at hdiv
      omega

/-- EXPAND: the buckets are doubled, or the program ends for want of memory. -/
theorem expandBuckets_spec (hgrants : ∀ n, grants n = true → n ≤ 2 ^ 30)
    (hT : TableInv s.mem s.tbl order b chain) (hitems : s.tbl.numItems = order.length)
    (hpos : order ≠ []) (hlt : order.length < 2 ^ 32) (hlive : ∀ c ∈ order, c ∈ s.mem.live) :
    expandBuckets grants s = .error .badAlloc ∧ (∃ n, grants n = false) ∨
      ∃ s' chain', expandBuckets grants s = .ok s' ∧ TableInv s'.mem s'.tbl order (b + 1) chain' ∧
        SameElements s.mem s'.mem ∧ s'.head = s.head ∧ s'.tbl.tail = s.tbl.tail ∧
        s'.tbl.numItems = s.tbl.numItems := by
  have hdouble : u32 (s.tbl.numBuckets * 2) = 2 ^ (b + 1) := by
    have hle := hT.le
    rw [hT.numBuckets, u32, ← pow_succ]
    exact Nat.mod_eq_of_lt (Nat.pow_lt_pow_right (by norm_num) (by omega))
  rw [expandBuckets]
  split
  swap
  · next hrefused => exact Or.inl ⟨rfl, _, Bool.eq_false_of_not_eq_true hrefused⟩
  next hgrant =>
  have hb : b + 1 ≤ 30 := by
    have hle := hgrants _ hgrant
    rw [Nat.mul_comm, hdouble] at hle
    exact (Nat.pow_le_pow_iff_right (by norm_num : 1 < 2)).mp hle
  have hlen : 0 < order.length := List.length_pos_of_ne_nil hpos
  obtain ⟨share, hshr, hideal⟩ := ideal_spec order.length hT.le hlen hlt
  rw [← hitems, ← hT.log2] at hshr
  rw [← hitems, ← hT.numBuckets] at hideal
  obtain ⟨x, chain', hfold, hchains, hlength, hsame⟩ := expandLoop_spec hT.le hideal hT.numBuckets hitems hlt
    hlive hT.chains
  have hlog : u32 (s.tbl.log2NumBuckets + 1) = b + 1 := by
    rw [hT.log2]
    exact Nat.mod_eq_of_lt (by omega)
  simp only [hshr, ok_bind, hfold]
  exact Or.inr ⟨_, chain', rfl, ⟨hb, hlog, hdouble, hlength, hchains⟩, hsame, rfl, rfl, rfl⟩

/-! ### `HASH_ADD` -/

/-- The element is linked behind the last one; the buckets do not have it yet. -/
theorem linkLast_spec (grants : ℕ → Bool) (hI : Inv hash key s order) (ha : a ∈ s.mem.live) (hnew : a ∉ order) :
    linkLast grants s a = .error .badAlloc ∧ (∃ n, grants n = false) ∨
      ∃ s' b chain, linkLast grants s a = .ok s' ∧ TableInv s'.mem s'.tbl order b chain ∧
        Seg s'.mem.prev s'.mem.next none (order ++ [a]) none ∧ s'.head = (order ++ [a]).head? ∧
        s'.tbl.tail = some a ∧ s'.tbl.numItems = order.length ∧ s'.mem.live = s.mem.live ∧
        s'.mem.entry = s.mem.entry ∧ s'.mem.hashv = s.mem.hashv := by
  have hseg := hI.app.concat hI.nodup hnew
  by_cases hempty : order = []
  · subst hempty
    have hhead : s.head = none := hI.head
    cases hgrant : grants 32 with
    | false =>
      refine Or.inl ⟨?_, 32, hgrant⟩
      simp [linkLast, Mem.setNext, Mem.setPrev, Mem.write, ha, hhead, makeTable, hgrant]
    | true =>
      refine Or.inr ⟨{ mem := { s.mem with next := Function.update s.mem.next a none,
                                           prev := Function.update s.mem.prev a none },
                       head := some a, tbl := .fresh a }, 5, fun _ => [], ?_,
        ⟨by norm_num, rfl, rfl, List.length_replicate, ?_⟩, hseg, rfl, rfl, rfl, rfl, rfl, rfl⟩
      · simp [linkLast, Mem.setNext, Mem.setPrev, Mem.write, ha, hhead, makeTable, hgrant]
      · exact (moved_nil _ (2 ^ 5) 0).chains
  · obtain ⟨htail, hitems, b, chain, hT⟩ := hI.table hempty
    obtain ⟨t, ht⟩ : ∃ t, order.getLast? = some t := ⟨_, List.getLast?_eq_some_getLast hempty⟩
    obtain ⟨c, hc⟩ : ∃ c, order.head? = some c := ⟨_, List.head?_eq_some_head hempty⟩
    have hlive : t ∈ s.mem.live := hI.live t (List.mem_of_getLast? ht)
    have hhead : s.head = some c := hI.head.trans hc
    rw [ht] at htail hseg
    refine Or.inr ⟨{ s with mem := { s.mem with
                                       next := Function.update (Function.update s.mem.next a none) t (some a),
                                       prev := Function.update s.mem.prev a (some t) },
                            tbl := { s.tbl with tail := some a } }, b, chain, ?_,
      ⟨hT.le, hT.log2, hT.numBuckets, hT.length, ?_⟩, hseg, ?_, rfl, hitems, rfl, rfl, rfl⟩
    · simp [linkLast, Mem.setNext, Mem.setPrev, Mem.write, ha, hhead, htail, hlive]
    · exact hT.chains.of_agree rfl rfl (fun _ => Iff.rfl) fun _ _ => rfl
    · rw [List.head?_append, hc]
      exact hhead

/-- The element goes to the front of its bucket, and the buckets may be doubled. -/
theorem addToBkt_spec (hgrants : ∀ n, grants n = true → n ≤ 2 ^ 30)
    (hT : TableInv s.mem s.tbl order b chain) (ha : a ∈ s.mem.live) (hnew : a ∉ order)
    (hlive : ∀ c ∈ order, c ∈ s.mem.live) (hitems : s.tbl.numItems = order.length + 1)
    (hlt : order.length + 1 < 2 ^ 32) :
    addToBkt grants s (toBkt (s.mem.hashv a) s.tbl.numBuckets) a = .error .badAlloc ∧
        (∃ n, grants n = false) ∨
      ∃ s' b' chain', addToBkt grants s (toBkt (s.mem.hashv a) s.tbl.numBuckets) a = .ok s' ∧
        TableInv s'.mem s'.tbl (order ++ [a]) b' chain' ∧ SameElements s.mem s'.mem ∧
        s'.head = s.head ∧ s'.tbl.tail = s.tbl.tail ∧ s'.tbl.numItems = s.tbl.numItems := by
  have hi : (s.mem.hashv a).toNat % 2 ^ b < 2 ^ b := Nat.mod_lt _ (Nat.two_pow_pos b)
  have hbkt : toBkt (s.mem.hashv a) s.tbl.numBuckets = (s.mem.hashv a).toNat % 2 ^ b := by
    rw [hT.numBuckets, toBkt_eq (hT.le.trans (by norm_num))]
  obtain ⟨bkt, hload, hhead, hcount⟩ := hT.chains.bucket _ hi
  have hliveAll : ∀ c ∈ order ++ [a], c ∈ s.mem.live := by
    intro c hc
    rcases List.mem_append.mp hc with hc | hc
    · exact hlive c hc
    · exact List.mem_singleton.mp hc ▸ ha
  have hcount' : u32 (bkt.count + 1) = (chain ((s.mem.hashv a).toNat % 2 ^ b)).length + 1 := by
    have hlen := hT.chains.length_lt hi (order ++ [a]) (fun c hc => List.mem_append_left _ hc)
      (List.mem_append_right _ (List.mem_singleton_self a)) hnew
    rw [List.length_append, List.length_singleton] at hlen
    rw [hcount]
    exact Nat.mod_eq_of_lt (by omega)
  have hheadLive : ∀ c ∈ bkt.hhHead, c ∈ s.mem.live := by
    intro c hc
    rw [hhead] at hc
    exact hlive c (hT.chains.head_mem hi c hc)
  have hstore := store_of_lt (a := s.tbl.buckets) (i := (s.mem.hashv a).toNat % 2 ^ b)
    (by rw [hT.length]; exact hi) ({ bkt with hhHead := some a, count := u32 (bkt.count + 1) } : Bucket A)
  have hpush := hT.chains.push hnew hi rfl hT.length
    { bkt with hhHead := some a, count := u32 (bkt.count + 1) } rfl hcount'
  rw [← hhead] at hpush
  obtain ⟨s₁, hs₁⟩ : ∃ s₁ : State A E, s₁ = { s with
      mem := s.mem.front a bkt.hhHead
      tbl := { s.tbl with
        buckets := s.tbl.buckets.set ((s.mem.hashv a).toNat % 2 ^ b)
          { bkt with hhHead := some a, count := u32 (bkt.count + 1) } } } := ⟨_, rfl⟩
  obtain ⟨chain₁, hT₁⟩ : ∃ chain₁, TableInv s₁.mem s₁.tbl (order ++ [a]) b chain₁ := by
    rw [hs₁]
    exact ⟨_, hT.le, hT.log2, hT.numBuckets, by rw [List.length_set, hT.length], hpush⟩
  have hsame₁ : SameElements s.mem s₁.mem := by
    rw [hs₁]
    exact ⟨rfl, rfl, rfl, rfl, rfl⟩
  have hrest : s₁.head = s.head ∧ s₁.tbl.tail = s.tbl.tail ∧ s₁.tbl.numItems = s.tbl.numItems := by
    rw [hs₁]
    exact ⟨rfl, rfl, rfl⟩
  simp only [addToBkt, hbkt, load_of_getElem? hload, ok_bind, linkFront_ok ha hheadLive, hstore, ← hs₁]
  split
  · rcases expandBuckets_spec hgrants hT₁ (by rw [hrest.2.2, List.length_append]; exact hitems) (by simp)
        (by rw [List.length_append]; exact hlt) (by rw [hsame₁.live]; exact hliveAll) with
      hfatal | ⟨s', chain', hrun, hT', hsame, hhead', htail', hitems'⟩
    · exact Or.inl hfatal
    · exact Or.inr ⟨s', b + 1, chain', hrun, hT', hsame₁.trans hsame, hhead'.trans hrest.1,
        htail'.trans hrest.2.1, hitems'.trans hrest.2.2⟩
  · exact Or.inr ⟨s₁, b, chain₁, rfl, hT₁, hsame₁, hrest⟩

/-- ADD: the element is in the hash, behind the others, or the program ends for want of memory. -/
theorem hashAdd_spec (hgrants : ∀ n, grants n = true → n ≤ 2 ^ 30) (hI : Inv hash key s order)
    (ha : a ∈ s.mem.live) (hnew : a ∉ order) (hlt : order.length + 1 < 2 ^ 32) :
    hashAdd hash key grants s a = .error .badAlloc ∧ (∃ n, grants n = false) ∨
      ∃ s', hashAdd hash key grants s a = .ok s' ∧ Inv hash key s' (order ++ [a]) ∧
        s'.mem.live = s.mem.live ∧ s'.mem.entry = s.mem.entry := by
  rcases linkLast_spec grants hI ha hnew with hfatal |
    ⟨s₁, b, chain, hlink, hT, hseg, hhead, htail, hitems, hlive₁, hentry₁, hhashv₁⟩
  · exact Or.inl ⟨by rw [hashAdd, hfatal.1]; rfl, hfatal.2⟩
  have ha₁ : a ∈ s₁.mem.live := by rwa [hlive₁]
  -- the hash value is stored, and the element counted, before it goes to its bucket
  obtain ⟨s₂, hs₂⟩ : ∃ s₂ : State A E, s₂ = { s₁ with
      mem := { s₁.mem with hashv := Function.update s₁.mem.hashv a (hash (key (s₁.mem.entry a))) }
      tbl := { s₁.tbl with numItems := u32 (s₁.tbl.numItems + 1) } } := ⟨_, rfl⟩
  have hself : s₂.mem.hashv a = hash (key (s₁.mem.entry a)) := by
    rw [hs₂]
    exact Function.update_self _ _ _
  have hother : ∀ c ∈ order, s₂.mem.hashv c = s₁.mem.hashv c := by
    intro c hc
    rw [hs₂]
    refine Function.update_of_ne ?_ _ _
    rintro rfl
    exact hnew hc
  have hT₂ : TableInv s₂.mem s₂.tbl order b chain := by
    have hchains : Chains s₂.mem (2 ^ b) s₁.tbl.buckets order chain :=
      hT.chains.of_agree (by rw [hs₂]) (by rw [hs₂]) (fun _ => Iff.rfl) hother
    rw [hs₂] at hchains ⊢
    exact ⟨hT.le, hT.log2, hT.numBuckets, hT.length, hchains⟩
  have hitems₂ : s₂.tbl.numItems = order.length + 1 := by
    rw [hs₂]
    change u32 (s₁.tbl.numItems + 1) = order.length + 1
    rw [hitems]
    exact Nat.mod_eq_of_lt (by omega)
  have hsame₂ : s₂.mem.live = s.mem.live ∧ s₂.mem.entry = s.mem.entry ∧ s₂.mem.prev = s₁.mem.prev ∧
      s₂.mem.next = s₁.mem.next ∧ s₂.head = s₁.head ∧ s₂.tbl.tail = s₁.tbl.tail := by
    rw [hs₂]
    exact ⟨hlive₁, hentry₁, rfl, rfl, rfl, rfl⟩
  obtain ⟨hlive₂, hentry₂, hprev₂, hnext₂, hhead₂, htail₂⟩ := hsame₂
  have hrun : hashAdd hash key grants s a =
      addToBkt grants s₂ (toBkt (s₂.mem.hashv a) s₂.tbl.numBuckets) a := by
    rw [hself, hashAdd, hlink, ok_bind, Mem.read_ok ha₁, ok_bind, Mem.setHashv, Mem.write_ok ha₁, ok_bind, hs₂]
  rw [hrun]
  rcases addToBkt_spec hgrants hT₂ (by rwa [hlive₂]) hnew (by rw [hlive₂]; exact hI.live) hitems₂ hlt with
    hfatal | ⟨s', b', chain', hadd, hT', hsame, hhead', htail', hitems'⟩
  · exact Or.inl hfatal
  refine Or.inr ⟨s', hadd, ⟨?_, ?_, ?_, ?_, ?_, fun _ => ⟨?_, ?_, b', chain', hT'⟩⟩, ?_, ?_⟩
  · exact List.nodup_append.mpr ⟨hI.nodup, List.nodup_singleton a, fun c hc d hd hcd =>
      hnew (List.mem_singleton.mp hd ▸ hcd ▸ hc)⟩
  · intro c hc
    rw [hsame.live, hlive₂]
    rcases List.mem_append.mp hc with hc | hc
    · exact hI.live c hc
    · exact List.mem_singleton.mp hc ▸ ha
  · rw [hsame.prev, hsame.next, hprev₂, hnext₂]
    exact hseg
  · rw [hhead', hhead₂, hhead]
  · intro c hc
    rw [hsame.hashv, hsame.entry, hentry₂]
    rcases List.mem_append.mp hc with hc | hc
    · rw [hother c hc, hhashv₁]
      exact hI.hashv c hc
    · rw [List.mem_singleton.mp hc, hself, hentry₁]
  · rw [htail', htail₂, htail, List.getLast?_concat]
  · rw [hitems', hitems₂, List.length_append, List.length_singleton]
  · rw [hsame.live, hlive₂]
  · rw [hsame.entry, hentry₂]

/-! ### `HASH_FIND` -/

/-- The loop goes through the chain up to the first element with the key. -/
theorem findLoop_spec [DecidableEq K] (key : E → K) {m : Mem A E} (k : K) : ∀ (l : List A) {p : Option A} {fuel : ℕ},
    Seg m.hhPrev m.hhNext p l none → (∀ c ∈ l, c ∈ m.live) → l.length < fuel →
    loop (findBody key m k) fuel l.head? = .ok (l.find? fun c => key (m.entry c) = k)
  | _, _, 0, _, _, hfuel => absurd hfuel (Nat.not_lt_zero _)
  | [], _, fuel + 1, _, _, _ => loop_done rfl fuel
  | c :: l, _, fuel + 1, ⟨_, hnext, hseg⟩, hlive, hfuel => by
    rw [Option.or_none] at hnext
    have hc := hlive c List.mem_cons_self
    rw [List.head?_cons]
    by_cases hkey : key (m.entry c) = k
    · rw [List.find?_cons_of_pos (by simpa using hkey)]
      refine loop_done ?_ fuel
      rw [findBody, Mem.read_ok hc, ok_bind, if_pos hkey]
    · rw [List.find?_cons_of_neg (by simpa using hkey)]
      have hbody : findBody key m k (some c) = .ok (.next l.head?) := by
        rw [findBody, Mem.read_ok hc, ok_bind, if_neg hkey, Mem.read_ok hc, ok_bind, hnext]
      rw [loop_next hbody]
      exact findLoop_spec key k l hseg (fun d hd => hlive d (List.mem_cons_of_mem c hd))
        (Nat.lt_of_succ_lt_succ hfuel)

/-- FIND: an element with the key, if the hash has one. -/
theorem hashFind_spec [DecidableEq K] (hI : Inv hash key s order) (k : K) :
    ∃ out, hashFind hash key s k = .ok out ∧
      (out = none ∧ (∀ c ∈ order, key (s.mem.entry c) ≠ k) ∨
        ∃ c ∈ order, out = some c ∧ key (s.mem.entry c) = k) := by
  by_cases hempty : order = []
  · subst hempty
    refine ⟨none, ?_, Or.inl ⟨rfl, fun c hc => absurd hc List.not_mem_nil⟩⟩
    rw [hashFind, show s.head = none from hI.head]
  obtain ⟨-, hitems, b, chain, hT⟩ := hI.table hempty
  obtain ⟨c₀, hc₀⟩ : ∃ c, order.head? = some c := ⟨_, List.head?_eq_some_head hempty⟩
  have hi : (hash k).toNat % 2 ^ b < 2 ^ b := Nat.mod_lt _ (Nat.two_pow_pos b)
  obtain ⟨bkt, hload, hhead, -⟩ := hT.chains.bucket _ hi
  have hmem := hT.chains.mem _ hi
  have hlen : (chain ((hash k).toNat % 2 ^ b)).length ≤ order.length :=
    (List.subperm_of_subset (hT.chains.nodup _ hi) fun c hc => ((hmem c).mp hc).1).length_le
  have hloop := findLoop_spec key k _ (hT.chains.seg _ hi)
    (fun c hc => hI.live c ((hmem c).mp hc).1) (Nat.lt_succ_of_le hlen)
  have hrun : hashFind hash key s k =
      .ok ((chain ((hash k).toNat % 2 ^ b)).find? fun c => key (s.mem.entry c) = k) := by
    rw [hashFind, hI.head, hc₀, hT.numBuckets, toBkt_eq (hT.le.trans (by norm_num))]
    simp only [load_of_getElem? hload, ok_bind, hhead, hitems]
    exact hloop
  refine ⟨_, hrun, ?_⟩
  · cases hfind : (chain ((hash k).toNat % 2 ^ b)).find? fun c => key (s.mem.entry c) = k with
    | none =>
      refine Or.inl ⟨rfl, fun c hc hkey => ?_⟩
      have hin : c ∈ chain ((hash k).toNat % 2 ^ b) := by
        rw [hmem]
        exact ⟨hc, by rw [hI.hashv c hc, hkey]⟩
      have hno := List.find?_eq_none.mp hfind c hin
      simp [hkey] at hno
    | some c =>
      have hkey := List.find?_some hfind
      exact Or.inr ⟨c, ((hmem c).mp (List.mem_of_find?_eq_some hfind)).1, rfl, of_decide_eq_true hkey⟩

/-! ### `HASH_DELETE` -/

/-- What remains at the front when an element is taken out. -/
theorem head?_erase {l₁ l₂ : List A} {d : A} (hnodup : (l₁ ++ d :: l₂).Nodup) :
    (if (l₁ ++ d :: l₂).head? = some d then l₂.head? else (l₁ ++ d :: l₂).head?) = (l₁ ++ l₂).head? := by
  cases l₁ with
  | nil => simp
  | cons c l₁ =>
    have hne : c ≠ d := by
      rintro rfl
      exact (List.nodup_cons.mp hnodup).1 (List.mem_append_right l₁ List.mem_cons_self)
    simp [hne]

/-- What remains at the end. -/
theorem getLast?_erase {l₁ l₂ : List A} {d : A} (hnodup : (l₁ ++ d :: l₂).Nodup) :
    (if (l₁ ++ d :: l₂).getLast? = some d then l₁.getLast? else (l₁ ++ d :: l₂).getLast?) =
      (l₁ ++ l₂).getLast? := by
  cases hl : l₂.getLast? with
  | none =>
    rw [List.getLast?_eq_none_iff] at hl
    simp [hl]
  | some c =>
    have hne : c ≠ d := by
      rintro rfl
      exact (List.nodup_cons.mp (List.nodup_append.mp hnodup).2.1).1 (List.mem_of_getLast? hl)
    simp [List.getLast?_append, List.getLast?_cons, hl, hne]

/-- The element is taken out of its bucket. -/
theorem delInBkt_spec {d : A} (hT : TableInv s.mem s.tbl order b chain) (hnodup : order.Nodup)
    (hlive : ∀ c ∈ order, c ∈ s.mem.live) (hd : d ∈ order) (hlt : order.length < 2 ^ 32) :
    ∃ s' chain', delInBkt s (toBkt (s.mem.hashv d) s.tbl.numBuckets) d = .ok s' ∧
      TableInv s'.mem s'.tbl (order.erase d) b chain' ∧ SameElements s.mem s'.mem ∧
      s'.head = s.head ∧ s'.tbl.tail = s.tbl.tail ∧ s'.tbl.numItems = s.tbl.numItems := by
  have hi : (s.mem.hashv d).toNat % 2 ^ b < 2 ^ b := Nat.mod_lt _ (Nat.two_pow_pos b)
  have hbkt : toBkt (s.mem.hashv d) s.tbl.numBuckets = (s.mem.hashv d).toNat % 2 ^ b := by
    rw [hT.numBuckets, toBkt_eq (hT.le.trans (by norm_num))]
  obtain ⟨bkt, hload, hhead, hcount⟩ := hT.chains.bucket _ hi
  have hmem := hT.chains.mem _ hi
  obtain ⟨l₁, l₂, hsplit⟩ := List.append_of_mem ((hmem d).mpr ⟨hd, rfl⟩)
  have hseg := hT.chains.seg _ hi
  have hnd := hT.chains.nodup _ hi
  have hlen : (chain ((s.mem.hashv d).toNat % 2 ^ b)).length ≤ order.length :=
    (List.subperm_of_subset hnd fun c hc => ((hmem c).mp hc).1).length_le
  rw [hsplit] at hseg hnd hhead hcount hlen
  obtain ⟨hprev, hnext⟩ := hseg.neighbours
  have hin : ∀ c ∈ l₁ ++ d :: l₂, c ∈ s.mem.live := by
    intro c hc
    rw [← hsplit] at hc
    exact hlive c ((hmem c).mp hc).1
  have hprevLive : ∀ c ∈ s.mem.hhPrev d, c ∈ s.mem.live := by
    intro c hc
    rw [hprev] at hc
    exact hin c (List.mem_append_left _ (List.mem_of_getLast? hc))
  have hnextLive : ∀ c ∈ s.mem.hhNext d, c ∈ s.mem.live := by
    intro c hc
    rw [hnext] at hc
    exact hin c (List.mem_append_right _ (List.mem_cons_of_mem d (List.mem_of_mem_head? hc)))
  have hcount' : u32 (bkt.count + (2 ^ 32 - 1)) = (l₁ ++ l₂).length := by
    simp only [List.length_append, List.length_cons] at hcount hlen ⊢
    rw [hcount, u32]
    omega
  have hhead' : (if bkt.hhHead = some d then s.mem.hhNext d else bkt.hhHead) = (l₁ ++ l₂).head? := by
    rw [hhead, hnext]
    exact head?_erase hnd
  obtain ⟨bkt', hbkt'⟩ : ∃ bkt' : Bucket A, bkt' = { bkt with
      hhHead := if bkt.hhHead = some d then s.mem.hhNext d else bkt.hhHead
      count := u32 (bkt.count + (2 ^ 32 - 1)) } := ⟨_, rfl⟩
  have herase := hT.chains.erase hnodup hi hT.length hsplit bkt' (by rw [hbkt', ← hhead'])
    (by rw [hbkt', ← hcount'])
  have hstore := store_of_lt (a := s.tbl.buckets) (i := (s.mem.hashv d).toNat % 2 ^ b)
    (by rw [hT.length]; exact hi) bkt'
  have hrun : delInBkt s (toBkt (s.mem.hashv d) s.tbl.numBuckets) d = .ok { s with
      mem := { s.mem with
        hhPrev := setAt s.mem.hhPrev (s.mem.hhNext d) (s.mem.hhPrev d)
        hhNext := setAt s.mem.hhNext (s.mem.hhPrev d) (s.mem.hhNext d) }
      tbl := { s.tbl with buckets := s.tbl.buckets.set ((s.mem.hashv d).toNat % 2 ^ b) bkt' } } := by
    simp only [delInBkt, hbkt, load_of_getElem? hload, ok_bind, Mem.read_ok (hlive d hd), ← hbkt', hstore,
      unlinkBkt_ok hprevLive hnextLive]
  exact ⟨_, _, hrun, ⟨hT.le, hT.log2, hT.numBuckets, by rw [List.length_set, hT.length], herase⟩,
    ⟨rfl, rfl, rfl, rfl, rfl⟩, rfl, rfl, rfl⟩

omit [DecidableEq A] in
/-- The buckets do not depend on the count of elements. -/
theorem TableInv.count {m : Mem A E} {t : Table A} (h : TableInv m t order b chain) (k : ℕ) :
    TableInv m { t with numItems := k } order b chain :=
  ⟨h.le, h.log2, h.numBuckets, h.length, h.chains⟩

/-- `n--` of a counter that is not 0. -/
theorem u32_pred {n : ℕ} (hpos : 0 < n) (hlt : n < 2 ^ 32) : u32 (n + (2 ^ 32 - 1)) = n - 1 := by
  rw [u32]
  omega

/-- DELETE: the element is out of the hash, and still allocated. -/
theorem hashDelete_spec {d : A} (hI : Inv hash key s order) (hd : d ∈ order) (hlt : order.length < 2 ^ 32) :
    ∃ s', hashDelete s d = .ok s' ∧ Inv hash key s' (order.erase d) ∧ s'.mem.live = s.mem.live ∧
      s'.mem.entry = s.mem.entry := by
  obtain ⟨l₁, l₂, hsplit⟩ := List.append_of_mem hd
  have hnodup := hI.nodup
  have happ := hI.app
  rw [hsplit] at hnodup happ
  obtain ⟨hprev, hnext⟩ := happ.neighbours
  have herase : order.erase d = l₁ ++ l₂ := by
    have hd₁ : d ∉ l₁ := fun hmem =>
      (List.nodup_append.mp hnodup).2.2 d hmem d List.mem_cons_self rfl
    rw [hsplit, List.erase_append_right _ hd₁, List.erase_cons_head]
  have hdl := hI.live d hd
  have hhead : (if l₁.getLast? = none then l₂.head? else s.head) = (l₁ ++ l₂).head? := by
    rw [hI.head, hsplit]
    cases l₁ with
    | nil => simp
    | cons c l₁ => simp
  by_cases halone : s.mem.prev d = none ∧ s.mem.next d = none
  · have hnil : l₁ ++ l₂ = [] := by
      rw [hprev, hnext, List.getLast?_eq_none_iff, List.head?_eq_none_iff] at halone
      rw [halone.1, halone.2]
      rfl
    refine ⟨{ s with head := none }, ?_, ?_, rfl, rfl⟩
    · rw [hashDelete, Mem.read_ok hdl, ok_bind, Mem.read_ok hdl, ok_bind, if_pos halone]
    · rw [herase, hnil]
      exact ⟨List.nodup_nil, fun c hc => absurd hc List.not_mem_nil, trivial, rfl,
        fun c hc => absurd hc List.not_mem_nil, fun hne => absurd rfl hne⟩
  obtain ⟨htail, hitems, b, chain, hT⟩ := hI.table (List.ne_nil_of_mem hd)
  have hin : ∀ c ∈ l₁ ++ d :: l₂, c ∈ s.mem.live := hsplit ▸ hI.live
  have hprevLive : ∀ c ∈ s.mem.prev d, c ∈ s.mem.live := by
    intro c hc
    rw [hprev] at hc
    exact hin c (List.mem_append_left _ (List.mem_of_getLast? hc))
  have hnextLive : ∀ c ∈ s.mem.next d, c ∈ s.mem.live := by
    intro c hc
    rw [hnext] at hc
    exact hin c (List.mem_append_right _ (List.mem_cons_of_mem d (List.mem_of_mem_head? hc)))
  -- the order of additions is patched up first, then the bucket
  obtain ⟨s₁, hs₁⟩ : ∃ s₁ : State A E, s₁ =
      { mem := { s.mem with
          next := setAt s.mem.next (s.mem.prev d) (s.mem.next d)
          prev := setAt s.mem.prev (s.mem.next d) (s.mem.prev d) }
        head := if s.mem.prev d = none then s.mem.next d else s.head
        tbl := { s.tbl with tail := if s.tbl.tail = some d then s.mem.prev d else s.tbl.tail } } := ⟨_, rfl⟩
  have hT₁ : TableInv s₁.mem s₁.tbl order b chain := by
    rw [hs₁]
    exact ⟨hT.le, hT.log2, hT.numBuckets, hT.length,
      hT.chains.of_agree rfl rfl (fun _ => Iff.rfl) fun _ _ => rfl⟩
  have hlive₁ : s₁.mem.live = s.mem.live := by rw [hs₁]
  obtain ⟨s₂, chain₂, hdel, hT₂, hsame, hhead₂, htail₂, hitems₂⟩ := delInBkt_spec hT₁ hI.nodup
    (by rw [hlive₁]; exact hI.live) hd hlt
  obtain ⟨k, hk⟩ : ∃ k, u32 (s₂.tbl.numItems + (2 ^ 32 - 1)) = k := ⟨_, rfl⟩
  have hrun : hashDelete s d = .ok { s₂ with tbl := { s₂.tbl with numItems := k } } := by
    have hhv : s₁.mem.hashv d = s.mem.hashv d := by rw [hs₁]
    have hn : s₁.tbl.numBuckets = s.tbl.numBuckets := by rw [hs₁]
    rw [hhv, hn] at hdel
    simp only [hashDelete, Mem.read_ok hdl, ok_bind, if_neg halone, unlinkApp_ok hprevLive hnextLive]
    simp only [Mem.read, if_pos hdl, ok_bind]
    rw [← hs₁, hdel, ok_bind, hk]
  have hrest : s₁.head = (l₁ ++ l₂).head? ∧ s₁.tbl.tail = (l₁ ++ l₂).getLast? ∧
      s₁.tbl.numItems = order.length ∧ s₁.mem.entry = s.mem.entry ∧ s₁.mem.hashv = s.mem.hashv ∧
      Seg s₁.mem.prev s₁.mem.next none (l₁ ++ l₂) none := by
    rw [hprev, hnext, htail, hsplit, getLast?_erase hnodup] at hs₁
    rw [hs₁, ← hhead]
    refine ⟨rfl, rfl, hitems, rfl, rfl, ?_⟩
    have hseg := happ.erase hnodup
    rwa [hprev, hnext] at hseg
  obtain ⟨hhead₁, htail₁, hitems₁, hentry₁, hhashv₁, hseg₁⟩ := hrest
  have hcount : k = (order.erase d).length := by
    rw [← hk, hitems₂, hitems₁, List.length_erase_of_mem hd]
    exact u32_pred (List.length_pos_of_mem hd) hlt
  refine ⟨_, hrun, ⟨hI.nodup.erase d, fun c hc => ?_, ?_, ?_, fun c hc => ?_, fun _ => ⟨?_, ?_, b, chain₂, ?_⟩⟩,
    hsame.live.trans hlive₁, hsame.entry.trans hentry₁⟩
  · change c ∈ s₂.mem.live
    rw [hsame.live, hlive₁]
    exact hI.live c (List.mem_of_mem_erase hc)
  · change Seg s₂.mem.prev s₂.mem.next none (order.erase d) none
    rw [hsame.prev, hsame.next, herase]
    exact hseg₁
  · rw [herase, ← hhead₁]
    exact hhead₂
  · change s₂.mem.hashv c = hash (key (s₂.mem.entry c))
    rw [hsame.hashv, hsame.entry, hentry₁, hhashv₁]
    exact hI.hashv c (List.mem_of_mem_erase hc)
  · change s₂.tbl.tail = (order.erase d).getLast?
    rw [htail₂, htail₁, herase]
  · exact hcount
  · exact hT₂.count _

/-! ### `HASH_FSCK` -/

/-- The loop along a list counts its elements, and every one points back to the one before. -/
theorem fsckLoop_spec {m : Mem A E} {prev next : A → Option A} : ∀ (l : List A) {p : Option A}
    {fuel k : ℕ}, Seg prev next p l none → (∀ c ∈ l, c ∈ m.live) → l.length < fuel →
    k + l.length < 2 ^ 32 → loop (fsckBody m prev next) fuel (p, l.head?, k) = .ok (some (k + l.length))
  | _, _, 0, _, _, _, hfuel, _ => absurd hfuel (Nat.not_lt_zero _)
  | [], _, fuel + 1, _, _, _, _, _ => loop_done rfl fuel
  | c :: l, p, fuel + 1, k, ⟨hprev, hnext, hseg⟩, hlive, hfuel, hlt => by
    rw [Option.or_none] at hnext
    rw [List.length_cons] at hfuel hlt ⊢
    have hc := hlive c List.mem_cons_self
    have hk : u32 (k + 1) = k + 1 := Nat.mod_eq_of_lt (by omega)
    have hbody : fsckBody m prev next (p, some c, k) = .ok (.next (some c, l.head?, k + 1)) := by
      rw [fsckBody, Mem.read_ok hc, ok_bind, hprev, if_neg (by simp), Mem.read_ok hc, ok_bind, hnext, hk]
    rw [List.head?_cons, loop_next hbody, show k + (l.length + 1) = k + 1 + l.length by omega]
    exact fsckLoop_spec l hseg (fun d hd => hlive d (List.mem_cons_of_mem c hd)) (by omega) (by omega)

omit [DecidableEq A] in
/-- A chain is as long as there are elements of its hash. -/
theorem Chains.length_eq {m : Mem A E} {n i : ℕ} {buckets : List (Bucket A)}
    (h : Chains m n buckets order chain) (hnodup : order.Nodup) (hi : i < n) :
    (chain i).length = order.countP fun a => (m.hashv a).toNat % n = i := by
  have hperm : (chain i).Perm (order.filter fun a => (m.hashv a).toNat % n = i) := by
    refine (List.perm_ext_iff_of_nodup (h.nodup i hi) (hnodup.filter _)).mpr fun a => ?_
    rw [h.mem i hi, List.mem_filter, decide_eq_true_iff]
  rw [hperm.length_eq, List.countP_eq_length_filter]

omit [DecidableEq A] in
/-- Elements of the first buckets and of the next one. -/
theorem countP_lt_succ (f : A → ℕ) (i : ℕ) (l : List A) :
    (l.countP fun a => f a < i + 1) = (l.countP fun a => f a < i) + l.countP fun a => f a = i := by
  induction l with
  | nil => rfl
  | cons a l ih =>
    simp only [List.countP_cons, ih, decide_eq_true_eq]
    split_ifs <;> omega

/-- FSCK: the check of the library passes. -/
theorem hashFsck_spec (hI : Inv hash key s order) (hlt : order.length < 2 ^ 32) : hashFsck s = .ok true := by
  by_cases hempty : order = []
  · subst hempty
    rw [hashFsck, show s.head = none from hI.head]
  obtain ⟨-, hitems, b, chain, hT⟩ := hI.table hempty
  obtain ⟨c₀, hc₀⟩ : ∃ c, order.head? = some c := ⟨_, List.head?_eq_some_head hempty⟩
  obtain ⟨acc, hfold, hacc⟩ := foldlM_range_total (f := fsckBucket s)
    (I := fun i acc => acc = some (order.countP fun a => (s.mem.hashv a).toNat % 2 ^ b < i))
    (2 ^ b) (some 0) (by simp) (by
      rintro i acc hi rfl
      obtain ⟨bkt, hload, hhead, hcount⟩ := hT.chains.bucket i hi
      have hlen := hT.chains.length_eq hI.nodup hi
      have hsum := countP_lt_succ (fun a => (s.mem.hashv a).toNat % 2 ^ b) i order
      have hle : (order.countP fun a => (s.mem.hashv a).toNat % 2 ^ b < i + 1) ≤ order.length :=
        List.countP_le_length
      have hloop : loop (fsckBody s.mem s.mem.hhPrev s.mem.hhNext) (s.tbl.numItems + 1)
          (none, (chain i).head?, 0) = .ok (some (0 + (chain i).length)) :=
        fsckLoop_spec (chain i) (hT.chains.seg i hi)
          (fun c hc => hI.live c ((hT.chains.mem i hi c).mp hc).1) (by omega) (by omega)
      refine ⟨_, ?_, rfl⟩
      rw [fsckBucket, load_of_getElem? hload, ok_bind, hhead, hloop, ok_bind, Nat.zero_add]
      simp only [hcount, ne_eq, not_true_eq_false, if_false]
      rw [hsum, ← hlen, u32, Nat.mod_eq_of_lt (by omega)])
  have hall : (order.countP fun a => (s.mem.hashv a).toNat % 2 ^ b < 2 ^ b) = order.length := by
    rw [List.countP_eq_length]
    exact fun a _ => decide_eq_true (Nat.mod_lt _ (Nat.two_pow_pos b))
  have horder : loop (fsckBody s.mem s.mem.prev s.mem.next) (s.tbl.numItems + 1)
      (none, order.head?, 0) = .ok (some (0 + order.length)) :=
    fsckLoop_spec order hI.app hI.live (by omega) (by omega)
  rw [hall] at hacc
  rw [hashFsck, hI.head, hT.numBuckets]
  simp only [hc₀, hfold, ok_bind]
  rw [← hc₀, horder, ok_bind, hacc, hitems, Nat.zero_add]
  simp

end Diversity.Uthash
