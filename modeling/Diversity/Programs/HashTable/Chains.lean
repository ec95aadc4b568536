import Diversity.Programs.HashTable.Uthash

/-! @src client_server/uthash/src/uthash.h | name:uthash chains | scheme:linked-list | family:data-structure

    The invariant of a hash: `order` are its elements in the order of additions, `chain i` those of bucket
    `i`. Every element is in exactly one chain, that of its hash; both lists are linked through the
    handles, and every counter is the length of its list. What an operation does to the chains is a push or
    an erase of one element, and an expansion is nothing but a push for every element. -/

namespace Diversity.Uthash
open Schemes Schemes.LinkedList

variable {A E K β : Type} [DecidableEq A] {m : Mem A E} {n i : ℕ} {buckets : List (Bucket A)}
  {order : List A} {chain : ℕ → List A} {a : A}

/-! ### Memory -/

theorem Mem.read_ok (h : a ∈ m.live) (f : A → β) : m.read f a = .ok (f a) := if_pos h

theorem Mem.write_ok (h : a ∈ m.live) (m' : Mem A E) : m.write a m' = .ok m' := if_pos h

/-- The memory with an element before the head of its bucket. -/
def Mem.front (m : Mem A E) (a : A) (hhHead : Option A) : Mem A E :=
  { m with hhPrev := setAt (Function.update m.hhPrev a none) hhHead (some a),
           hhNext := Function.update m.hhNext a hhHead }

theorem linkFront_ok (ha : a ∈ m.live) {h : Option A} (hh : ∀ b ∈ h, b ∈ m.live) :
    linkFront m a h = .ok (m.front a h) := by
  cases h with
  | none => simp [linkFront, Mem.setHhNext, Mem.setHhPrev, Mem.write, ha, onNode, Mem.front]
  | some b => simp [linkFront, Mem.setHhNext, Mem.setHhPrev, Mem.write, ha, hh b rfl, onNode, Mem.front]

theorem relinkFront_ok (ha : a ∈ m.live) {h : Option A} (hh : ∀ b ∈ h, b ∈ m.live) :
    relinkFront m a h = .ok (m.front a h) := by
  cases h with
  | none => simp [relinkFront, Mem.setHhNext, Mem.setHhPrev, Mem.write, ha, onNode, Mem.front]
  | some b => simp [relinkFront, Mem.setHhNext, Mem.setHhPrev, Mem.write, ha, hh b rfl, onNode, Mem.front]

theorem unlinkBkt_ok {p q : Option A} (hp : ∀ c ∈ p, c ∈ m.live) (hq : ∀ c ∈ q, c ∈ m.live) :
    unlinkBkt m p q = .ok { m with hhNext := setAt m.hhNext p q, hhPrev := setAt m.hhPrev q p } := by
  cases p with
  | none =>
    cases q with
    | none => rfl
    | some d => simp [unlinkBkt, Mem.setHhPrev, Mem.write, onNode, hq d rfl]
  | some c =>
    cases q with
    | none => simp [unlinkBkt, Mem.setHhNext, Mem.write, onNode, hp c rfl]
    | some d => simp [unlinkBkt, Mem.setHhNext, Mem.setHhPrev, Mem.write, onNode, hp c rfl, hq d rfl]

theorem unlinkApp_ok {p q : Option A} (hp : ∀ c ∈ p, c ∈ m.live) (hq : ∀ c ∈ q, c ∈ m.live) :
    unlinkApp m p q = .ok { m with next := setAt m.next p q, prev := setAt m.prev q p } := by
  cases p with
  | none =>
    cases q with
    | none => rfl
    | some d => simp [unlinkApp, Mem.setPrev, Mem.write, onNode, hq d rfl]
  | some c =>
    cases q with
    | none => simp [unlinkApp, Mem.setNext, Mem.write, onNode, hp c rfl]
    | some d => simp [unlinkApp, Mem.setNext, Mem.setPrev, Mem.write, onNode, hp c rfl, hq d rfl]

theorem toBkt_eq {b : ℕ} (hb : b ≤ 31) (hashv : UInt32) : toBkt hashv (2 ^ b) = hashv.toNat % 2 ^ b := by
  have hle : 2 ^ b ≤ 2 ^ 31 := Nat.pow_le_pow_right (by norm_num) hb
  have hpos : 0 < 2 ^ b := Nat.two_pow_pos b
  have hmask : u32 (2 ^ b + (2 ^ 32 - 1)) = 2 ^ b - 1 := by
    rw [u32]
    omega
  rw [toBkt, hmask, Nat.and_two_pow_sub_one_eq_mod]

/-! ### Chains -/

/-- The elements of `order` hang in `n` buckets, each in that of its hash. -/
structure Chains (m : Mem A E) (n : ℕ) (buckets : List (Bucket A)) (order : List A)
    (chain : ℕ → List A) : Prop where
  mem : ∀ i < n, ∀ a, a ∈ chain i ↔ a ∈ order ∧ (m.hashv a).toNat % n = i
  nodup : ∀ i < n, (chain i).Nodup
  seg : ∀ i < n, Seg m.hhPrev m.hhNext none (chain i) none
  bucket : ∀ i < n, ∃ b, buckets[i]? = some b ∧ b.hhHead = (chain i).head? ∧ b.count = (chain i).length

namespace Chains

omit [DecidableEq A] in
/-- Memory with other links outside the buckets, and the same elements in another order. -/
theorem of_agree (h : Chains m n buckets order chain) {m' : Mem A E} {order' : List A}
    (hprev : m'.hhPrev = m.hhPrev) (hnext : m'.hhNext = m.hhNext)
    (horder : ∀ a, a ∈ order' ↔ a ∈ order) (hhashv : ∀ a ∈ order, m'.hashv a = m.hashv a) :
    Chains m' n buckets order' chain where
  mem := by
    intro i hi a
    rw [h.mem i hi, horder]
    refine and_congr_right fun ha => ?_
    rw [hhashv a ha]
  nodup := h.nodup
  seg := fun i hi => by rw [hprev, hnext]; exact h.seg i hi
  bucket := h.bucket

omit [DecidableEq A] in
theorem head_mem (h : Chains m n buckets order chain) (hi : i < n) : ∀ b ∈ (chain i).head?, b ∈ order :=
  fun b hb => ((h.mem i hi b).mp (List.mem_of_mem_head? hb)).1

omit [DecidableEq A] in
/-- Chains of different buckets have no element in common. -/
theorem apart (h : Chains m n buckets order chain) (hi : i < n) {j : ℕ} (hj : j < n) (hne : j ≠ i) :
    ∀ b ∈ chain i, b ∉ chain j := by
  intro b hb hb'
  exact hne (((h.mem j hj b).mp hb').2.symm.trans ((h.mem i hi b).mp hb).2)

/-- PUSH: a new element goes to the front of the chain of its hash. -/
theorem push (h : Chains m n buckets order chain) (ha : a ∉ order) (hi : i < n)
    (hhash : (m.hashv a).toNat % n = i) (hlen : buckets.length = n) (b' : Bucket A)
    (hhead : b'.hhHead = some a) (hcount : b'.count = (chain i).length + 1) :
    Chains (m.front a (chain i).head?) n (buckets.set i b') (order ++ [a])
      (Function.update chain i (a :: chain i)) where
  mem := by
    intro j hj c
    rw [Function.update_apply, List.mem_append, List.mem_singleton]
    split
    · next hji =>
      subst hji
      rw [List.mem_cons, h.mem j hj]
      constructor
      · rintro (rfl | ⟨hc, hcj⟩)
        · exact ⟨Or.inr rfl, hhash⟩
        · exact ⟨Or.inl hc, hcj⟩
      · rintro ⟨hc | rfl, hcj⟩
        · exact Or.inr ⟨hc, hcj⟩
        · exact Or.inl rfl
    · next hji =>
      rw [h.mem j hj]
      constructor
      · rintro ⟨hc, hcj⟩
        exact ⟨Or.inl hc, hcj⟩
      · rintro ⟨hc | rfl, hcj⟩
        · exact ⟨hc, hcj⟩
        · exact absurd (hcj.symm.trans hhash) hji
  nodup := by
    intro j hj
    rw [Function.update_apply]
    split
    · exact List.nodup_cons.mpr ⟨fun hc => ha ((h.mem i hi a).mp hc).1, h.nodup i hi⟩
    · exact h.nodup j hj
  seg := by
    intro j hj
    have hnew : a ∉ chain i := fun hc => ha ((h.mem i hi a).mp hc).1
    rw [Function.update_apply]
    split
    · exact (h.seg i hi).cons (h.nodup i hi) hnew
    · next hji =>
      have hne : ∀ c ∈ chain j, c ≠ a := fun c hc heq => ha (heq ▸ ((h.mem j hj c).mp hc).1)
      refine (h.seg j hj).congr (fun c hc => ?_) fun c hc => Function.update_of_ne (hne c hc) _ _
      have hother : ∀ d ∈ (chain i).head?, d ∉ chain j := fun d hd =>
        h.apart hi hj hji d (List.mem_of_mem_head? hd)
      exact (setAt_of_notMem hother c hc).trans (Function.update_of_ne (hne c hc) _ _)
  bucket := by
    intro j hj
    rw [Function.update_apply]
    split
    · next hji =>
      exact ⟨b', by rw [hji, List.getElem?_set_self (by omega)], hhead, hcount⟩
    · next hji =>
      obtain ⟨b, hb, hrest⟩ := h.bucket j hj
      exact ⟨b, by rw [List.getElem?_set_ne (Ne.symm hji), hb], hrest⟩

/-- ERASE: an element is taken out of its chain. -/
theorem erase (h : Chains m n buckets order chain) (hnodup : order.Nodup) (hi : i < n)
    (hlen : buckets.length = n) {l₁ l₂ : List A} (hsplit : chain i = l₁ ++ a :: l₂) (b' : Bucket A)
    (hhead : b'.hhHead = (l₁ ++ l₂).head?) (hcount : b'.count = (l₁ ++ l₂).length) :
    Chains { m with hhPrev := setAt m.hhPrev (m.hhNext a) (m.hhPrev a),
                    hhNext := setAt m.hhNext (m.hhPrev a) (m.hhNext a) }
      n (buckets.set i b') (order.erase a) (Function.update chain i (l₁ ++ l₂)) := by
  have hnd := h.nodup i hi
  have hseg := h.seg i hi
  rw [hsplit] at hnd hseg
  obtain ⟨hprev, hnext⟩ := hseg.neighbours
  have hmid : a ∉ l₁ ++ l₂ := by
    have hperm : (l₁ ++ a :: l₂).Perm (a :: (l₁ ++ l₂)) := List.perm_middle
    exact (List.nodup_cons.mp (hperm.nodup_iff.mp hnd)).1
  have hmem : ∀ c, c ∈ chain i ↔ c = a ∨ c ∈ l₁ ++ l₂ := by
    intro c
    rw [hsplit, List.mem_append, List.mem_cons, List.mem_append]
    tauto
  refine ⟨fun j hj c => ?_, fun j hj => ?_, fun j hj => ?_, fun j hj => ?_⟩
  · rw [Function.update_apply, hnodup.mem_erase_iff]
    split
    · next hji =>
      subst hji
      have hc := h.mem j hj c
      rw [hmem] at hc
      constructor
      · intro hin
        obtain ⟨hin', hres⟩ := hc.mp (Or.inr hin)
        exact ⟨⟨fun heq => hmid (heq ▸ hin), hin'⟩, hres⟩
      · rintro ⟨⟨hne, hin'⟩, hres⟩
        exact (hc.mpr ⟨hin', hres⟩).resolve_left hne
    · next hji =>
      rw [h.mem j hj]
      constructor
      · rintro ⟨hin, hres⟩
        refine ⟨⟨fun heq => ?_, hin⟩, hres⟩
        have ha : a ∈ chain i := (hmem a).mpr (Or.inl rfl)
        exact hji (hres.symm.trans (heq ▸ ((h.mem i hi a).mp ha).2))
      · rintro ⟨⟨-, hin⟩, hres⟩
        exact ⟨hin, hres⟩
  · rw [Function.update_apply]
    split
    · exact (List.perm_middle.nodup_iff.mp hnd).of_cons
    · exact h.nodup j hj
  · rw [Function.update_apply]
    split
    · exact hseg.erase hnd
    · next hji =>
      refine (h.seg j hj).congr (setAt_of_notMem fun b hb => ?_) (setAt_of_notMem fun b hb => ?_)
      · rw [hnext] at hb
        refine h.apart hi hj hji b ((hmem b).mpr (Or.inr ?_))
        exact List.mem_append_right l₁ (List.mem_of_mem_head? hb)
      · rw [hprev] at hb
        refine h.apart hi hj hji b ((hmem b).mpr (Or.inr ?_))
        exact List.mem_append_left l₂ (List.mem_of_getLast? hb)
  · rw [Function.update_apply]
    split
    · next hji => exact ⟨b', by rw [hji, List.getElem?_set_self (by omega)], hhead, hcount⟩
    · next hji =>
      obtain ⟨b, hb, hrest⟩ := h.bucket j hj
      exact ⟨b, by rw [List.getElem?_set_ne (Ne.symm hji), hb], hrest⟩

omit [DecidableEq A] in
/-- A chain has room for one more element of a list that holds all. -/
theorem length_lt (h : Chains m n buckets order chain) (hi : i < n) (all : List A)
    (hall : ∀ a ∈ order, a ∈ all) (ha : a ∈ all) (hnew : a ∉ order) : (chain i).length < all.length := by
  have hnodup : (a :: chain i).Nodup :=
    List.nodup_cons.mpr ⟨fun hc => hnew ((h.mem i hi a).mp hc).1, h.nodup i hi⟩
  refine (List.subperm_of_subset hnodup fun c hc => ?_).length_le
  rcases List.mem_cons.mp hc with rfl | hc
  · exact ha
  · exact hall c ((h.mem i hi c).mp hc).1

end Chains

/-! ### Expansion -/

/-- Memory that differs in the links of buckets alone. -/
structure SameElements (m m' : Mem A E) : Prop where
  live : m'.live = m.live
  entry : m'.entry = m.entry
  prev : m'.prev = m.prev
  next : m'.next = m.next
  hashv : m'.hashv = m.hashv

omit [DecidableEq A] in
theorem SameElements.trans {m m' m'' : Mem A E} (h : SameElements m m') (h' : SameElements m' m'') :
    SameElements m m'' :=
  ⟨h'.live.trans h.live, h'.entry.trans h.entry, h'.prev.trans h.prev, h'.next.trans h.next,
    h'.hashv.trans h.hashv⟩

/-- The new table after some elements were moved to it. -/
structure Moved (m₀ : Mem A E) (n : ℕ) (x : Expansion A E) (moved : List A) (chain : ℕ → List A) :
    Prop where
  chains : Chains x.mem n x.newBuckets moved chain
  length : x.newBuckets.length = n
  same : SameElements m₀ x.mem
  frame : ∀ c ∉ moved, x.mem.hhPrev c = m₀.hhPrev c ∧ x.mem.hhNext c = m₀.hhNext c

variable {m₀ : Mem A E} {x : Expansion A E} {moved : List A}

/-- STEP: a turn of the loop pushes an element to its new chain. -/
theorem moveBody_spec {b ideal : ℕ} (hb : b ≤ 31) (hideal : ideal ≠ 0) {all : List A}
    (hall : all.length < 2 ^ 32) (hlive : ∀ c ∈ all, c ∈ m₀.live) (hsub : ∀ c ∈ moved, c ∈ all)
    (h : Moved m₀ (2 ^ b) x moved chain) (ha : a ∈ all) (hnew : a ∉ moved) :
    ∃ x' chain', moveBody (2 ^ b) ideal (x, some a) = .ok (.next (x', m₀.hhNext a)) ∧
      Moved m₀ (2 ^ b) x' (moved ++ [a]) chain' := by
  have hi : (x.mem.hashv a).toNat % 2 ^ b < 2 ^ b := Nat.mod_lt _ (Nat.two_pow_pos b)
  obtain ⟨newbkt, hload, hhead, hcount⟩ := h.chains.bucket _ hi
  have hlt := h.chains.length_lt hi all hsub ha hnew
  have hliveX : ∀ c ∈ all, c ∈ x.mem.live := fun c hc => by rw [h.same.live]; exact hlive c hc
  have hcount' : u32 (newbkt.count + 1) = (chain ((x.mem.hashv a).toNat % 2 ^ b)).length + 1 := by
    rw [hcount]
    exact Nat.mod_eq_of_lt (by omega)
  obtain ⟨mult, hmult⟩ : ∃ mult, newMult ideal (u32 (newbkt.count + 1)) newbkt.expandMult = .ok mult := by
    rw [newMult]
    split
    · exact ⟨_, rfl⟩
    · exact ⟨_, rfl⟩
  have hnext := (h.frame a hnew).2
  have hheadLive : ∀ c ∈ newbkt.hhHead, c ∈ x.mem.live := by
    intro c hc
    rw [hhead] at hc
    exact hliveX c (hsub c (h.chains.head_mem hi c hc))
  have hstore := store_of_lt (a := x.newBuckets) (i := (x.mem.hashv a).toNat % 2 ^ b)
    (by rw [h.length]; exact hi)
    ({ hhHead := some a, count := u32 (newbkt.count + 1), expandMult := mult } : Bucket A)
  have hpush := h.chains.push hnew hi rfl h.length
    { hhHead := some a, count := u32 (newbkt.count + 1), expandMult := mult } rfl hcount'
  rw [← hhead] at hpush
  refine ⟨⟨x.mem.front a newbkt.hhHead, _,
      if u32 (newbkt.count + 1) > ideal then u32 (x.nonidealItems + 1) else x.nonidealItems⟩, _, ?_, hpush, by rw [List.length_set, h.length], ⟨h.same.live, h.same.entry, h.same.prev, h.same.next,
    h.same.hashv⟩, fun c hc => ?_⟩
  · simp only [moveBody, Mem.read_ok (hliveX a ha), ok_bind, toBkt_eq hb, load_of_getElem? hload, hmult,
      relinkFront_ok (hliveX a ha) hheadLive, hstore, hnext]
  · rw [List.mem_append, not_or, List.mem_singleton] at hc
    obtain ⟨hprev, hnext⟩ := h.frame c hc.1
    have hhd : ∀ d ∈ newbkt.hhHead, d ∉ [c] := by
      intro d hd hdc
      rw [hhead] at hd
      exact hc.1 (List.mem_singleton.mp hdc ▸ h.chains.head_mem hi d hd)
    refine ⟨?_, (Function.update_of_ne hc.2 _ _).trans hnext⟩
    exact (setAt_of_notMem hhd c (List.mem_singleton_self c)).trans
      ((Function.update_of_ne hc.2 _ _).trans hprev)

/-- RUN: the loop over a chain moves all its elements. -/
theorem moveLoop_spec {b ideal : ℕ} (hb : b ≤ 31) (hideal : ideal ≠ 0) {all : List A}
    (hall : all.length < 2 ^ 32) (hlive : ∀ c ∈ all, c ∈ m₀.live) : ∀ (rest : List A) {p : Option A}
    {fuel : ℕ} {x : Expansion A E} {moved : List A} {chain : ℕ → List A}, (∀ c ∈ moved, c ∈ all) →
    Moved m₀ (2 ^ b) x moved chain → Seg m₀.hhPrev m₀.hhNext p rest none → (∀ c ∈ rest, c ∈ all) →
    rest.Nodup → (∀ c ∈ rest, c ∉ moved) → rest.length < fuel →
    ∃ x' chain', loop (moveBody (2 ^ b) ideal) fuel (x, rest.head?) = .ok x' ∧
      Moved m₀ (2 ^ b) x' (moved ++ rest) chain'
  | _, _, 0, _, _, _, _, _, _, _, _, _, hfuel => absurd hfuel (Nat.not_lt_zero _)
  | [], _, fuel + 1, x, moved, chain, _, h, _, _, _, _, _ =>
    ⟨x, chain, loop_done rfl fuel, by rw [List.append_nil]; exact h⟩
  | a :: rest, _, fuel + 1, x, moved, chain, hsub, h, hseg, hrest, hnodup, hnew, hfuel => by
    obtain ⟨-, hnext, hseg'⟩ := hseg
    rw [Option.or_none] at hnext
    obtain ⟨ha, hnodup'⟩ := List.nodup_cons.mp hnodup
    obtain ⟨x₁, chain₁, hbody, h₁⟩ := moveBody_spec hb hideal hall hlive hsub h
      (hrest a List.mem_cons_self) (hnew a List.mem_cons_self)
    have hsub₁ : ∀ c ∈ moved ++ [a], c ∈ all := by
      intro c hc
      rcases List.mem_append.mp hc with hc | hc
      · exact hsub c hc
      · exact hrest c (List.mem_singleton.mp hc ▸ List.mem_cons_self)
    have hnew₁ : ∀ c ∈ rest, c ∉ moved ++ [a] := by
      intro c hc hmem
      rcases List.mem_append.mp hmem with hmem | hmem
      · exact hnew c (List.mem_cons_of_mem a hc) hmem
      · exact ha (List.mem_singleton.mp hmem ▸ hc)
    obtain ⟨x', chain', hloop, h'⟩ := moveLoop_spec hb hideal hall hlive rest hsub₁ h₁ hseg'
      (fun c hc => hrest c (List.mem_cons_of_mem a hc)) hnodup' hnew₁ (Nat.lt_of_succ_lt_succ hfuel)
    refine ⟨x', chain', ?_, by rw [List.append_cons]; exact h'⟩
    rw [List.head?_cons, loop_next hbody, hnext, hloop]

omit [DecidableEq A] in
/-- The new table before anything is moved to it. -/
theorem moved_nil (m₀ : Mem A E) (n k : ℕ) :
    Moved m₀ n { mem := m₀, newBuckets := List.replicate n .cleared, nonidealItems := k } [] fun _ => [] where
  chains :=
    { mem := fun i _ a => by simp
      nodup := fun _ _ => List.nodup_nil
      seg := fun _ _ => trivial
      bucket := fun i hi => ⟨.cleared, by simp [hi], rfl, rfl⟩ }
  length := List.length_replicate
  same := ⟨rfl, rfl, rfl, rfl, rfl⟩
  frame := fun _ _ => ⟨rfl, rfl⟩

/-- RUN: the loop over the buckets moves every element. -/
theorem expandLoop_spec {b ideal : ℕ} (hb : b ≤ 30) (hideal : ideal ≠ 0) {t : Table A}
    (hn : t.numBuckets = 2 ^ b) (hitems : t.numItems = order.length) (hitems' : order.length < 2 ^ 32)
    (hlive : ∀ c ∈ order, c ∈ m.live) (h : Chains m (2 ^ b) t.buckets order chain) :
    ∃ x chain', (List.range t.numBuckets).foldlM (expandBody t ideal)
        { mem := m, newBuckets := List.replicate (u32 (2 * t.numBuckets)) .cleared, nonidealItems := 0 } =
        .ok x ∧
      Chains x.mem (2 ^ (b + 1)) x.newBuckets order chain' ∧ x.newBuckets.length = 2 ^ (b + 1) ∧
      SameElements m x.mem := by
  have hdouble : u32 (2 ^ b * 2) = 2 ^ (b + 1) := by
    rw [u32, ← pow_succ]
    exact Nat.mod_eq_of_lt (Nat.pow_lt_pow_right (by norm_num) (by omega))
  obtain ⟨x, hfold, moved, chain', hm, hmem⟩ := foldlM_range_total (f := expandBody t ideal)
    (I := fun i x => ∃ moved chain', Moved m (2 ^ (b + 1)) x moved chain' ∧
      ∀ a, a ∈ moved ↔ a ∈ order ∧ (m.hashv a).toNat % 2 ^ b < i)
    (2 ^ b) { mem := m, newBuckets := List.replicate (2 ^ (b + 1)) .cleared, nonidealItems := 0 }
    ⟨[], fun _ => [], moved_nil m _ 0, fun a => by simp⟩ (by
      rintro i x hi ⟨moved, chain₁, hm, hmem⟩
      obtain ⟨bkt, hload, hhead, -⟩ := h.bucket i hi
      have hnew : ∀ c ∈ chain i, c ∉ moved := by
        intro c hc hc'
        have h₁ := ((h.mem i hi c).mp hc).2
        have h₂ := ((hmem c).mp hc').2
        omega
      have hlen : (chain i).length ≤ order.length :=
        (List.subperm_of_subset (h.nodup i hi) fun c hc => ((h.mem i hi c).mp hc).1).length_le
      obtain ⟨x', chain', hloop, hm'⟩ := moveLoop_spec (by omega) hideal hitems' hlive (chain i)
        (fun c hc => ((hmem c).mp hc).1) hm (h.seg i hi) (fun c hc => ((h.mem i hi c).mp hc).1)
        (h.nodup i hi) hnew (Nat.lt_succ_of_le hlen)
      refine ⟨x', ?_, _, chain', hm', fun a => ?_⟩
      · rw [expandBody, load_of_getElem? hload, ok_bind, hn, hdouble, hitems, hhead, hloop]
      · rw [List.mem_append, hmem, h.mem i hi, Nat.lt_succ_iff_lt_or_eq, ← and_or_left])
  refine ⟨x, chain', ?_, hm.chains.of_agree rfl rfl (fun a => ?_) (fun a _ => rfl), hm.length, hm.same⟩
  · rw [hn, Nat.mul_comm, hdouble]
    exact hfold
  · rw [hmem, and_iff_left (Nat.mod_lt _ (Nat.two_pow_pos b))]

end Diversity.Uthash
