import Diversity.Programs.HashTable.Lookup

/-! @src hash_table/khash.h | name:khash rehashing | scheme:probing | family:data-structure

    `kh_resize` moves the entries within the arrays they stand in. While it runs, a cell belongs to an
    entry of the old table, to one of the new table, or to none:

        old flags   live  del   live  del       the old entries are those not moved yet
        new flags   empty full  empty full      no cell is both live in the old and full in the new
        cells        a     b     c     d        one more entry is in hand during a kick-out

    What the old cells, the new cells and the hand hold together never changes. A kick-out turns one old
    cell into a new one, so that it ends when no old cell is left, at the latest. -/

namespace Diversity.Khash
open Schemes Schemes.Probing

variable {K V : Type} {hash : K → UInt32} {n N i : ℕ} {r : Rehash K V}
  {old : ℕ → Option (K × V)} {new : ℕ → Slot (K × V)} {e : K × V}

/-- The arrays in the middle of rehashing from `n` buckets to `N`. -/
structure Moving (hash : K → UInt32) (n N : ℕ) (r : Rehash K V) (old : ℕ → Option (K × V))
    (new : ℕ → Slot (K × V)) : Prop where
  word : ∀ i < n, i / 16 < r.flags.length
  keyCell : n ≤ r.keys.length
  valCell : n ≤ r.vals.length
  oldBits : ∀ i < n, ((bits r.flags i).1 || (bits r.flags i).2) = (old i).isNone
  oldEntry : ∀ i < n, ∀ e, old i = some e → r.keys[i]? = some e.1 ∧ r.vals[i]? = some e.2
  shows : Shows N r.newFlags r.keys r.vals new
  unmarked : ∀ i < N, new i ≠ .deleted
  apart : ∀ i < n, i < N → old i ≠ none → new i = .empty
  onPath : OnPath N (fun k => (hash k).toNat) Prod.fst new

namespace Moving

/-- An old entry is taken in hand, and its bucket marked as deleted. -/
theorem take (hm : Moving hash n N r old new) {flags : List Word}
    (hlen : flags.length = r.flags.length)
    (hbits : bits flags = Function.update (bits r.flags) i ((bits r.flags i).1, true)) :
    Moving hash n N { r with flags := flags } (Function.update old i none) new where
  word := fun j hj => hlen ▸ hm.word j hj
  keyCell := hm.keyCell
  valCell := hm.valCell
  oldBits := by
    intro j hj
    rw [hbits, Function.update_apply, Function.update_apply]
    split
    · rw [Bool.or_true]
      rfl
    · exact hm.oldBits j hj
  oldEntry := by
    intro j hj d hd
    rw [Function.update_apply] at hd
    split at hd
    · cases hd
    · exact hm.oldEntry j hj d hd
  shows := hm.shows
  unmarked := hm.unmarked
  apart := by
    intro j hj hjN hne
    rw [Function.update_apply] at hne
    split at hne
    · exact absurd rfl hne
    · exact hm.apart j hj hjN hne
  onPath := hm.onPath

/-- The entry in hand is put to a bucket whose cell no old entry needs. -/
theorem place (hm : Moving hash n N r old new) {s : ℕ} (hs : s < N)
    (hpath : ∀ t < s, new (probe N (hash e.1).toNat t) ≠ .empty)
    (hi : i = probe N (hash e.1).toNat s) (hold : i < n → old i = none) {newFlags : List Word}
    (hlen : newFlags.length = r.newFlags.length)
    (hbits : bits newFlags = Function.update (bits r.newFlags) i (false, false)) :
    Moving hash n N { r with newFlags := newFlags, keys := r.keys.set i e.1, vals := r.vals.set i e.2 }
      old (Function.update new i (.live e)) where
  word := hm.word
  keyCell := by simpa using hm.keyCell
  valCell := by simpa using hm.valCell
  oldBits := hm.oldBits
  oldEntry := by
    intro j hj d hd
    have hne : i ≠ j := by
      rintro rfl
      rw [hold hj] at hd
      cases hd
    rw [List.getElem?_set_ne hne, List.getElem?_set_ne hne]
    exact hm.oldEntry j hj d hd
  shows := hm.shows.put hlen hbits e.1 e.2
  unmarked := by
    intro j hj
    rw [Function.update_apply]
    split
    · nofun
    · exact hm.unmarked j hj
  apart := by
    intro j hj hjN hne
    have hji : j ≠ i := by
      rintro rfl
      exact hne (hold hj)
    rw [Function.update_of_ne hji]
    exact hm.apart j hj hjN hne
  onPath := by
    rw [hi]
    exact hm.onPath.put hs hpath

end Moving

/-! ### The search for an empty bucket -/

/-- FIND: the loop finds the first empty bucket on the path, when there is one. -/
theorem findEmpty_spec {newFlags : List Word} {keys : List K} {vals : List V} (hN : IsSize N)
    (hs : Shows N newFlags keys vals new) (hfree : ∃ i < N, new i = .empty) (x : ℕ) :
    ∃ s < N, loop (findEmptyBody newFlags (pred N)) N (x &&& pred N, 0) = .ok (probe N x s) ∧
      new (probe N x s) = .empty ∧ ∀ t < s, new (probe N x t) ≠ .empty := by
  have hfirst : ∃ s < N, new (probe N x s) = .empty ∧ ∀ t < s, new (probe N x t) ≠ .empty := by
    obtain ⟨b, -, -, rfl⟩ := hN
    exact exists_first_probe (p := fun j => new j = .empty) x hfree
  obtain ⟨s, hsN, hempty, hpath⟩ := hfirst
  have hlt := probe_lt hN.pos x
  refine ⟨s, hsN, ?_, hempty, hpath⟩
  rw [and_pred_eq_probe hN]
  refine loop_steps N s (fun t => (probe N x t, t)) (fun t ht => ?_) ?_ hsN
  · have hused : (slotBits (new (probe N x t))).1 = false := by
      cases hslot : new (probe N x t) with
      | empty => exact absurd hslot (hpath t ht)
      | deleted => rfl
      | live e => rfl
    simp only [findEmptyBody, hs.isEmpty (hlt t), hused, ok_bind, Bool.false_eq_true, if_false,
      khNext_probe hN x (ht.trans hsN), khint_succ hN (ht.trans hsN)]
  · simp only [findEmptyBody, hs.isEmpty (hlt s), hempty, slotBits, ok_bind, if_true]

/-! ### Kick-out -/

/-- What the old table and the new one hold together. -/
def total (n N : ℕ) (old : ℕ → Option (K × V)) (new : ℕ → Slot (K × V)) : Multiset (K × V) :=
  contents n old + contents N (Slot.entry ∘ new)

theorem contents_entry_update (hi : i < N) (hempty : new i = .empty) (e : K × V) :
    contents N (Slot.entry ∘ Function.update new i (.live e)) =
      e ::ₘ contents N (Slot.entry ∘ new) := by
  rw [Function.comp_update]
  exact contents_fill hi (by rw [Function.comp_apply, hempty]; rfl) e

theorem exists_empty_of_card (hunmarked : ∀ i < N, new i ≠ .deleted)
    (hcard : (contents N (Slot.entry ∘ new)).card < N) : ∃ i < N, new i = .empty := by
  obtain ⟨i, hi, hfree⟩ := exists_free hcard
  refine ⟨i, hi, ?_⟩
  rw [Function.comp_apply] at hfree
  cases hslot : new i with
  | empty => rfl
  | deleted => exact absurd hslot (hunmarked i hi)
  | live e => rw [hslot] at hfree; cases hfree

/-- STEP: a turn of the kick-out process puts the entry in hand into the new table. It is done, or has
    taken an old entry in hand. -/
theorem kickOutBody_spec (hN : IsSize N) (hm : Moving hash n N r old new)
    (hcard : (contents N (Slot.entry ∘ new)).card < N) (e : K × V) :
    (∃ r' new', kickOutBody hash n N (r, e.1, e.2) = .ok (.done r') ∧ Moving hash n N r' old new' ∧
      contents N (Slot.entry ∘ new') = e ::ₘ contents N (Slot.entry ∘ new)) ∨
    ∃ r' new' j e', kickOutBody hash n N (r, e.1, e.2) = .ok (.next (r', e'.1, e'.2)) ∧ j < n ∧
      old j = some e' ∧ Moving hash n N r' (Function.update old j none) new' ∧
      contents N (Slot.entry ∘ new') = e ::ₘ contents N (Slot.entry ∘ new) := by
  obtain ⟨s, hs, hfind, hempty, hpath⟩ := findEmpty_spec hN hm.shows
    (exists_empty_of_card hm.unmarked hcard) (hash e.1).toNat
  have hiN := probe_lt hN.pos (hash e.1).toNat s
  obtain ⟨i, hi⟩ : ∃ i, i = probe N (hash e.1).toNat s := ⟨_, rfl⟩
  rw [← hi] at hfind hempty hiN
  obtain ⟨newFlags, hset, hlen, hbits⟩ := acSetIsEmptyFalse_ok (hm.shows.word i hiN)
  rw [hm.shows.bits i hiN, hempty] at hbits
  have hkeys := store_of_lt (hiN.trans_le hm.shows.keyCell) e.1
  have hvals := store_of_lt (hiN.trans_le hm.shows.valCell) e.2
  by_cases hold : i < n → old i = none
  · refine Or.inl ⟨_, _, ?_, hm.place hs hpath hi hold hlen hbits, contents_entry_update hiN hempty e⟩
    have hisOld : kicksOut r.flags n i = .ok false := by
      rw [kicksOut]
      split
      · next hin =>
        rw [acIsEither_ok (hm.word i hin), hm.oldBits i hin, hold hin]
        rfl
      · rfl
    simp only [kickOutBody, hfind, ok_bind, hset, hisOld, Bool.false_eq_true, if_false, hkeys, hvals]
  · push Not at hold
    obtain ⟨hin, hsome⟩ := hold
    obtain ⟨e', he'⟩ := Option.ne_none_iff_exists'.mp hsome
    obtain ⟨hkey', hval'⟩ := hm.oldEntry i hin e' he'
    obtain ⟨flags, hdel, hlen', hbits'⟩ := acSetIsDelTrue_ok (hm.word i hin)
    refine Or.inr ⟨_, _, i, e', ?_, hin, he', (hm.take hlen' hbits').place hs hpath hi
      (fun _ => Function.update_self i none old) hlen hbits, contents_entry_update hiN hempty e⟩
    have hisOld : kicksOut r.flags n i = .ok true := by
      rw [kicksOut, if_pos hin, acIsEither_ok (hm.word i hin), hm.oldBits i hin, he']
      rfl
    simp only [kickOutBody, hfind, ok_bind, hset, hisOld, if_true, load_of_getElem? hkey', hkeys,
      load_of_getElem? hval', hvals, hdel]

/-- RUN: the kick-out process ends, with every entry in one of the tables. -/
theorem kickOut_spec (hN : IsSize N) : ∀ (fuel : ℕ) (r : Rehash K V) (old : ℕ → Option (K × V))
    (new : ℕ → Slot (K × V)) (e : K × V), Moving hash n N r old new →
    (contents n old).card < fuel → (total n N old new).card + 1 ≤ N →
    ∃ r' old' new', loop (kickOutBody hash n N) fuel (r, e.1, e.2) = .ok r' ∧
      Moving hash n N r' old' new' ∧ total n N old' new' = e ::ₘ total n N old new ∧
      ∀ i, old i = none → old' i = none
  | 0, _, _, _, _, _, hfuel, _ => absurd hfuel (Nat.not_lt_zero _)
  | fuel + 1, r, old, new, e, hm, hfuel, hcard => by
    have hfree : (contents N (Slot.entry ∘ new)).card < N := by
      rw [total, Multiset.card_add] at hcard
      omega
    rcases kickOutBody_spec hN hm hfree e with ⟨r', new', hbody, hm', hnew⟩ |
      ⟨r', new', j, e', hbody, hj, hold, hm', hnew⟩
    · refine ⟨r', old, new', loop_done hbody fuel, hm', ?_, fun i hi => hi⟩
      rw [total, total, hnew, Multiset.add_cons]
    · have htaken := contents_clear hj hold
      have htotal : e' ::ₘ total n N (Function.update old j none) new' = e ::ₘ total n N old new := by
        rw [total, total, hnew, htaken, Multiset.add_cons, Multiset.cons_add, Multiset.cons_swap]
      have hless : (total n N (Function.update old j none) new').card + 1 ≤ N := by
        have := congrArg Multiset.card htotal
        rw [Multiset.card_cons, Multiset.card_cons] at this
        omega
      obtain ⟨r'', old'', new'', hloop, hm'', htotal'', hnone⟩ := kickOut_spec hN fuel r'
        (Function.update old j none) new' e' hm'
        (by rw [htaken, Multiset.card_cons] at hfuel; omega) hless
      refine ⟨r'', old'', new'', by rw [loop_next hbody, hloop], hm'', htotal''.trans htotal, ?_⟩
      intro i hi
      refine hnone i ?_
      rw [Function.update_apply]
      split
      · rfl
      · exact hi

/-! ### All old buckets -/

/-- STEP: after the turn for bucket `j` its entry, if it had one, is in the new table. -/
theorem rehashBody_spec (hN : IsSize N) (hm : Moving hash n N r old new)
    (hcard : (total n N old new).card < N) {j : ℕ} (hj : j < n) :
    ∃ r' old' new', rehashBody hash n N r j = .ok r' ∧ Moving hash n N r' old' new' ∧
      total n N old' new' = total n N old new ∧ old' j = none ∧ ∀ i, old i = none → old' i = none := by
  rw [rehashBody, acIsEither_ok (hm.word j hj), hm.oldBits j hj, ok_bind]
  cases hold : old j with
  | none => exact ⟨r, old, new, rfl, hm, rfl, hold, fun i hi => hi⟩
  | some e =>
    obtain ⟨hkey, hval⟩ := hm.oldEntry j hj e hold
    obtain ⟨flags, hdel, hlen, hbits⟩ := acSetIsDelTrue_ok (hm.word j hj)
    have htaken : total n N old new = e ::ₘ total n N (Function.update old j none) new := by
      rw [total, contents_clear hj hold, Multiset.cons_add, total]
    obtain ⟨r', old', new', hloop, hm', htotal, hnone⟩ := kickOut_spec hN (n + 1) _ _ _ e
      (hm.take hlen hbits) (Nat.lt_succ_of_le (card_contents_le n _))
      (by rw [htaken, Multiset.card_cons] at hcard; omega)
    refine ⟨r', old', new', ?_, hm', by rw [htotal, htaken], hnone j (Function.update_self j none old),
      fun i hi => hnone i ?_⟩
    · simp only [Option.isNone_some, Bool.false_eq_true, if_false, load_of_getElem? hkey, ok_bind,
        load_of_getElem? hval, hdel, hloop]
    · rw [Function.update_apply]
      split
      · rfl
      · exact hi

/-- RUN: the loop over the old buckets leaves all entries in the new table. -/
theorem rehash_spec (hN : IsSize N) (hm : Moving hash n N r old new)
    (hcard : (total n N old new).card < N) :
    ∃ r' old' new', (List.range n).foldlM (rehashBody hash n N) r = .ok r' ∧
      Moving hash n N r' old' new' ∧ contents N (Slot.entry ∘ new') = total n N old new := by
  obtain ⟨r', hfold, old', new', hm', htotal, hnone⟩ := foldlM_range_total
    (f := rehashBody hash n N)
    (I := fun j r' => ∃ old' new', Moving hash n N r' old' new' ∧
      total n N old' new' = total n N old new ∧ ∀ i < j, old' i = none)
    n r ⟨old, new, hm, rfl, fun i hi => absurd hi (Nat.not_lt_zero i)⟩ (by
      rintro j r₁ hj ⟨old₁, new₁, hm₁, htotal₁, hnone₁⟩
      obtain ⟨r₂, old₂, new₂, hturn, hm₂, htotal₂, hj₂, hnone₂⟩ :=
        rehashBody_spec hN hm₁ (by rw [htotal₁]; exact hcard) hj
      refine ⟨r₂, hturn, old₂, new₂, hm₂, htotal₂.trans htotal₁, fun i hi => ?_⟩
      rcases Nat.lt_succ_iff_lt_or_eq.mp hi with hlt | rfl
      · exact hnone₂ i (hnone₁ i hlt)
      · exact hj₂)
  refine ⟨r', old', new', hfold, hm', ?_⟩
  rw [← htotal, total, contents_eq_zero hnone, Multiset.zero_add]

variable {h : Kh K V} {slot : ℕ → Slot (K × V)} {a : Alloc K V}

/-- Rehashing starts with every entry in the old table. -/
theorem Valid.moving (hv : Valid hash h slot) (hN : IsSize N) (hkeys : N ≤ h.keys.length)
    (hvals : N ≤ h.vals.length) :
    Moving hash h.nBuckets N
      { flags := h.flags, newFlags := acFresh N, keys := h.keys, vals := h.vals }
      (Slot.entry ∘ slot) fun _ => .empty where
  word := hv.shows.word
  keyCell := hv.shows.keyCell
  valCell := hv.shows.valCell
  oldBits := by
    intro i hi
    rw [hv.shows.bits i hi, Function.comp_apply]
    cases slot i <;> rfl
  oldEntry := fun i hi e he => hv.shows.entry i hi e (Slot.entry_eq_some.mp he)
  shows := by
    obtain ⟨b, -, -, rfl⟩ := hN
    exact Shows.fresh hkeys hvals
  unmarked := nofun
  apart := fun _ _ _ _ => rfl
  onPath := nofun

theorem length_krealloc {α : Type} (mem : ℕ → α) (xs : List α) (m : ℕ) :
    (krealloc mem xs m).length = m := by
  rw [krealloc, List.length_append, List.length_take, List.length_map, List.length_range]
  omega

/-- `krealloc` keeps the cells there is room for. -/
theorem getElem?_krealloc {α : Type} (mem : ℕ → α) {xs : List α} {m : ℕ} (hn : n ≤ xs.length)
    (hm : n ≤ m) (hi : i < n) : (krealloc mem xs m)[i]? = xs[i]? := by
  rw [krealloc, List.getElem?_append_left (by rw [List.length_take]; omega), List.getElem?_take,
    if_pos (by omega)]

/-- Arrays that agree on the first `n` cells hold the same slots. -/
theorem Shows.of_agree {flags : List Word} {keys keys' : List K} {vals vals' : List V}
    (hs : Shows n flags keys vals slot) (hkeyCell : n ≤ keys'.length) (hvalCell : n ≤ vals'.length)
    (hkeys : ∀ i < n, keys'[i]? = keys[i]?) (hvals : ∀ i < n, vals'[i]? = vals[i]?) :
    Shows n flags keys' vals' slot where
  word := hs.word
  keyCell := hkeyCell
  valCell := hvalCell
  bits := hs.bits
  entry := fun i hi e he => by rw [hkeys i hi, hvals i hi]; exact hs.entry i hi e he

/-- The table with larger arrays is the same table. -/
theorem Valid.with_arrays (hv : Valid hash h slot) {keys : List K} {vals : List V}
    (hs : Shows h.nBuckets h.flags keys vals slot) :
    Valid hash { h with keys := keys, vals := vals } slot :=
  ⟨hv.buckets, hs, hv.size, hv.occupied, hv.upper, hv.room, hv.nodup, hv.onPath⟩

theorem entries_with_arrays (h : Kh K V) (keys : List K) (vals : List V) (slot : ℕ → Slot (K × V)) :
    entries { h with keys := keys, vals := vals } slot = entries h slot := rfl

/-- Without deleted buckets every bucket in use has an entry. -/
theorem card_used_eq (hunmarked : ∀ i < N, new i ≠ .deleted) :
    (contents N (Slot.used ∘ new)).card = (contents N (Slot.entry ∘ new)).card := by
  refine le_antisymm (card_contents_mono fun i hi h => ?_) (card_contents_mono fun i hi h => ?_)
  · rw [Function.comp_apply] at h ⊢
    cases hslot : new i with
    | empty => rw [hslot] at h; exact absurd rfl h
    | deleted => exact absurd hslot (hunmarked i hi)
    | live e => nofun
  · rw [Function.comp_apply] at h ⊢
    cases hslot : new i with
    | empty => rw [hslot] at h; exact absurd rfl h
    | deleted => exact absurd hslot (hunmarked i hi)
    | live e => nofun

/-- The array behind rehashing: shrunk when the table is smaller than before. -/
theorem shrink_agrees {α : Type} (n : ℕ) (mem : ℕ → α) {xs : List α} (hlen : N ≤ xs.length) :
    N ≤ (if n > N then krealloc mem xs N else xs).length ∧
      ∀ i < N, (if n > N then krealloc mem xs N else xs)[i]? = xs[i]? := by
  split
  · exact ⟨(length_krealloc mem xs N).ge, fun i hi => getElem?_krealloc mem hlen le_rfl hi⟩
  · exact ⟨hlen, fun i _ => rfl⟩

theorem khRehash_eq {r : Rehash K V} (ha : a.shrinkKeys = true) (ha' : a.shrinkVals = true)
    (hfold : (List.range h.nBuckets).foldlM (rehashBody hash h.nBuckets N)
      { flags := h.flags, newFlags := acFresh N, keys := h.keys, vals := h.vals } = .ok r) :
    khRehash hash h N a = .ok
      { nBuckets := N, size := h.size, nOccupied := h.size, upperBound := acHashUpper N,
        flags := r.newFlags, keys := if h.nBuckets > N then krealloc a.keyMem r.keys N else r.keys,
        vals := if h.nBuckets > N then krealloc a.valMem r.vals N else r.vals } := by
  rw [khRehash, hfold, ok_bind, ha, ha']
  rfl

/-- REHASH: a table with room for `N` cells is moved to `N` buckets, with the same entries and no deleted
    bucket. -/
theorem khRehash_spec (hv : Valid hash h slot) (hN : IsSize N) (hkeys : N ≤ h.keys.length)
    (hvals : N ≤ h.vals.length) (hsize : h.size < acHashUpper N) (ha : a.shrinkKeys = true)
    (ha' : a.shrinkVals = true) :
    ∃ h' slot', khRehash hash h N a = .ok h' ∧ Valid hash h' slot' ∧
      entries h' slot' = entries h slot ∧ h'.nBuckets = N ∧ h'.nOccupied = h.size := by
  have hupper := acHashUpper_lt hN
  have htotal : total h.nBuckets N (Slot.entry ∘ slot) (fun _ => .empty) = entries h slot := by
    rw [total, contents_eq_zero (f := Slot.entry ∘ fun _ => .empty) fun _ _ => rfl, Multiset.add_zero]
    rfl
  obtain ⟨r, old, new, hfold, hm, hnew⟩ := rehash_spec hN (hv.moving hN hkeys hvals)
    (by rw [htotal, ← hv.size]; omega)
  rw [htotal] at hnew
  have hk := shrink_agrees h.nBuckets a.keyMem hm.shows.keyCell
  have hl := shrink_agrees h.nBuckets a.valMem hm.shows.valCell
  refine ⟨_, new, khRehash_eq ha ha' hfold, ?_, hnew, rfl, rfl⟩
  refine ⟨Or.inr ⟨hN, fun hnil => ?_⟩, hm.shows.of_agree hk.1 hl.1 hk.2 hl.2, ?_, ?_, rfl, hsize.le, ?_,
    hm.onPath⟩
  · have hword := hm.shows.word 0 hN.pos
    rw [show r.newFlags = [] from hnil] at hword
    exact absurd hword (Nat.not_lt_zero _)
  · exact hv.size.trans (congrArg Multiset.card hnew.symm)
  · exact (hv.size.trans (congrArg Multiset.card hnew.symm)).trans (card_used_eq hm.unmarked).symm
  · change ((contents N (Slot.entry ∘ new)).map Prod.fst).Nodup
    rw [hnew]
    exact hv.nodup

/-- RESIZE: for any request `kh_resize` leaves a valid table with the same entries. It returns -1 only
    when an allocation failed, with the buckets as they were; otherwise the table is as it was, when it
    has too many entries for the request, or has the size requested and no deleted bucket. -/
theorem khResize_spec (hv : Valid hash h slot) (request : ℕ) (ha : a.shrinkKeys = true)
    (ha' : a.shrinkVals = true) :
    ∃ h' slot' ret, khResize hash h request a = .ok (h', ret) ∧ Valid hash h' slot' ∧
      entries h' slot' = entries h slot ∧
      (ret = -1 ∧ ¬ (a.flags ∧ a.keys ∧ a.vals) ∧ h'.nBuckets = h.nBuckets ∨
        ret = 0 ∧ (acHashUpper (khTarget request) ≤ h.size ∧ h' = h ∨
          h.size < acHashUpper (khTarget request) ∧ h'.nBuckets = khTarget request ∧
            h'.nOccupied = h.size)) := by
  have hN := khTarget_isSize request
  have hcells := hv.shows.keyCell
  have hcells' := hv.shows.valCell
  simp only [khResize]
  generalize khTarget request = N at hN ⊢
  split
  · next hsmall => exact ⟨h, slot, 0, rfl, hv, rfl, Or.inr ⟨rfl, Or.inl ⟨hsmall, rfl⟩⟩⟩
  next hsmall =>
  replace hsmall := not_le.mp hsmall
  cases hflags : a.flags with
  | false =>
    refine ⟨h, slot, -1, ?_, hv, rfl, Or.inl ⟨rfl, fun hall => Bool.false_ne_true hall.1, rfl⟩⟩
    simp only [Bool.not_false, if_true]
  | true =>
    by_cases hgrow : h.nBuckets < N
    · cases hkeys : a.keys with
      | false =>
        refine ⟨h, slot, -1, ?_, hv, rfl, Or.inl ⟨rfl, fun hall => Bool.false_ne_true hall.2.1, rfl⟩⟩
        simp only [Bool.not_true, Bool.not_false, Bool.false_eq_true, if_false, if_pos hgrow, if_true]
      | true =>
        have hlenK : N ≤ (krealloc a.keyMem h.keys N).length := (length_krealloc _ _ _).ge
        have hlenV : N ≤ (krealloc a.valMem h.vals N).length := (length_krealloc _ _ _).ge
        have hkeys' : ∀ i < h.nBuckets, (krealloc a.keyMem h.keys N)[i]? = h.keys[i]? :=
          fun i hi => getElem?_krealloc a.keyMem hcells hgrow.le hi
        have hvals' : ∀ i < h.nBuckets, (krealloc a.valMem h.vals N)[i]? = h.vals[i]? :=
          fun i hi => getElem?_krealloc a.valMem hcells' hgrow.le hi
        cases hvals : a.vals with
        | false =>
          have hshows : Shows h.nBuckets h.flags (krealloc a.keyMem h.keys N) h.vals slot :=
            hv.shows.of_agree (hgrow.le.trans hlenK) hcells' hkeys' fun i _ => rfl
          refine ⟨{ h with keys := krealloc a.keyMem h.keys N }, slot, -1, ?_, hv.with_arrays hshows,
            entries_with_arrays h _ _ slot, Or.inl ⟨rfl, fun hall => Bool.false_ne_true hall.2.2, rfl⟩⟩
          simp only [Bool.not_true, Bool.not_false, Bool.false_eq_true, if_false, if_pos hgrow, if_true]
        | true =>
          have hshows : Shows h.nBuckets h.flags (krealloc a.keyMem h.keys N) (krealloc a.valMem h.vals N)
              slot :=
            hv.shows.of_agree (hgrow.le.trans hlenK) (hgrow.le.trans hlenV) hkeys' hvals'
          obtain ⟨h', slot', hrun, hv', hentries, hn, hocc⟩ :=
            khRehash_spec (hv.with_arrays hshows) hN hlenK hlenV hsmall ha ha'
          refine ⟨h', slot', 0, ?_, hv', hentries.trans (entries_with_arrays h _ _ slot), Or.inr ⟨rfl, Or.inr ⟨hsmall, hn, hocc⟩⟩⟩
          simp only [Bool.not_true, Bool.false_eq_true, if_false, if_pos hgrow, hrun, ok_bind]
    · obtain ⟨h', slot', hrun, hv', hentries, hn, hocc⟩ := khRehash_spec hv hN
        ((not_lt.mp hgrow).trans hcells) ((not_lt.mp hgrow).trans hcells') hsmall ha ha'
      refine ⟨h', slot', 0, ?_, hv', hentries, Or.inr ⟨rfl, Or.inr ⟨hsmall, hn, hocc⟩⟩⟩
      simp only [Bool.not_true, Bool.false_eq_true, if_false, if_neg hgrow, hrun, ok_bind]

end Diversity.Khash
