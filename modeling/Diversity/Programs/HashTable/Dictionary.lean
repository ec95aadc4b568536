import Diversity.Programs.HashTable.Rehash
import Diversity.Schemes.KeyValue

/-! @src hash_table/khash.h | name:khash as a dictionary | scheme:probing | family:data-structure

    What a user of khash sees: a map from keys to values. `Op` are the calls as example.c makes them: a
    put is followed by an assignment to `kh_value`, a delete looks its bucket up with `kh_get`.

        kh_put   0     the key was there
                 1, 2  it was not, and now is (in a bucket never used, in a deleted one)
                 -1    an allocation failed, and the map is as it was

    Which of 1 and 2 comes out depends on the buckets, so that the map is a machine with a choice. -/

namespace Diversity.Khash
open Schemes Schemes.Probing

variable {K V : Type} {hash : K → UInt32} {h : Kh K V} {slot : ℕ → Slot (K × V)} {a : Alloc K V} {x : ℕ}

/-! ### Changing one slot -/

/-- The entries in the other buckets. -/
def others (n : ℕ) (slot : ℕ → Slot (K × V)) (x : ℕ) : Multiset (K × V) :=
  contents n (Function.update (Slot.entry ∘ slot) x none)

theorem others_update (n : ℕ) (slot : ℕ → Slot (K × V)) (x : ℕ) (s : Slot (K × V)) :
    others n (Function.update slot x s) x = others n slot x := by
  rw [others, others, Function.comp_update, Function.update_idem]

theorem entries_live (hx : x < h.nBuckets) {e : K × V} (he : slot x = .live e) :
    entries h slot = e ::ₘ others h.nBuckets slot x :=
  contents_clear hx (by rw [Function.comp_apply, he]; rfl)

theorem entries_free (hfree : (slot x).entry = none) : entries h slot = others h.nBuckets slot x := by
  rw [others, ← hfree]
  exact congrArg _ (Function.update_eq_self x (Slot.entry ∘ slot)).symm

/-- A bucket that is in use before and after counts the same. -/
theorem contents_used_update {s : Slot (K × V)} (hused : s.used = (slot x).used) (n : ℕ) :
    contents n (Slot.used ∘ Function.update slot x s) = contents n (Slot.used ∘ slot) := by
  rw [Function.comp_update, hused]
  exact congrArg _ (Function.update_eq_self x (Slot.used ∘ slot))

/-- A table with buckets, whatever changed in it. -/
theorem Valid.buckets_of (hv : Valid hash h slot) (hx : x < h.nBuckets) {flags : List Word}
    {keys : List K} {vals : List V} {slot' : ℕ → Slot (K × V)}
    (hs : Shows h.nBuckets flags keys vals slot') :
    h.nBuckets = 0 ∧ flags = [] ∨ IsSize h.nBuckets ∧ flags ≠ [] := by
  refine Or.inr ⟨hv.isSize (Nat.ne_of_gt (Nat.zero_lt_of_lt hx)), ?_⟩
  rintro rfl
  exact absurd (hs.word x hx) (Nat.not_lt_zero _)

theorem Valid.size_le (hv : Valid hash h slot) : h.size ≤ h.nBuckets := by
  rw [hv.size]
  exact card_contents_le _ _

/-- DELETE: `kh_del` on a bucket with an entry. -/
theorem khDel_spec (hv : Valid hash h slot) (hx : x < h.nBuckets) {e : K × V} (he : slot x = .live e) :
    ∃ h' slot', khDel h x = .ok h' ∧ Valid hash h' slot' ∧ entries h slot = e ::ₘ entries h' slot' := by
  obtain ⟨flags, hdel, hshows⟩ := hv.shows.del hx he
  have hsplit := entries_live hx he
  have hrest : contents h.nBuckets (Slot.entry ∘ Function.update slot x .deleted) =
      others h.nBuckets slot x := by
    have hfree : entries h (Function.update slot x .deleted) =
        others h.nBuckets (Function.update slot x .deleted) x :=
      entries_free (by rw [Function.update_self]; rfl)
    rwa [others_update] at hfree
  have hsize : h.size = (others h.nBuckets slot x).card + 1 := by
    rw [hv.size, hsplit, Multiset.card_cons]
  have hle := hv.size_le
  have hn := (hv.isSize (Nat.ne_of_gt (Nat.zero_lt_of_lt hx))).le
  have hpred : pred h.size = h.size - 1 := pred_of_pos (by omega) (by omega)
  refine ⟨{ h with flags := flags, size := pred h.size }, Function.update slot x .deleted, ?_,
    ⟨hv.buckets_of hx hshows, hshows, ?_, ?_, hv.upper, hv.room, ?_, hv.onPath.mark x⟩, ?_⟩
  · simp only [khDel, if_pos (Nat.ne_of_lt hx), hv.shows.isEither hx, he, ok_bind, slotBits, Bool.or_self,
      Bool.false_eq_true, if_false, hdel]
  · change pred h.size = (contents h.nBuckets _).card
    rw [hrest]
    omega
  · change h.nOccupied = (contents h.nBuckets _).card
    rw [contents_used_update (by rw [he]; rfl)]
    exact hv.occupied
  · change ((contents h.nBuckets _).map Prod.fst).Nodup
    have hnodup := hv.nodup
    rw [hsplit, Multiset.map_cons, Multiset.nodup_cons] at hnodup
    rw [hrest]
    exact hnodup.2
  · change entries h slot = e ::ₘ contents h.nBuckets _
    rw [hrest, hsplit]

/-- An entry with a key that no other bucket has, in a bucket on the path of the key. -/
theorem Valid.set_live (hv : Valid hash h slot) (hx : x < h.nBuckets) {e : K × V}
    (hpath : ∃ t < h.nBuckets, x = probe h.nBuckets (hash e.1).toNat t ∧
      ∀ u < t, slot (probe h.nBuckets (hash e.1).toNat u) ≠ .empty)
    (hfresh : e.1 ∉ (others h.nBuckets slot x).map Prod.fst) (h' : Kh K V)
    (hn : h'.nBuckets = h.nBuckets) (hupper : h'.upperBound = h.upperBound)
    (hshows : Shows h.nBuckets h'.flags h'.keys h'.vals (Function.update slot x (.live e)))
    (hsize : h'.size = (others h.nBuckets slot x).card + 1)
    (hocc : h'.nOccupied = (contents h.nBuckets (Slot.used ∘ Function.update slot x (.live e))).card)
    (hroom : h'.nOccupied ≤ h.upperBound) :
    Valid hash h' (Function.update slot x (.live e)) ∧
      entries h' (Function.update slot x (.live e)) = e ::ₘ others h.nBuckets slot x := by
  have hentries : entries h' (Function.update slot x (.live e)) = e ::ₘ others h.nBuckets slot x := by
    rw [← others_update h.nBuckets slot x (.live e), ← hn]
    exact entries_live (by rw [hn]; exact hx) (Function.update_self x _ slot)
  refine ⟨⟨?_, ?_, ?_, ?_, ?_, ?_, ?_, ?_⟩, hentries⟩
  · rw [hn]
    exact hv.buckets_of hx hshows
  · rwa [hn]
  · rw [hentries, Multiset.card_cons, hsize]
  · rw [hn, hocc]
  · rw [hn, hupper, hv.upper]
  · rwa [hupper]
  · rw [hentries, Multiset.map_cons, Multiset.nodup_cons]
    have hnodup := hv.nodup
    refine ⟨hfresh, ?_⟩
    cases hslot : (slot x).entry with
    | none => rwa [entries_free hslot] at hnodup
    | some d =>
      rw [entries_live hx (Slot.entry_eq_some.mp hslot), Multiset.map_cons, Multiset.nodup_cons] at hnodup
      exact hnodup.2
  · obtain ⟨t, ht, rfl, hused⟩ := hpath
    rw [hn]
    exact hv.onPath.put ht hused

/-- No other bucket has the key of an entry. -/
theorem Valid.others_fresh (hv : Valid hash h slot) (hx : x < h.nBuckets) {e : K × V}
    (he : slot x = .live e) : e.1 ∉ (others h.nBuckets slot x).map Prod.fst := by
  have hnodup := hv.nodup
  rw [entries_live hx he, Multiset.map_cons, Multiset.nodup_cons] at hnodup
  exact hnodup.1

/-- `kh_value(h, x) = v` on a bucket with an entry. -/
theorem khSetVal_spec (hv : Valid hash h slot) (hx : x < h.nBuckets) {e : K × V} (he : slot x = .live e)
    (v : V) :
    ∃ h' slot', khSetVal h x v = .ok h' ∧ Valid hash h' slot' ∧
      entries h' slot' = (e.1, v) ::ₘ others h.nBuckets slot x := by
  have hkeep : Function.update (bits h.flags) x (false, false) = bits h.flags := by
    have hbits := hv.shows.bits x hx
    rw [he] at hbits
    rw [← show bits h.flags x = (false, false) from hbits, Function.update_eq_self]
  have hkeys : h.keys.set x e.1 = h.keys := by
    obtain ⟨hlt, hget⟩ := List.getElem?_eq_some_iff.mp (hv.shows.entry x hx e he).1
    rw [← hget, List.set_getElem_self]
  have hshows : Shows h.nBuckets h.flags (h.keys.set x e.1) (h.vals.set x v)
      (Function.update slot x (.live (e.1, v))) := hv.shows.put rfl hkeep.symm e.1 v
  rw [hkeys] at hshows
  obtain ⟨t, ht, hprobe, hused⟩ := hv.onPath x hx e he
  have hfresh := hv.others_fresh hx he
  have hset := hv.set_live hx (e := (e.1, v)) ⟨t, ht, hprobe.symm, hused⟩ hfresh
    { h with vals := h.vals.set x v } rfl rfl hshows
    (by rw [hv.size, entries_live hx he, Multiset.card_cons])
    (by rw [contents_used_update (by rw [he]; rfl)]; exact hv.occupied) hv.room
  refine ⟨_, _, ?_, hset.1, hset.2⟩
  rw [khSetVal, store_of_lt (hx.trans_le hv.shows.valCell), ok_bind]

/-- CLEAR: `kh_clear` leaves the table empty, with the buckets it had. -/
theorem khClear_spec (hv : Valid hash h slot) :
    ∃ slot', Valid hash (khClear h) slot' ∧ entries (khClear h) slot' = 0 := by
  have hzero : ∀ n, contents n (Slot.entry ∘ fun _ => (.empty : Slot (K × V))) = 0 :=
    fun n => contents_eq_zero fun _ _ => rfl
  rcases hv.buckets with ⟨hn, hnil⟩ | ⟨hsize, hflags⟩
  · refine ⟨slot, ?_, ?_⟩
    · rwa [khClear, if_pos hnil]
    · rw [khClear, if_pos hnil, entries, hn, contents_zero]
  · refine ⟨fun _ => .empty, ?_, ?_⟩
    · rw [khClear, if_neg hflags]
      have hshows : Shows h.nBuckets (acFresh h.nBuckets) h.keys h.vals fun _ => .empty := by
        obtain ⟨b, -, -, hb⟩ := hsize
        have hkeys := hv.shows.keyCell
        have hvals := hv.shows.valCell
        rw [hb] at hkeys hvals ⊢
        exact Shows.fresh hkeys hvals
      refine ⟨hv.buckets_of hsize.pos hshows, hshows, ?_, ?_, hv.upper, Nat.zero_le _, ?_,
        fun i _ e he => by cases he⟩
      · exact (congrArg Multiset.card (hzero h.nBuckets)).symm
      · change 0 = (contents h.nBuckets _).card
        rw [contents_eq_zero (f := Slot.used ∘ fun _ => .empty) fun _ _ => rfl]
        rfl
      · change ((contents h.nBuckets _).map Prod.fst).Nodup
        rw [hzero]
        exact Multiset.nodup_zero
    · rw [khClear, if_neg hflags]
      exact hzero h.nBuckets

/-! ### `kh_put` -/

/-- Whether an allocator grants what the table needs to grow. -/
def Alloc.grants (a : Alloc K V) : Prop := a.flags ∧ a.keys ∧ a.vals

/-- Whether it grants a smaller array, which the source does not check. -/
def Alloc.shrinks (a : Alloc K V) : Prop := a.shrinkKeys ∧ a.shrinkVals

/-- The size that `kh_put` asks for is the one it has, when it wants rid of deleted buckets. -/
theorem khTarget_pred {n : ℕ} (hn : IsSize n) : khTarget (pred n) = n := by
  have hle := hn.le
  rw [pred_of_pos hn.pos (by omega)]
  obtain ⟨b, hb, hb', rfl⟩ := hn
  obtain ⟨c, rfl⟩ := Nat.exists_eq_add_of_le hb
  have hpow : 2 ^ (2 + c) = 2 * 2 ^ (1 + c) := by ring
  have hpow' : 2 ^ (1 + c) = 2 * 2 ^ c := by ring
  have hpos : 0 < 2 ^ c := Nat.two_pow_pos c
  have htarget := khTarget_eq (x := 2 ^ (2 + c) - 1) (b := 1 + c) (by omega) (by omega)
    (by rw [show 1 + c + 1 = 2 + c by omega]; omega) (by omega)
  rwa [show 1 + c + 1 = 2 + c by omega] at htarget

/-- And twice that when it wants to grow. -/
theorem khTarget_succ {n : ℕ} (hn : IsSize n) (hlt : n < 2 ^ 31) : khTarget (khint (n + 1)) = 2 * n := by
  have hint : khint (n + 1) = n + 1 := Nat.mod_eq_of_lt (by omega)
  rw [hint]
  obtain ⟨b, hb, -, rfl⟩ := hn
  have hb' : b < 31 := (Nat.pow_lt_pow_iff_right (by norm_num : 1 < 2)).mp hlt
  have hpos : 0 < 2 ^ b := Nat.two_pow_pos b
  have hpow : 2 ^ (b + 1) = 2 * 2 ^ b := by ring
  rw [khTarget_eq (by omega) (Nat.lt_succ_self _) (by omega) (by omega), hpow]

/-- STEP: the head of `kh_put` leaves room for an entry, with fewer than 2^30 entries before it, unless an
    allocation fails. -/
theorem khMakeRoom_spec (hv : Valid hash h slot) (hlt : h.size < 2 ^ 30) (ha : a.shrinks) :
    ∃ h' slot' ret, khMakeRoom hash h a = .ok (h', ret) ∧ Valid hash h' slot' ∧
      entries h' slot' = entries h slot ∧
      (ret = -1 ∧ ¬ a.grants ∨ ret = 0 ∧ h'.nBuckets ≠ 0 ∧ h'.nOccupied < h'.upperBound) := by
  have hupper := hv.upper
  have hsize := hv.size_le_occupied
  have hroom := hv.room
  rw [khMakeRoom]
  split
  swap
  · next hfree =>
    refine ⟨h, slot, 0, rfl, hv, rfl, Or.inr ⟨rfl, fun h0 => ?_, by omega⟩⟩
    rw [hupper, h0] at hfree
    exact hfree (Nat.zero_le _)
  next hfull =>
  -- whatever is asked for, the bound of the new size is above the number of entries
  have hresize : ∀ request, h.size < acHashUpper (khTarget request) →
      ∃ h' slot' ret, khResize hash h request a = .ok (h', ret) ∧ Valid hash h' slot' ∧
        entries h' slot' = entries h slot ∧
        (ret = -1 ∧ ¬ a.grants ∨ ret = 0 ∧ h'.nBuckets ≠ 0 ∧ h'.nOccupied < h'.upperBound) := by
    intro request hless
    obtain ⟨h', slot', ret, hrun, hv', hentries, hcases⟩ := khResize_spec hv request ha.1 ha.2
    refine ⟨h', slot', ret, hrun, hv', hentries, ?_⟩
    rcases hcases with ⟨hret, hgrant, -⟩ | ⟨hret, hbig | ⟨-, hn, hocc⟩⟩
    · exact Or.inl ⟨hret, hgrant⟩
    · exact absurd hbig.1 (not_le.mpr hless)
    · refine Or.inr ⟨hret, ?_, ?_⟩
      · rw [hn]
        exact Nat.ne_of_gt (khTarget_isSize request).pos
      · rwa [hocc, hv'.upper, hn]
  have hshift : khint (h.size <<< 1) = 2 * h.size := by
    rw [khint, Nat.shiftLeft_eq, pow_one, Nat.mul_comm]
    exact Nat.mod_eq_of_lt (by omega)
  rw [hshift]
  split
  · next hhalf =>
    refine hresize _ ?_
    rw [khTarget_pred (hv.isSize (by omega))]
    exact lt_acHashUpper hhalf
  · next hhalf =>
    refine hresize _ ?_
    by_cases hn : h.nBuckets = 0
    · have hzero : h.size = 0 := by
        have hle := hv.size_le
        omega
      rw [hn, hzero]
      decide
    · have hsz := hv.isSize hn
      rw [khTarget_succ hsz (by omega)]
      have hdouble := acHashUpper_double hsz
      omega

/-- FOREACH: the loop visits every entry once. -/
theorem khForeach_spec (hv : Valid hash h slot) :
    ∃ seen, khForeach h = .ok seen ∧ (seen : Multiset (K × V)) = entries h slot := by
  obtain ⟨seen, hfold, hseen⟩ := foldlM_range_total (f := khForeachBody h)
    (I := fun j seen => seen = (List.range j).filterMap (Slot.entry ∘ slot)) h.nBuckets [] rfl (by
      rintro i _ hi rfl
      rw [khForeachBody, hv.shows.isEither hi, ok_bind, List.range_succ, List.filterMap_append]
      cases hslot : slot i with
      | live e =>
        obtain ⟨hkey, hval⟩ := hv.shows.entry i hi e hslot
        refine ⟨_, ?_, rfl⟩
        simp [slotBits, load_of_getElem? hkey, load_of_getElem? hval, hslot, Slot.entry]
      | empty => exact ⟨_, rfl, by simp [hslot, Slot.entry]⟩
      | deleted => exact ⟨_, rfl, by simp [hslot, Slot.entry]⟩)
  exact ⟨seen, hfold, by rw [hseen]; rfl⟩

section Put

variable [DecidableEq K]

/-- PUT: `kh_put` finds the key, or makes an entry for it with whatever value lies there; a failed
    allocation leaves the entries as they were. -/
theorem khPut_spec (hv : Valid hash h slot) (hlt : h.size < 2 ^ 30) (ha : a.shrinks) (key : K) :
    ∃ h' slot' x ret, khPut hash h key a = .ok (h', x, ret) ∧ Valid hash h' slot' ∧
      (ret = -1 ∧ ¬ a.grants ∧ entries h' slot' = entries h slot ∨
        x < h'.nBuckets ∧ ∃ v, slot' x = .live (key, v) ∧
          (ret = 0 ∧ entries h' slot' = entries h slot ∨
            (ret = 1 ∨ ret = 2) ∧ (∀ w, (key, w) ∉ entries h slot) ∧
              entries h' slot' = (key, v) ::ₘ entries h slot)) := by
  obtain ⟨h₁, slot₁, ret, hroom, hv₁, hentries, hcases⟩ := khMakeRoom_spec hv hlt ha
  rw [khPut, hroom, ok_bind]
  rcases hcases with ⟨rfl, hgrant⟩ | ⟨rfl, hn, hocc⟩
  · exact ⟨h₁, slot₁, h₁.nBuckets, -1, rfl, hv₁, Or.inl ⟨rfl, hgrant, hentries⟩⟩
  obtain ⟨x, hx, hsite, hkind⟩ := khSite_spec hv₁ hn key
  simp only [lt_irrefl, if_false, hsite, ok_bind, hv₁.shows.isEmpty hx, hv₁.shows.isDel hx]
  rcases hkind with ⟨v, hlive⟩ | ⟨habsent, hfree, hpath⟩
  · refine ⟨h₁, slot₁, x, 0, ?_, hv₁, Or.inr ⟨hx, v, hlive, Or.inl ⟨rfl, hentries⟩⟩⟩
    rw [hlive]
    rfl
  -- the bucket is free: the new entry takes the value that lies there
  obtain ⟨v, hval⟩ : ∃ v, h₁.vals[x]? = some v :=
    ⟨_, List.getElem?_eq_getElem (hx.trans_le hv₁.shows.valCell)⟩
  have hvals : h₁.vals.set x v = h₁.vals := by
    obtain ⟨hlt, hget⟩ := List.getElem?_eq_some_iff.mp hval
    rw [← hget, List.set_getElem_self]
  obtain ⟨flags, hset, hlen, hbits⟩ := acSetIsBothFalse_ok (hv₁.shows.word x hx)
  have hshows := hv₁.shows.put hlen hbits key v
  rw [hvals] at hshows
  have hnone : (slot₁ x).entry = none := by
    rcases hfree with hslot | hslot <;> rw [hslot] <;> rfl
  have hothers := entries_free (h := h₁) hnone
  have hfresh : key ∉ (others h₁.nBuckets slot₁ x).map Prod.fst := by
    rw [← hothers, Multiset.mem_map]
    rintro ⟨⟨k, w⟩, hmem, rfl⟩
    exact habsent w hmem
  have hle := hv₁.size_le
  have hbound := (hv₁.isSize hn).le
  have hsize : khint (h₁.size + 1) = (others h₁.nBuckets slot₁ x).card + 1 := by
    rw [← hothers, ← hv₁.size]
    exact Nat.mod_eq_of_lt (by omega)
  have hkeys := store_of_lt (hx.trans_le hv₁.shows.keyCell) key
  rw [hentries] at habsent hothers
  rcases hfree with hslot | hslot
  · have hcount : khint (h₁.nOccupied + 1) =
        (contents h₁.nBuckets (Slot.used ∘ Function.update slot₁ x (.live (key, v)))).card := by
      rw [Function.comp_update, show Slot.used (.live (key, v)) = some () from rfl,
        contents_fill hx (by rw [Function.comp_apply, hslot]; rfl), Multiset.card_cons, ← hv₁.occupied]
      have hupper := acHashUpper_lt (hv₁.isSize hn)
      rw [hv₁.upper] at hocc
      exact Nat.mod_eq_of_lt (by omega)
    have hnew := hv₁.set_live hx (e := (key, v)) hpath hfresh
      { h₁ with keys := h₁.keys.set x key, flags := flags, size := khint (h₁.size + 1),
                nOccupied := khint (h₁.nOccupied + 1) }
      rfl rfl hshows hsize hcount ((Nat.mod_le _ _).trans hocc)
    refine ⟨_, _, x, 1, ?_, hnew.1, Or.inr ⟨hx, v, Function.update_self x _ slot₁,
      Or.inr ⟨Or.inl rfl, habsent, by rw [hnew.2, hothers]⟩⟩⟩
    simp only [hslot, slotBits, if_true, hkeys, hset, ok_bind]
  · have hcount : h₁.nOccupied =
        (contents h₁.nBuckets (Slot.used ∘ Function.update slot₁ x (.live (key, v)))).card := by
      rw [contents_used_update (by rw [hslot]; rfl)]
      exact hv₁.occupied
    have hnew := hv₁.set_live hx (e := (key, v)) hpath hfresh
      { h₁ with keys := h₁.keys.set x key, flags := flags, size := khint (h₁.size + 1) }
      rfl rfl hshows hsize hcount hocc.le
    refine ⟨_, _, x, 2, ?_, hnew.1, Or.inr ⟨hx, v, Function.update_self x _ slot₁,
      Or.inr ⟨Or.inr rfl, habsent, by rw [hnew.2, hothers]⟩⟩⟩
    simp only [hslot, slotBits, Bool.false_eq_true, if_false, if_true, hkeys, hset, ok_bind]

/-! ### Runs -/

/-- The calls of a user. -/
inductive Op (K V : Type) where
  | get (key : K)
  | put (key : K) (val : V) (a : Alloc K V)
  | del (key : K)
  | clear
  | resize (request : ℕ) (a : Alloc K V)
  | size
  | foreach

/-- What they return. -/
inductive Res (K V : Type) where
  | found (val : Option V)
  | code (ret : ℤ)
  | count (n : ℕ)
  | visited (seen : List (K × V))
  | done

/-- One call. -/
def step (hash : K → UInt32) (h : Kh K V) : Op K V → C (Kh K V × Res K V)
  | .get key => do
    let x ← khGet hash h key
    if x = h.nBuckets then .ok (h, .found none)
    else do
      let v ← load h.vals x
      .ok (h, .found (some v))
  | .put key val a => do
    let (h, x, ret) ← khPut hash h key a
    if ret < 0 then .ok (h, .code ret)
    else do
      let h ← khSetVal h x val
      .ok (h, .code ret)
  | .del key => do
    let x ← khGet hash h key
    let h ← khDel h x
    .ok (h, .done)
  | .clear => .ok (khClear h, .done)
  | .resize request a => do
    let (h, ret) ← khResize hash h request a
    .ok (h, .code ret)
  | .size => .ok (h, .count h.size)
  | .foreach => do
    let seen ← khForeach h
    .ok (h, .visited seen)

/-- What the same call may do to a map. -/
def Spec (m : KeyValue.Store K V) : Op K V → Res K V → KeyValue.Store K V → Prop
  | .get key, .found val, m' => val = m key ∧ m' = m
  | .put key val a, .code ret, m' =>
    ret = -1 ∧ ¬ a.grants ∧ m' = m ∨
      m' = KeyValue.put m key val ∧ (ret = 0 ∧ m key ≠ none ∨ (ret = 1 ∨ ret = 2) ∧ m key = none)
  | .del key, .done, m' => m' = KeyValue.delete m key
  | .clear, .done, m' => m' = fun _ => none
  | .resize _ a, .code ret, m' => (ret = 0 ∨ ret = -1 ∧ ¬ a.grants) ∧ m' = m
  | .size, .count n, m' => n = Set.ncard {key | m key ≠ none} ∧ m' = m
  | .foreach, .visited seen, m' =>
    (seen.map Prod.fst).Nodup ∧ (∀ key val, (key, val) ∈ seen ↔ m key = some val) ∧ m' = m
  | _, _, _ => False

/-- The map that a set of entries with different keys is. -/
def IsMap (E : Multiset (K × V)) (m : KeyValue.Store K V) : Prop :=
  ∀ key val, (key, val) ∈ E ↔ m key = some val

omit [DecidableEq K] in
theorem IsMap.none_iff {E : Multiset (K × V)} {m : KeyValue.Store K V} (h : IsMap E m) {key : K} :
    m key = none ↔ ∀ val, (key, val) ∉ E := by
  constructor
  · intro hnone val hmem
    rw [h, hnone] at hmem
    cases hmem
  · intro hall
    by_contra hsome
    obtain ⟨val, hval⟩ := Option.ne_none_iff_exists'.mp hsome
    exact hall val ((h key val).mpr hval)

/-- Replacing the value of a key, or adding it. -/
theorem IsMap.put {E : Multiset (K × V)} {m : KeyValue.Store K V} {key : K} (val : V)
    (h : ∀ k v, k ≠ key → ((k, v) ∈ E ↔ m k = some v)) (hfresh : key ∉ E.map Prod.fst) :
    IsMap ((key, val) ::ₘ E) (KeyValue.put m key val) := by
  intro k v
  rw [Multiset.mem_cons, KeyValue.put, Function.update_apply, Prod.mk.injEq]
  by_cases hk : k = key
  · rw [if_pos hk, hk, Option.some.injEq, eq_comm (a := val)]
    refine ⟨fun hor => hor.elim (fun heq => heq.2) fun hmem => ?_, fun heq => Or.inl ⟨rfl, heq⟩⟩
    exact absurd (Multiset.mem_map_of_mem Prod.fst hmem) hfresh
  · rw [if_neg hk, h k v hk]
    exact ⟨fun hor => hor.resolve_left fun heq => hk heq.1, Or.inr⟩

/-- Dropping the entry of a key. -/
theorem IsMap.delete {E : Multiset (K × V)} {m : KeyValue.Store K V} {e : K × V}
    (h : IsMap (e ::ₘ E) m) (hfresh : e.1 ∉ E.map Prod.fst) :
    IsMap E (KeyValue.delete m e.1) := by
  intro k v
  rw [KeyValue.delete, Function.update_apply]
  by_cases hk : k = e.1
  · rw [if_pos hk]
    refine ⟨fun hmem => ?_, fun hnone => by cases hnone⟩
    rw [← hk] at hfresh
    exact absurd (Multiset.mem_map_of_mem Prod.fst hmem) hfresh
  · rw [if_neg hk, ← h k v, Multiset.mem_cons]
    exact ⟨Or.inr, fun hor => hor.resolve_left fun heq => hk (by rw [← heq])⟩

/-- The number of entries is the number of keys in the map. -/
theorem IsMap.card {E : Multiset (K × V)} {m : KeyValue.Store K V} (h : IsMap E m)
    (hnodup : (E.map Prod.fst).Nodup) : E.card = Set.ncard {key | m key ≠ none} := by
  have hkeys : {key | m key ≠ none} = ((E.map Prod.fst).toFinset : Set K) := by
    ext key
    rw [Set.mem_ofPred_eq, Finset.mem_coe, Multiset.mem_toFinset, Multiset.mem_map, Ne, h.none_iff]
    push Not
    exact ⟨fun ⟨v, hv⟩ => ⟨(key, v), hv, rfl⟩, fun ⟨e, he, hkey⟩ => ⟨e.2, by rw [← hkey]; exact he⟩⟩
  rw [hkeys, Set.ncard_coe_finset, Multiset.toFinset_card_of_nodup hnodup, Multiset.card_map]

/-- The table is this map, and has room for so many more puts. -/
def Holds (hash : K → UInt32) (budget : ℕ) (h : Kh K V) (m : KeyValue.Store K V) : Prop :=
  ∃ slot, Valid hash h slot ∧ IsMap (entries h slot) m ∧ h.size + budget ≤ 2 ^ 30

/-- The allocations that the call does not check are granted. -/
def Op.shrinks : Op K V → Prop
  | .put _ _ a => a.shrinks
  | .resize _ a => a.shrinks
  | _ => True

/-- The bucket that `kh_get` finds has the value of the map. -/
theorem khGet_isMap (hv : Valid hash h slot) {m : KeyValue.Store K V} (hm : IsMap (entries h slot) m)
    (key : K) :
    ∃ x, khGet hash h key = .ok x ∧
      (x = h.nBuckets ∧ m key = none ∨ x < h.nBuckets ∧ ∃ v, slot x = .live (key, v) ∧ m key = some v) := by
  obtain ⟨x, hget, ⟨hx, habsent⟩ | ⟨hx, v, hlive⟩⟩ := khGet_spec hv key
  · exact ⟨x, hget, Or.inl ⟨hx, hm.none_iff.mpr habsent⟩⟩
  · exact ⟨x, hget, Or.inr ⟨hx, v, hlive, (hm key v).mp (mem_entries.mpr ⟨x, hx, hlive⟩)⟩⟩

theorem step_get (hv : Valid hash h slot) {m : KeyValue.Store K V} (hm : IsMap (entries h slot) m)
    (key : K) : step hash h (.get key) = .ok (h, .found (m key)) := by
  obtain ⟨x, hget, ⟨hx, hnone⟩ | ⟨hx, v, hlive, hsome⟩⟩ := khGet_isMap hv hm key
  · simp only [step, hget, ok_bind, if_pos hx, hnone]
  · have hload := load_of_getElem? (hv.shows.entry x hx _ hlive).2
    simp only [step, hget, ok_bind, if_neg (Nat.ne_of_lt hx), hload, hsome]

theorem step_put (hv : Valid hash h slot) {m : KeyValue.Store K V} (hm : IsMap (entries h slot) m)
    (hlt : h.size < 2 ^ 30) (ha : a.shrinks) (key : K) (val : V) :
    ∃ h' slot' ret m', step hash h (.put key val a) = .ok (h', .code ret) ∧ Valid hash h' slot' ∧
      IsMap (entries h' slot') m' ∧ h'.size ≤ h.size + 1 ∧ Spec m (.put key val a) (.code ret) m' := by
  obtain ⟨h₁, slot₁, x, ret, hput, hv₁, ⟨hret, hgrant, hentries⟩ | ⟨hx, v, hlive, hkind⟩⟩ :=
    khPut_spec hv hlt ha key
  · refine ⟨h₁, slot₁, ret, m, ?_, hv₁, by rwa [hentries], ?_, Or.inl ⟨hret, hgrant, rfl⟩⟩
    · simp only [step, hput, ok_bind, hret]
      rfl
    · rw [hv₁.size, hentries, ← hv.size]
      exact Nat.le_succ _
  obtain ⟨h₂, slot₂, hset, hv₂, hentries₂⟩ := khSetVal_spec hv₁ hx hlive val
  have hfresh := hv₁.others_fresh hx hlive
  have hsplit := entries_live hx hlive
  have hsize : h₂.size = h₁.size := by
    rw [hv₂.size, hv₁.size, hentries₂, hsplit, Multiset.card_cons, Multiset.card_cons]
  have hrun : step hash h (.put key val a) = .ok (h₂, .code ret) := by
    have hnn : ¬ ret < 0 := by
      rcases hkind with ⟨rfl, -⟩ | ⟨rfl | rfl, -⟩ <;> omega
    simp only [step, hput, ok_bind, if_neg hnn, hset]
  -- the other buckets hold what the map has for the other keys
  have hrest : ∀ k v', k ≠ key →
      ((k, v') ∈ others h₁.nBuckets slot₁ x ↔ (k, v') ∈ entries h₁ slot₁) := by
    intro k v' hne
    rw [hsplit, Multiset.mem_cons]
    exact ⟨Or.inr, fun hor => hor.resolve_left fun heq => hne (congrArg Prod.fst heq)⟩
  rcases hkind with ⟨hret, hentries⟩ | ⟨hret, habsent, hentries⟩
  · refine ⟨h₂, slot₂, ret, KeyValue.put m key val, hrun, hv₂, ?_, ?_, Or.inr ⟨rfl, Or.inl ⟨hret, ?_⟩⟩⟩
    · rw [hentries₂]
      refine IsMap.put val (fun k v' hne => ?_) hfresh
      rw [hrest k v' hne, hentries, hm]
    · rw [hsize, hv₁.size, hentries, ← hv.size]
      exact Nat.le_succ _
    · rw [Ne, hm.none_iff, ← hentries]
      exact fun hall => hall v (mem_entries.mpr ⟨x, hx, hlive⟩)
  · refine ⟨h₂, slot₂, ret, KeyValue.put m key val, hrun, hv₂, ?_, ?_,
      Or.inr ⟨rfl, Or.inr ⟨hret, hm.none_iff.mpr habsent⟩⟩⟩
    · rw [hentries₂]
      refine IsMap.put val (fun k v' hne => ?_) hfresh
      rw [hrest k v' hne, hentries, Multiset.mem_cons, ← hm]
      exact ⟨fun hor => hor.resolve_left fun heq => hne (congrArg Prod.fst heq), Or.inr⟩
    · rw [hsize, hv₁.size, hentries, Multiset.card_cons, ← hv.size]

theorem step_del (hv : Valid hash h slot) {m : KeyValue.Store K V} (hm : IsMap (entries h slot) m)
    (key : K) :
    ∃ h' slot', step hash h (.del key) = .ok (h', .done) ∧ Valid hash h' slot' ∧
      IsMap (entries h' slot') (KeyValue.delete m key) ∧ h'.size ≤ h.size := by
  obtain ⟨x, hget, ⟨hx, hnone⟩ | ⟨hx, v, hlive, hsome⟩⟩ := khGet_isMap hv hm key
  · refine ⟨h, slot, ?_, hv, ?_, le_rfl⟩
    · simp only [step, hget, ok_bind, khDel, hx, ne_eq, not_true_eq_false, if_false]
    · rwa [KeyValue.delete, ← hnone, Function.update_eq_self]
  · obtain ⟨h', slot', hdel, hv', hentries⟩ := khDel_spec hv hx hlive
    have hnodup := hv.nodup
    rw [hentries, Multiset.map_cons, Multiset.nodup_cons] at hnodup
    rw [hentries] at hm
    refine ⟨h', slot', ?_, hv', hm.delete hnodup.1, ?_⟩
    · simp only [step, hget, ok_bind, hdel]
    · rw [hv.size, hentries, Multiset.card_cons, ← hv'.size]
      exact Nat.le_succ _

/-- STEP: every call does to the table what it may do to the map. -/
theorem step_refines {budget : ℕ} {m : KeyValue.Store K V} (op : Op K V) (hop : op.shrinks)
    (hh : Holds hash (budget + 1) h m) :
    ∃ h' r m', step hash h op = .ok (h', r) ∧ Spec m op r m' ∧ Holds hash budget h' m' := by
  obtain ⟨slot, hv, hm, hbudget⟩ := hh
  cases op with
  | get key => exact ⟨h, _, m, step_get hv hm key, ⟨rfl, rfl⟩, slot, hv, hm, by omega⟩
  | put key val a =>
    obtain ⟨h', slot', ret, m', hrun, hv', hm', hsize, hspec⟩ := step_put hv hm (by omega) hop key val
    exact ⟨h', _, m', hrun, hspec, slot', hv', hm', by omega⟩
  | del key =>
    obtain ⟨h', slot', hrun, hv', hm', hsize⟩ := step_del hv hm key
    exact ⟨h', _, _, hrun, rfl, slot', hv', hm', by omega⟩
  | clear =>
    obtain ⟨slot', hv', hzero⟩ := khClear_spec hv
    refine ⟨khClear h, _, _, rfl, rfl, slot', hv', ?_, ?_⟩
    · rw [hzero]
      exact fun key val => ⟨fun hmem => absurd hmem (Multiset.notMem_zero _), fun hnone => by cases hnone⟩
    · rw [hv'.size, hzero, Multiset.card_zero]
      omega
  | resize request a =>
    obtain ⟨h', slot', ret, hrun, hv', hentries, hcases⟩ := khResize_spec hv request hop.1 hop.2
    refine ⟨h', .code ret, m, ?_, ⟨?_, rfl⟩, slot', hv', by rwa [hentries], ?_⟩
    · simp only [step, hrun, ok_bind]
    · rcases hcases with ⟨hret, hgrant, -⟩ | ⟨hret, -⟩
      · exact Or.inr ⟨hret, hgrant⟩
      · exact Or.inl hret
    · rw [hv'.size, hentries, ← hv.size]
      omega
  | size =>
    refine ⟨h, _, m, rfl, ⟨?_, rfl⟩, slot, hv, hm, by omega⟩
    rw [hv.size, hm.card hv.nodup]
  | foreach =>
    obtain ⟨seen, hrun, hseen⟩ := khForeach_spec hv
    refine ⟨h, .visited seen, m, ?_, ⟨?_, fun key val => ?_, rfl⟩, slot, hv, hm, by omega⟩
    · simp only [step, hrun, ok_bind]
    · have hnodup := hv.nodup
      rwa [← hseen] at hnodup
    · rw [← hm, ← hseen, Multiset.mem_coe]

omit [DecidableEq K] in
theorem holds_khInit (hash : K → UInt32) {budget : ℕ} (h : budget ≤ 2 ^ 30) :
    Holds hash budget (khInit : Kh K V) fun _ => none := by
  refine ⟨fun _ => .empty, valid_khInit hash, fun key val => ?_, (Nat.zero_add _).trans_le h⟩
  exact ⟨fun hmem => absurd hmem (Multiset.notMem_zero _), fun hnone => by cases hnone⟩

/-- RUN: from a table that is a map, with room for as many puts as there are calls. -/
theorem run_holds {h : Kh K V} {m : KeyValue.Store K V} (ops : List (Op K V))
    (hh : Holds hash ops.length h m) (hshrink : ∀ op ∈ ops, op.shrinks) :
    ∃ h' rs m', runOps (step hash) h ops = .ok (h', rs) ∧ Runs Spec m ops rs m' ∧ Holds hash 0 h' m' :=
  runOps_refines_runs (R := Holds hash) (fun _ _ _ op hR hop => step_refines op hop hR) ops h m hh hshrink

/-- REFINE: a run of up to 2^30 calls on a new table is a run of a map. No call leaves the arrays or
    loops, every search finds what was put, and a put returns -1 only when an allocation failed. -/
theorem run_refines_map (hash : K → UInt32) (ops : List (Op K V)) (hlen : ops.length ≤ 2 ^ 30)
    (hshrink : ∀ op ∈ ops, op.shrinks) :
    ∃ h rs m, runOps (step hash) khInit ops = .ok (h, rs) ∧ Runs Spec (fun _ => none) ops rs m ∧
      Holds hash 0 h m :=
  run_holds ops (holds_khInit hash hlen) hshrink

/-- An allocator that grants everything. -/
def generous : Alloc ℕ ℕ :=
  { flags := true, keys := true, vals := true, shrinkKeys := true, shrinkVals := true,
    keyMem := fun _ => 0, valMem := fun _ => 0 }

theorem run_refines_map_put_get :
    [Op.put 5 7 generous, .get 5].length ≤ 2 ^ 30 ∧
      ∃ h rs m, runOps (step fun k => UInt32.ofNat k) khInit [Op.put 5 7 generous, .get 5] = .ok (h, rs) ∧
        Runs Spec (fun _ => none) [Op.put 5 7 generous, .get 5] rs m ∧
        Holds (fun k => UInt32.ofNat k) 0 h m :=
  ⟨by decide, run_refines_map _ [Op.put 5 7 generous, .get 5] (by decide)
    (by simp [Op.shrinks, Alloc.shrinks, generous])⟩

end Put

end Diversity.Khash
