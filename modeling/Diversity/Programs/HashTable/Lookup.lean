import Diversity.Programs.HashTable.Buckets

/-! @src hash_table/khash.h | name:khash lookup | scheme:probing | family:data-structure

    `Shows` reads the arrays of a table as one array of slots, and has a lemma for each assignment that
    khash makes to them. `Valid` is what holds of a table between calls. A search follows the path of its
    key up to the first bucket that is empty or has the key; `kh_put` remembers the last deleted bucket on
    the way.

        path of k:    b0        b1        b2        b3
                      live k'   deleted   live k''  empty
                                ^ site              ^ the search ends                                -/

namespace Diversity.Khash
open Schemes Schemes.Probing

variable {α K V : Type} {n i : ℕ} {flags : List Word} {keys : List K} {vals : List V}
  {slot : ℕ → Slot (K × V)}

/-! ### Arrays as slots -/

/-- The bits of a slot. -/
def slotBits : Slot α → Bool × Bool
  | .empty => (true, false)
  | .deleted => (false, true)
  | .live _ => (false, false)

/-- The first `n` cells of the arrays hold these slots. -/
structure Shows (n : ℕ) (flags : List Word) (keys : List K) (vals : List V)
    (slot : ℕ → Slot (K × V)) : Prop where
  word : ∀ i < n, i / 16 < flags.length
  keyCell : n ≤ keys.length
  valCell : n ≤ vals.length
  bits : ∀ i < n, bits flags i = slotBits (slot i)
  entry : ∀ i < n, ∀ e, slot i = .live e → keys[i]? = some e.1 ∧ vals[i]? = some e.2

namespace Shows

theorem isEmpty (h : Shows n flags keys vals slot) (hi : i < n) :
    acIsEmpty flags i = .ok (slotBits (slot i)).1 := by
  rw [acIsEmpty_ok (h.word i hi), h.bits i hi]

theorem isDel (h : Shows n flags keys vals slot) (hi : i < n) :
    acIsDel flags i = .ok (slotBits (slot i)).2 := by
  rw [acIsDel_ok (h.word i hi), h.bits i hi]

theorem isEither (h : Shows n flags keys vals slot) (hi : i < n) :
    acIsEither flags i = .ok ((slotBits (slot i)).1 || (slotBits (slot i)).2) := by
  rw [acIsEither_ok (h.word i hi), h.bits i hi]

/-- `__ac_set_isdel_true` on an entry. -/
theorem del (h : Shows n flags keys vals slot) (hi : i < n) {e : K × V} (he : slot i = .live e) :
    ∃ flags', acSetIsDelTrue flags i = .ok flags' ∧
      Shows n flags' keys vals (Function.update slot i .deleted) := by
  obtain ⟨flags', hset, hlen, hbits⟩ := acSetIsDelTrue_ok (h.word i hi)
  refine ⟨flags', hset, fun j hj => hlen ▸ h.word j hj, h.keyCell, h.valCell, fun j hj => ?_,
    fun j hj d hd => ?_⟩
  · rw [hbits, Function.update_apply, Function.update_apply, h.bits i hi, he]
    split
    · rfl
    · exact h.bits j hj
  · rw [Function.update_apply] at hd
    split at hd
    · cases hd
    · exact h.entry j hj d hd

/-- Flags that say of a bucket that it is in use, and of the others what they said. -/
theorem put (h : Shows n flags keys vals slot) {flags' : List Word}
    (hlen : flags'.length = flags.length)
    (hbits : Khash.bits flags' = Function.update (Khash.bits flags) i (false, false)) (k : K) (v : V) :
    Shows n flags' (keys.set i k) (vals.set i v) (Function.update slot i (.live (k, v))) := by
  refine ⟨fun j hj => hlen ▸ h.word j hj, by simpa using h.keyCell, by simpa using h.valCell,
    fun j hj => ?_, fun j hj d hd => ?_⟩
  · rw [hbits, Function.update_apply, Function.update_apply]
    split
    · rfl
    · exact h.bits j hj
  · rw [Function.update_apply] at hd
    split at hd
    · next hji =>
      cases hd
      subst hji
      exact ⟨List.getElem?_set_self (hj.trans_le h.keyCell),
        List.getElem?_set_self (hj.trans_le h.valCell)⟩
    · next hji =>
      rw [List.getElem?_set_ne (Ne.symm hji), List.getElem?_set_ne (Ne.symm hji)]
      exact h.entry j hj d hd

theorem fresh {b : ℕ} (hkeys : 2 ^ b ≤ keys.length) (hvals : 2 ^ b ≤ vals.length) :
    Shows (2 ^ b) (acFresh (2 ^ b)) keys vals fun _ => .empty := by
  have hword : ∀ i < 2 ^ b, i / 16 < (acFresh (2 ^ b)).length := by
    intro i hi
    rw [acFresh, List.length_replicate]
    exact div_lt_acFsize hi
  refine ⟨hword, hkeys, hvals, fun i hi => bits_acFresh (div_lt_acFsize hi), fun i hi e he => ?_⟩
  cases he

end Shows

/-! ### Tables -/

/-- The entries of a table with these slots. -/
def entries (h : Kh K V) (slot : ℕ → Slot (K × V)) : Multiset (K × V) :=
  contents h.nBuckets (Slot.entry ∘ slot)

/-- What holds of a table between calls. -/
structure Valid (hash : K → UInt32) (h : Kh K V) (slot : ℕ → Slot (K × V)) : Prop where
  buckets : h.nBuckets = 0 ∧ h.flags = [] ∨ IsSize h.nBuckets ∧ h.flags ≠ []
  shows : Shows h.nBuckets h.flags h.keys h.vals slot
  size : h.size = (entries h slot).card
  occupied : h.nOccupied = (contents h.nBuckets (Slot.used ∘ slot)).card
  upper : h.upperBound = acHashUpper h.nBuckets
  room : h.nOccupied ≤ h.upperBound
  nodup : ((entries h slot).map Prod.fst).Nodup
  onPath : OnPath h.nBuckets (fun k => (hash k).toNat) Prod.fst slot

variable {hash : K → UInt32} {h : Kh K V}

theorem Valid.isSize (hv : Valid hash h slot) (hn : h.nBuckets ≠ 0) : IsSize h.nBuckets :=
  (hv.buckets.resolve_left fun h0 => hn h0.1).1

theorem Valid.size_le_occupied (hv : Valid hash h slot) : h.size ≤ h.nOccupied := by
  rw [hv.size, hv.occupied]
  refine card_contents_mono fun i _ hi hnone => ?_
  rw [Function.comp_apply, Slot.used_eq_none] at hnone
  rw [Function.comp_apply, hnone] at hi
  exact hi rfl

/-- There is always an empty bucket, so that every search ends. -/
theorem Valid.exists_empty (hv : Valid hash h slot) (hn : h.nBuckets ≠ 0) :
    ∃ i < h.nBuckets, slot i = .empty := by
  have hlt : (contents h.nBuckets (Slot.used ∘ slot)).card < h.nBuckets := by
    have hroom := hv.room
    have hupper := acHashUpper_lt (hv.isSize hn)
    rw [hv.upper] at hroom
    rw [← hv.occupied]
    omega
  obtain ⟨i, hi, hfree⟩ := exists_free hlt
  exact ⟨i, hi, Slot.used_eq_none.mp hfree⟩

theorem mem_entries {e : K × V} : e ∈ entries h slot ↔ ∃ i < h.nBuckets, slot i = .live e := by
  simp only [entries, mem_contents, Function.comp_apply, Slot.entry_eq_some]

/-- A new table is valid. -/
theorem valid_khInit (hash : K → UInt32) : Valid hash (khInit : Kh K V) fun _ => .empty where
  buckets := Or.inl ⟨rfl, rfl⟩
  shows := ⟨fun i hi => absurd hi (Nat.not_lt_zero i), le_rfl, le_rfl,
    fun i hi => absurd hi (Nat.not_lt_zero i), fun i hi => absurd hi (Nat.not_lt_zero i)⟩
  size := rfl
  occupied := rfl
  upper := (by decide : 0 = acHashUpper 0)
  room := le_rfl
  nodup := Multiset.nodup_zero
  onPath := fun i hi => absurd hi (Nat.not_lt_zero i)

/-! ### Searching -/

section Search

variable [DecidableEq K] {key : K}

/-- Whether a search for the key ends at a slot. -/
def stops (key : K) : Slot (K × V) → Bool
  | .empty => true
  | .deleted => false
  | .live e => e.1 = key

theorem khProbing_ok (hv : Valid hash h slot) (hi : i < h.nBuckets) :
    khProbing h key i = .ok (!stops key (slot i)) := by
  rw [khProbing, hv.shows.isEmpty hi, ok_bind]
  cases hslot : slot i with
  | empty => rfl
  | deleted => rw [hv.shows.isDel hi, hslot]; rfl
  | live e =>
    rw [hv.shows.isDel hi, hslot]
    simp [slotBits, stops, load_of_getElem? (hv.shows.entry i hi e hslot).1]

/-- The search along the path of the key ends, and before it does no slot is empty or has the key. -/
theorem exists_stop (hv : Valid hash h slot) (hn : h.nBuckets ≠ 0) (key : K) :
    ∃ s < h.nBuckets, stops key (slot (probe h.nBuckets (hash key).toNat s)) = true ∧
      ∀ t < s, stops key (slot (probe h.nBuckets (hash key).toNat t)) = false := by
  obtain ⟨i, hi, hempty⟩ := hv.exists_empty hn
  obtain ⟨b, -, -, hb⟩ := hv.isSize hn
  rw [hb] at hi ⊢
  obtain ⟨s, hs, hstop, hfirst⟩ := exists_first_probe (p := fun j => stops key (slot j) = true)
    (hash key).toNat ⟨i, hi, by rw [hempty]; rfl⟩
  exact ⟨s, hs, hstop, fun t ht => Bool.eq_false_iff.mpr (hfirst t ht)⟩

theorem ne_empty_of_stops {s : Slot (K × V)} (h : stops key s = false) : s ≠ .empty := by
  rintro rfl
  cases h

/-- A path that ends at an empty slot: the key is not in the table. -/
theorem absent_of_stop (hv : Valid hash h slot) {s : ℕ}
    (hempty : slot (probe h.nBuckets (hash key).toNat s) = .empty)
    (hfirst : ∀ t < s, stops key (slot (probe h.nBuckets (hash key).toNat t)) = false) (v : V) :
    (key, v) ∉ entries h slot := by
  rw [mem_entries]
  rintro ⟨i, hi, hlive⟩
  refine hv.onPath.absent hempty (fun t ht e he hkey => ?_) i hi _ hlive rfl
  have hgo := hfirst t ht
  rw [he, stops, hkey, decide_eq_true rfl] at hgo
  cases hgo

/-- STEP: a turn of `kh_get` goes on to the next probe. -/
theorem khGetBody_next (hv : Valid hash h slot) (hn : h.nBuckets ≠ 0) (x : ℕ) {t : ℕ}
    (ht : t + 1 < h.nBuckets) (hgo : stops key (slot (probe h.nBuckets x t)) = false) :
    khGetBody h key (probe h.nBuckets x 0) (probe h.nBuckets x t, t) =
      .ok (.next (probe h.nBuckets x (t + 1), t + 1)) := by
  have hsize := hv.isSize hn
  have hlt : t < h.nBuckets := Nat.lt_of_succ_lt ht
  simp only [khGetBody, khProbing_ok hv (probe_lt hsize.pos x t), hgo, ok_bind, Bool.not_false, if_true,
    khNext_probe hsize x hlt, khint_succ hsize hlt, if_neg (probe_succ_ne hsize x ht)]

/-- FIND: `kh_get` returns the bucket of the key, or `n_buckets` when the table has no such key. -/
theorem khGet_spec (hv : Valid hash h slot) (key : K) :
    ∃ x, khGet hash h key = .ok x ∧
      ((x = h.nBuckets ∧ ∀ v, (key, v) ∉ entries h slot) ∨
        x < h.nBuckets ∧ ∃ v, slot x = .live (key, v)) := by
  rw [khGet]
  by_cases hn : h.nBuckets = 0
  · refine ⟨0, if_neg (not_not.mpr hn), Or.inl ⟨hn.symm, fun v hmem => ?_⟩⟩
    obtain ⟨i, hi, -⟩ := mem_entries.mp hmem
    omega
  have hsize := hv.isSize hn
  obtain ⟨s, hs, hstop, hfirst⟩ := exists_stop hv hn key
  have hlt := probe_lt hsize.pos (hash key).toNat s
  rw [if_pos hn, and_pred_eq_probe hsize]
  -- the walk takes s turns, and the last of them decides
  have hwalk : ∀ r, khGetBody h key (probe h.nBuckets (hash key).toNat 0)
      (probe h.nBuckets (hash key).toNat s, s) = .ok (.done r) →
      loop (khGetBody h key (probe h.nBuckets (hash key).toNat 0)) (2 * h.nBuckets)
        (probe h.nBuckets (hash key).toNat 0, 0) = .ok r := by
    intro r hdone
    exact loop_steps _ s (fun t => (probe h.nBuckets (hash key).toNat t, t))
      (fun t ht => khGetBody_next hv hn _ (by omega) (hfirst t ht)) hdone (by omega)
  cases hslot : slot (probe h.nBuckets (hash key).toNat s) with
  | empty =>
    refine ⟨h.nBuckets, hwalk _ ?_, Or.inl ⟨rfl, absent_of_stop hv hslot hfirst⟩⟩
    simp [khGetBody, khProbing_ok hv hlt, hv.shows.isEither hlt, hslot, stops, slotBits]
  | deleted => rw [hslot] at hstop; cases hstop
  | live e =>
    rw [hslot] at hstop
    have hkey : e.1 = key := of_decide_eq_true hstop
    refine ⟨_, hwalk _ ?_, Or.inr ⟨hlt, e.2, by rw [hslot, ← hkey]⟩⟩
    simp [khGetBody, khProbing_ok hv hlt, hv.shows.isEither hlt, hslot, stops, slotBits, hkey]

/-! ### The bucket for a put -/

/-- `site` after the first probes: the last deleted bucket among them, or `n`. -/
def siteAt (slot : ℕ → Slot (K × V)) (n x : ℕ) : ℕ → ℕ
  | 0 => n
  | t + 1 => if (slotBits (slot (probe n x t))).2 then probe n x t else siteAt slot n x t

omit [DecidableEq K] in
theorem siteAt_cases (slot : ℕ → Slot (K × V)) (n x : ℕ) : ∀ s,
    siteAt slot n x s = n ∨ ∃ t < s, siteAt slot n x s = probe n x t ∧ slot (probe n x t) = .deleted
  | 0 => Or.inl rfl
  | s + 1 => by
    rw [siteAt]
    cases hslot : slot (probe n x s) with
    | deleted => exact Or.inr ⟨s, Nat.lt_succ_self s, rfl, hslot⟩
    | empty =>
      rcases siteAt_cases slot n x s with hn | ⟨t, ht, hsite⟩
      · exact Or.inl hn
      · exact Or.inr ⟨t, Nat.lt_succ_of_lt ht, hsite⟩
    | live e =>
      rcases siteAt_cases slot n x s with hn | ⟨t, ht, hsite⟩
      · exact Or.inl hn
      · exact Or.inr ⟨t, Nat.lt_succ_of_lt ht, hsite⟩

/-- STEP: a turn of `kh_put` goes on to the next probe and takes note of a deleted bucket. -/
theorem khSiteBody_next (hv : Valid hash h slot) (hn : h.nBuckets ≠ 0) (x : ℕ) {t : ℕ}
    (ht : t + 1 < h.nBuckets) (hgo : stops key (slot (probe h.nBuckets x t)) = false) :
    khSiteBody h key (probe h.nBuckets x 0)
        (probe h.nBuckets x t, siteAt slot h.nBuckets x t, t) =
      .ok (.next (probe h.nBuckets x (t + 1), siteAt slot h.nBuckets x (t + 1), t + 1)) := by
  have hsize := hv.isSize hn
  have hlt : t < h.nBuckets := Nat.lt_of_succ_lt ht
  have hi := probe_lt hsize.pos x t
  simp only [khSiteBody, khProbing_ok hv hi, hgo, ok_bind, Bool.not_false, if_true, hv.shows.isDel hi,
    khNext_probe hsize x hlt, khint_succ hsize hlt, if_neg (probe_succ_ne hsize x ht), siteAt]

/-- A bucket for a key that is not in the table: free, and on the path of the key behind used ones. -/
structure FreeFor (hash : K → UInt32) (n : ℕ) (slot : ℕ → Slot (K × V)) (key : K) (x : ℕ) : Prop where
  free : slot x = .empty ∨ slot x = .deleted
  path : ∃ t < n, x = probe n (hash key).toNat t ∧
    ∀ u < t, slot (probe n (hash key).toNat u) ≠ .empty

/-- Where the search ends, `kh_put` takes this bucket if it has the key, and else a deleted one on the
    way if there was one. -/
theorem khSite_eq (hv : Valid hash h slot) {s : ℕ} (hs : s < h.nBuckets)
    (hstop : stops key (slot (probe h.nBuckets (hash key).toNat s)) = true)
    (hfirst : ∀ t < s, stops key (slot (probe h.nBuckets (hash key).toNat t)) = false) :
    khSite hash h key = .ok (
      if (slotBits (slot (probe h.nBuckets (hash key).toNat s))).1 ∧
          siteAt slot h.nBuckets (hash key).toNat s ≠ h.nBuckets
      then siteAt slot h.nBuckets (hash key).toNat s else probe h.nBuckets (hash key).toNat s) := by
  have hn : h.nBuckets ≠ 0 := Nat.ne_of_gt (Nat.zero_lt_of_lt hs)
  have hsize := hv.isSize hn
  have hlt := probe_lt hsize.pos (hash key).toNat
  rw [khSite, and_pred_eq_probe hsize, hv.shows.isEmpty (hlt 0), ok_bind]
  by_cases hempty : slot (probe h.nBuckets (hash key).toNat 0) = .empty
  · have hs0 : s = 0 := by
      by_contra hne
      exact ne_empty_of_stops (hfirst 0 (Nat.pos_of_ne_zero hne)) hempty
    rw [hs0, hempty, siteAt]
    simp [slotBits]
  · have hhead : (slotBits (slot (probe h.nBuckets (hash key).toNat 0))).1 = false := by
      cases hslot : slot (probe h.nBuckets (hash key).toNat 0) with
      | empty => exact absurd hslot hempty
      | deleted => rfl
      | live e => rfl
    have hdone : khSiteBody h key (probe h.nBuckets (hash key).toNat 0)
        (probe h.nBuckets (hash key).toNat s, siteAt slot h.nBuckets (hash key).toNat s, s) =
        .ok (.done (h.nBuckets, probe h.nBuckets (hash key).toNat s,
          siteAt slot h.nBuckets (hash key).toNat s)) := by
      simp [khSiteBody, khProbing_ok hv (hlt s), hstop]
    have hwalk := loop_steps (2 * h.nBuckets) s
      (fun t => (probe h.nBuckets (hash key).toNat t, siteAt slot h.nBuckets (hash key).toNat t, t))
      (fun t ht => khSiteBody_next hv hn _ (by omega) (hfirst t ht)) hdone (by omega)
    rw [siteAt] at hwalk
    simp only [hhead, Bool.false_eq_true, if_false, hwalk, ok_bind, if_true, hv.shows.isEmpty (hlt s)]

/-- PUT: the bucket that `kh_put` chooses has the key, or the table has not, and it is free for it. -/
theorem khSite_spec (hv : Valid hash h slot) (hn : h.nBuckets ≠ 0) (key : K) :
    ∃ x < h.nBuckets, khSite hash h key = .ok x ∧ ((∃ v, slot x = .live (key, v)) ∨
      (∀ v, (key, v) ∉ entries h slot) ∧ FreeFor hash h.nBuckets slot key x) := by
  obtain ⟨s, hs, hstop, hfirst⟩ := exists_stop hv hn key
  have hlt := probe_lt (hv.isSize hn).pos (hash key).toNat
  have hused : ∀ t < s, slot (probe h.nBuckets (hash key).toNat t) ≠ .empty :=
    fun t ht => ne_empty_of_stops (hfirst t ht)
  have hsite := khSite_eq hv hs hstop hfirst
  cases hslot : slot (probe h.nBuckets (hash key).toNat s) with
  | empty =>
    have habsent := absent_of_stop hv hslot hfirst
    rw [hslot] at hsite
    rcases siteAt_cases slot h.nBuckets (hash key).toNat s with hnone | ⟨t, ht, heq, hdel⟩
    · rw [if_neg (fun hc => hc.2 hnone)] at hsite
      exact ⟨_, hlt s, hsite, Or.inr ⟨habsent, Or.inl hslot, s, hs, rfl, hused⟩⟩
    · rw [heq, if_pos ⟨rfl, Nat.ne_of_lt (hlt t)⟩] at hsite
      exact ⟨_, hlt t, hsite, Or.inr ⟨habsent, Or.inr hdel, t, by omega, rfl,
        fun u hu => hused u (hu.trans ht)⟩⟩
  | deleted => rw [hslot] at hstop; cases hstop
  | live e =>
    rw [hslot] at hsite hstop
    have hkey : e.1 = key := of_decide_eq_true hstop
    rw [if_neg (fun hc => Bool.false_ne_true hc.1)] at hsite
    exact ⟨_, hlt s, hsite, Or.inl ⟨e.2, by rw [hslot, ← hkey]⟩⟩

end Search

end Diversity.Khash
