import Mathlib

/-! @scheme probing | name:Open addressing | family:data-structure

    Tables that keep their entries in an array of slots and look for a key along a probe sequence. The
    `s`-th probe from `a` is `a + s (s + 1) / 2` modulo the number of slots, so that one probe leads to
    the next by a step that grows by 1:

        s:         0     1     2     3     4
        probe:     a    a+1   a+3   a+6   a+10        modulo n

    For a power of two the first `n` probes meet every slot. What keeps a key findable is that no slot
    before its own on its path is empty; a deleted entry leaves a slot that is not. `contents` is what an
    array of slots holds, without their order, and has one lemma for filling a slot and one for clearing
    it. -/

namespace Schemes.Probing

universe u

variable {α κ : Type u}

/-! ### What an array of slots holds -/

/-- The entries in the first `n` slots. -/
def contents (n : ℕ) (f : ℕ → Option α) : Multiset α := ((List.range n).filterMap f : List α)

section Contents

variable {n i : ℕ} {f g : ℕ → Option α} {e : α}

theorem contents_zero (f : ℕ → Option α) : contents 0 f = 0 := rfl

theorem contents_succ_none (h : f n = none) : contents (n + 1) f = contents n f := by
  rw [contents, contents, List.range_succ, List.filterMap_append]
  simp [h]

theorem contents_succ_some (h : f n = some e) : contents (n + 1) f = e ::ₘ contents n f := by
  rw [contents, contents, List.range_succ, List.filterMap_append, Multiset.cons_coe,
    Multiset.coe_eq_coe]
  simp [h, List.perm_append_singleton]

theorem contents_congr (h : ∀ i < n, f i = g i) : contents n f = contents n g := by
  rw [contents, contents, List.filterMap_congr]
  intro i hi
  exact h i (List.mem_range.mp hi)

theorem mem_contents : e ∈ contents n f ↔ ∃ i < n, f i = some e := by
  simp [contents]

/-- Filling a slot. -/
theorem contents_fill (hi : i < n) (h : f i = none) (e : α) :
    contents n (Function.update f i (some e)) = e ::ₘ contents n f := by
  induction n with
  | zero => exact absurd hi (Nat.not_lt_zero i)
  | succ n ih =>
    rcases Nat.lt_succ_iff_lt_or_eq.mp hi with hlt | rfl
    · have hlast : Function.update f i (some e) n = f n := Function.update_of_ne (by omega) _ _
      cases hn : f n with
      | none =>
        rw [contents_succ_none (hlast.trans hn), contents_succ_none hn, ih hlt]
      | some d =>
        rw [contents_succ_some (hlast.trans hn), contents_succ_some hn, ih hlt, Multiset.cons_swap]
    · rw [contents_succ_some (Function.update_self i (some e) f), contents_succ_none h]
      congr 1
      exact contents_congr fun j hj => Function.update_of_ne (by omega) _ _

/-- Clearing a slot. -/
theorem contents_clear (hi : i < n) (h : f i = some e) :
    contents n f = e ::ₘ contents n (Function.update f i none) := by
  rw [← contents_fill hi (Function.update_self i none f) e, Function.update_idem, ← h,
    Function.update_eq_self]

/-- Slots behind the `n`-th do not count. -/
theorem contents_of_none {m : ℕ} (hle : n ≤ m) (h : ∀ i, n ≤ i → i < m → f i = none) :
    contents m f = contents n f := by
  induction m, hle using Nat.le_induction with
  | base => rfl
  | succ m hm ih =>
    rw [contents_succ_none (h m hm (Nat.lt_succ_self m)), ih]
    intro i hi hlt
    exact h i hi (Nat.lt_succ_of_lt hlt)

theorem contents_eq_zero (h : ∀ i < n, f i = none) : contents n f = 0 := by
  rw [contents_of_none (Nat.zero_le n) fun i _ hi => h i hi, contents_zero]

theorem card_contents_le (n : ℕ) (f : ℕ → Option α) : (contents n f).card ≤ n := by
  rw [contents, Multiset.coe_card]
  exact (List.length_filterMap_le f _).trans List.length_range.le

/-- An array with an entry wherever another has one holds at least as many. -/
theorem card_contents_mono {g : ℕ → Option κ} (h : ∀ i < n, f i ≠ none → g i ≠ none) :
    (contents n f).card ≤ (contents n g).card := by
  induction n with
  | zero => rfl
  | succ n ih =>
    have hle := ih fun i hi => h i (Nat.lt_succ_of_lt hi)
    cases hf : f n with
    | none =>
      rw [contents_succ_none hf]
      cases hg : g n with
      | none => rwa [contents_succ_none hg]
      | some d =>
        rw [contents_succ_some hg, Multiset.card_cons]
        omega
    | some e =>
      obtain ⟨d, hg⟩ := Option.ne_none_iff_exists'.mp
        (h n (Nat.lt_succ_self n) (by rw [hf]; exact Option.some_ne_none e))
      rw [contents_succ_some hf, contents_succ_some hg, Multiset.card_cons, Multiset.card_cons]
      omega

/-- With fewer entries than slots, a slot is free. -/
theorem exists_free (h : (contents n f).card < n) : ∃ i < n, f i = none := by
  by_contra hall
  push Not at hall
  have hfull : ∀ m ≤ n, (contents m f).card = m := by
    intro m hm
    induction m with
    | zero => rfl
    | succ m ih =>
      obtain ⟨e, he⟩ := Option.ne_none_iff_exists'.mp (hall m hm)
      rw [contents_succ_some he, Multiset.card_cons, ih (Nat.le_of_succ_le hm)]
  exact absurd (hfull n le_rfl) (Nat.ne_of_lt h)

end Contents

/-! ### The probe sequence -/

/-- `1 + 2 + ... + s`. -/
def triangle (s : ℕ) : ℕ := s * (s + 1) / 2

theorem triangle_succ (s : ℕ) : triangle (s + 1) = triangle s + (s + 1) := by
  have h : (s + 1) * (s + 1 + 1) = s * (s + 1) + (s + 1) * 2 := by ring
  rw [triangle, triangle, h, Nat.add_mul_div_right _ _ (by norm_num)]

theorem two_mul_triangle (s : ℕ) : 2 * triangle s = s * (s + 1) := by
  rw [triangle, Nat.mul_div_cancel' (Nat.even_mul_succ_self s).two_dvd]

/-- The `s`-th slot on the path that starts at `a`. -/
def probe (n a s : ℕ) : ℕ := (a + triangle s) % n

theorem probe_zero (n a : ℕ) : probe n a 0 = a % n := rfl

theorem probe_succ (n a s : ℕ) : probe n a (s + 1) = (probe n a s + (s + 1)) % n := by
  rw [probe, probe, triangle_succ, Nat.mod_add_mod, Nat.add_assoc]

theorem probe_lt {n : ℕ} (hn : 0 < n) (a s : ℕ) : probe n a s < n := Nat.mod_lt _ hn

/-- A power of two that divides `x y`, where one of them is odd, divides the other. -/
theorem two_pow_dvd_of_odd {b x y : ℕ} (h : 2 ^ b ∣ x * y) (hodd : Odd x ∨ Odd y) :
    2 ^ b ∣ x ∨ 2 ^ b ∣ y := by
  rcases hodd with hx | hy
  · exact Or.inr ((Nat.Coprime.pow_left b hx.coprime_two_left).dvd_of_dvd_mul_left h)
  · exact Or.inl ((Nat.Coprime.pow_left b hy.coprime_two_left).dvd_of_dvd_mul_right h)

/-- The first `2 ^ b` probes meet no slot twice. -/
theorem probe_ne {b a s t : ℕ} (hst : s < t) (ht : t < 2 ^ b) :
    probe (2 ^ b) a s ≠ probe (2 ^ b) a t := by
  intro h
  have hdvd : 2 ^ b ∣ triangle t - triangle s := by
    have hmod : triangle s ≡ triangle t [MOD 2 ^ b] := Nat.ModEq.add_left_cancel' a h
    exact (Nat.modEq_iff_dvd' (Nat.div_le_div_right (Nat.mul_le_mul hst.le (by omega)))).mp hmod
  -- twice the difference is (t - s)(t + s + 1), and one factor is odd
  obtain ⟨d, rfl⟩ := Nat.exists_eq_add_of_lt hst
  have hfac : 2 * (triangle (s + d + 1) - triangle s) = (d + 1) * (2 * s + d + 2) := by
    rw [Nat.mul_sub, two_mul_triangle, two_mul_triangle, Nat.sub_eq_iff_eq_add (by nlinarith)]
    ring
  have hpow : 2 ^ (b + 1) ∣ (d + 1) * (2 * s + d + 2) := by
    rw [← hfac, pow_succ, Nat.mul_comm]
    exact Nat.mul_dvd_mul_left 2 hdvd
  have hodd : Odd (d + 1) ∨ Odd (2 * s + d + 2) := by
    rcases Nat.even_or_odd d with hd | hd
    · exact Or.inl hd.add_one
    · exact Or.inr (by obtain ⟨c, rfl⟩ := hd; exact ⟨s + c + 1, by ring⟩)
  have hle : 2 ^ (b + 1) = 2 * 2 ^ b := by ring
  rcases two_pow_dvd_of_odd hpow hodd with h | h
  · have := Nat.le_of_dvd (Nat.succ_pos d) h
    omega
  · have := Nat.le_of_dvd (by omega) h
    omega

/-- They meet every slot. -/
theorem exists_probe {b : ℕ} (a : ℕ) {j : ℕ} (hj : j < 2 ^ b) :
    ∃ s < 2 ^ b, probe (2 ^ b) a s = j := by
  have hinj : Set.InjOn (probe (2 ^ b) a) (Finset.range (2 ^ b)) := by
    intro s hs t ht h
    rcases lt_trichotomy s t with hlt | heq | hgt
    · exact absurd h (probe_ne hlt (Finset.mem_range.mp ht))
    · exact heq
    · exact absurd h.symm (probe_ne hgt (Finset.mem_range.mp hs))
  have hmaps : Set.MapsTo (probe (2 ^ b) a) (Finset.range (2 ^ b)) (Finset.range (2 ^ b)) := by
    intro s _
    exact Finset.mem_coe.mpr (Finset.mem_range.mpr (probe_lt (Nat.two_pow_pos b) a s))
  obtain ⟨s, hs, hsj⟩ := Finset.surjOn_of_injOn_of_card_le _ hmaps hinj le_rfl
    (Finset.mem_coe.mpr (Finset.mem_range.mpr hj))
  exact ⟨s, Finset.mem_range.mp (Finset.mem_coe.mp hs), hsj⟩

/-- The first probe that meets a slot with `p`, where a slot has it. -/
theorem exists_first_probe {b : ℕ} (a : ℕ) {p : ℕ → Prop} (h : ∃ j < 2 ^ b, p j) :
    ∃ s < 2 ^ b, p (probe (2 ^ b) a s) ∧ ∀ t < s, ¬ p (probe (2 ^ b) a t) := by
  classical
  obtain ⟨j, hj, hp⟩ := h
  obtain ⟨s, hs, rfl⟩ := exists_probe a hj
  have hex : ∃ s, p (probe (2 ^ b) a s) := ⟨s, hp⟩
  exact ⟨Nat.find hex, (Nat.find_min' hex hp).trans_lt hs, Nat.find_spec hex, fun t ht =>
    Nat.find_min hex ht⟩

/-! ### Slots with deletion marks -/

/-- A slot that was never used, one whose entry was deleted, and one with an entry. -/
inductive Slot (α : Type u) where
  | empty
  | deleted
  | live (e : α)
  deriving DecidableEq

/-- The entry of a slot. -/
def Slot.entry : Slot α → Option α
  | .live e => some e
  | _ => none

/-- Whether a slot was ever used. -/
def Slot.used : Slot α → Option Unit
  | .empty => none
  | _ => some ()

@[simp] theorem Slot.entry_eq_some {s : Slot α} {e : α} : s.entry = some e ↔ s = .live e := by
  cases s <;> simp [Slot.entry]

@[simp] theorem Slot.used_eq_none {s : Slot α} : s.used = none ↔ s = .empty := by
  cases s <;> simp [Slot.used]

/-- Every entry stands on the path of its key, with no empty slot before it. -/
def OnPath (n : ℕ) (start : κ → ℕ) (key : α → κ) (slot : ℕ → Slot α) : Prop :=
  ∀ i < n, ∀ e, slot i = .live e →
    ∃ s < n, probe n (start (key e)) s = i ∧
      ∀ t < s, slot (probe n (start (key e)) t) ≠ .empty

section OnPath

variable {n : ℕ} {start : κ → ℕ} {key : α → κ} {slot : ℕ → Slot α}

/-- Using more slots disturbs no path. -/
theorem OnPath.mark (h : OnPath n start key slot) (i : ℕ) :
    OnPath n start key (Function.update slot i .deleted) := by
  intro j hj e he
  have hne : j ≠ i := by
    rintro rfl
    rw [Function.update_self] at he
    cases he
  rw [Function.update_of_ne hne] at he
  obtain ⟨s, hs, hprobe, hpath⟩ := h j hj e he
  refine ⟨s, hs, hprobe, fun t ht => ?_⟩
  rw [Function.update_apply]
  split
  · nofun
  · exact hpath t ht

/-- An entry put on the path of its key, behind used slots. -/
theorem OnPath.put (h : OnPath n start key slot) {e : α} {s : ℕ} (hs : s < n)
    (hpath : ∀ t < s, slot (probe n (start (key e)) t) ≠ .empty) :
    OnPath n start key (Function.update slot (probe n (start (key e)) s) (.live e)) := by
  have hused : ∀ j, slot j ≠ .empty →
      Function.update slot (probe n (start (key e)) s) (.live e) j ≠ .empty := by
    intro j hj
    rw [Function.update_apply]
    split
    · nofun
    · exact hj
  intro j hj d hd
  by_cases hne : j = probe n (start (key e)) s
  · rw [hne, Function.update_self] at hd
    cases hd
    exact ⟨s, hs, hne.symm, fun t ht => hused _ (hpath t ht)⟩
  · rw [Function.update_of_ne hne] at hd
    obtain ⟨t, ht, hprobe, hfree⟩ := h j hj d hd
    exact ⟨t, ht, hprobe, fun u hu => hused _ (hfree u hu)⟩

/-- A path that comes to an empty slot, and has not met the key before, is the path of a key that is
    not in the table. -/
theorem OnPath.absent (h : OnPath n start key slot) {k : κ} {s : ℕ}
    (hempty : slot (probe n (start k) s) = .empty)
    (hpath : ∀ t < s, ∀ e, slot (probe n (start k) t) = .live e → key e ≠ k) :
    ∀ i < n, ∀ e, slot i = .live e → key e ≠ k := by
  rintro i hi e he rfl
  obtain ⟨t, -, rfl, hused⟩ := h i hi e he
  rcases lt_trichotomy t s with hlt | rfl | hgt
  · exact hpath t hlt e he rfl
  · rw [hempty] at he
    cases he
  · exact hused s hgt hempty

end OnPath

end Schemes.Probing
