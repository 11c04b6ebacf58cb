import Mathlib

/-
  NUL-terminated strings in an addressed memory, and reversal in place.

  Addresses wrap. `StringAt m p s` says that the characters `s` lie at `p`, with a NUL behind them
  and none among them; a memory holds one string at most at an address (`StringAt.unique`).
  `Reversed m m' p i j` says that cells `i` to `j` of the array at `p` were reversed. Exchanging
  the two ends of a window and reversing what is between them reverses it (`Reversed.exchange`).
-/

namespace CString

variable {w : Nat} {α : Type*}

/-- Cell `k` of the array at `p`. -/
def cell (p : BitVec w) (k : Nat) : BitVec w := p + BitVec.ofNat w k

theorem cell_inj {p : BitVec w} {j k : Nat} (hj : j < 2 ^ w) (hk : k < 2 ^ w)
    (h : cell p j = cell p k) : j = k := by
  have hnat := congrArg BitVec.toNat (add_left_cancel h)
  rwa [BitVec.toNat_ofNat, BitVec.toNat_ofNat, Nat.mod_eq_of_lt hj, Nat.mod_eq_of_lt hk] at hnat

theorem cell_add_size (p : BitVec w) (k : Nat) : cell p (k + 2 ^ w) = cell p k := by
  unfold cell
  congr 1
  apply BitVec.eq_of_toNat_eq
  rw [BitVec.toNat_ofNat, BitVec.toNat_ofNat, Nat.add_mod_right]

/-! ## Strings -/

/-- The characters `s` lie at `p`, and then a NUL. -/
structure StringAt [Zero α] (m : BitVec w → α) (p : BitVec w) (s : List α) : Prop where
  noNul : 0 ∉ s
  char : ∀ i (hi : i < s.length), m (cell p i) = s[i]
  nul : m (cell p s.length) = 0

section StringAt

variable [Zero α] {m : BitVec w → α} {p : BitVec w} {s t : List α} {i : Nat}

theorem StringAt.char_ne (h : StringAt m p s) (hi : i < s.length) : m (cell p i) ≠ 0 := by
  intro hzero
  rw [h.char i hi] at hzero
  exact h.noNul (hzero ▸ List.getElem_mem hi)

theorem StringAt.char_eq_zero_iff (h : StringAt m p s) (hi : i ≤ s.length) :
    m (cell p i) = 0 ↔ i = s.length := by
  constructor
  · intro hzero
    by_contra hne
    exact h.char_ne (by omega) hzero
  · rintro rfl
    exact h.nul

/-- A string does not go round memory: it would come upon its own characters before a NUL. -/
theorem StringAt.length_lt (h : StringAt m p s) : s.length < 2 ^ w := by
  by_contra hge
  have hpos : 0 < 2 ^ w := by positivity
  obtain ⟨k, hk⟩ := Nat.exists_eq_add_of_le' (Nat.le_of_not_lt hge)
  have hnul := h.nul
  rw [hk, cell_add_size] at hnul
  exact h.char_ne (by omega) hnul

/-- One of two strings at an address is not longer than the other. -/
theorem StringAt.length_le (hs : StringAt m p s) (ht : StringAt m p t) : s.length ≤ t.length := by
  by_contra hlt
  exact hs.char_ne (by omega) ht.nul

theorem StringAt.unique (hs : StringAt m p s) (ht : StringAt m p t) : s = t := by
  refine List.ext_getElem (le_antisymm (hs.length_le ht) (ht.length_le hs)) fun i hi hi' => ?_
  rw [← hs.char i hi, ← ht.char i hi']

theorem stringAt_nil : StringAt m p [] ↔ m (cell p 0) = 0 :=
  ⟨fun h => h.nul, fun h => ⟨by simp, by simp, h⟩⟩

end StringAt

/-! ## Reversal in place -/

/-- `m'` is `m` with the cells `i` to `j` in reverse order. -/
structure Reversed (m m' : BitVec w → α) (p : BitVec w) (i j : Nat) : Prop where
  inside : ∀ k, i ≤ k → k ≤ j → m' (cell p k) = m (cell p (i + j - k))
  outside : ∀ a, (∀ k, i ≤ k → k ≤ j → a ≠ cell p k) → m' a = m a

section Reversed

variable {m m' : BitVec w → α} {p : BitVec w} {i j : Nat}

/-- A window of one cell, or of none. -/
theorem Reversed.refl (h : j ≤ i) : Reversed m m p i j where
  inside k hi hj := by rw [show i + j - k = k by omega]
  outside _ _ := rfl

/-- The two ends are exchanged, and the cells between them reversed. -/
theorem Reversed.exchange (hij : i < j) (hj : j < 2 ^ w)
    (h : Reversed (Function.update (Function.update m (cell p i) (m (cell p j))) (cell p j)
      (m (cell p i))) m' p (i + 1) (j - 1)) : Reversed m m' p i j := by
  have hne : ∀ {k l : Nat}, k ≤ j → l ≤ j → k ≠ l → cell p k ≠ cell p l := fun hk hl hkl hcell =>
    hkl (cell_inj (by omega) (by omega) hcell)
  constructor
  · intro k hik hkj
    obtain rfl | hik := Nat.eq_or_lt_of_le hik
    · rw [h.outside _ fun l hl hl' => hne hkj (by omega) (by omega),
        Function.update_of_ne (hne hkj le_rfl (by omega)), Function.update_self,
        Nat.add_sub_cancel_left]
    · obtain rfl | hkj := Nat.eq_or_lt_of_le hkj
      · rw [h.outside _ fun l hl hl' => hne le_rfl (by omega) (by omega), Function.update_self,
          Nat.add_sub_cancel]
      · rw [h.inside k hik (by omega), show i + 1 + (j - 1) - k = i + j - k by omega,
          Function.update_of_ne (hne (by omega) le_rfl (by omega)),
          Function.update_of_ne (hne (by omega) (by omega) (by omega))]
  · intro a ha
    rw [h.outside a fun k hk hk' => ha k (by omega) (by omega),
      Function.update_of_ne (ha j (by omega) le_rfl), Function.update_of_ne (ha i le_rfl (by omega))]

end Reversed

end CString
