import SBUnix.Strings.Model

/-
  `strrev`.

  The loop exchanges the ends of a window and moves inwards, for every length and parity
  (`strrevLoop_reversed`). The window begins at the first character and ends at `str[strlen(str)]`,
  which is the NUL: it comes to the front, and what is left is the empty string
  (`empty_of_reversed`). So only the empty string is reversed (`reverses_iff`).
-/

namespace SBUnix.Strings

open ByteMem CString

/-- After `strrev` the string is reversed, and after another one it is as before. -/
def Reverses (m : Memory) (str : Word) (s : List Byte) : Prop :=
  ∃ r m', strrev m str = some (r, m') ∧ StringAt m' str s.reverse ∧
    ∃ r' m'', strrev m' str = some (r', m'') ∧ StringAt m'' str s

section Reverse

variable {m m' : Memory} {str : Word} {s : List Byte} {i j : Nat}

theorem strrevLoop_reversed (hj : j < 2 ^ 64) : Reversed m (strrevLoop str i j m) str i j := by
  induction j generalizing i m with
  | zero =>
    rw [strrevLoop]
    exact Reversed.refl (Nat.zero_le i)
  | succ j ih =>
    rw [strrevLoop]
    split_ifs with hij
    · exact Reversed.exchange hij hj (ih (by omega))
    · exact Reversed.refl (by omega)

/-- `strrev` reverses the string together with its NUL. -/
theorem strrev_reversed (h : StringAt m str s) (hlen : s.length < intMax) :
    ∃ m', strrev m str = some (1, m') ∧ Reversed m m' str 0 s.length := by
  refine ⟨strrevLoop str 0 s.length m, ?_, strrevLoop_reversed h.length_lt⟩
  unfold strrev
  rw [strlen_of_lt h hlen]
  rfl

/-- A string without a length is not reversed. -/
theorem strrev_long (h : StringAt m str s) (hlen : intMax ≤ s.length) : strrev m str = none := by
  unfold strrev
  rw [strlen_of_ge h hlen]
  rfl

/-- With the NUL in front the string is empty. -/
theorem empty_of_reversed (h : StringAt m str s) (hr : Reversed m m' str 0 s.length) :
    StringAt m' str [] := by
  rw [stringAt_nil, hr.inside 0 le_rfl (Nat.zero_le _), Nat.zero_add, Nat.sub_zero]
  exact h.nul

theorem Reverses.eq_nil (h : StringAt m str s) (hrev : Reverses m str s) : s = [] := by
  obtain ⟨r, m', hrun, hstring, -⟩ := hrev
  by_cases hlen : s.length < intMax
  · obtain ⟨m₁, hrun₁, hr⟩ := strrev_reversed h hlen
    obtain ⟨-, rfl⟩ := Prod.mk.inj (Option.some.inj (hrun.symm.trans hrun₁))
    exact List.reverse_eq_nil_iff.mp (hstring.unique (empty_of_reversed h hr))
  · rw [strrev_long h (by omega)] at hrun
    cases hrun

/-- The empty string has nothing to exchange. -/
theorem strrev_nil (h : StringAt m str []) : strrev m str = some (1, m) := by
  unfold strrev
  rw [strlen_of_lt h (by decide)]
  rfl

end Reverse

/-- `strrev` reverses a string, and gives it back when it is called again, only when there is
    nothing to reverse. -/
theorem reverses_iff (m : Memory) (str : Word) (s : List Byte) (h : StringAt m str s) :
    Reverses m str s ↔ s = [] := by
  constructor
  · exact Reverses.eq_nil h
  · rintro rfl
    exact ⟨1, m, strrev_nil h, h, 1, m, strrev_nil h, h⟩

theorem reverses_empty : Reverses (fun _ => 0) 0 [] :=
  (reverses_iff _ 0 [] (stringAt_nil.mpr rfl)).mpr rfl

/-- After `strrev` of `"a"` the NUL is in front. -/
theorem not_reverses : StringAt (twoStrings [0x61] []) 0 [0x61] ∧
    ¬ Reverses (twoStrings [0x61] []) 0 [0x61] := by
  have hstring : StringAt (twoStrings [0x61] []) 0 [0x61] :=
    stringAt_first (by decide) (by decide) []
  refine ⟨hstring, fun hrev => ?_⟩
  exact absurd (hrev.eq_nil hstring) (by decide)

end SBUnix.Strings
