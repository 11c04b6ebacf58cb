import SBUnix.Strings.Model
import SBUnix.Tarfs.Table

/-
  `strcmp`.

  On strings whose lengths an `int` can count it is the comparison of the file system's model
  (`strcmp_eq`), which compares the lengths first. So it is 0 for equal strings only, but it orders
  them by their length, and strings of one length by the first character that differs, which is
  signed (`strcmp_orders`). The C standard has the characters first, and unsigned.
-/

namespace SBUnix.Strings

open ByteMem CString

/-- `strcmp` returns, and its result has the sign of the order `less`. -/
def Orders (less : List Byte → List Byte → Prop) (m : Memory) (str1 str2 : Word)
    (s t : List Byte) : Prop :=
  ∃ r, strcmp m str1 str2 = some r ∧ (r = 0 ↔ s = t) ∧ (r < 0 ↔ less s t) ∧ (0 < r ↔ less t s)

/-- The order of the C standard: the first character that differs decides, as an unsigned one, and
    the NUL comes before all others. -/
def StandardLess : List Byte → List Byte → Prop := List.Lex fun a b => a.toNat < b.toNat

/-- The order of a plain `char`. -/
def CharLess (a b : Byte) : Prop := a.toInt < b.toInt

theorem charLess_iff {a b : Byte} : CharLess a b ↔ a.toInt < b.toInt := Iff.rfl

section Compare

variable {m : Memory} {p q : Word} {s t : List Byte} {i n : Nat}

/-- What `strcmp` returns when its loop stops at `i`. -/
def verdict (m : Memory) (p q : Word) (i : Nat) : Int :=
  if m (cell p i) = 0 then 0 else if (m (cell p i)).toInt > (m (cell q i)).toInt then 1 else -1

/-- The loop from `i` on is the comparison of what is left. -/
theorem strcmpLoop_eq (hs : StringAt m p s) (ht : StringAt m q t) (hlen : s.length = t.length)
    (hi : i ≤ s.length) (hn : s.length < n + i) :
    ∃ k, strcmpLoop m p q n i = some k ∧
      verdict m p q k = Vfs.strcmpLoop (s.drop i) (t.drop i) := by
  induction n generalizing i with
  | zero => omega
  | succ n ih =>
    rw [strcmpLoop]
    by_cases hend : i = s.length
    · have hnul := (hs.char_eq_zero_iff hi).mpr hend
      refine ⟨i, if_neg fun hc => hc.1 hnul, ?_⟩
      rw [verdict, if_pos hnul, List.drop_of_length_le hend.ge]
      rfl
    · have hs' : i < s.length := by omega
      have ht' : i < t.length := by omega
      have hchar := hs.char_ne hs'
      rw [List.drop_eq_getElem_cons hs', List.drop_eq_getElem_cons ht', Vfs.strcmpLoop]
      by_cases hsame : s[i] = t[i]
      · rw [if_pos ⟨hchar, by rw [hs.char i hs', ht.char i ht', hsame]⟩, if_pos hsame]
        exact ih (by omega) (by omega)
      · refine ⟨i, if_neg fun hc => hsame ?_, ?_⟩
        · rw [← hs.char i hs', ← ht.char i ht', hc.2]
        · rw [verdict, if_neg hchar, if_neg hsame, hs.char i hs', ht.char i ht']

/-- `strcmp` in memory is the comparison of the two strings. -/
theorem strcmp_eq (hs : StringAt m p s) (ht : StringAt m q t) (hslen : s.length < intMax)
    (htlen : t.length < intMax) : strcmp m p q = some (Vfs.strcmp s t) := by
  unfold strcmp Vfs.strcmp
  rw [strlen_of_lt hs hslen, strlen_of_lt ht htlen]
  dsimp only [Option.bind_eq_bind, Option.bind_some]
  split_ifs with hgt hlt
  · rfl
  · rfl
  · obtain ⟨k, hk, hverdict⟩ := strcmpLoop_eq (n := intMax + 1) hs ht (by omega) (Nat.zero_le _)
      (by omega)
    rw [List.drop_zero, List.drop_zero] at hverdict
    rw [hk, Option.bind_some, ← hverdict]
    unfold verdict
    split_ifs <;> rfl

/-- A string that is too long for an `int` is not compared. -/
theorem strcmp_long (hs : StringAt m p s) (hlen : intMax ≤ s.length) (q : Word) :
    strcmp m p q = none := by
  unfold strcmp
  rw [strlen_of_ge hs hlen]
  rfl

/-! ## The sign -/

theorem toInt_lt_or_gt {a b : Byte} (h : a ≠ b) : a.toInt < b.toInt ∨ b.toInt < a.toInt :=
  lt_or_gt_of_ne fun heq => h (BitVec.eq_of_toInt_eq heq)

theorem strcmpLoop_sign (hlen : s.length = t.length) :
    (Vfs.strcmpLoop s t < 0 ↔ List.Lex CharLess s t) ∧
      (0 < Vfs.strcmpLoop s t ↔ List.Lex CharLess t s) := by
  induction s generalizing t with
  | nil =>
    obtain rfl := List.length_eq_zero_iff.mp hlen.symm
    simp [Vfs.strcmpLoop]
  | cons a s ih =>
    cases t with
    | nil => exact absurd hlen (Nat.succ_ne_zero _)
    | cons b t =>
      rw [Vfs.strcmpLoop, List.cons_lex_cons_iff, List.cons_lex_cons_iff, charLess_iff,
        charLess_iff]
      split_ifs with hab hgt
      · obtain ⟨hneg, hpos⟩ := ih (Nat.succ.inj hlen)
        simp [hab, hneg, hpos]
      · simp [hab, Ne.symm hab, hgt, hgt.le]
      · have hlt := (toInt_lt_or_gt hab).resolve_right hgt
        simp [hab, Ne.symm hab, hlt, hlt.le]

/-- The sign of the comparison: the length comes first. -/
theorem strcmp_sign (s t : List Byte) :
    (Vfs.strcmp s t < 0 ↔ List.Shortlex CharLess s t) ∧
      (0 < Vfs.strcmp s t ↔ List.Shortlex CharLess t s) := by
  rw [List.shortlex_def, List.shortlex_def]
  unfold Vfs.strcmp
  split_ifs with hgt hlt
  · simp [hgt, hgt.ne', hgt.le]
  · simp [hlt, hlt.ne', hlt.le]
  · have hlen : s.length = t.length := by omega
    obtain ⟨hneg, hpos⟩ := strcmpLoop_sign hlen
    simp [hlen, hneg, hpos]

end Compare

/-- `strcmp` is 0 for equal strings only. Else the shorter one is the smaller, and of two strings
    of one length the one whose first character that differs is the smaller `char`. -/
theorem strcmp_orders (m : Memory) (str1 str2 : Word) (s t : List Byte) (hs : StringAt m str1 s)
    (ht : StringAt m str2 t) (hslen : s.length < intMax) (htlen : t.length < intMax) :
    Orders (List.Shortlex CharLess) m str1 str2 s t :=
  ⟨Vfs.strcmp s t, strcmp_eq hs ht hslen htlen, Vfs.strcmp_eq_zero, strcmp_sign s t⟩

/-- `"b"` is smaller than `"aa"`. -/
theorem strcmp_orders_short :
    Orders (List.Shortlex CharLess) (twoStrings [0x62] [0x61, 0x61]) 0 middle [0x62] [0x61, 0x61] :=
  strcmp_orders _ 0 middle _ _ (stringAt_first (by decide) (by decide) _)
    (stringAt_second _ (by decide) (by decide)) (by decide) (by decide)

/-- The standard has `"aa"` before `"b"`, and `"\x01"` before `"\x80"`, and compares strings that an
    `int` cannot count. -/
theorem not_standard :
    (∃ m p q, StringAt m p [0x62] ∧ StringAt m q [0x61, 0x61] ∧
      ¬ Orders StandardLess m p q [0x62] [0x61, 0x61]) ∧
    (∃ m p q, StringAt m p [0x80] ∧ StringAt m q [0x01] ∧
      ¬ Orders StandardLess m p q [0x80] [0x01]) ∧
    ∃ m p q s, StringAt m p s ∧ StringAt m q [] ∧ ¬ Orders StandardLess m p q s [] := by
  -- the result, and the order that it does not have
  have hfails : ∀ {s t : List Byte}, 0 ∉ s → 0 ∉ t → s.length < intMax → t.length < intMax →
      Vfs.strcmp s t < 0 → StandardLess t s → ∃ m p q, StringAt m p s ∧ StringAt m q t ∧
        ¬ Orders StandardLess m p q s t := by
    intro s t hs ht hslen htlen hneg hless
    unfold intMax at hslen htlen
    have hs' := stringAt_first hs (by omega) t
    have ht' := stringAt_second s ht (by omega)
    refine ⟨_, 0, middle, hs', ht', ?_⟩
    rintro ⟨r, hrun, -, -, hpos⟩
    rw [strcmp_eq hs' ht' hslen htlen] at hrun
    obtain rfl := Option.some.inj hrun
    exact absurd (hpos.mpr hless) (by omega)
  refine ⟨hfails (by decide) (by decide) (by decide) (by decide) (by decide) (.rel (by decide)),
    hfails (by decide) (by decide) (by decide) (by decide) (by decide) (.rel (by decide)), ?_⟩
  have hs : StringAt (twoStrings (List.replicate intMax 0x61) []) 0
      (List.replicate intMax 0x61) := by
    refine stringAt_first (fun h => absurd (List.eq_of_mem_replicate h) (by decide)) ?_ []
    rw [List.length_replicate]
    decide
  refine ⟨_, 0, middle, _, hs, stringAt_second _ (by decide) (by decide), ?_⟩
  rintro ⟨r, hrun, -⟩
  rw [strcmp_long hs (by rw [List.length_replicate])] at hrun
  cases hrun

end SBUnix.Strings
