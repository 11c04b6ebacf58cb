import SBUnix.Lib.ByteMem
import SBUnix.Lib.CString
import SBUnix.Paging.Defs

/-
  `strlen`, `strrev` and `strcmp` of `sys/string.c` and `libc/string.c`, which are the same text.

  Characters are read and written where they lie. A length and an index are an `int`: `none` is an
  increment behind the largest one, which C gives no meaning. `strlen` returns the length of every
  string that an `int` can count (`strlen_eq`).
-/

namespace SBUnix.Strings

open ByteMem CString

/-- Memory, by address. -/
abbrev Memory := Word → Byte

/-- The largest `int`. -/
def intMax : Nat := 2 ^ 31 - 1

/-- The loop of `strlen`, with a `len` that can be incremented `n` times. -/
def strlenLoop (m : Memory) (str : Word) : Nat → Nat → Option Nat
  | 0, _ => none
  | n + 1, len => if m (cell str len) ≠ 0 then strlenLoop m str n (len + 1) else some (len + 1 - 1)

def strlen (m : Memory) (str : Word) : Option Nat := strlenLoop m str intMax 0

/-- The loop of `strrev`, which is left for certain when `j` is 0. -/
def strrevLoop (str : Word) : Nat → Nat → Memory → Memory
  | _, 0, m => m
  | i, j + 1, m =>
    if i < j + 1 then
      let ch := m (cell str i)
      let m := Function.update m (cell str i) (m (cell str (j + 1)))
      let m := Function.update m (cell str (j + 1)) ch
      strrevLoop str (i + 1) j m
    else m

/-- Returns 1. -/
def strrev (m : Memory) (str : Word) : Option (Int × Memory) := do
  let j ← strlen m str
  return (1, strrevLoop str 0 j m)

/-- The loop of `strcmp`: the index where it stops. Its condition is checked at most `n` times. -/
def strcmpLoop (m : Memory) (str1 str2 : Word) : Nat → Nat → Option Nat
  | 0, _ => none
  | n + 1, i =>
    if m (cell str1 i) ≠ 0 ∧ m (cell str1 i) = m (cell str2 i) then strcmpLoop m str1 str2 n (i + 1)
    else some i

/-- A `char` is signed. -/
def strcmp (m : Memory) (str1 str2 : Word) : Option Int := do
  let len1 ← strlen m str1
  let len2 ← strlen m str2
  if len1 > len2 then return 1
  else if len1 < len2 then return -1
  else
    let i ← strcmpLoop m str1 str2 (intMax + 1) 0
    if m (cell str1 i) = 0 then return 0
    else if (m (cell str1 i)).toInt > (m (cell str2 i)).toInt then return 1
    else return -1

/-! ## `strlen` -/

section Length

variable {m : Memory} {p : Word} {s : List Byte} {n len : Nat}

theorem strlenLoop_eq (h : StringAt m p s) (hlen : len ≤ s.length) :
    strlenLoop m p n len = if s.length < n + len then some s.length else none := by
  induction n generalizing len with
  | zero => rw [strlenLoop, if_neg (by omega)]
  | succ n ih =>
    rw [strlenLoop]
    by_cases hend : len = s.length
    · rw [if_neg (not_not.mpr ((h.char_eq_zero_iff hlen).mpr hend)), if_pos (by omega), hend]
      rfl
    · rw [if_pos (mt (h.char_eq_zero_iff hlen).mp hend), ih (by omega),
        show n + (len + 1) = n + 1 + len by omega]

/-- `strlen` of a string, unless it is longer than an `int` can count. -/
theorem strlen_eq (h : StringAt m p s) :
    strlen m p = if s.length < intMax then some s.length else none :=
  strlenLoop_eq h (Nat.zero_le _)

theorem strlen_of_lt (h : StringAt m p s) (hlen : s.length < intMax) :
    strlen m p = some s.length := by
  rw [strlen_eq h, if_pos hlen]

theorem strlen_of_ge (h : StringAt m p s) (hlen : intMax ≤ s.length) : strlen m p = none := by
  rw [strlen_eq h, if_neg (Nat.not_lt.mpr hlen)]

end Length

/-! ## Two strings in memory -/

/-- `s` from address 0 on, and `t` from the middle of memory on. -/
def twoStrings (s t : List Byte) : Memory := fun a =>
  if a.toNat < 2 ^ 63 then s.getD a.toNat 0 else t.getD (a.toNat - 2 ^ 63) 0

/-- The middle of memory. -/
def middle : Word := 0x8000000000000000#64

theorem stringAt_first {s : List Byte} (hs : 0 ∉ s) (hlen : s.length < 2 ^ 63) (t : List Byte) :
    StringAt (twoStrings s t) 0 s := by
  have hcell : ∀ i ≤ s.length, twoStrings s t (cell 0 i) = s.getD i 0 := by
    intro i hi
    have hnat : (cell (0 : Word) i).toNat = i := by
      unfold cell
      rw [zero_add, BitVec.toNat_ofNat]
      omega
    unfold twoStrings
    rw [hnat, if_pos (by omega)]
  refine ⟨hs, fun i hi => ?_, ?_⟩
  · rw [hcell i hi.le, List.getD_eq_getElem _ _ hi]
  · rw [hcell _ le_rfl, List.getD_eq_default _ _ le_rfl]

theorem stringAt_second (s : List Byte) {t : List Byte} (ht : 0 ∉ t) (hlen : t.length < 2 ^ 63) :
    StringAt (twoStrings s t) middle t := by
  have hcell : ∀ i ≤ t.length, twoStrings s t (cell middle i) = t.getD i 0 := by
    intro i hi
    have hnat : (cell middle i).toNat = 2 ^ 63 + i := by
      unfold cell
      rw [BitVec.toNat_add, BitVec.toNat_ofNat, show middle.toNat = 2 ^ 63 from rfl]
      omega
    unfold twoStrings
    rw [hnat, if_neg (by omega), Nat.add_sub_cancel_left]
  refine ⟨ht, fun i hi => ?_, ?_⟩
  · rw [hcell i hi.le, List.getD_eq_getElem _ _ hi]
  · rw [hcell _ le_rfl, List.getD_eq_default _ _ le_rfl]

end SBUnix.Strings
