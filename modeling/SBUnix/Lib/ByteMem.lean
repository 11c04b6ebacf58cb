import Mathlib

/-
  Byte-addressed memory with little-endian 64-bit words.

  `Mem` is a total function from addresses to bytes. `readWord` and `writeWord` are the
  unaligned eight-byte accesses; `readWord_writeWord_of_disjoint`, `readWord_writeByte_of_outside`
  and the lemmas on `fill` are the facts a client needs to reason about words and bytes of one
  memory together.
-/

namespace ByteMem

abbrev Byte := BitVec 8

/-- A memory: one byte at every address. -/
abbrev Mem := Nat → Byte

def writeByte (m : Mem) (a : Nat) (b : Byte) : Mem := fun x => if x = a then b else m x

/-- The little-endian word in the eight bytes from `a`. -/
def readWord (m : Mem) (a : Nat) : BitVec 64 :=
  m (a + 7) ++ m (a + 6) ++ m (a + 5) ++ m (a + 4) ++ m (a + 3) ++ m (a + 2) ++ m (a + 1) ++ m a

/-- Store the eight bytes of `w` from `a` on, least significant byte first. -/
def writeWord (m : Mem) (a : Nat) (w : BitVec 64) : Mem :=
  fun x => if a ≤ x ∧ x < a + 8 then w.extractLsb' (8 * (x - a)) 8 else m x

/-- The `n` bytes from `a` set to `b`. -/
def fill (m : Mem) (a n : Nat) (b : Byte) : Mem := fun x => if a ≤ x ∧ x < a + n then b else m x

/-! ## Bytes -/

@[simp] theorem writeByte_same (m : Mem) (a : Nat) (b : Byte) : writeByte m a b a = b := by
  simp [writeByte]

theorem writeByte_of_ne (m : Mem) {a x : Nat} (b : Byte) (h : x ≠ a) :
    writeByte m a b x = m x := by
  simp [writeByte, h]

theorem writeWord_of_lt (m : Mem) {a x : Nat} (w : BitVec 64) (h : x < a) :
    writeWord m a w x = m x := by
  rw [writeWord, if_neg (by omega)]

theorem writeWord_of_ge (m : Mem) {a x : Nat} (w : BitVec 64) (h : a + 8 ≤ x) :
    writeWord m a w x = m x := by
  rw [writeWord, if_neg (by omega)]

/-! ## Words -/

theorem getLsbD_readWord (m : Mem) (a i : Nat) (hi : i < 64) :
    (readWord m a).getLsbD i = (m (a + i / 8)).getLsbD (i % 8) := by
  have h : i / 8 = 0 ∨ i / 8 = 1 ∨ i / 8 = 2 ∨ i / 8 = 3 ∨ i / 8 = 4 ∨ i / 8 = 5 ∨ i / 8 = 6 ∨
    i / 8 = 7 := by omega
  simp only [readWord, BitVec.getLsbD_append]
  rcases h with h | h | h | h | h | h | h | h <;> rw [h] <;> grind

/-- A word only depends on its eight bytes. -/
theorem readWord_congr {m m' : Mem} {a : Nat} (h : ∀ k < 8, m (a + k) = m' (a + k)) :
    readWord m a = readWord m' a := by
  apply BitVec.eq_of_getLsbD_eq
  intro i hi
  rw [getLsbD_readWord m a i hi, getLsbD_readWord m' a i hi, h _ (by omega)]

@[simp] theorem readWord_writeWord_same (m : Mem) (a : Nat) (w : BitVec 64) :
    readWord (writeWord m a w) a = w := by
  apply BitVec.eq_of_getLsbD_eq
  intro i hi
  rw [getLsbD_readWord _ _ _ hi, writeWord, if_pos (by omega), BitVec.getLsbD_extractLsb']
  rw [show a + i / 8 - a = i / 8 by omega, show 8 * (i / 8) + i % 8 = i by omega]
  simp [Nat.mod_lt]

theorem readWord_writeWord_of_disjoint (m : Mem) {a b : Nat} (w : BitVec 64)
    (h : a + 8 ≤ b ∨ b + 8 ≤ a) : readWord (writeWord m a w) b = readWord m b := by
  apply readWord_congr
  intro k hk
  rcases h with h | h
  · exact writeWord_of_ge m w (by omega)
  · exact writeWord_of_lt m w (by omega)

theorem readWord_writeByte_of_outside (m : Mem) {a x : Nat} (b : Byte)
    (h : x < a ∨ a + 8 ≤ x) : readWord (writeByte m x b) a = readWord m a := by
  apply readWord_congr
  intro k hk
  exact writeByte_of_ne m b (by omega)

theorem readWord_eq_zero (m : Mem) (a : Nat) : readWord m a = 0 ↔ ∀ k < 8, m (a + k) = 0 := by
  constructor
  · intro h k hk
    apply BitVec.eq_of_getLsbD_eq
    intro i hi
    have hb := getLsbD_readWord m a (8 * k + i) (by omega)
    rw [h, show (8 * k + i) / 8 = k by omega, show (8 * k + i) % 8 = i by omega] at hb
    simpa using hb.symm
  · intro h
    apply BitVec.eq_of_getLsbD_eq
    intro i hi
    rw [getLsbD_readWord m a i hi, h _ (by omega)]
    simp

/-! ## Ranges -/

theorem fill_of_outside (m : Mem) {a n x : Nat} (b : Byte) (h : x < a ∨ a + n ≤ x) :
    fill m a n b x = m x := by
  rw [fill, if_neg (by omega)]

theorem fill_of_inside (m : Mem) {a n x : Nat} (b : Byte) (h : a ≤ x ∧ x < a + n) :
    fill m a n b x = b := by
  rw [fill, if_pos h]

theorem readWord_fill_of_disjoint (m : Mem) {a n p : Nat} (b : Byte)
    (h : p + 8 ≤ a ∨ a + n ≤ p) : readWord (fill m a n b) p = readWord m p := by
  apply readWord_congr
  intro k hk
  exact fill_of_outside m b (by omega)

theorem readWord_fill_zero (m : Mem) {a n p : Nat} (h : a ≤ p ∧ p + 8 ≤ a + n) :
    readWord (fill m a n 0) p = 0 := by
  rw [readWord_eq_zero]
  intro k hk
  exact fill_of_inside m 0 (by omega)

/-- Filling with zeros leaves an aligned word as it is or makes it zero. -/
theorem readWord_fill_aligned (m : Mem) {a n p : Nat} (ha : a % 8 = 0) (hn : n % 8 = 0)
    (hp : p % 8 = 0) :
    readWord (fill m a n 0) p = if a ≤ p ∧ p < a + n then 0 else readWord m p := by
  split_ifs with h
  · exact readWord_fill_zero m (by omega)
  · exact readWord_fill_of_disjoint m 0 (by omega)

end ByteMem
