import SBUnix.Tarfs.Archive

/-
  Octal numbers (`sys/math.c`).

  `oct2bin` gathers the digits in an `int`, which is then widened to 64 bits: a size comes out right
  exactly below 2 GiB (`sizeDecoded_iff`). The two other decoders never go on to the next digit.
  `octalStringToDecimal` ends with a product by `power(8, -1)`, which is 0, so the three agree on
  zero only (`octalAgree_iff`).
-/

namespace SBUnix.Vfs

open ByteMem

/-! ## `open_tarfs` -/

/-- `struct file`. -/
structure File where
  fileCount : Word
  flag : Word
  fileOffset : Word
  fileSize : Word
  fileError : BitVec 32
  data : Word

/-- `READONLY`. -/
def readonly : Word := 0

/-- `open_tarfs`, with the memory that `kmalloc` returned. -/
def openTarfs (m : Memory) (p file_pointer : Word) : Option File :=
  if file_pointer = 0 then none
  else some {
    data := p
    fileSize := (oct2bin m 11 (p + 124) 0).signExtend 64
    fileOffset := p + sizeofHeader
    fileError := 0
    flag := readonly
    fileCount := 1 }

/-! ## `math.c` -/

/-- The loop of `power`, for `n` rounds. -/
def powerLoop (base : Word) : Nat → Word → Word
  | 0, answer => answer
  | n + 1, answer => powerLoop base n (answer * base)

/-- `power`: `while(--pow)` makes `pow - 1` rounds. -/
def power (base pow : Word) : Word :=
  if pow = 0 then 1 else powerLoop base (pow.toNat - 1) base

/-- `*num >= '0' && *num <= '9'`. -/
def IsDigit (b : Byte) : Prop := 48 ≤ b.toInt ∧ b.toInt ≤ 57

instance (b : Byte) : Decidable (IsDigit b) := inferInstanceAs (Decidable (_ ∧ _))

/-- The loop of `octalToBinary`. `num` stays where it is. -/
def octalToBinaryLoop (m : Memory) (num : Word) (counter : Nat) (answer : BitVec 32) : BitVec 32 :=
  if IsDigit (m num) ∧ counter < 11 then
    octalToBinaryLoop m num (counter + 1) (answer * 8 + ((m num).setWidth 32 - 48))
  else answer
termination_by 11 - counter

def octalToBinary (m : Memory) (num : Word) : BitVec 32 := octalToBinaryLoop m num 0 0

/-- The loop of `octalStringToDecimal`. `num` stays where it is, and the last round is the one with
    `counter - 1 = -1`. -/
def octalStringToDecimalLoop (m : Memory) (num : Word) (counter t : Nat) (answer : Word) : Word :=
  if IsDigit (m num) ∧ counter ≠ 0 ∧ t < 11 then
    octalStringToDecimalLoop m num (counter - 1) (t + 1)
      (((m num).setWidth 64 - 48) * power 8 (BitVec.ofInt 64 ((counter - 1 : Nat) - 1)))
  else answer
termination_by counter

/-- Where `num` starts with a digit, the `power(8, -1)` of the last round makes some `2^64`
    multiplications: the value is what they come to, but in practice the function does not
    return. -/
def octalStringToDecimal (m : Memory) (num : Word) : Word := octalStringToDecimalLoop m num 11 0 0

/-! ## Sizes -/

/-- `p` is a header with the size field of `n`. -/
def SizeField (m : Memory) (p : Word) (n : Nat) : Prop :=
  ∀ i < 11, m (p + 124 + BitVec.ofNat 64 i) = octalDigit n i

/-- A size field of `n` is decoded to `n`, in `tarfs_init` and in `open_tarfs`. -/
def SizeDecoded (n : Nat) : Prop :=
  ∀ m p, SizeField m p n → (fileSize m p).toNat = n ∧
    ∀ file_pointer f, openTarfs m p file_pointer = some f → f.fileSize.toNat = n

section Octal

variable {m : Memory} {p num : Word} {n : Nat}

/-- Eleven digits, in the `int`. -/
theorem oct2bin_digits (hn : n < 8 ^ 11) (h : ∀ i < 11, m (p + BitVec.ofNat 64 i) = octalDigit n i) :
    oct2bin m 11 p 0 = BitVec.ofNat 32 n := by
  have hdigits : ∀ i < 11, archiveByte m p (0 + i) = octalDigit n i := by
    intro i hi
    rw [Nat.zero_add]
    exact h i hi
  have hoct := oct2bin_archive hdigits 11 le_rfl
  have hzero : n / 8 ^ 11 = 0 := Nat.div_eq_of_lt hn
  rw [hzero, Nat.sub_self, Nat.add_zero, show BitVec.ofNat 64 0 = 0 from rfl, add_zero] at hoct
  exact hoct

theorem SizeField.fileSize (h : SizeField m p n) (hn : n < 8 ^ 11) :
    fileSize m p = (BitVec.ofNat 32 n).signExtend 64 := by
  unfold SBUnix.Vfs.fileSize
  rw [oct2bin_digits hn h]

theorem SizeField.openTarfs (h : SizeField m p n) (hn : n < 8 ^ 11) {file_pointer : Word} {f : File}
    (hf : openTarfs m p file_pointer = some f) :
    f.fileSize = (BitVec.ofNat 32 n).signExtend 64 := by
  unfold SBUnix.Vfs.openTarfs at hf
  split_ifs at hf
  obtain rfl := Option.some.inj hf
  dsimp only
  rw [oct2bin_digits hn h]

/-- From 2 GiB on a bit of the size is lost, or bit 31 fills the upper half. -/
theorem signExtend_toNat_eq_iff (hn : n < 8 ^ 11) :
    ((BitVec.ofNat 32 n).signExtend 64).toNat = n ↔ n < 2 ^ 31 := by
  constructor
  · intro h
    by_contra hge
    have hlow : (BitVec.ofNat 32 n).toNat < 2 ^ 32 := BitVec.isLt _
    cases hmsb : (BitVec.ofNat 32 n).msb with
    | false =>
      rw [BitVec.signExtend_eq_setWidth_of_msb_false hmsb, BitVec.toNat_setWidth] at h
      rw [BitVec.msb_eq_false_iff_two_mul_lt] at hmsb
      omega
    | true =>
      have hsigned := BitVec.toInt_signExtend_of_le (x := BitVec.ofNat 32 n) (show 32 ≤ 64 by decide)
      rw [BitVec.toInt_eq_msb_cond, BitVec.toInt_eq_msb_cond, hmsb, if_pos rfl] at hsigned
      rw [BitVec.toNat_ofNat] at hsigned hlow
      split_ifs at hsigned <;> omega
  · intro h
    rw [signExtend_ofNat h, BitVec.toNat_ofNat]
    omega

/-- A header whose size field holds the digits of `n`, at address 0. -/
def sizeHeader (n : Nat) : Memory := fun a => octalDigit n (a - 124).toNat

theorem sizeField_sizeHeader (n : Nat) : SizeField (sizeHeader n) 0 n := by
  intro i hi
  have hindex : (0 + 124 + BitVec.ofNat 64 i - 124 : Word).toNat = i := by
    rw [zero_add, add_sub_cancel_left, BitVec.toNat_ofNat]
    omega
  unfold sizeHeader
  rw [hindex]

/-- The decoded size is right exactly below 2 GiB. -/
theorem sizeDecoded_iff (n : Nat) (hn : n < 8 ^ 11) : SizeDecoded n ↔ n < 2 ^ 31 := by
  constructor
  · intro h
    have hsize := (h (sizeHeader n) 0 (sizeField_sizeHeader n)).1
    rwa [(sizeField_sizeHeader n).fileSize hn, signExtend_toNat_eq_iff hn] at hsize
  · intro hlt m p hfield
    have hvalue := (signExtend_toNat_eq_iff hn).mpr hlt
    refine ⟨by rw [hfield.fileSize hn, hvalue], fun file_pointer f hf => ?_⟩
    rw [hfield.openTarfs hn hf, hvalue]

theorem sizeDecoded_block : SizeDecoded 512 :=
  (sizeDecoded_iff 512 (by decide)).mpr (by decide)

/-- A file of 2 GiB. -/
theorem not_sizeDecoded : ¬ ∀ n < 8 ^ 11, SizeDecoded n := by
  intro hall
  have hsize := (hall (2 ^ 31) (by decide) (sizeHeader (2 ^ 31)) 0 (sizeField_sizeHeader _)).1
  rw [(sizeField_sizeHeader _).fileSize (by decide), signExtend_toNat_eq_iff (by decide)] at hsize
  exact absurd hsize (by decide)

/-! ## The three decoders -/

theorem powerLoop_eq (base : Word) (n : Nat) (answer : Word) :
    powerLoop base n answer = answer * base ^ n := by
  induction n generalizing answer with
  | zero => rw [powerLoop, pow_zero, mul_one]
  | succ n ih => rw [powerLoop, ih, pow_succ', mul_assoc]

theorem power_eq (base pow : Word) : power base pow = base ^ pow.toNat := by
  unfold power
  split_ifs with h
  · rw [h]
    exact (pow_zero base).symm
  · have hpos : 0 < pow.toNat := by
      have hne : pow.toNat ≠ 0 := fun h0 => h (BitVec.eq_of_toNat_eq h0)
      omega
    rw [powerLoop_eq, ← pow_succ', Nat.sub_add_cancel hpos]

/-- `power(8, -1)`. -/
theorem power_minus_one : power 8 (BitVec.ofInt 64 (-1)) = 0 := by
  rw [power_eq]
  exact pow_eq_zero_of_le (show 22 ≤ _ by decide) (show (8 : Word) ^ 22 = 0 by decide)

theorem isDigit_octalDigit (n i : Nat) : IsDigit (octalDigit n i) := by
  unfold octalDigit
  have hlt : n / 8 ^ (10 - i) % 8 < 8 := Nat.mod_lt _ (by decide)
  generalize n / 8 ^ (10 - i) % 8 = d at hlt
  interval_cases d <;> decide

/-- The last round multiplies by `power(8, -1)`, whatever came before. -/
theorem octalStringToDecimalLoop_eq (h : IsDigit (m num)) (k : Nat) (hk : k < 11) (answer : Word) :
    octalStringToDecimalLoop m num (k + 1) (10 - k) answer = 0 := by
  induction k generalizing answer with
  | zero =>
    rw [octalStringToDecimalLoop, if_pos ⟨h, by decide, by decide⟩, octalStringToDecimalLoop,
      if_neg (by simp)]
    exact (congrArg _ power_minus_one).trans (mul_zero _)
  | succ k ih =>
    rw [octalStringToDecimalLoop, if_pos ⟨h, by omega, by omega⟩, Nat.add_sub_cancel,
      show 10 - (k + 1) + 1 = 10 - k by omega]
    exact ih (by omega) _

theorem octalStringToDecimal_eq_zero (h : IsDigit (m num)) : octalStringToDecimal m num = 0 :=
  octalStringToDecimalLoop_eq h 10 (by decide) 0

/-- With `'0'` for every digit. -/
theorem octalToBinaryLoop_zero (h : m num = 48) (counter : Nat) :
    octalToBinaryLoop m num counter 0 = 0 := by
  induction hk : 11 - counter generalizing counter with
  | zero => rw [octalToBinaryLoop, if_neg (by omega)]
  | succ k ih =>
    rw [octalToBinaryLoop]
    split_ifs
    · rw [h]
      exact ih (counter + 1) (by omega)
    · rfl

/-- `num` points to the 11 octal digits of `n` and a NUL. -/
structure OctalString (m : Memory) (num : Word) (n : Nat) : Prop where
  digits : ∀ i < 11, m (num + BitVec.ofNat 64 i) = octalDigit n i
  nul : m (num + 11) = 0

/-- The three decoders return the same number. -/
def OctalAgree (m : Memory) (num : Word) : Prop :=
  (octalToBinary m num).toInt = (oct2bin m 11 num 0).toInt ∧
    ((octalStringToDecimal m num).toNat : Int) = (oct2bin m 11 num 0).toInt

/-- The decoders agree on zero only. -/
theorem octalAgree_iff (m : Memory) (num : Word) (n : Nat) (hn : n < 2 ^ 31)
    (h : OctalString m num n) : OctalAgree m num ↔ n = 0 := by
  have hfirst : m num = octalDigit n 0 := by
    have hzero := h.digits 0 (by decide)
    rwa [show BitVec.ofNat 64 0 = 0 from rfl, add_zero] at hzero
  have hdigit : IsDigit (m num) := hfirst ▸ isDigit_octalDigit n 0
  have hvalue : (oct2bin m 11 num 0).toInt = n := by
    rw [oct2bin_digits (by omega) h.digits, BitVec.toInt_eq_toNat_of_lt] <;>
      rw [BitVec.toNat_ofNat] <;> omega
  unfold OctalAgree
  rw [hvalue, octalStringToDecimal_eq_zero hdigit]
  constructor
  · rintro ⟨-, hzero⟩
    exact_mod_cast hzero.symm
  · rintro rfl
    refine ⟨?_, rfl⟩
    unfold octalToBinary
    rw [octalToBinaryLoop_zero (by rw [hfirst]; decide)]
    rfl

/-- The digits of `n` at address 0. -/
def octalText (n : Nat) : Memory := fun a => if a.toNat < 11 then octalDigit n a.toNat else 0

theorem octalString_octalText (n : Nat) : OctalString (octalText n) 0 n := by
  refine ⟨fun i hi => ?_, rfl⟩
  have hindex : (0 + BitVec.ofNat 64 i : Word).toNat = i := by
    rw [zero_add, BitVec.toNat_ofNat]
    omega
  unfold octalText
  rw [hindex, if_pos hi]

theorem octalAgree_zero : OctalAgree (octalText 0) 0 :=
  (octalAgree_iff (octalText 0) 0 0 (by decide) (octalString_octalText 0)).mpr rfl

/-- `00000000001`. -/
theorem not_octalAgree : ¬ ∀ (m : Memory) (num : Word) (n : Nat), n < 2 ^ 31 → OctalString m num n →
    OctalAgree m num := by
  intro hall
  have hstring := octalString_octalText 1
  have hagree := (hall (octalText 1) 0 1 (by decide) hstring).2
  rw [octalStringToDecimal_eq_zero (by decide), oct2bin_digits (by decide) hstring.digits] at hagree
  exact absurd hagree (by decide)

end Octal

end SBUnix.Vfs
