import SBUnix.Tarfs.Model

/-
  ustar archives, and what the code reads in their headers.

  `Laid arc h members` says that the archive bytes `arc` hold the members from position `h` on, each
  a header and its content padded to whole blocks, and then a block of zeros. The bytes that the
  code does not read are arbitrary. `HeaderAt.fileSize` and its companions are the values that
  `tarfs_init` gets out of a header.
-/

namespace SBUnix.Vfs

open ByteMem

/-- A member of an archive. -/
structure Member where
  name : List Byte
  typeflag : Byte
  content : List Byte

/-- What `tar --format=ustar` makes of a short path: a name without a prefix, and a type. -/
structure Member.Valid (x : Member) : Prop where
  nonempty : x.name ≠ []
  noNul : (0 : Byte) ∉ x.name
  short : x.name.length ≤ 99
  typed : x.typeflag ≠ 0

/-- The bytes of a member: its header and its padded content. -/
def Member.span (x : Member) : Nat := 512 + (x.content.length + 511) / 512 * 512

/-- The bytes of all members. -/
def totalSpan (members : List Member) : Nat := (members.map Member.span).sum

/-- Digit `i` of the 11 octal digits of `n`. -/
def octalDigit (n i : Nat) : Byte := BitVec.ofNat 8 (48 + n / 8 ^ (10 - i) % 8)

/-- The header of `x` at position `h`. -/
structure HeaderAt (arc : Nat → Byte) (h : Nat) (x : Member) : Prop where
  name : ∀ i < x.name.length, arc (h + i) = x.name.getD i 0
  nameEnd : arc (h + x.name.length) = 0
  size : ∀ i < 11, arc (h + 124 + i) = octalDigit x.content.length i
  typeflag : arc (h + 156) = x.typeflag
  noPrefix : arc (h + 345) = 0

/-- The members lie from position `h` on, with a block of zeros behind them. -/
def Laid (arc : Nat → Byte) : Nat → List Member → Prop
  | h, [] => ∀ i < 512, arc (h + i) = 0
  | h, x :: xs => HeaderAt arc h x ∧
      (∀ i < x.content.length, arc (h + 512 + i) = x.content.getD i 0) ∧ Laid arc (h + x.span) xs

/-- The byte at position `k` of the archive at `start`. -/
def archiveByte (m : Memory) (start : Word) (k : Nat) : Byte := m (start + BitVec.ofNat 64 k)

/-- The archive from `_binary_tarfs_start` to `_binary_tarfs_end`. -/
structure Archive (m : Memory) (start stop : Word) (members : List Member) : Prop where
  laid : Laid (archiveByte m start) 0 members
  valid : ∀ x ∈ members, x.Valid
  small : (members.map (·.content.length)).sum < 2 ^ 31
  room : start.toNat + totalSpan members + 512 ≤ stop.toNat

section Header

variable {m : Memory} {start : Word} {h n : Nat} {x : Member}

theorem totalSpan_cons (x : Member) (xs : List Member) :
    totalSpan (x :: xs) = x.span + totalSpan xs := rfl

theorem addr_add (start : Word) (h k : Nat) :
    start + BitVec.ofNat 64 h + BitVec.ofNat 64 k = start + BitVec.ofNat 64 (h + k) := by
  rw [BitVec.add_assoc, ← BitVec.ofNat_add]

/-- A string in the archive. -/
theorem cString_archive {s : List Byte} (hs : (0 : Byte) ∉ s) (hn : s.length < n)
    (hbytes : ∀ i < s.length, archiveByte m start (h + i) = s.getD i 0)
    (hend : archiveByte m start (h + s.length) = 0) :
    cString m n (start + BitVec.ofNat 64 h) = some s := by
  induction s generalizing h n with
  | nil =>
    obtain ⟨n, rfl⟩ := Nat.exists_eq_succ_of_ne_zero (show n ≠ 0 by omega)
    have h0 : m (start + BitVec.ofNat 64 h) = 0 := hend
    rw [cString, if_pos h0]
  | cons b s ih =>
    obtain ⟨n, rfl⟩ := Nat.exists_eq_succ_of_ne_zero (show n ≠ 0 by omega)
    have hb : m (start + BitVec.ofNat 64 h) = b := hbytes 0 (Nat.succ_pos _)
    have hb0 : b ≠ 0 := fun h0 => hs (h0 ▸ List.mem_cons_self)
    have hnext : start + BitVec.ofNat 64 h + 1 = start + BitVec.ofNat 64 (h + 1) :=
      addr_add start h 1
    have hrest := ih (h := h + 1) (n := n) (fun hmem => hs (List.mem_cons_of_mem b hmem))
      (by rw [List.length_cons] at hn; omega) (fun i hi => by
        have hbyte := hbytes (i + 1) (Nat.succ_lt_succ hi)
        rwa [List.getD_cons_succ, Nat.add_comm i, ← Nat.add_assoc] at hbyte)
      (by rwa [List.length_cons, Nat.add_comm s.length, ← Nat.add_assoc] at hend)
    rw [cString, hb, if_neg hb0, hnext, hrest]
    rfl

/-- Reading octal digits from the front. -/
theorem oct2bin_archive {p : Nat} (hdigits : ∀ i < 11, archiveByte m start (p + i) = octalDigit n i)
    (k : Nat) (hk : k ≤ 11) :
    oct2bin m k (start + BitVec.ofNat 64 (p + (11 - k))) (BitVec.ofNat 32 (n / 8 ^ k)) =
      BitVec.ofNat 32 n := by
  induction k with
  | zero => rw [oct2bin, pow_zero, Nat.div_one]
  | succ k ih =>
    have hbyte := hdigits (10 - k) (by omega)
    unfold archiveByte octalDigit at hbyte
    have hnext : start + BitVec.ofNat 64 (p + (11 - (k + 1))) + 1 =
        start + BitVec.ofNat 64 (p + (11 - k)) := by
      rw [show p + (11 - k) = p + (11 - (k + 1)) + 1 by omega]
      exact addr_add start _ 1
    have hdigit : (BitVec.ofNat 8 (48 + n / 8 ^ k % 8)).setWidth 32 - 48 =
        BitVec.ofNat 32 (n / 8 ^ k % 8) := by
      have hlt : n / 8 ^ k % 8 < 8 := Nat.mod_lt _ (by decide)
      generalize n / 8 ^ k % 8 = d at hlt
      interval_cases d <;> rfl
    have hstep : BitVec.ofNat 32 (n / 8 ^ (k + 1)) * 8 + BitVec.ofNat 32 (n / 8 ^ k % 8) =
        BitVec.ofNat 32 (n / 8 ^ k) := by
      have hdiv : n / 8 ^ (k + 1) = n / 8 ^ k / 8 := by
        rw [pow_succ, Nat.div_div_eq_div_mul]
      have hsplit : n / 8 ^ k = n / 8 ^ k / 8 * 8 + n / 8 ^ k % 8 := by omega
      have hsum : BitVec.ofNat 32 (n / 8 ^ k / 8 * 8 + n / 8 ^ k % 8) =
          BitVec.ofNat 32 (n / 8 ^ k / 8) * 8 + BitVec.ofNat 32 (n / 8 ^ k % 8) := by
        rw [BitVec.ofNat_add, BitVec.ofNat_mul]
        rfl
      rw [hdiv, ← hsum, ← hsplit]
    rw [oct2bin, hnext, show 11 - (k + 1) = 10 - k by omega, hbyte,
      show 10 - (10 - k) = k by omega, hdigit, hstep]
    exact ih (by omega)

theorem signExtend_ofNat (hn : n < 2 ^ 31) :
    (BitVec.ofNat 32 n).signExtend 64 = BitVec.ofNat 64 n := by
  apply BitVec.eq_of_toNat_eq
  have hmsb : (BitVec.ofNat 32 n).msb = false := by
    rw [BitVec.msb_eq_false_iff_two_mul_lt, BitVec.toNat_ofNat]
    omega
  rw [BitVec.signExtend_eq_setWidth_of_msb_false hmsb, BitVec.toNat_setWidth, BitVec.toNat_ofNat,
    BitVec.toNat_ofNat]
  omega

/-- The size that `tarfs_init` decodes is the size of the content. -/
theorem HeaderAt.fileSize (hx : HeaderAt (archiveByte m start) h x)
    (hsize : x.content.length < 2 ^ 31) :
    fileSize m (start + BitVec.ofNat 64 h) = BitVec.ofNat 64 x.content.length := by
  have hoct := oct2bin_archive (n := x.content.length) (p := h + 124) hx.size 11 le_rfl
  have hzero : x.content.length / 8 ^ 11 = 0 := Nat.div_eq_of_lt (by omega)
  have haddr : start + BitVec.ofNat 64 h + 124 = start + BitVec.ofNat 64 (h + 124) :=
    addr_add start h 124
  rw [hzero, Nat.sub_self, Nat.add_zero, ← haddr] at hoct
  unfold SBUnix.Vfs.fileSize
  rw [show (0 : BitVec 32) = BitVec.ofNat 32 0 from rfl, hoct, signExtend_ofNat hsize]

theorem HeaderAt.fileTypeflag (hx : HeaderAt (archiveByte m start) h x) :
    fileTypeflag m (start + BitVec.ofNat 64 h) = x.typeflag := by
  rw [← hx.typeflag, archiveByte, ← addr_add]
  rfl

theorem HeaderAt.cString (hx : HeaderAt (archiveByte m start) h x) (hv : x.Valid) :
    cString m 128 (start + BitVec.ofNat 64 h) = some x.name :=
  cString_archive hv.noNul (by have := hv.short; omega) hx.name hx.nameEnd

theorem HeaderAt.name_ne (hx : HeaderAt (archiveByte m start) h x) (hv : x.Valid) :
    m (start + BitVec.ofNat 64 h) ≠ 0 := by
  obtain ⟨b, s, hname⟩ := List.exists_cons_of_ne_nil hv.nonempty
  have hbyte := hx.name 0 (by rw [hname]; exact Nat.succ_pos _)
  rw [hname, List.getD_cons_zero] at hbyte
  intro h0
  have hb : b = 0 := hbyte.symm.trans h0
  have := hv.noNul
  rw [hname, hb] at this
  exact this List.mem_cons_self

/-- The offset and the header pointer move on by the bytes of the member. -/
theorem offsetBump_ofNat (hsize : x.content.length < 2 ^ 31) :
    offsetBump (BitVec.ofNat 64 x.content.length) = BitVec.ofNat 64 x.span := by
  have hn : (BitVec.ofNat 64 x.content.length).toNat = x.content.length := by
    rw [BitVec.toNat_ofNat, Nat.mod_eq_of_lt (by omega)]
  have hmod : (BitVec.ofNat 64 x.content.length % 512).toNat = x.content.length % 512 := by
    rw [BitVec.toNat_umod, hn]
    rfl
  unfold offsetBump Member.span
  generalize x.content.length = n at hsize hmod hn ⊢
  split_ifs with hzero
  · have hz : n % 512 = 0 := by
      obtain h0 | h0 := hzero
      · rw [show n = 0 from hn.symm.trans (congrArg BitVec.toNat h0)]
      · rw [← hmod, h0]
        rfl
    rw [show 512 + (n + 511) / 512 * 512 = n + 512 by omega, BitVec.ofNat_add]
    rfl
  · have hnz : n % 512 ≠ 0 := by
      intro h0
      exact hzero (Or.inr (BitVec.eq_of_toNat_eq (hmod.trans h0)))
    have hrest : (512 : Word) - BitVec.ofNat 64 n % 512 = BitVec.ofNat 64 (512 - n % 512) := by
      apply BitVec.eq_of_toNat_eq
      rw [BitVec.toNat_sub, hmod, BitVec.toNat_ofNat, show (512 : Word).toNat = 512 from rfl]
      omega
    rw [hrest, show 512 + (n + 511) / 512 * 512 = n + (512 - n % 512) + 512 by omega,
      BitVec.ofNat_add, BitVec.ofNat_add]
    rfl

theorem HeaderAt.nextHeader (hx : HeaderAt (archiveByte m start) h x) (hv : x.Valid)
    (hsize : x.content.length < 2 ^ 31) :
    nextHeader m (start + BitVec.ofNat 64 h) = start + BitVec.ofNat 64 (h + x.span) := by
  have hblocks : ((BitVec.ofNat 64 x.content.length + 511) / 512 + 1).setWidth 32 =
      BitVec.ofNat 32 ((x.content.length + 511) / 512 + 1) := by
    generalize x.content.length = n at hsize
    apply BitVec.eq_of_toNat_eq
    have hsum : (BitVec.ofNat 64 n + 511).toNat = n + 511 := by
      rw [BitVec.toNat_add, BitVec.toNat_ofNat, show (511 : Word).toNat = 511 from rfl]
      omega
    rw [BitVec.toNat_setWidth, BitVec.toNat_add, BitVec.toNat_udiv, hsum,
      show (512 : Word).toNat = 512 from rfl, show (1 : Word).toNat = 1 from rfl,
      BitVec.toNat_ofNat, Nat.mod_eq_of_lt (show (n + 511) / 512 + 1 < 2 ^ 64 by omega)]
  unfold SBUnix.Vfs.nextHeader fileNumber
  have hspan : x.span = 512 * ((x.content.length + 511) / 512 + 1) := by
    unfold Member.span
    omega
  rw [hx.fileSize hsize, hx.fileTypeflag]
  dsimp only
  rw [if_neg hv.typed, hblocks, signExtend_ofNat (by omega), ← addr_add, hspan, BitVec.ofNat_mul]
  rfl

end Header

/-! ## Writing an archive -/

/-- Byte `k` of a header. -/
def headerByte (x : Member) (k : Nat) : Byte :=
  if k < 100 then x.name.getD k 0
  else if 124 ≤ k ∧ k < 135 then octalDigit x.content.length (k - 124)
  else if k = 156 then x.typeflag
  else 0

/-- Byte `k` of a member. -/
def memberByte (x : Member) (k : Nat) : Byte :=
  if k < 512 then headerByte x k else x.content.getD (k - 512) 0

/-- Byte `k` of the archive of `members`, which ends with zeros. -/
def imageByte : List Member → Nat → Byte
  | [], _ => 0
  | x :: xs, k => if k < x.span then memberByte x k else imageByte xs (k - x.span)

/-- A memory with the archive of `members` at `start`. -/
def image (start : Word) (members : List Member) : Memory :=
  fun a => imageByte members (a - start).toNat

section Image

variable {arc : Nat → Byte} {h : Nat} {x : Member} {members : List Member} {start stop : Word}

theorem headerAt_of_bytes (hv : x.Valid) (harc : ∀ k < 512, arc (h + k) = headerByte x k) :
    HeaderAt arc h x := by
  have hshort := hv.short
  refine ⟨fun i hi => ?_, ?_, fun i hi => ?_, ?_, ?_⟩
  · rw [harc i (by omega), headerByte, if_pos (by omega)]
  · rw [harc _ (by omega), headerByte, if_pos (by omega), List.getD_eq_default _ _ (Nat.le_refl _)]
  · rw [Nat.add_assoc, harc _ (by omega), headerByte, if_neg (by omega), if_pos (by omega),
      Nat.add_sub_cancel_left]
  · rw [harc 156 (by decide)]
    rfl
  · rw [harc 345 (by decide)]
    rfl

theorem laid_of_bytes (hv : ∀ x ∈ members, x.Valid)
    (harc : ∀ k < totalSpan members + 512, arc (h + k) = imageByte members k) :
    Laid arc h members := by
  induction members generalizing h with
  | nil => exact fun i hi => harc i (by omega)
  | cons x xs ih =>
    have hspan : 512 + x.content.length ≤ x.span := by
      unfold Member.span
      omega
    rw [totalSpan_cons] at harc
    have hmember : ∀ k < x.span, arc (h + k) = memberByte x k := by
      intro k hk
      rw [harc k (by omega), imageByte, if_pos hk]
    refine ⟨headerAt_of_bytes (hv x List.mem_cons_self) fun k hk => ?_, fun i hi => ?_,
      ih (fun y hy => hv y (List.mem_cons_of_mem _ hy)) fun k hk => ?_⟩
    · rw [hmember k (by omega), memberByte, if_pos hk]
    · rw [Nat.add_assoc, hmember _ (by omega), memberByte, if_neg (by omega),
        Nat.add_sub_cancel_left]
    · rw [Nat.add_assoc, harc _ (by omega), imageByte, if_neg (by omega), Nat.add_sub_cancel_left]

/-- The archive that was written is an archive. -/
theorem image_archive (hv : ∀ x ∈ members, x.Valid)
    (hsmall : (members.map (·.content.length)).sum < 2 ^ 31)
    (hroom : start.toNat + totalSpan members + 512 ≤ stop.toNat) :
    Archive (image start members) start stop members := by
  refine ⟨laid_of_bytes hv fun k hk => ?_, hv, hsmall, hroom⟩
  have hstop := stop.isLt
  unfold archiveByte image
  rw [BitVec.add_comm, BitVec.add_sub_cancel, BitVec.toNat_ofNat, Nat.mod_eq_of_lt (by omega),
    Nat.zero_add]

end Image

end SBUnix.Vfs
