import SBUnix.Lib.Steps
import SBUnix.Tarfs.Init

/-
  Whether `tarfs_init` ends on every archive.

  `oct2bin` takes any byte for a digit, so a size can be negative. The blocks of such a size are
  counted in `uint64_t` and cut to an `int`: a size from -512 down counts no block or less
  (`nextHeader_toNat`), and the header pointer stays or goes back. `tarfsInit_ends_iff` says
  exactly when it always moves on.
-/

namespace SBUnix.Vfs

open ByteMem Steps

/-- A round of the loop that runs to its end. -/
def Round (m : Memory) (stop : Word) (s : State) (_ : Unit) (s' : State) : Prop :=
  HeaderLeft m stop s ∧ tarfsRound m s = .ok s'

/-- The loop ends, and the header pointer moves on in every round. -/
def Ends (m : Memory) (start stop : Word) : Prop :=
  ∀ vfs, tarfsInit m start stop vfs ≠ .error .diverges ∧
    ∀ s₀ as s s', tarfsStart start vfs = .ok s₀ → Run (Round m stop) s₀ as s →
      Round m stop s () s' → s.p < s'.p

/-- The size that `oct2bin` makes of the header at `p`. -/
def headerSize (m : Memory) (p : Word) : Int := (oct2bin m 11 (p + 124) 0).toInt

/-- The headers from the one at `p` to the next: its blocks and itself, and one more without a
    type. -/
def stride (m : Memory) (p : Word) : Int :=
  (headerSize m p + 511) / 512 + 1 + if fileTypeflag m p = 0 then 1 else 0

/-- The stride leads up and not over the end of the address space, or back below address 0. -/
def StrideOk (m : Memory) (p : Word) : Prop :=
  (0 < stride m p ∧ p.toNat + 512 * stride m p < 2 ^ 64) ∨ (p.toNat + 512 * stride m p < 0)

section Stride

variable {m : Memory} {stop p : Word}

theorem toNat_eq_toInt_emod (x : Word) : (x.toNat : Int) = x.toInt % 2 ^ 64 := by
  have hx := x.isLt
  rw [BitVec.toInt_eq_toNat_cond]
  split_ifs <;> omega

/-- The count of blocks, as an `int`. -/
theorem toInt_blocks (n : BitVec 32) :
    (((n.signExtend 64 + 511) / 512 + 1).setWidth 32).toInt = (n.toInt + 511) / 512 + 1 := by
  have hsize : ((n.signExtend 64).toNat : Int) =
      if 0 ≤ n.toInt then n.toInt else 2 ^ 64 + n.toInt := by
    have hext := BitVec.toInt_signExtend_of_le (x := n) (v := 64) (by decide)
    rw [BitVec.toInt_eq_toNat_cond] at hext
    have := (n.signExtend 64).isLt
    split_ifs at hext ⊢ <;> omega
  have hlow := BitVec.le_toInt n
  have hhigh := BitVec.toInt_lt (x := n)
  have hsum : (n.signExtend 64 + 511).toNat = ((n.signExtend 64).toNat + 511) % 2 ^ 64 :=
    BitVec.toNat_add _ _
  have hblocks : (((n.signExtend 64 + 511) / 512 + 1).setWidth 32).toNat =
      ((n.signExtend 64 + 511).toNat / 512 + 1) % 2 ^ 32 := by
    rw [BitVec.toNat_setWidth, BitVec.toNat_add, BitVec.toNat_udiv]
    have := (n.signExtend 64 + 511).isLt
    show ((n.signExtend 64 + 511).toNat / 512 + 1) % 2 ^ 64 % 2 ^ 32 = _
    omega
  rw [BitVec.toInt_eq_toNat_cond, hblocks, hsum]
  generalize (n.signExtend 64).toNat = k at hsize
  generalize n.toInt = i at hsize hlow hhigh
  split_ifs at hsize ⊢ <;> omega

theorem toInt_fileNumber (n : BitVec 32) (file_typeflag : Byte) :
    (fileNumber (n.signExtend 64) file_typeflag).toInt =
      (n.toInt + 511) / 512 + 1 + if file_typeflag = 0 then 1 else 0 := by
  have hblocks := toInt_blocks n
  have hlow := BitVec.le_toInt n
  have hhigh := BitVec.toInt_lt (x := n)
  unfold fileNumber
  dsimp only
  split_ifs
  · rw [BitVec.toInt_add, hblocks, show (1 : BitVec 32).toInt = 1 from rfl]
    rw [Int.bmod_eq_of_le_mul_two] <;> omega
  · rw [hblocks, Int.add_zero]

/-- Where the next header is taken to be. -/
theorem nextHeader_toNat (m : Memory) (p : Word) :
    ((nextHeader m p).toNat : Int) = (p.toNat + 512 * stride m p) % 2 ^ 64 := by
  have hnumber := toInt_fileNumber (oct2bin m 11 (p + 124) 0) (fileTypeflag m p)
  have hext := BitVec.toInt_signExtend_of_le
    (x := fileNumber (fileSize m p) (fileTypeflag m p)) (v := 64) (by decide)
  have hwide : (((fileNumber (fileSize m p) (fileTypeflag m p)).signExtend 64).toNat : Int) =
      stride m p % 2 ^ 64 := by
    rw [toNat_eq_toInt_emod, hext]
    unfold stride headerSize
    rw [← hnumber]
    rfl
  unfold nextHeader
  rw [BitVec.toNat_add, BitVec.toNat_mul, show (512 : Word).toNat = 512 from rfl]
  omega

theorem lt_nextHeader_iff (m : Memory) (p : Word) : p < nextHeader m p ↔ StrideOk m p := by
  have hnext := nextHeader_toNat m p
  have hlow := BitVec.le_toInt (oct2bin m 11 (p + 124) 0)
  have hhigh := BitVec.toInt_lt (x := oct2bin m 11 (p + 124) 0)
  have hp := p.isLt
  rw [BitVec.lt_def]
  unfold StrideOk
  have hbound : -2 ^ 23 < stride m p ∧ stride m p < 2 ^ 23 := by
    unfold stride headerSize
    split_ifs <;> omega
  omega

end Stride

/-! ## A round comes to an end -/

section Faults

variable {α β : Type} {m : Memory} {stop : Word} {s s' : State}

theorem bind_ne_diverges {x : Except Fault α} {f : α → Except Fault β}
    (hx : x ≠ .error .diverges) (hf : ∀ a, f a ≠ .error .diverges) :
    x >>= f ≠ .error .diverges := by
  cases x with
  | error e =>
    intro h
    exact hx (by rw [Except.error.inj h])
  | ok a => exact hf a

theorem ok_ne_diverges (a : α) : (Except.ok a : Except Fault α) ≠ .error .diverges := by
  simp

theorem strcpy_ne_diverges (name : List Byte) : strcpy name ≠ .error .diverges := by
  unfold strcpy
  split_ifs <;> simp

theorem slot_ne_diverges (vfs : Nat → Tarfs) (i : Nat) : slot vfs i ≠ .error .diverges := by
  unfold slot
  split_ifs <;> simp

theorem findParent_ne_diverges (vfs : Nat → Tarfs) (fname : List Byte) (n i : Nat) :
    findParent vfs fname n i ≠ .error .diverges := by
  induction n generalizing i with
  | zero => simp [findParent]
  | succ n ih =>
    rw [findParent]
    refine bind_ne_diverges (slot_ne_diverges vfs i) fun e => ?_
    split_ifs
    · simp
    · exact ih (i + 1)

theorem getParentIndex_ne_diverges (vfs : Nat → Tarfs) (n : Nat) (file_name : List Byte)
    (slice_count : Nat) : getParentIndex vfs n file_name slice_count ≠ .error .diverges := by
  unfold getParentIndex
  dsimp only
  by_cases hroot : (if slice_count = 1 ∨ slice_count = 2 then
      (sliceLoop file_name file_name.length slice_count - 1 : Int) + 1
      else sliceLoop file_name file_name.length slice_count - 1) ≤ -1
  · rw [if_pos hroot]
    exact ok_ne_diverges _
  · rw [if_neg hroot]
    exact bind_ne_diverges (strcpy_ne_diverges _) fun fname =>
      findParent_ne_diverges vfs fname n 0

theorem addSlot_ne_diverges (s : State) (file_name : List Byte) (slice_count : Nat)
    (file_size : Word) (file_typeflag : Byte) (address : Word) (offset : BitVec 32) :
    addSlot s file_name slice_count file_size file_typeflag address offset ≠
      .error .diverges := by
  unfold addSlot
  refine bind_ne_diverges (getParentIndex_ne_diverges _ _ _ _) fun parent_index => ?_
  refine bind_ne_diverges ?_ fun vfs => ok_ne_diverges _
  unfold assignVfsSlot
  refine bind_ne_diverges (slot_ne_diverges _ _) fun _ => ?_
  exact bind_ne_diverges (strcpy_ne_diverges _) fun name => ok_ne_diverges _

theorem tarfsRound_ne_diverges (m : Memory) (s : State) :
    tarfsRound m s ≠ .error .diverges := by
  unfold tarfsRound
  dsimp only
  refine bind_ne_diverges ?_ fun name => ?_
  · cases cString m 128 s.p <;> simp
  refine bind_ne_diverges (strcpy_ne_diverges _) fun file_name => ?_
  refine bind_ne_diverges (strcpy_ne_diverges _) fun file_name => ?_
  refine bind_ne_diverges ?_ fun s' => ok_ne_diverges _
  unfold switchTypeflag
  split_ifs
  · exact addSlot_ne_diverges _ _ _ _ _ _ _
  · exact addSlot_ne_diverges _ _ _ _ _ _ _
  · simp

theorem tarfsRound_p (h : tarfsRound m s = .ok s') : s'.p = nextHeader m s.p := by
  obtain ⟨name, -, h⟩ := bind_eq_ok.mp h
  obtain ⟨file_name, -, h⟩ := bind_eq_ok.mp h
  obtain ⟨file_name', -, h⟩ := bind_eq_ok.mp h
  obtain ⟨s₁, -, h⟩ := bind_eq_ok.mp h
  rw [← Except.ok.inj h]

/-- A loop whose header pointer moves on in every round ends. -/
theorem tarfsLoop_ne_diverges
    (hup : ∀ as s₁ s₂, Run (Round m stop) s as s₁ → Round m stop s₁ () s₂ → s₁.p < s₂.p)
    (fuel : Nat) (hfuel : stop.toNat - s.p.toNat < fuel) :
    tarfsLoop m stop fuel s ≠ .error .diverges := by
  induction fuel generalizing s with
  | zero => omega
  | succ fuel ih =>
    rw [tarfsLoop]
    by_cases hleft : HeaderLeft m stop s
    · rw [if_pos hleft]
      cases hround : tarfsRound m s with
      | error e =>
        have hne := tarfsRound_ne_diverges m s
        rw [hround] at hne
        exact hne
      | ok s₁ =>
        have hlt := hup [] s s₁ (.nil s) ⟨hleft, hround⟩
        have hstop := hleft.1
        rw [BitVec.lt_def] at hlt hstop
        exact ih (fun as s₂ s₃ hrun => hup (() :: as) s₂ s₃ (.cons ⟨hleft, hround⟩ hrun))
          (by omega)
    · rw [if_neg hleft]
      exact ok_ne_diverges s

end Faults

/-! ## The loop -/

/-- `tarfs_init` ends, moving on in every round, exactly when every header it comes to leads on. -/
theorem tarfsInit_ends_iff (m : Memory) (start stop : Word) :
    Ends m start stop ↔
      ∀ vfs s₀ as s s', tarfsStart start vfs = .ok s₀ → Run (Round m stop) s₀ as s →
        Round m stop s () s' → StrideOk m s.p := by
  have hiff : ∀ s s', Round m stop s () s' → (s.p < s'.p ↔ StrideOk m s.p) := by
    intro s s' hround
    rw [tarfsRound_p hround.2, lt_nextHeader_iff]
  constructor
  · intro h vfs s₀ as s s' hs₀ hrun hround
    exact (hiff s s' hround).mp ((h vfs).2 s₀ as s s' hs₀ hrun hround)
  · intro h vfs
    have hup : ∀ s₀ as s s', tarfsStart start vfs = .ok s₀ → Run (Round m stop) s₀ as s →
        Round m stop s () s' → s.p < s'.p := fun s₀ as s s' hs₀ hrun hround =>
      (hiff s s' hround).mpr (h vfs s₀ as s s' hs₀ hrun hround)
    refine ⟨?_, hup⟩
    obtain ⟨s₀, hs₀, -⟩ := tarfsStart_eq start vfs
    unfold tarfsInit
    rw [hs₀, ok_bind]
    refine tarfsLoop_ne_diverges (fun as s s' => hup s₀ as s s' hs₀) loopFuel ?_
    have := stop.isLt
    unfold loopFuel
    omega

/-- A header with the name `a` and the size `0000000/000`, which is -512: `/` comes before `0`. -/
def stuckHeader : Memory := fun p =>
  if p = 4096 then chr 'a'
  else if p = 4227 then chr '/'
  else if 4220 ≤ p ∧ p < 4231 then chr '0'
  else if p = 4252 then chr '1'
  else 0

theorem tarfsRound_stuckHeader (vfs : Nat → Tarfs) :
    tarfsRound stuckHeader ⟨vfs, 2, 4096, 512⟩ = .ok ⟨vfs, 2, 4096, 512⟩ := by
  have hname : cString stuckHeader 128 4096 = some [chr 'a'] := by decide
  have hsize : fileSize stuckHeader 4096 = -512 := by decide
  have hflag : fileTypeflag stuckHeader 4096 = chr '1' := by decide
  have hnext : nextHeader stuckHeader 4096 = 4096 := by decide
  unfold tarfsRound
  dsimp only
  rw [hname, hsize, hflag, hnext, Option.elim_some, ok_bind]
  rfl

theorem tarfsInit_stuck : ¬ Ends stuckHeader 4096 8192 := by
  intro h
  have hup := (h fun _ => ⟨[], 0, 0, 0, 0, 0, 0⟩).2 _ [] _ _ rfl (.nil _)
    ⟨⟨by decide, by decide⟩, tarfsRound_stuckHeader _⟩
  exact absurd hup (by decide)

end SBUnix.Vfs
