import SBUnix.Lib.ByteMem
import SBUnix.Paging.Defs

/-
  The tar file system (`sys/tarfs.c`, and what it uses of `sys/string.c` and `sys/math.c`).

  The archive is read from memory, at addresses that wrap. A C string is the list of its bytes
  before the NUL; `strcpy` into an array of 128 characters faults when the string does not fit, and
  so does an access to `vfs` behind its 2048 slots. `root_directory` is scratch memory.
-/

namespace SBUnix.Vfs

open ByteMem

/-- Memory, by address. -/
abbrev Memory := Word → Byte

inductive Fault where
  | slotOutOfRange
  | bufferOverflow
  | diverges
  deriving DecidableEq, Repr

/-- A character constant. -/
def chr (c : Char) : Byte := BitVec.ofNat 8 c.toNat

/-- A string constant. -/
def str (s : String) : List Byte := s.toList.map chr

/-! ## Strings and numbers -/

/-- The string at `p`, if it ends within `n` bytes. -/
def cString (m : Memory) : Nat → Word → Option (List Byte)
  | 0, _ => none
  | n + 1, p => if m p = 0 then some [] else (cString m n (p + 1)).map (m p :: ·)

/-- The loop of `strcmp`, for strings of one length. -/
def strcmpLoop : List Byte → List Byte → Int
  | [], _ => 0
  | a :: _, [] => if a.toInt > 0 then 1 else -1
  | a :: as, b :: bs => if a = b then strcmpLoop as bs else if a.toInt > b.toInt then 1 else -1

def strcmp (str1 str2 : List Byte) : Int :=
  if str1.length > str2.length then 1
  else if str1.length < str2.length then -1
  else strcmpLoop str1 str2

/-- `strcpy` into an array of 128 characters. -/
def strcpy (s : List Byte) : Except Fault (List Byte) :=
  if s.length < 128 then .ok s else .error .bufferOverflow

/-- `strrevcat`: the first string behind the second. -/
def strrevcat (str1 str2 : List Byte) : List Byte := str2 ++ str1

/-- `oct2bin`, in an `int`. -/
def oct2bin (m : Memory) : Nat → Word → BitVec 32 → BitVec 32
  | 0, _, n => n
  | size + 1, c, n => oct2bin m size (c + 1) (n * 8 + ((m c).setWidth 32 - 48))

/-! ## The table -/

/-- `tarfs`. -/
structure Tarfs where
  name : List Byte
  parent : Int
  size : Word
  type : BitVec 32
  address : Word
  index : Nat
  offset : BitVec 32
  deriving DecidableEq, Repr

/-- `vfs` and `vfs_pointer`, and the header and the offset that `tarfs_init` has come to. -/
structure State where
  vfs : Nat → Tarfs
  vfsPointer : Nat
  p : Word
  offset : BitVec 32

/-- The number of slots of `vfs`. -/
def vfsSlots : Nat := 2048

/-- `vfs[i]`. -/
def slot (vfs : Nat → Tarfs) (i : Nat) : Except Fault Tarfs :=
  if i < vfsSlots then .ok (vfs i) else .error .slotOutOfRange

def assignVfsSlot (nindex : Nat) (nname : List Byte) (nparent : Int) (nsize : Word)
    (ntype : BitVec 32) (naddress : Word) (noffset : BitVec 32) (vfs : Nat → Tarfs) :
    Except Fault (Nat → Tarfs) := do
  let _ ← slot vfs nindex
  let name ← strcpy nname
  return fun i => if i = nindex then ⟨name, nparent, nsize, ntype, naddress, nindex, noffset⟩
    else vfs i

/-- The backwards loop of `get_parent_index`, from `i = n - 1` on: returns `i + 1`. -/
def sliceLoop (file_name : List Byte) : Nat → Nat → Nat
  | 0, _ => 0
  | n + 1, slice_count =>
    if slice_count = 0 then n + 1
    else sliceLoop file_name n
      (if file_name.getD n 0 = chr '/' then slice_count - 1 else slice_count)

/-- The loop over the table in `get_parent_index`, from slot `i` on. -/
def findParent (vfs : Nat → Tarfs) (fname : List Byte) : Nat → Nat → Except Fault Int
  | 0, _ => .ok (-2)
  | n + 1, i => do
    let e ← slot vfs i
    if strcmp fname e.name = 0 then .ok i else findParent vfs fname n (i + 1)

def getParentIndex (vfs : Nat → Tarfs) (vfs_pointer : Nat) (file_name : List Byte)
    (slice_count : Nat) : Except Fault Int := do
  let i : Int := sliceLoop file_name file_name.length slice_count - 1
  let i := if slice_count = 1 ∨ slice_count = 2 then i + 1 else i
  if i ≤ -1 then return -1
  let fname ← strcpy (file_name.take (i + 1).toNat)
  findParent vfs fname vfs_pointer 0

/-- The loop of `tar_lookup` and `tar_get_index`, which tests the name first. -/
def lookupLoop (s : State) (filename : List Byte) : Nat → Nat → Except Fault Nat
  | 0, _ => .error .diverges
  | fuel + 1, index => do
    let e ← slot s.vfs index
    if strcmp e.name filename ≠ 0 ∧ index < s.vfsPointer then
      lookupLoop s filename fuel (index + 1)
    else return index

def tarLookup (s : State) (filename : List Byte) : Except Fault Word := do
  let index ← lookupLoop s filename (s.vfsPointer + 1) 0
  if index < s.vfsPointer then
    let e ← slot s.vfs index
    return e.address
  else return 0

def tarGetIndex (s : State) (filename : List Byte) : Except Fault Int := do
  let index ← lookupLoop s filename (s.vfsPointer + 1) 0
  if index < s.vfsPointer then return index else return -1

/-- The loop of `tar_ls` from `index` on, without the lines it prints. -/
def lsLoop (s : State) (parent_index : Int) : Nat → Nat → Nat → Except Fault Nat
  | 0, _, _ => .error .diverges
  | fuel + 1, index, file_count =>
    if index < s.vfsPointer then do
      let e ← slot s.vfs index
      lsLoop s parent_index fuel (index + 1)
        (if e.parent = parent_index then file_count + 1 else file_count)
    else return file_count

def tarLs (s : State) (filename : List Byte) : Except Fault Nat := do
  let parent_index ← tarGetIndex s filename
  lsLoop s parent_index (s.vfsPointer + 1) 0 0

/-! ## `tarfs_init` -/

def rootDirectoryName : List Byte := str "/rootfs/"

/-- Add `file_name` to the table: a case of the switch. -/
def addSlot (s : State) (file_name : List Byte) (slice_count : Nat) (file_size : Word)
    (file_typeflag : Byte) (address : Word) (offset : BitVec 32) : Except Fault State := do
  let parent_index ← getParentIndex s.vfs s.vfsPointer file_name slice_count
  let vfs ← assignVfsSlot s.vfsPointer file_name parent_index file_size
    (file_typeflag.signExtend 32) address offset s.vfs
  return { s with vfs := vfs, vfsPointer := s.vfsPointer + 1 }

/-- The switch over `file_typeflag`. -/
def switchTypeflag (s : State) (file_name : List Byte) (file_size : Word) (file_typeflag : Byte)
    (address : Word) (offset : BitVec 32) : Except Fault State :=
  if file_typeflag = chr '0' then addSlot s file_name 1 file_size file_typeflag address offset
  else if file_typeflag = chr '5' then addSlot s file_name 2 file_size file_typeflag address offset
  else .ok s

/-- `file_size` of the header at `p`. -/
def fileSize (m : Memory) (p : Word) : Word := (oct2bin m 11 (p + 124) 0).signExtend 64

/-- `file_typeflag` of the header at `p`. -/
def fileTypeflag (m : Memory) (p : Word) : Byte := m (p + 156)

/-- What is added to `offset`. -/
def offsetBump (file_size : Word) : Word :=
  if file_size = 0 ∨ file_size % 512 = 0 then file_size + 512
  else file_size + (512 - file_size % 512) + 512

/-- `file_number`: an `int`, the headers to go on by. -/
def fileNumber (file_size : Word) (file_typeflag : Byte) : BitVec 32 :=
  let file_number := ((file_size + 511) / 512 + 1).setWidth 32
  if file_typeflag = 0 then file_number + 1 else file_number

/-- `p += file_number`. -/
def nextHeader (m : Memory) (p : Word) : Word :=
  p + 512 * (fileNumber (fileSize m p) (fileTypeflag m p)).signExtend 64

/-- A round of the loop of `tarfs_init`. -/
def tarfsRound (m : Memory) (s : State) : Except Fault State := do
  let file_size := fileSize m s.p
  let file_typeflag := fileTypeflag m s.p
  let name ← (cString m 128 s.p).elim (.error .bufferOverflow) .ok
  let file_name ← strcpy name
  let root_directory := strrevcat file_name rootDirectoryName
  let file_name ← strcpy root_directory
  let address := s.p + file_size
  let offset := s.offset + (offsetBump file_size).setWidth 32
  let s' ← switchTypeflag s file_name file_size file_typeflag address offset
  return { s' with p := nextHeader m s.p, offset := offset }

/-- The condition of the loop: a header before `_binary_tarfs_end` with a name that is not empty. -/
def HeaderLeft (m : Memory) (stop : Word) (s : State) : Prop := s.p < stop ∧ m s.p ≠ 0

instance (m : Memory) (stop : Word) (s : State) : Decidable (HeaderLeft m stop s) :=
  inferInstanceAs (Decidable (_ ∧ _))

def tarfsLoop (m : Memory) (stop : Word) : Nat → State → Except Fault State
  | 0, _ => .error .diverges
  | fuel + 1, s =>
    if HeaderLeft m stop s then do
      let s ← tarfsRound m s
      tarfsLoop m stop fuel s
    else .ok s

/-- The state before the loop. -/
def tarfsStart (start : Word) (vfs : Nat → Tarfs) : Except Fault State := do
  let vfs ← assignVfsSlot 0 (str "/") (-1) 0 5 0 0 vfs
  let vfs ← assignVfsSlot 1 (str "/rootfs/") 0 0 5 0 512 vfs
  return ⟨vfs, 2, start, 512⟩

/-- More rounds than there are addresses. -/
def loopFuel : Nat := 2 ^ 64

def tarfsInit (m : Memory) (start stop : Word) (vfs : Nat → Tarfs) : Except Fault State := do
  let s ← tarfsStart start vfs
  tarfsLoop m stop loopFuel s

/-! ## `get_elf` -/

/-- `sizeof(struct posix_header_ustar)`. -/
def sizeofHeader : Word := 512

/-- The loop of `traverse_tarfs`, from `p` on. -/
def traverseLoop (m : Memory) (stop : Word) (filename : List Byte) :
    Nat → Word → Except Fault Word
  | 0, _ => .error .diverges
  | fuel + 1, p =>
    if p ≤ stop then do
      let name ← (cString m loopFuel p).elim (.error .diverges) .ok
      if strcmp filename name = 0 then return p
      traverseLoop m stop filename fuel (p + 8)
    else .ok 0

/-- `traverse_tarfs`: 0 is `NULL`. -/
def traverseTarfs (m : Memory) (start stop : Word) (filename : List Byte) : Except Fault Word :=
  traverseLoop m stop filename loopFuel start

def getElf (m : Memory) (start stop : Word) (filename : List Byte) : Except Fault Word := do
  let p ← traverseTarfs m start stop filename
  if p = 0 then return 0 else return p + sizeofHeader

end SBUnix.Vfs
