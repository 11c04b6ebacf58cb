import SBUnix.Process.Model
import SBUnix.Paging.FailedAlloc
import SBUnix.Sched.ReadyList
import SBUnix.Tarfs.Model

/-
  Running a program from the archive (`exec_new_binary` of `sys/task.c`).

  The two checks of the header are made one after the other, and each overwrites the result of the
  one before: the magic number decides nothing, and without a `PT_LOAD` header the `mm_struct` that
  is printed next is null. `execNewBinary_missing`, `execNewBinary_checked` and
  `execNewBinary_unloadable` are the ways through a call, and `execNewBinary_ok` is what a call that
  returns has gone through.

  `traverse_tarfs` is embedded here once more, on the kernel's memory, where a read can fault;
  `getElf_vfs` says that what it finds is what the embedding in `Tarfs/Model.lean` finds.
-/

namespace SBUnix

open ByteMem

/-! ## `sys/elf64.c` -/

namespace Kernel

/-- The bytes from `p` up to a NUL, as `%s` and `strlen` read them. -/
def loadString (s : Kernel) : Nat → Word → Except Fault (List Byte)
  | 0, _ => .error .diverges
  | fuel + 1, p => do
    let b ← s.loadByte p
    if b = 0 then return []
    let rest ← s.loadString fuel (p + 1)
    return b :: rest

end Kernel

/-- The loop of `strsubcmp`, for strings of one length. -/
def strsubcmpLoop (s : Kernel) : List Byte → Word → Except Fault Int
  | [], _ => .ok 0
  | c :: str1, str2 => do
    let b ← s.loadByte str2
    if c = b then strsubcmpLoop s str1 (str2 + 1)
    else if c.toInt > b.toInt then return 1 else return -1

/-- `strsubcmp`, with the bytes `[first, last)` of the second string. -/
def strsubcmp (str1 : List Byte) (str2 : Word) (first last : Nat) (s : Kernel) : Except Fault Int :=
  if str1.length > last - first then .ok 1
  else if str1.length < last - first then .ok (-1)
  else strsubcmpLoop s str1 (str2 + BitVec.ofNat 64 first)

def validateElfHeader (ehdr : Word) (s : Kernel) : Except Fault Bool := do
  let _ ← s.loadString Vfs.loopFuel ehdr
  if (← s.loadByte ehdr) = 0x7f then
    if (← strsubcmp (Vfs.str "ELF") ehdr 1 4 s) = 0 then
      let _ ← s.loadBytes (ehdr + 56) 2
      return true
    else return false
  else return false

/-- The loop of `check_elf_loadable`. Four fields of the header found are printed. -/
def loadableLoop (ehdr : Word) (s : Kernel) : Nat → Nat → Except Fault Bool
  | 0, _ => .error .diverges
  | fuel + 1, i => do
    let e_phnum ← s.loadBytes (ehdr + 56) 2
    if i < e_phnum then
      let phdr ← phdrAddr ehdr i s
      let p_type ← s.loadBytes phdr 4
      if p_type = 1 then
        let _ ← s.loadBytes (phdr + 16) 8
        let _ ← s.loadBytes (phdr + 24) 8
        let _ ← s.loadBytes (phdr + 40) 8
        let _ ← s.loadBytes (phdr + 32) 8
        return true
      else loadableLoop ehdr s fuel (i + 1)
    else return false

def checkElfLoadable (ehdr : Word) (s : Kernel) : Except Fault Bool :=
  loadableLoop ehdr s (2 ^ 16) 0

/-! ## `exec_new_binary` -/

/-- The kernel's memory and its scheduler. -/
structure System where
  kernel : Kernel
  sched : Sched

/-- The loop of `traverse_tarfs`, from `p` on. The size of each header is read, and printed when
    the name is the one. -/
def traverseLoop (stop : Word) (filename : List Byte) (s : Kernel) : Nat → Word → Except Fault Word
  | 0, _ => .error .diverges
  | fuel + 1, p =>
    if p ≤ stop then do
      let _ ← s.loadBytes (p + 124) 11
      let name ← s.loadString Vfs.loopFuel p
      if Vfs.strcmp filename name = 0 then return p
      traverseLoop stop filename s fuel (p + 8)
    else .ok 0

def traverseTarfs (start stop : Word) (filename : List Byte) (s : Kernel) : Except Fault Word :=
  traverseLoop stop filename s Vfs.loopFuel start

/-- `get_elf`: 0 is `NULL`. -/
def getElf (start stop : Word) (filename : List Byte) (s : Kernel) : Except Fault Word := do
  let p ← traverseTarfs start stop filename s
  if p = 0 then return 0 else return p + Vfs.sizeofHeader

/-- Load and create the process: its pcb's address, the pcb, and the state. `create_process` begins
    with `kmalloc_user`, which returns the heap top. -/
def loadProcess (p : Word) (s : Kernel) : Except Fault (Word × Pcb × Kernel) := do
  let (head, s) ← loadElfVmas p s
  let firstProcess := s.topVirtualAddress
  let (pcb, _, s) ← createProcess head s
  return (firstProcess, pcb, s)

def execNewBinary (start stop : Word) (filename : List Byte) (t : System) :
    Except Fault (Word × System) := do
  let p ← getElf start stop filename t.kernel
  if p = 0 then return (0, t)
  let _ ← t.kernel.loadByte p
  let _ ← t.kernel.loadByte (p + 1)
  let _ ← validateElfHeader p t.kernel
  let result ← checkElfLoadable p t.kernel
  -- `head` stays null, and `head->mmap` is printed
  if result = false then .error .nullDeref
  else
    let (firstProcess, pcb, s) ← loadProcess p t.kernel
    let sched ← scheduleUserProcess firstProcess (t.sched.setPcb firstProcess fun _ => pcb)
    return (1, ⟨s, sched⟩)

/-! ## The lookup -/

section Lookup

variable {m : Vfs.Memory} {start stop p : Word} {filename name : List Byte} {s : Kernel}
  {fuel : Nat}

theorem loadString_vfs (hm : ∀ v b, s.loadByte v = .ok b → m v = b)
    (h : s.loadString fuel p = .ok name) : Vfs.cString m fuel p = some name := by
  induction fuel generalizing p name with
  | zero => cases h
  | succ fuel ih =>
    obtain ⟨b, hb, h⟩ := bind_eq_ok.mp h
    rw [Vfs.cString, hm p b hb]
    split_ifs at h ⊢
    · obtain rfl := Except.ok.inj h
      rfl
    · obtain ⟨rest, hrest, h⟩ := bind_eq_ok.mp h
      obtain rfl := Except.ok.inj h
      rw [ih hrest]
      rfl

/-- What is found in memory where nothing faults is found. -/
theorem traverseLoop_vfs (hm : ∀ v b, s.loadByte v = .ok b → m v = b) {q : Word}
    (h : traverseLoop stop filename s fuel q = .ok p) :
    Vfs.traverseLoop m stop filename fuel q = .ok p := by
  induction fuel generalizing q with
  | zero => cases h
  | succ fuel ih =>
    rw [traverseLoop] at h
    rw [Vfs.traverseLoop]
    split_ifs at h ⊢ with hstop
    · obtain ⟨size, -, h⟩ := bind_eq_ok.mp h
      obtain ⟨name, hname, h⟩ := bind_eq_ok.mp h
      rw [loadString_vfs hm hname]
      simp only [Option.elim_some, ok_bind]
      split_ifs at h ⊢
      · exact congrArg _ (Except.ok.inj h)
      · exact ih h
    · exact congrArg _ (Except.ok.inj h)

/-- A lookup that returns is that of the file system, on any memory that has the readable bytes. -/
theorem getElf_vfs (hm : ∀ v b, s.loadByte v = .ok b → m v = b)
    (h : getElf start stop filename s = .ok p) : Vfs.getElf m start stop filename = .ok p := by
  obtain ⟨q, hq, h⟩ := bind_eq_ok.mp h
  have hfound : Vfs.traverseTarfs m start stop filename = .ok q := traverseLoop_vfs hm hq
  unfold Vfs.getElf
  rw [hfound, ok_bind]
  split_ifs at h ⊢
  · exact congrArg _ (Except.ok.inj h)
  · exact congrArg _ (Except.ok.inj h)

end Lookup

/-! ## The heap top while a program is loaded -/

section Top

variable {size ehdr : Word} {s t : Kernel} {fuel i : Nat} {vmas vmas' : List VmAreaStruct}

theorem kmallocStruct_top (h : kmallocStruct size s = .ok t) :
    t.topVirtualAddress = pageAt s.topVirtualAddress (1 + noOfPages size).toNat := by
  obtain ⟨⟨p, t'⟩, hrun, hrest⟩ := bind_eq_ok.mp h
  dsimp only at hrest
  split_ifs at hrest with hp
  obtain rfl := Except.ok.inj hrest
  have hsucceeds : (AllocCall.kmallocUser size).Succeeds (1 + noOfPages size).toNat s t' :=
    kmallocLoop_ok hrun hp
  exact hsucceeds.top

theorem pageAt_pageAt (v : Word) (j k : Nat) : pageAt (pageAt v j) k = pageAt v (j + k) := by
  apply BitVec.eq_of_toNat_eq
  unfold pageAt
  rw [BitVec.toNat_ofNat, BitVec.toNat_ofNat, BitVec.toNat_ofNat, Nat.mod_add_mod]
  congr 1
  omega

/-- Two pages for each area. -/
theorem vmasLoop_top (h : vmasLoop ehdr fuel i vmas s = .ok (vmas', t)) :
    ∃ k ≤ fuel, t.topVirtualAddress = pageAt s.topVirtualAddress (2 * k) := by
  induction fuel generalizing i vmas s with
  | zero => cases h
  | succ fuel ih =>
    obtain ⟨e_phnum, -, h⟩ := bind_eq_ok.mp h
    split_ifs at h
    · obtain ⟨phdr, -, h⟩ := bind_eq_ok.mp h
      obtain ⟨p_type, -, h⟩ := bind_eq_ok.mp h
      split_ifs at h
      · obtain ⟨s₁, halloc, h⟩ := bind_eq_ok.mp h
        obtain ⟨vma, -, h⟩ := bind_eq_ok.mp h
        obtain ⟨k, hk, htop⟩ := ih h
        refine ⟨k + 1, by omega, ?_⟩
        rw [htop, kmallocStruct_top halloc,
          show (1 + noOfPages sizeofVmAreaStruct).toNat = 2 by decide, pageAt_pageAt]
        congr 1
        omega
      · obtain ⟨k, hk, htop⟩ := ih h
        exact ⟨k, by omega, htop⟩
    · obtain ⟨-, rfl⟩ := Prod.mk.inj (Except.ok.inj h)
      exact ⟨0, by omega, (pageAt_zero _).symm⟩

theorem loadElfVmas_top {head : MmStruct} (h : loadElfVmas ehdr s = .ok (head, t)) :
    ∃ k ≤ 2 ^ 16, t.topVirtualAddress = pageAt s.topVirtualAddress (2 * (k + 3)) := by
  obtain ⟨s₁, hmm, h⟩ := bind_eq_ok.mp h
  obtain ⟨⟨vmas, s₂⟩, hloop, h⟩ := bind_eq_ok.mp h
  obtain ⟨s₃, hstack, h⟩ := bind_eq_ok.mp h
  obtain ⟨s₄, hheap, h⟩ := bind_eq_ok.mp h
  obtain ⟨e_entry, -, h⟩ := bind_eq_ok.mp h
  obtain ⟨-, rfl⟩ := Prod.mk.inj (Except.ok.inj h)
  obtain ⟨k, hk, htop⟩ := vmasLoop_top hloop
  have htwo : (1 + noOfPages sizeofVmAreaStruct).toNat = 2 := by decide
  have hmm' : (1 + noOfPages sizeofMmStruct).toNat = 2 := by decide
  refine ⟨k, hk, ?_⟩
  rw [kmallocStruct_top hheap, kmallocStruct_top hstack, htop, kmallocStruct_top hmm, htwo, hmm',
    pageAt_pageAt, pageAt_pageAt, pageAt_pageAt]
  congr 1
  omega

/-- The new pcb lies at or above the heap top. -/
theorem loadProcess_pcb {p w : Word} {pcb : Pcb} (h : loadProcess p s = .ok (w, pcb, t))
    (hroom : s.topVirtualAddress.toNat + 2 ^ 30 ≤ 2 ^ 64) :
    w ≠ 0 ∧ s.topVirtualAddress.toNat ≤ w.toNat := by
  obtain ⟨⟨head, s₁⟩, hload, h⟩ := bind_eq_ok.mp h
  obtain ⟨⟨pcb', head', s₂⟩, -, h⟩ := bind_eq_ok.mp h
  obtain ⟨rfl, -⟩ := Prod.mk.inj (Except.ok.inj h)
  obtain ⟨k, hk, htop⟩ := loadElfVmas_top hload
  have hnat : (pageAt s.topVirtualAddress (2 * (k + 3))).toNat =
      s.topVirtualAddress.toNat + 4096 * (2 * (k + 3)) := pageAt_toNat (by omega)
  rw [htop, ne_zero_iff_toNat, hnat]
  omega

end Top

/-! ## Queueing -/

theorem appendReady_pidCount {p : Word} {s s' : Sched} (h : appendReady p s = .ok s') :
    s'.pidCount = s.pidCount := by
  unfold appendReady at h
  split_ifs at h
  · obtain rfl := Except.ok.inj h
    rfl
  · obtain ⟨q, -, h⟩ := bind_eq_ok.mp h
    obtain rfl := Except.ok.inj h
    rfl

/-- Scheduling a pcb that is not queued. -/
theorem scheduleUserProcess_spec {p : Word} {s : Sched} {l : List Word} (g : Pcb)
    (h : ReadyChain s.pcbs s.readyProcesses l) (hp : p ≠ 0) (hpl : p ∉ l) :
    ∃ s', scheduleUserProcess p (s.setPcb p fun _ => g) = .ok s' ∧
      ReadyChain s'.pcbs s'.readyProcesses (l ++ [p]) ∧ s'.pidCount = 1 + s.pidCount := by
  unfold scheduleUserProcess
  dsimp only
  generalize hs₁ : ((s.setPcb p fun _ => g).setPcb p _) = s₁
  have hchain : ReadyChain s₁.pcbs s.readyProcesses l := by
    refine h.congr fun q hq => ?_
    have hqp : q ≠ p := fun he => hpl (he ▸ hq)
    rw [← hs₁, pcbs_setPcb_of_ne _ _ _ hqp, pcbs_setPcb_of_ne _ _ _ hqp]
  have hready : s₁.readyProcesses = s.readyProcesses := by
    rw [← hs₁]
    rfl
  have hcount : s₁.pidCount = s.pidCount := by
    rw [← hs₁]
    rfl
  obtain ⟨s', hrun, happend, -⟩ := appendReady_spec
    (s := { s₁ with pidCount := 1 + s₁.pidCount }) (hready ▸ hchain) hp hpl
  refine ⟨s', hrun, happend, ?_⟩
  rw [appendReady_pidCount hrun, ← hcount]

/-! ## The ways through a call -/

section Exec

variable {start stop p : Word} {filename : List Byte} {t t' : System}

/-- A missing member. -/
theorem execNewBinary_missing (h : getElf start stop filename t.kernel = .ok 0) :
    execNewBinary start stop filename t = .ok (0, t) := by
  unfold execNewBinary
  rw [h, ok_bind, if_pos rfl]
  rfl

/-- The header of a valid program starts with the magic number, so its first bytes can be read. -/
theorem loadByte_of_valid (h : validateElfHeader p t.kernel = .ok true) :
    (∃ b, t.kernel.loadByte p = .ok b) ∧ ∃ b, t.kernel.loadByte (p + 1) = .ok b := by
  obtain ⟨-, -, h⟩ := bind_eq_ok.mp h
  obtain ⟨b, hb, h⟩ := bind_eq_ok.mp h
  refine ⟨⟨b, hb⟩, ?_⟩
  split_ifs at h
  · obtain ⟨r, hr, -⟩ := bind_eq_ok.mp h
    unfold strsubcmp at hr
    rw [if_neg (by decide), if_neg (by decide)] at hr
    obtain ⟨b', hb', -⟩ := bind_eq_ok.mp hr
    exact ⟨b', hb'⟩
  · cases h

/-- A member that passes both checks. -/
theorem execNewBinary_checked (hp : p ≠ 0) (helf : getElf start stop filename t.kernel = .ok p)
    (hvalid : validateElfHeader p t.kernel = .ok true)
    (hload : checkElfLoadable p t.kernel = .ok true) :
    execNewBinary start stop filename t = (do
      let (firstProcess, pcb, s) ← loadProcess p t.kernel
      let sched ← scheduleUserProcess firstProcess (t.sched.setPcb firstProcess fun _ => pcb)
      return (1, ⟨s, sched⟩)) := by
  obtain ⟨⟨b, hb⟩, b', hb'⟩ := loadByte_of_valid hvalid
  unfold execNewBinary
  rw [helf, ok_bind, if_neg hp, hb, ok_bind, hb', ok_bind, hvalid, ok_bind, hload, ok_bind,
    if_neg (by decide)]

/-- What a call that returns has gone through. -/
theorem execNewBinary_ok {r : Word} (h : execNewBinary start stop filename t = .ok (r, t')) :
    ∃ p, getElf start stop filename t.kernel = .ok p ∧
      ((p = 0 ∧ r = 0 ∧ t' = t) ∨ (p ≠ 0 ∧ r = 1 ∧ checkElfLoadable p t.kernel = .ok true ∧
        ∃ x, loadProcess p t.kernel = .ok x)) := by
  obtain ⟨p, helf, h⟩ := bind_eq_ok.mp h
  refine ⟨p, helf, ?_⟩
  split_ifs at h with hp
  · obtain ⟨rfl, rfl⟩ := Prod.mk.inj (Except.ok.inj h)
    exact Or.inl ⟨hp, rfl, rfl⟩
  · obtain ⟨-, -, h⟩ := bind_eq_ok.mp h
    obtain ⟨-, -, h⟩ := bind_eq_ok.mp h
    obtain ⟨-, -, h⟩ := bind_eq_ok.mp h
    obtain ⟨result, hresult, h⟩ := bind_eq_ok.mp h
    split_ifs at h with hfalse
    obtain ⟨x, hx, h⟩ := bind_eq_ok.mp h
    obtain ⟨sched, -, h⟩ := bind_eq_ok.mp h
    obtain ⟨rfl, -⟩ := Prod.mk.inj (Except.ok.inj h)
    rw [Bool.not_eq_false] at hfalse
    exact Or.inr ⟨hp, rfl, hfalse ▸ hresult, x, hx⟩

/-- Without a `PT_LOAD` header, whatever the magic number: the null `mm_struct` is read. -/
theorem execNewBinary_unloadable {b b' : Byte} {valid : Bool} (hp : p ≠ 0)
    (helf : getElf start stop filename t.kernel = .ok p) (hb : t.kernel.loadByte p = .ok b)
    (hb' : t.kernel.loadByte (p + 1) = .ok b') (hvalid : validateElfHeader p t.kernel = .ok valid)
    (hload : checkElfLoadable p t.kernel = .ok false) :
    execNewBinary start stop filename t = .error .nullDeref := by
  unfold execNewBinary
  rw [helf, ok_bind, if_neg hp, hb, ok_bind, hb', ok_bind, hvalid, ok_bind, hload, ok_bind,
    if_pos rfl]

end Exec

end SBUnix
