import SBUnix.Process.Create

/-
  Processes one after the other (`create_process` and `create_dummy_process` of `sys/task.c`).

  `Tasks` is the kernel with the processes that it has created. They are created by any code that
  runs in any of the address spaces, the kernel allocates on its heap in between, the scheduler
  loads the address space of a process, and the process that runs stores into its user half. Each
  creation takes a pcb at the heap top (`LoadReady.newPcb`) and adds one address space
  (`LoadReady.createSpace_step`, `LoadReady.createSpace_nil`).
-/

namespace SBUnix

open ByteMem Radix

/-! ## The model -/

/-- `create_dummy_process`, with the address of the pcb. -/
def createDummyProcess (s : Kernel) : Except Fault (Word × Pcb × Kernel) := do
  let newProcess := s.topVirtualAddress
  let s ← kmallocStruct sizeofPcb s
  let (cr3, s) ← s.takeFrame
  let (_, s) ← createNewUserPml4 cr3 s
  return (newProcess, { zeroPcb with cr3 := cr3, timeRemaining := 3 }, s)

/-- The kernel, and the processes with the addresses of their pcbs. -/
structure Tasks where
  kernel : Kernel
  processes : List (Word × Pcb)

/-- What changes the memory. `setCr3` is how `generate_timer` resumes process `i`, and `store` a
    store of its code, in user mode. -/
inductive TaskEvent where
  | createProcess (head : MmStruct)
  | createDummyProcess
  | kmallocUser (size : Word)
  | setCr3 (i : Nat)
  | store (i : Nat) (v : Word) (b : Byte)

namespace Tasks

def step (t : Tasks) : TaskEvent → Except Fault Tasks
  | .createProcess head => do
    let (pcb, _, s) ← SBUnix.createProcess head t.kernel
    return ⟨s, t.processes ++ [(t.kernel.topVirtualAddress, pcb)]⟩
  | .createDummyProcess => do
    let (newProcess, pcb, s) ← SBUnix.createDummyProcess t.kernel
    return ⟨s, t.processes ++ [(newProcess, pcb)]⟩
  | .kmallocUser size => do
    let s ← kmallocStruct size t.kernel
    return { t with kernel := s }
  | .setCr3 i =>
    match t.processes[i]? with
    | some (_, pcb) => .ok { t with kernel := t.kernel.setCr3 pcb.cr3 }
    | none => .error .nullDeref
  | .store _ v b => do
    let s ← t.kernel.storeByte v b
    return { t with kernel := s }

/-- The list is one of `load_elf_vmas` whose areas can be loaded. The process that stores runs, and
    the address is one of its user half. -/
def Allowed (t : Tasks) : TaskEvent → Prop
  | .createProcess head => ∃ files, head.mmap = elfAreas files ∧ FileAreas files
  | .store i v _ => Canonical v ∧ UserAddr v ∧
      ∃ p, t.processes[i]? = some p ∧ t.kernel.cr3 = p.2.cr3
  | _ => True

def Step (t : Tasks) (e : TaskEvent) (t' : Tasks) : Prop := t.Allowed e ∧ t.step e = .ok t'

end Tasks

/-- The pages that a step takes of the heap. -/
def TaskEvent.pages : TaskEvent → Nat
  | .createProcess _ => 4
  | .createDummyProcess => 4
  | .kmallocUser size => (1 + noOfPages size).toNat
  | .setCr3 _ => 0
  | .store _ _ _ => 0

/-- The frames that a step may take: each page takes one, and at most three tables. -/
def TaskEvent.frames : TaskEvent → Nat
  | .createProcess head => 16 + 4 * (processPages head.mmap).length
  | e => 4 * e.pages

/-! ## The pcb -/

/-- The pages of the pcb at `p` are the frames `gs`, in every address space. The first page is the
    kernel stack. -/
structure PcbAt (roots : Set Frame) (fs : List Frame) (s : Kernel) (p : Word) (gs : List Frame) :
    Prop where
  aligned : p.toNat % 4096 = 0
  high : 2 ^ 64 - 2 ^ 39 ≤ p.toNat
  below : p.toNat + 4096 * 3 ≤ s.topVirtualAddress.toNat
  length : gs.length = 3
  nodup : gs.Nodup
  mapped : ∀ r ∈ roots, ∀ i (hi : i < gs.length), translatePage s.mem r (pageAt p i) = some gs[i]
  data : ∀ f ∈ gs, DataFrame roots fs s.mem f

section Pcb

variable {roots roots' : Set Frame} {fs fs' gs : List Frame} {s s' : Kernel} {p : Word} {n : Nat}

theorem PcbAt.slot (h : PcbAt roots fs s p gs) {i : Nat} (hi : i < gs.length) :
    pml4Idx (pageAt p i) = kernelSlot := by
  have hhigh := h.high
  have hbelow := h.below
  have hlen := h.length
  have htop := s.topVirtualAddress.isLt
  refine pml4Idx_of_kernelSlot ?_
  rw [pageAt_toNat (by omega)]
  omega

/-- A step leaves the pcb where it is. -/
theorem PcbAt.keeps (h : PcbAt roots fs s p gs) (hk : Keeps roots roots' fs fs' s s')
    (hr : s.root ∈ roots) (hs' : LoadReady roots' fs' s') : PcbAt roots' fs' s' p gs where
  aligned := h.aligned
  high := h.high
  below := h.below.trans hk.top
  length := h.length
  nodup := h.nodup
  mapped r hr' i hi := by
    have hslot := h.slot hi
    rw [hs'.owned.translatePage_kernel (hk.created hr) hr' hslot]
    exact hk.kept s.root hr _ _ (by rw [hslot]; decide) (h.mapped s.root hr i hi)
  data f hf := hk.data f (h.data f hf)

/-- A struct of `n` pages on the kernel heap, and the frames of its pages. -/
theorem LoadReady.kmallocStruct_pages (h : LoadReady roots fs s) {size : Word}
    (hn : (1 + noOfPages size).toNat = n) (hlen : 4 * n ≤ fs.length)
    (hwrap : s.topVirtualAddress.toNat + 4096 * n < 2 ^ 64)
    (hok : SBUnix.kmallocStruct size s = .ok s') :
    ∃ gs fs', LoadStep roots roots n (4 * n) fs fs' s s' ∧ gs.length = n ∧
      MappedRun roots gs fs fs' s.topVirtualAddress s s' := by
  obtain ⟨gs, fs', s₁, hloop, hgs, htop, hrun⟩ := h.owned.mapRun advancesBy_advanceTop
    entryFlags_pageUser s.topVirtualAddress n h.present h.nonzero hlen (h.runReady hwrap)
  have hcall : kmallocUser size s = .ok (s.topVirtualAddress, s₁) := by
    unfold kmallocUser
    rw [hn]
    exact hloop
  unfold SBUnix.kmallocStruct at hok
  rw [hcall, ok_bind] at hok
  dsimp only at hok
  split_ifs at hok
  obtain rfl := Except.ok.inj hok
  exact ⟨gs, fs', hrun.loadStep h hwrap hgs htop, hgs, hrun⟩

theorem sizeofPcb_pages : (1 + noOfPages sizeofPcb).toNat = 3 := by decide

/-- A new pcb lies at the heap top, in frames that were free. -/
theorem LoadReady.newPcb (h : LoadReady roots fs s) (hlen : 12 ≤ fs.length)
    (hwrap : s.topVirtualAddress.toNat + 4096 * 3 < 2 ^ 64)
    (hok : SBUnix.kmallocStruct sizeofPcb s = .ok s') :
    ∃ gs fs', LoadStep roots roots 3 12 fs fs' s s' ∧ PcbAt roots fs' s' s.topVirtualAddress gs ∧
      ∀ f ∈ gs, f ∈ fs := by
  obtain ⟨gs, fs', hstep, hgs, hrun⟩ := h.kmallocStruct_pages sizeofPcb_pages hlen hwrap hok
  have htop := hstep.top
  refine ⟨gs, fs', hstep, ⟨h.addrs.topAligned, h.topSlot, by omega, hgs, hrun.nodup,
    fun r hr i hi => ?_, fun f hf => ⟨(hrun.taken f hf).2.2, (hrun.taken f hf).2.1⟩⟩,
    fun f hf => (hrun.taken f hf).1⟩
  have hslot := h.topSlot
  have hkernel : pml4Idx (pageAt s.topVirtualAddress i) = kernelSlot := by
    refine pml4Idx_of_kernelSlot ?_
    rw [pageAt_toNat (by omega)]
    omega
  rw [hstep.ready.owned.translatePage_kernel h.owned.loaded hr hkernel]
  exact hrun.mapped i hi

end Pcb

/-! ## The address space -/

/-- `create_process` behind the pcb. -/
def createSpace (head : MmStruct) (s : Kernel) : Except Fault (Pcb × MmStruct × Kernel) := do
  let (process_cr3, s) ← s.takeFrame
  let (_, s) ← createNewUserPml4 process_cr3 s
  let old_cr3 := s.cr3
  let pcb := { zeroPcb with cr3 := process_cr3, eEntry := head.eEntry }
  let (areas, pcb, s) ← createAreas process_cr3 old_cr3 head.elfHead head.mmap pcb s
  return (pcb, { head with mmap := areas }, s)

section Space

variable {roots : Set Frame} {fs : List Frame} {s s' : Kernel} {head head' : MmStruct}
  {files : List VmAreaStruct} {pcb : Pcb}

theorem createProcess_eq (head : MmStruct) (s : Kernel) :
    createProcess head s = (do
      let s ← kmallocStruct sizeofPcb s
      createSpace head s) := rfl

/-- A dummy process is one without areas. -/
theorem createDummyProcess_eq (s : Kernel) : createDummyProcess s = (do
    let s₁ ← kmallocStruct sizeofPcb s
    let (pcb, _, s') ← createSpace ⟨[], 0, 0⟩ s₁
    return (s.topVirtualAddress, { pcb with timeRemaining := 3 }, s')) := by
  unfold createDummyProcess
  cases kmallocStruct sizeofPcb s with
  | error e => rfl
  | ok s₁ =>
    unfold createSpace
    rw [ok_bind, ok_bind]
    cases s₁.takeFrame with
    | error e => rfl
    | ok r =>
      obtain ⟨cr3, s₂⟩ := r
      rw [ok_bind, ok_bind]
      dsimp only
      cases createNewUserPml4 cr3 s₂ <;> rfl

/-- The stack's and the heap's areas have no pages of the file. -/
theorem length_processPages_elfAreas (files : List VmAreaStruct) :
    (processPages (elfAreas files)).length = (processPages files).length := by
  have hnil : ∀ type, (⟨0#64, 0#64, 0#64, type⟩ : VmAreaStruct).pages = [] := by
    intro type
    cases type <;> decide
  simp [processPages, elfAreas, hnil]

/-- The areas are created in an address space that has nothing in its user half. -/
theorem LoadReady.beginSpace (h : LoadReady roots fs s) (hlen : 4 ≤ fs.length)
    (hroom : s.topVirtualAddress.toNat + 4096 < 2 ^ 64) :
    ∃ g fs' s₁, g ∈ fs ∧ LoadStep roots (insert g roots) 1 4 fs fs' s s₁ ∧
      (∀ w, UserAddr w → translatePage s₁.mem g w = none) ∧
      ∀ head, createSpace head s = (do
        let (areas, pcb, s₂) ← createAreas g.addr s₁.cr3 head.elfHead head.mmap
          { zeroPcb with cr3 := g.addr, eEntry := head.eEntry } s₁
        return (pcb, { head with mmap := areas }, s₂)) := by
  obtain ⟨g, v, fs', s₁, hpml4, hg, hstep, hempty⟩ := h.newUserPml4 hlen hroom
  refine ⟨g, fs', s₁, hg, hstep, hempty, fun head => ?_⟩
  obtain ⟨⟨p, t⟩, htake, hpml4⟩ := bind_eq_ok.mp hpml4
  obtain ⟨⟨r, t'⟩, hcreate, hpml4⟩ := bind_eq_ok.mp hpml4
  obtain ⟨rfl, hrest⟩ := Prod.mk.inj (Except.ok.inj hpml4)
  obtain ⟨-, rfl⟩ := Prod.mk.inj hrest
  unfold createSpace
  rw [htake, ok_bind]
  dsimp only
  rw [hcreate, ok_bind]

theorem FileAreas.areasReady {fs₁ : List Frame} {g : Frame} (h : FileAreas files)
    (hfew : fs.length ≤ fs₁.length + 4) (hframes : 4 + 4 * (processPages files).length ≤ fs.length)
    (hempty : ∀ v, UserAddr v → translatePage s.mem g v = none) : AreasReady g files fs₁ s where
  absent area harea p hp :=
    hempty p (h.page (mem_processPages.mpr (Or.inl ⟨area, harea, hp⟩))).2
  stack := hempty _ ⟨by decide, by decide⟩
  frames := by omega

/-- The address space of a process is a step that adds it. Its pages are data. -/
theorem LoadReady.createSpace_step (h : LoadReady roots fs s) (hlist : head.mmap = elfAreas files)
    (hfiles : FileAreas files) (hframes : 4 + 4 * (processPages head.mmap).length ≤ fs.length)
    (hroom : s.topVirtualAddress.toNat + 4096 < 2 ^ 64)
    (hok : createSpace head s = .ok (pcb, head', s')) :
    ∃ fs', LoadStep roots (insert (frameOf pcb.cr3) roots) 1
        (4 + 4 * (processPages head.mmap).length) fs fs' s s' ∧
      NewProcess roots fs head s pcb s' ∧
      ∀ v f, Canonical v → UserAddr v → translatePage s'.mem (frameOf pcb.cr3) v = some f →
        DataFrame (insert (frameOf pcb.cr3) roots) fs' s'.mem f := by
  rw [hlist, length_processPages_elfAreas] at hframes
  obtain ⟨g, fs₁, s₁, hg, hbegin, hempty, hcreate⟩ := h.beginSpace (by omega) hroom
  have hfew := hbegin.few
  rw [hcreate, hlist] at hok
  obtain ⟨⟨areas, pcb₁, s₂⟩, hareas, hok⟩ := bind_eq_ok.mp hok
  obtain ⟨rfl, hrest⟩ := Prod.mk.inj (Except.ok.inj hok)
  obtain ⟨-, rfl⟩ := Prod.mk.inj hrest
  obtain ⟨hpcb, gs, fs₂, hstep⟩ := hbegin.ready.createAreas_step (Or.inl rfl) hfiles
    (hfiles.areasReady hfew hframes hempty) hareas
  have hcr3 : frameOf pcb₁.cr3 = g := by
    rw [hpcb]
    exact frameOf_addr g
  refine ⟨fs₂, ?_, hstep.newProcess h.owned hg hbegin hempty hfiles hlist hcr3 (by rw [hpcb]), ?_⟩
  · rw [hcr3, hlist, length_processPages_elfAreas]
    refine ⟨hstep.ready, hstep.cr3.trans hbegin.cr3, hbegin.keeps.trans hstep.keeps,
      fun r hr v hv => ?_, fun f hf => hbegin.left f (hstep.left f hf), ?_, ?_⟩
    · have hne : r ≠ g := fun hrg => h.owned.unused g hg (hrg ▸ isTable_root hr (by decide))
      exact (hstep.user r (Or.inr hr) hne v hv).trans (hbegin.user r hr v hv)
    · have := hstep.few
      omega
    · rw [hstep.top, hbegin.top]
  · intro v f hv huser hf
    rw [hcr3] at hf ⊢
    obtain ⟨p, hp, hpv⟩ := hstep.mapped_page (fun p hp => (hfiles.page hp).1) hv huser.1
      (hempty v huser) (by rw [hf]; simp)
    obtain ⟨f', hf', hpf⟩ := hstep.page hp
    rw [translatePage_of_page_eq _ _ hpv, hf] at hpf
    obtain rfl := Option.some.inj hpf
    exact (hstep.taken f hf').2

/-- The address space is created when the bytes that are copied are mapped. -/
theorem LoadReady.createSpace_returns (h : LoadReady roots fs s)
    (hlist : head.mmap = elfAreas files) (hfiles : FileAreas files)
    (hframes : 4 + 4 * (processPages head.mmap).length ≤ fs.length)
    (hroom : s.topVirtualAddress.toNat + 4096 < 2 ^ 64)
    (hsource : ∀ area ∈ files, SourceMapped s.root head.elfHead s area) :
    ∃ pcb head' s', createSpace head s = .ok (pcb, head', s') := by
  rw [hlist, length_processPages_elfAreas] at hframes
  obtain ⟨g, fs₁, s₁, hg, hbegin, hempty, hcreate⟩ := h.beginSpace (by omega) hroom
  have hroot : g ∈ insert g roots := Or.inl rfl
  have hsource₁ : ∀ area ∈ files, SourceMapped g head.elfHead s₁ area := fun area harea =>
    ((hsource area harea).keeps hbegin.keeps h.owned.loaded).of_kernel hbegin.ready.owned
      (Or.inr h.owned.loaded) hroot
  obtain ⟨areas, pcb, s', hareas⟩ := hbegin.ready.createAreas_returns hroot hfiles
    (hfiles.areasReady hbegin.few hframes hempty) hsource₁
    { zeroPcb with cr3 := g.addr, eEntry := head.eEntry }
  rw [hcreate, hlist, hareas]
  exact ⟨_, _, _, rfl⟩

/-- The address space of a dummy process has nothing in its user half. -/
theorem LoadReady.createSpace_nil (h : LoadReady roots fs s) (hlen : 4 ≤ fs.length)
    (hroom : s.topVirtualAddress.toNat + 4096 < 2 ^ 64) :
    ∃ pcb fs' s', createSpace ⟨[], 0, 0⟩ s = .ok (pcb, ⟨[], 0, 0⟩, s') ∧
      LoadStep roots (insert (frameOf pcb.cr3) roots) 1 4 fs fs' s s' ∧
      ∀ v, UserAddr v → translatePage s'.mem (frameOf pcb.cr3) v = none := by
  obtain ⟨g, fs', s', -, hstep, hempty, hcreate⟩ := h.beginSpace hlen hroom
  rw [← frameOf_addr g] at hstep hempty
  exact ⟨{ zeroPcb with cr3 := g.addr, eEntry := 0 }, fs', s', by rw [hcreate]; rfl, hstep, hempty⟩

end Space

/-! ## What a step can do -/

/-- `v` is mapped to `f` in the user half of `p`. -/
structure Backs (mem : Mem) (p : Word × Pcb) (v : Word) (f : Frame) : Prop where
  canonical : Canonical v
  user : UserAddr v
  mapped : translatePage mem (frameOf p.2.cr3) v = some f

/-- `p` is a new process: its pcb was taken at the heap top, then its address space was created from
    what was still free. -/
structure Created (roots : Set Frame) (fs fs' : List Frame) (s s' : Kernel) (p : Word × Pcb)
    (covers : Word → Prop) (c : Nat) : Prop where
  steps : ∃ fs₁ s₁ gs, LoadStep roots roots 3 12 fs fs₁ s s₁ ∧ PcbAt roots fs₁ s₁ p.1 gs ∧
    (∀ f ∈ gs, f ∈ fs) ∧ LoadStep roots (insert (frameOf p.2.cr3) roots) 1 c fs₁ fs' s₁ s' ∧
    ∀ v f, Backs s'.mem p v f → f ∈ fs₁
  address : p.1 = s.topVirtualAddress
  covered : ∀ v, Canonical v → UserAddr v →
    (translatePage s'.mem (frameOf p.2.cr3) v ≠ none ↔ covers v)
  data : ∀ v f, Backs s'.mem p v f → DataFrame (insert (frameOf p.2.cr3) roots) fs' s'.mem f
  own : ∀ v w f, Backs s'.mem p v f → Backs s'.mem p w f → v.toNat / 4096 = w.toNat / 4096

/-- The user addresses of a new process. -/
def TaskEvent.Covers (e : TaskEvent) (v : Word) : Prop :=
  match e with
  | .createProcess head =>
    (∃ area ∈ head.mmap, area.Overlaps v) ∨ v.toNat / 4096 = stackPage.toNat / 4096
  | _ => False

/-- What a step does to a kernel with the address spaces `roots` and the free frames `fs`. -/
inductive Effect (roots : Set Frame) (fs : List Frame) (t : Tasks) :
    TaskEvent → Set Frame → List Frame → Tasks → Prop
  | createProcess (head : MmStruct) (p : Word × Pcb) (fs' : List Frame) (s' : Kernel)
      (created : Created roots fs fs' t.kernel s' p (TaskEvent.createProcess head).Covers
        (4 + 4 * (processPages head.mmap).length)) :
      Effect roots fs t (.createProcess head) (insert (frameOf p.2.cr3) roots) fs'
        ⟨s', t.processes ++ [p]⟩
  | createDummyProcess (p : Word × Pcb) (fs' : List Frame) (s' : Kernel)
      (created : Created roots fs fs' t.kernel s' p TaskEvent.createDummyProcess.Covers 4) :
      Effect roots fs t .createDummyProcess (insert (frameOf p.2.cr3) roots) fs'
        ⟨s', t.processes ++ [p]⟩
  | kmallocUser (size : Word) (fs' : List Frame) (s' : Kernel)
      (step : LoadStep roots roots (1 + noOfPages size).toNat (4 * (1 + noOfPages size).toNat)
        fs fs' t.kernel s') :
      Effect roots fs t (.kmallocUser size) roots fs' ⟨s', t.processes⟩
  | setCr3 (i : Nat) (p : Word × Pcb) (there : t.processes[i]? = some p) :
      Effect roots fs t (.setCr3 i) roots fs ⟨t.kernel.setCr3 p.2.cr3, t.processes⟩
  | store (i : Nat) (v : Word) (b : Byte) (p : Word × Pcb) (f : Frame)
      (there : t.processes[i]? = some p) (backs : Backs t.kernel.mem p v f) :
      Effect roots fs t (.store i v b) roots fs
        ⟨{ t.kernel with mem := writeByte t.kernel.mem (f.toNat * 4096 + (pageOff v).toNat) b },
          t.processes⟩

section Effect

variable {roots roots' : Set Frame} {fs fs' : List Frame} {t t' : Tasks} {e : TaskEvent}
  {s s' : Kernel} {head head' : MmStruct} {pcb : Pcb}

theorem storeByte_ok {v : Word} {b : Byte} (h : s.storeByte v b = .ok s') :
    ∃ f, translatePage s.mem s.root v = some f ∧
      s' = { s with mem := writeByte s.mem (f.toNat * 4096 + (pageOff v).toNat) b } := by
  obtain ⟨a, ha, h⟩ := bind_eq_ok.mp h
  unfold Kernel.phys translate at ha
  cases hf : translatePage s.mem s.root v with
  | none =>
    rw [hf] at ha
    cases ha
  | some f =>
    rw [hf] at ha
    obtain rfl := Except.ok.inj ha
    exact ⟨f, rfl, (Except.ok.inj h).symm⟩

theorem LoadReady.createProcess_created (h : LoadReady roots fs s)
    (hallowed : ∃ files, head.mmap = elfAreas files ∧ FileAreas files)
    (hframes : (TaskEvent.createProcess head).frames ≤ fs.length)
    (hroom : s.topVirtualAddress.toNat + 4096 * 4 < 2 ^ 64)
    (hok : createProcess head s = .ok (pcb, head', s')) :
    ∃ fs', Created roots fs fs' s s' (s.topVirtualAddress, pcb)
      (TaskEvent.createProcess head).Covers (4 + 4 * (processPages head.mmap).length) := by
  obtain ⟨files, hlist, hfiles⟩ := hallowed
  change 16 + 4 * (processPages head.mmap).length ≤ fs.length at hframes
  rw [createProcess_eq] at hok
  obtain ⟨s₁, hpcb, hspace⟩ := bind_eq_ok.mp hok
  obtain ⟨gs, fs₁, hstep, hat, hfree⟩ := h.newPcb (by omega) (by omega) hpcb
  have hfew := hstep.few
  have htop := hstep.top
  obtain ⟨fs', hstep', hnew, hdata⟩ :=
    hstep.ready.createSpace_step hlist hfiles (by omega) (by omega) hspace
  exact ⟨fs', ⟨fs₁, s₁, gs, hstep, hat, hfree, hstep', fun v f hf =>
      (hnew.free v f hf.canonical hf.user hf.mapped).1⟩, rfl, hnew.mapped,
    fun v f hf => hdata v f hf.canonical hf.user hf.mapped,
    fun v w f hv hw => hnew.own v w f hv.canonical hv.user hw.canonical hw.user hv.mapped hw.mapped⟩

/-- `create_process` returns when the bytes that are copied are mapped. -/
theorem LoadReady.createProcess_returns {files : List VmAreaStruct} (h : LoadReady roots fs s)
    (hlist : head.mmap = elfAreas files) (hfiles : FileAreas files)
    (hframes : (TaskEvent.createProcess head).frames ≤ fs.length)
    (hroom : s.topVirtualAddress.toNat + 4096 * 4 < 2 ^ 64)
    (hsource : ∀ area ∈ files, SourceMapped s.root head.elfHead s area) :
    ∃ pcb head' s', createProcess head s = .ok (pcb, head', s') := by
  change 16 + 4 * (processPages head.mmap).length ≤ fs.length at hframes
  obtain ⟨fs₁, s₁, hpcb, hstep⟩ := h.kmallocStruct sizeofPcb_pages (by omega) (by omega)
  have hfew := hstep.few
  have htop := hstep.top
  rw [createProcess_eq, hpcb, ok_bind]
  refine hstep.ready.createSpace_returns hlist hfiles (by omega) (by omega) fun area harea => ?_
  have hroot : s₁.root = s.root := by rw [Kernel.root, hstep.cr3, Kernel.root]
  rw [hroot]
  exact (hsource area harea).keeps hstep.keeps h.owned.loaded

theorem LoadReady.createDummyProcess_created (h : LoadReady roots fs s) (hframes : 16 ≤ fs.length)
    (hroom : s.topVirtualAddress.toNat + 4096 * 4 < 2 ^ 64) :
    ∃ pcb fs' s', createDummyProcess s = .ok (s.topVirtualAddress, pcb, s') ∧
      Created roots fs fs' s s' (s.topVirtualAddress, pcb) TaskEvent.createDummyProcess.Covers
        4 := by
  obtain ⟨-, s₁, hpcb, -⟩ := h.kmallocStruct sizeofPcb_pages (by omega) (by omega)
  obtain ⟨gs, fs₁, hstep, hat, hfree⟩ := h.newPcb (by omega) (by omega) hpcb
  have hfew := hstep.few
  have htop := hstep.top
  obtain ⟨pcb, fs', s', hspace, hstep', hempty⟩ :=
    hstep.ready.createSpace_nil (by omega) (by omega)
  have hnone : ∀ v f, ¬ Backs s'.mem (s.topVirtualAddress, { pcb with timeRemaining := 3 }) v f :=
    fun v f hf => absurd ((hempty v hf.user).symm.trans hf.mapped) (by simp)
  refine ⟨{ pcb with timeRemaining := 3 }, fs', s', ?_,
    ⟨fs₁, s₁, gs, hstep, hat, hfree, hstep', fun v f hf => absurd hf (hnone v f)⟩, rfl,
    fun v _ huser => ?_, fun v f hf => absurd hf (hnone v f),
    fun v w f hv _ => absurd hv (hnone v f)⟩
  · rw [createDummyProcess_eq, hpcb, ok_bind, hspace]
    rfl
  · exact ⟨fun hne => hne (hempty v huser), False.elim⟩

theorem LoadReady.dummy_step (h : LoadReady roots fs t.kernel) (hframes : 16 ≤ fs.length)
    (hroom : t.kernel.topVirtualAddress.toNat + 4096 * 4 < 2 ^ 64) :
    ∃ s' p, Tasks.Step t .createDummyProcess ⟨s', t.processes ++ [p]⟩ := by
  obtain ⟨pcb, fs', s', hrun, -⟩ := h.createDummyProcess_created hframes hroom
  exact ⟨s', (t.kernel.topVirtualAddress, pcb), trivial, by rw [Tasks.step, hrun]; rfl⟩

/-- A step does what `Effect` says. -/
theorem Tasks.Step.effect (hstep : Tasks.Step t e t') (h : LoadReady roots fs t.kernel)
    (hframes : e.frames ≤ fs.length)
    (hroom : t.kernel.topVirtualAddress.toNat + 4096 * e.pages < 2 ^ 64) :
    ∃ roots' fs', Effect roots fs t e roots' fs' t' := by
  obtain ⟨hallowed, hstep⟩ := hstep
  cases e with
  | createProcess head =>
    obtain ⟨⟨pcb, head', s'⟩, hcreate, hstep⟩ := bind_eq_ok.mp hstep
    obtain rfl := Except.ok.inj hstep
    obtain ⟨fs', hcreated⟩ := h.createProcess_created hallowed hframes hroom hcreate
    exact ⟨_, fs', .createProcess head _ fs' s' hcreated⟩
  | createDummyProcess =>
    obtain ⟨pcb, fs', s', hcreate, hcreated⟩ := h.createDummyProcess_created hframes hroom
    rw [Tasks.step, hcreate] at hstep
    obtain rfl := Except.ok.inj hstep
    exact ⟨_, fs', .createDummyProcess _ fs' s' hcreated⟩
  | kmallocUser size =>
    obtain ⟨fs', s', hrun, hload⟩ := h.kmallocStruct rfl hframes hroom
    rw [Tasks.step, hrun] at hstep
    obtain rfl := Except.ok.inj hstep
    exact ⟨_, fs', .kmallocUser size fs' s' hload⟩
  | setCr3 i =>
    unfold Tasks.step at hstep
    dsimp only at hstep
    cases hp : t.processes[i]? with
    | none =>
      rw [hp] at hstep
      cases hstep
    | some p =>
      rw [hp] at hstep
      obtain rfl := Except.ok.inj hstep
      exact ⟨_, fs, .setCr3 i p hp⟩
  | store i v b =>
    obtain ⟨hv, huser, p, hp, hcr3⟩ := hallowed
    obtain ⟨s', hstore, hstep⟩ := bind_eq_ok.mp hstep
    obtain rfl := Except.ok.inj hstep
    obtain ⟨f, hf, rfl⟩ := storeByte_ok hstore
    rw [Kernel.root, hcr3] at hf
    exact ⟨_, fs, .store i v b p f hp ⟨hv, huser, hf⟩⟩

/-- What a step leaves of the frames and the heap. -/
theorem Effect.left (h : Effect roots fs t e roots' fs' t') :
    fs.length ≤ fs'.length + e.frames ∧
      t'.kernel.topVirtualAddress.toNat = t.kernel.topVirtualAddress.toNat + 4096 * e.pages := by
  have hcreated : ∀ {s' p covers c}, Created roots fs fs' t.kernel s' p covers c →
      fs.length ≤ fs'.length + (12 + c) ∧
        s'.topVirtualAddress.toNat = t.kernel.topVirtualAddress.toNat + 4096 * 4 := by
    intro s' p covers c hc
    obtain ⟨fs₁, s₁, gs, hstep, -, -, hstep', -⟩ := hc.steps
    have hfew := hstep.few
    have hfew' := hstep'.few
    exact ⟨by omega, by rw [hstep'.top, hstep.top]⟩
  cases h with
  | createProcess head p fs' s' created =>
    obtain ⟨hfew, htop⟩ := hcreated created
    refine ⟨?_, htop⟩
    show fs.length ≤ fs'.length + (16 + 4 * (processPages head.mmap).length)
    omega
  | createDummyProcess p fs' s' created => exact hcreated created
  | kmallocUser size fs' s' step => exact ⟨step.few, step.top⟩
  | setCr3 i p there => exact ⟨le_rfl, rfl⟩
  | store i v b p f there backs => exact ⟨le_rfl, rfl⟩

end Effect

end SBUnix
