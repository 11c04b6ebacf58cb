import SBUnix.Process.AreaPages
import SBUnix.Process.FileArea
import SBUnix.Process.UserPages

/-
  `create_process` on a list of `load_elf_vmas`.

  The list is the areas of the program, then the stack's and the heap's (`loadElfVmas_mmap`).
  Creating the areas maps their pages and the page of the stack, one area after the other, and
  each of them leaves the caller's CR3 behind (`LoadReady.createAreas_step`). The user half of the
  new address space was empty, so these pages are all it has (`createProcess_pages`).
-/

namespace SBUnix

open ByteMem Radix

/-- The list of `load_elf_vmas` for the areas `files` of the program. -/
def elfAreas (files : List VmAreaStruct) : List VmAreaStruct :=
  files ++ [⟨0, 0, 0, .stack⟩, ⟨0, 0, 0, .heap⟩]

/-- The areas of a program that can be loaded: no two of them share a page. -/
structure FileAreas (files : List VmAreaStruct) : Prop where
  type : ∀ area ∈ files, area.vmType = .file
  mappable : ∀ area ∈ files, Mappable area
  disjoint : files.Pairwise fun area area' => ∀ v, area.Overlaps v → ¬ area'.Overlaps v

/-- The pages of a process. -/
def processPages (files : List VmAreaStruct) : List Word :=
  files.flatMap VmAreaStruct.pages ++ [stackPage]

/-- The source of the copy is mapped in the kernel half: whole pages from `vm_offset` on. -/
def SourceMapped (r : Frame) (elf_head : Word) (s : Kernel) (area : VmAreaStruct) : Prop :=
  ∀ k < area.vmSize.toNat, pml4Idx (elf_head + 8 * area.vmOffset + BitVec.ofNat 64 k) = kernelSlot ∧
    translatePage s.mem r (elf_head + 8 * area.vmOffset + BitVec.ofNat 64 k) ≠ none

section Source

variable {roots roots' : Set Frame} {fs fs' : List Frame} {g r : Frame} {elf_head : Word}
  {s s' : Kernel} {area : VmAreaStruct}

/-- A step leaves the source mapped. -/
theorem SourceMapped.keeps (h : SourceMapped r elf_head s area)
    (hk : Keeps roots roots' fs fs' s s') (hr : r ∈ roots) : SourceMapped r elf_head s' area := by
  intro k hlt
  obtain ⟨hslot, hmapped⟩ := h k hlt
  obtain ⟨f, hf⟩ := Option.ne_none_iff_exists'.mp hmapped
  refine ⟨hslot, ?_⟩
  rw [hk.kept r hr _ f (by rw [hslot]; decide) hf]
  exact Option.some_ne_none f

/-- The kernel half is the same in every address space. -/
theorem SourceMapped.of_kernel (h : SourceMapped r elf_head s area)
    (hs : Owned kernelShared roots fs s) (hr : r ∈ roots) (hg : g ∈ roots) :
    SourceMapped g elf_head s area := by
  intro k hlt
  obtain ⟨hslot, hmapped⟩ := h k hlt
  refine ⟨hslot, ?_⟩
  rwa [hs.translatePage_kernel hr hg hslot]

end Source

/-! ## The list of `load_elf_vmas` -/

section List

variable {ehdr : Word} {s t : Kernel} {fuel i : Nat} {vmas vmas' : List VmAreaStruct}
  {area : VmAreaStruct} {head : MmStruct}

theorem fileArea_type {phdr : Word} (h : fileArea phdr s = .ok area) : area.vmType = .file := by
  obtain ⟨p_vaddr, -, h⟩ := bind_eq_ok.mp h
  obtain ⟨p_memsz, -, h⟩ := bind_eq_ok.mp h
  obtain ⟨p_offset, -, h⟩ := bind_eq_ok.mp h
  obtain rfl := Except.ok.inj h
  rfl

theorem vmasLoop_type (h : vmasLoop ehdr fuel i vmas s = .ok (vmas', t))
    (hvmas : ∀ area ∈ vmas, area.vmType = .file) : ∀ area ∈ vmas', area.vmType = .file := by
  induction fuel generalizing i vmas s with
  | zero => cases h
  | succ fuel ih =>
    obtain ⟨e_phnum, -, h⟩ := bind_eq_ok.mp h
    split_ifs at h
    · obtain ⟨phdr, -, h⟩ := bind_eq_ok.mp h
      obtain ⟨p_type, -, h⟩ := bind_eq_ok.mp h
      split_ifs at h
      · obtain ⟨s₁, -, h⟩ := bind_eq_ok.mp h
        obtain ⟨vma, hvma, h⟩ := bind_eq_ok.mp h
        refine ih h fun area harea => ?_
        obtain harea | harea := List.mem_append.mp harea
        · exact hvmas area harea
        · rw [List.mem_singleton.mp harea]
          exact fileArea_type hvma
      · exact ih h hvmas
    · obtain ⟨rfl, -⟩ := Prod.mk.inj (Except.ok.inj h)
      exact hvmas

/-- What `load_elf_vmas` returns is such a list. -/
theorem loadElfVmas_mmap (h : loadElfVmas ehdr s = .ok (head, t)) :
    ∃ files, head.mmap = elfAreas files ∧ ∀ area ∈ files, area.vmType = .file := by
  obtain ⟨s₁, -, h⟩ := bind_eq_ok.mp h
  obtain ⟨⟨vmas, s₂⟩, hloop, h⟩ := bind_eq_ok.mp h
  obtain ⟨s₃, -, h⟩ := bind_eq_ok.mp h
  obtain ⟨s₄, -, h⟩ := bind_eq_ok.mp h
  obtain ⟨e_entry, -, h⟩ := bind_eq_ok.mp h
  obtain ⟨rfl, -⟩ := Prod.mk.inj (Except.ok.inj h)
  exact ⟨vmas, rfl, vmasLoop_type hloop (by simp)⟩

end List

/-! ## One area -/

section Area

variable {roots : Set Frame} {fs fs' gs : List Frame} {g : Frame} {s s' : Kernel}
  {area : VmAreaStruct} {elf_head : Word}

/-- A `TYPE_FILE` area up to its copy: the pages are mapped. -/
theorem LoadReady.mapFileArea (h : LoadReady roots fs s) (hg : g ∈ roots) (harea : Mappable area)
    (habsent : ∀ p ∈ area.pages, translatePage s.mem g p = none)
    (hlen : 4 * area.pages.length ≤ fs.length) (elf_head : Word) :
    ∃ gs fs' t, gs.length = area.vmSize.toNat / 4096 ∧
      t.topVirtualAddress.toNat = s.topVirtualAddress.toNat ∧
      MappedRun roots gs fs fs' (pageAlign area.vmStart) (s.setCr3 g.addr) t ∧
      SBUnix.createFileArea g.addr s.cr3 elf_head area s = (do
        let s₁ ← copyLoop (4096 * (area.vmSize.toNat / 4096)) (pageAlign area.vmStart)
          (elf_head + 8 * area.vmOffset) t
        let _ ← s₁.loadByte (pageAlign area.vmStart + 1)
        let _ ← s₁.loadByte (pageAlign area.vmStart + 2)
        return s₁.setCr3 s.cr3) := by
  have hready := harea.userArea.pagesReady habsent
  rw [VmAreaStruct.pages, length_pagesFrom] at hlen
  obtain ⟨gs, fs', t, hmap, hgs, htop, hrun⟩ :=
    h.mapArea hg harea.userArea.noOfPages hready hlen
  exact ⟨gs, fs', t, hgs, htop, hrun, createFileArea_eq rfl harea.userArea.size_eq hmap s.cr3⟩

/-- A `TYPE_FILE` area, wherever its source lies. -/
theorem LoadReady.createFileArea_step (h : LoadReady roots fs s) (hg : g ∈ roots)
    (harea : Mappable area) (habsent : ∀ p ∈ area.pages, translatePage s.mem g p = none)
    (hlen : 4 * area.pages.length ≤ fs.length)
    (hok : SBUnix.createFileArea g.addr s.cr3 elf_head area s = .ok s') :
    ∃ gs fs', AreaStep roots g area.pages gs fs fs' s s' := by
  obtain ⟨gs, fs', t, hgs, htop, hrun, heq⟩ := h.mapFileArea hg harea habsent hlen elf_head
  rw [heq] at hok
  obtain ⟨t', hcopy, hok⟩ := bind_eq_ok.mp hok
  obtain ⟨-, -, hok⟩ := bind_eq_ok.mp hok
  obtain ⟨-, -, hok⟩ := bind_eq_ok.mp hok
  obtain rfl := Except.ok.inj hok
  have hready := harea.userArea.pagesReady habsent
  have hstore : OffStore {f | f ∈ gs} t t' := copyLoop_stores hrun.owned (hrun.copyTo hready hgs)
    (fun f hf => ⟨(hrun.taken f hf).2.2, (hrun.taken f hf).2.1⟩) hcopy
  exact ⟨gs, fs', hrun.areaStep h hg hready.user hgs htop hstore⟩

/-- With its source mapped, the area is created. -/
theorem LoadReady.createFileArea_returns (h : LoadReady roots fs s) (hg : g ∈ roots)
    (harea : Mappable area) (habsent : ∀ p ∈ area.pages, translatePage s.mem g p = none)
    (hlen : 4 * area.pages.length ≤ fs.length) (hsource : SourceMapped g elf_head s area) :
    ∃ s', SBUnix.createFileArea g.addr s.cr3 elf_head area s = .ok s' := by
  obtain ⟨gs, fs', t, hgs, htop, hrun, heq⟩ := h.mapFileArea hg harea habsent hlen elf_head
  have hready := harea.userArea.pagesReady habsent
  have hroot : t.root = g := hrun.space.root.trans (frameOf_addr g)
  have hdata : ∀ f ∈ {f | f ∈ gs}, DataFrame roots fs' t.mem f := fun f hf =>
    ⟨(hrun.taken f hf).2.2, (hrun.taken f hf).2.1⟩
  have hto := hrun.copyTo hready hgs
  have hslot : ∀ k < area.vmSize.toNat,
      pml4Idx (elf_head + 8 * area.vmOffset + BitVec.ofNat 64 k) ≠ selfSlot := by
    intro k hk
    rw [(hsource k hk).1]
    decide
  have hsize : 4096 * (area.vmSize.toNat / 4096) ≤ area.vmSize.toNat := by omega
  obtain ⟨t', hcopy⟩ := copyLoop_returns (o := elf_head + 8 * area.vmOffset) hrun.owned hto hdata
    (fun k hk => hslot k (by omega)) fun k hk => by
      obtain ⟨f, hf⟩ := Option.ne_none_iff_exists'.mp (hsource k (by omega)).2
      rw [hroot, hrun.keeps.kept g hg _ f (hslot k (by omega)) hf]
      simp
  have hstore := copyLoop_stores hrun.owned hto hdata hcopy
  have hmapped : translatePage t'.mem t'.root (pageAlign area.vmStart) ≠ none := by
    have hpos := harea.nonempty
    have hpages := harea.userArea.pages_end
    obtain ⟨f, -, hf⟩ := (hrun.areaStep h hg hready.user hgs htop hstore).page
      (mem_pagesFrom.mpr ⟨0, by omega, pageAt_zero _⟩)
    rw [hstore.regs.root, hroot]
    exact fun hnone => absurd (hnone.symm.trans hf) (by simp)
  obtain ⟨b₁, hb₁⟩ := loadByte_of_aligned (o := 1) hready.aligned (by decide) hmapped
  obtain ⟨b₂, hb₂⟩ := loadByte_of_aligned (o := 2) hready.aligned (by decide) hmapped
  refine ⟨t'.setCr3 s.cr3, ?_⟩
  rw [heq, hcopy, ok_bind, hb₁, ok_bind, hb₂]
  rfl

theorem loadBytes_of_loadByte {p : Word} {n : Nat}
    (h : ∀ k < n, ∃ b, s.loadByte (p + BitVec.ofNat 64 k) = .ok b) :
    ∃ w, s.loadBytes p n = .ok w := by
  induction n generalizing p with
  | zero => exact ⟨0, rfl⟩
  | succ n ih =>
    obtain ⟨b, hb⟩ := h 0 (by omega)
    rw [show BitVec.ofNat 64 0 = 0 from rfl, add_zero] at hb
    obtain ⟨w, hw⟩ := ih (p := p + 1) fun k hk => by
      rw [add_one_add_ofNat]
      exact h (k + 1) (by omega)
    refine ⟨b.toNat + 256 * w, ?_⟩
    rw [Kernel.loadBytes, hb, ok_bind, hw]
    rfl

/-- One page: `page_walk_user` once. -/
theorem kmallocTop_one {v r : Word} {t : Kernel} (h : mapFresh pageUser v s = .ok (r, t)) :
    kmallocTopVirtualAddressUser pageSize v s = .ok (if r = 0 then 0 else v, t) := by
  unfold kmallocTopVirtualAddressUser
  rw [show (noOfPages pageSize).toNat = 0 + 1 by decide]
  show kmallocLoop (walkAndMap pageUser) id v (0 + 1) v s = _
  rw [kmallocLoop_succ, h, ok_bind]
  dsimp only
  split_ifs <;> rfl

/-- A page that was mapped to a free frame is all zeros. -/
theorem MappedPage.zero {shared : Set Idx} {used fs₁ : List Frame} {v : Word} {f : Frame}
    {s₁ : Kernel} (h : MappedPage shared roots used fs₁ (path v) f s s₁)
    (hs : Owned shared roots fs s) (hfs : fs = f :: (used ++ fs₁)) {x : Nat}
    (hx : x / 4096 = f.toNat) : s₁.mem x = 0 := by
  have hword := (readWord_eq_zero s₁.mem (entryAddr f (BitVec.ofNat 9 (x % 4096 / 8)))).mp
    (h.blank hs hfs _) (x % 8) (by omega)
  rw [entryAddr, BitVec.toNat_ofNat, ← hx] at hword
  rw [← hword]
  congr 1
  omega

/-- The word of the stack that is printed can be read. -/
theorem loadBytes_stack (hmapped : translatePage s.mem s.root stackPage ≠ none) :
    ∃ w, s.loadBytes (userStackTop - 64 - 800) 8 = .ok w := by
  refine loadBytes_of_loadByte fun k hk => ?_
  have hin : userStackTop - 64 - 800 + BitVec.ofNat 64 k =
      stackPage + (0xc98#64 + BitVec.ofNat 64 k) := by
    rw [← BitVec.add_assoc]
    rfl
  rw [hin]
  refine loadByte_of_aligned (by decide) ?_ hmapped
  rw [BitVec.toNat_add, BitVec.toNat_ofNat, BitVec.toNat_ofNat]
  omega

theorem createStackArea_eq {r : Word} {t : Kernel} (hstack : s.pagingUserStackTop = userStackTop)
    (h : kmallocTopVirtualAddressUser pageSize stackPage (s.setCr3 g.addr) = .ok (r, t))
    (hmapped : translatePage t.mem t.root stackPage ≠ none) :
    createStackArea g.addr s.cr3 s = .ok (userStackTop - 64, t.setCr3 s.cr3) := by
  obtain ⟨w, hw⟩ := loadBytes_stack hmapped
  unfold createStackArea
  dsimp only
  rw [show (s.setCr3 g.addr).pagingUserStackTop = userStackTop from hstack,
    show userStackTop - pageSize + 8 = stackPage by decide, h, ok_bind]
  dsimp only
  rw [hw]
  rfl

/-- The stack: a page of zeros, and `pstack` in it. -/
theorem LoadReady.createStackArea (h : LoadReady roots fs s) (hg : g ∈ roots)
    (hnone : translatePage s.mem g stackPage = none) (hlen : 4 ≤ fs.length) :
    ∃ gs fs' s', SBUnix.createStackArea g.addr s.cr3 s = .ok (userStackTop - 64, s') ∧
      AreaStep roots g [stackPage] gs fs fs' s s' ∧
      ∀ f, translatePage s'.mem g stackPage = some f → ∀ x, x / 4096 = f.toNat → s'.mem x = 0 := by
  have hpage : pagesFrom stackPage 1 = [stackPage] := by decide
  have hslot : pml4Idx stackPage ≠ selfSlot := by decide
  have hready : PagesReady g 1 stackPage s := by
    refine ⟨by decide, by decide, fun p hp => ?_, fun i hi j hj _ => by omega, fun p hp => ?_⟩
    · rw [hpage] at hp
      rw [List.mem_singleton.mp hp]
      exact ⟨hslot, by decide⟩
    · rw [hpage] at hp
      rwa [List.mem_singleton.mp hp]
  obtain ⟨gs, fs', t, hmap, hgs, htop, hrun⟩ :=
    h.mapArea hg (show (noOfPages pageSize).toNat = 1 by decide) hready (by omega)
  have hstep := hrun.areaStep h hg hready.user hgs htop (OffStore.refl _ t)
  rw [hpage] at hstep
  obtain ⟨f, -, hf⟩ := hstep.page List.mem_cons_self
  have hroot : t.root = g := hrun.space.root.trans (frameOf_addr g)
  refine ⟨gs, fs', t.setCr3 s.cr3, createStackArea_eq h.stackTop hmap ?_, hstep, ?_⟩
  · rw [hroot]
    exact fun hnone => absurd (hnone.symm.trans hf) (by simp)
  · have hu := h.setCr3 (p := g.addr) (by rwa [frameOf_addr])
    have hfresh := hu.owned.mapFresh entryFlags_pageUser hu.present hslot
    have hone := fun r t' => kmallocTop_one (s := s.setCr3 g.addr) (v := stackPage) (r := r) (t := t')
    generalize mapFresh pageUser stackPage (s.setCr3 g.addr) = res at hfresh hone
    cases hfresh with
    | exhausted hfew => omega
    | refused f₁ fs₁ t₁ hfs hwhy =>
      have hzero := (hone 0 t₁ rfl).symm.trans hmap
      exact absurd (Prod.mk.inj (Except.ok.inj hzero)).1 (by decide)
    | mapped f₁ used fs₁ t₁ hfs _ _ hpage₁ =>
      have hsame := (hone 1 t₁ rfl).symm.trans hmap
      obtain ⟨-, rfl⟩ := Prod.mk.inj (Except.ok.inj hsame)
      have hf₁ := hpage₁.maps.mapped _ hu.owned.loaded (Or.inl rfl)
      rw [root_setCr3, frameOf_addr] at hf₁
      obtain rfl := Option.some.inj (hf₁.symm.trans hf)
      intro f' hf' x hx
      obtain rfl := Option.some.inj (hf'.symm.trans hf)
      exact hpage₁.zero hu.owned hfs hx

end Area

/-! ## The loop over the areas -/

/-- What the loop needs of the address space of `g` before the areas `files`. -/
structure AreasReady (g : Frame) (files : List VmAreaStruct) (fs : List Frame) (s : Kernel) :
    Prop where
  absent : ∀ area ∈ files, ∀ p ∈ area.pages, translatePage s.mem g p = none
  stack : translatePage s.mem g stackPage = none
  frames : 4 * (processPages files).length ≤ fs.length

section Areas

variable {roots : Set Frame} {fs fs' gs : List Frame} {g : Frame} {s s' : Kernel}
  {area : VmAreaStruct} {files areas : List VmAreaStruct} {elf_head : Word} {pcb pcb' : Pcb}

theorem processPages_cons (area : VmAreaStruct) (files : List VmAreaStruct) :
    processPages (area :: files) = area.pages ++ processPages files := by
  simp [processPages]

theorem mem_processPages {p : Word} :
    p ∈ processPages files ↔ (∃ area ∈ files, p ∈ area.pages) ∨ p = stackPage := by
  simp [processPages]

theorem FileAreas.tail (h : FileAreas (area :: files)) : FileAreas files where
  type area' harea' := h.type area' (List.mem_cons_of_mem _ harea')
  mappable area' harea' := h.mappable area' (List.mem_cons_of_mem _ harea')
  disjoint := (List.pairwise_cons.mp h.disjoint).2

/-- The pages of a process are user pages. -/
theorem FileAreas.page (h : FileAreas files) {p : Word} (hp : p ∈ processPages files) :
    Canonical p ∧ UserAddr p := by
  obtain ⟨area, harea, hp⟩ | rfl := mem_processPages.mp hp
  · exact (h.mappable area harea).userArea.page hp
  · exact ⟨Or.inr (by decide), by decide, by decide⟩

/-- Creating an area leaves the other areas and the stack to be mapped. -/
theorem AreasReady.next (hfiles : FileAreas (area :: files))
    (h : AreasReady g (area :: files) fs s) (hstep : AreaStep roots g area.pages gs fs fs' s s') :
    AreasReady g files fs' s' := by
  have harea := hfiles.mappable area List.mem_cons_self
  refine ⟨fun area' harea' p hp => ?_, ?_, ?_⟩
  · have hoverlaps := (hfiles.tail.mappable area' harea').overlaps hp
    have hpage := hfiles.tail.page (mem_processPages.mpr (Or.inl ⟨area', harea', hp⟩))
    rw [hstep.other p hpage.2.1 fun q hq hpath => ?_]
    · exact h.absent area' (List.mem_cons_of_mem _ harea') p hp
    · have hsame := page_eq_of_canonical hpage.1 (harea.userArea.page hq).1 hpath
      exact (List.pairwise_cons.mp hfiles.disjoint).1 area' harea' p
        ((harea.mem_pages p).mp ⟨q, hq, hsame.symm⟩) hoverlaps
  · rw [hstep.other stackPage (by decide) fun q hq => path_ne_of_pml4Idx_ne fun hidx => ?_]
    · exact h.stack
    · exact harea.page_noStack (harea.overlaps hq) (hidx.symm.trans (by decide))
  · have hframes := h.frames
    have hfew := hstep.few
    rw [processPages_cons, List.length_append] at hframes
    omega

/-- The areas of the program one after the other, then the stack: each step starts with the
    caller's CR3 again. -/
theorem LoadReady.createAreas_step (h : LoadReady roots fs s) (hg : g ∈ roots)
    (hfiles : FileAreas files) (hready : AreasReady g files fs s)
    (hok : createAreas g.addr s.cr3 elf_head (elfAreas files) pcb s = .ok (areas, pcb', s')) :
    pcb' = { pcb with pstack := userStackTop - 64 } ∧
      ∃ gs fs', AreaStep roots g (processPages files) gs fs fs' s s' := by
  induction files generalizing fs s areas with
  | nil =>
    have hframes := hready.frames
    rw [show (processPages []).length = 1 from rfl] at hframes
    obtain ⟨gs, fs', t, hstack, hstep, -⟩ := h.createStackArea hg hready.stack (by omega)
    rw [elfAreas, List.nil_append, createAreas] at hok
    dsimp only at hok
    rw [hstack, ok_bind] at hok
    obtain ⟨-, hrest⟩ := Prod.mk.inj (Except.ok.inj hok)
    obtain ⟨rfl, rfl⟩ := Prod.mk.inj hrest
    exact ⟨rfl, gs, fs', hstep⟩
  | cons area files ih =>
    have hframes := hready.frames
    rw [processPages_cons, List.length_append] at hframes
    rw [elfAreas, List.cons_append, createAreas, hfiles.type area List.mem_cons_self] at hok
    obtain ⟨s₁, hfile, hok⟩ := bind_eq_ok.mp hok
    obtain ⟨⟨areas₁, pcb₁, s₂⟩, hrest, hok⟩ := bind_eq_ok.mp hok
    obtain ⟨-, hrest'⟩ := Prod.mk.inj (Except.ok.inj hok)
    obtain ⟨rfl, rfl⟩ := Prod.mk.inj hrest'
    obtain ⟨gs, fs₁, hstep⟩ := h.createFileArea_step hg (hfiles.mappable area List.mem_cons_self)
      (hready.absent area List.mem_cons_self) (by omega) hfile
    rw [← hstep.cr3] at hrest
    obtain ⟨hpcb, gs', fs', hsteps⟩ := ih hstep.ready hfiles.tail (hready.next hfiles hstep) hrest
    rw [processPages_cons]
    refine ⟨hpcb, gs ++ gs', fs', hstep.trans hg (fun p hp => ?_) hsteps⟩
    exact (hfiles.page (mem_processPages.mpr (Or.inl ⟨area, List.mem_cons_self, hp⟩))).2

/-- The loop returns when every source is mapped. -/
theorem LoadReady.createAreas_returns (h : LoadReady roots fs s) (hg : g ∈ roots)
    (hfiles : FileAreas files) (hready : AreasReady g files fs s)
    (hsource : ∀ area ∈ files, SourceMapped g elf_head s area) (pcb : Pcb) :
    ∃ areas pcb' s',
      createAreas g.addr s.cr3 elf_head (elfAreas files) pcb s = .ok (areas, pcb', s') := by
  induction files generalizing fs s with
  | nil =>
    have hframes := hready.frames
    rw [show (processPages []).length = 1 from rfl] at hframes
    obtain ⟨gs, fs', t, hstack, -⟩ := h.createStackArea hg hready.stack (by omega)
    rw [elfAreas, List.nil_append, createAreas]
    dsimp only
    rw [hstack]
    exact ⟨_, _, _, rfl⟩
  | cons area files ih =>
    have hframes := hready.frames
    rw [processPages_cons, List.length_append] at hframes
    have harea := hfiles.mappable area List.mem_cons_self
    obtain ⟨s₁, hfile⟩ := h.createFileArea_returns hg harea (hready.absent area List.mem_cons_self)
      (by omega) (hsource area List.mem_cons_self)
    obtain ⟨gs, fs₁, hstep⟩ := h.createFileArea_step hg harea
      (hready.absent area List.mem_cons_self) (by omega) hfile
    obtain ⟨areas, pcb', s', hrest⟩ := ih hstep.ready hfiles.tail (hready.next hfiles hstep)
      fun area' harea' =>
        (hsource area' (List.mem_cons_of_mem _ harea')).keeps hstep.keeps hg
    rw [hstep.cr3] at hrest
    rw [elfAreas, List.cons_append, createAreas, hfiles.type area List.mem_cons_self]
    dsimp only
    rw [hfile, ok_bind, ← elfAreas, hrest]
    exact ⟨_, _, _, rfl⟩

end Areas

/-! ## The process -/

/-- After `create_process`, with the free frames `fs` before it: the address space of the process
    has the pages of its areas and of its stack, each in a frame of its own, and no other address
    space has changed in its user half. -/
structure NewProcess (roots : Set Frame) (fs : List Frame) (head : MmStruct) (s : Kernel)
    (pcb : Pcb) (s' : Kernel) : Prop where
  mapped : ∀ v, Canonical v → UserAddr v → (translatePage s'.mem (frameOf pcb.cr3) v ≠ none ↔
    (∃ area ∈ head.mmap, area.Overlaps v) ∨ v.toNat / 4096 = stackPage.toNat / 4096)
  own : ∀ v w f, Canonical v → UserAddr v → Canonical w → UserAddr w →
    translatePage s'.mem (frameOf pcb.cr3) v = some f →
    translatePage s'.mem (frameOf pcb.cr3) w = some f → v.toNat / 4096 = w.toNat / 4096
  free : ∀ v f, Canonical v → UserAddr v → translatePage s'.mem (frameOf pcb.cr3) v = some f →
    f ∈ fs ∧ ¬ IsPageTable (insert (frameOf pcb.cr3) roots) s'.mem f
  pstack : pcb.pstack.toNat / 4096 = stackPage.toNat / 4096
  cr3 : s'.cr3 = s.cr3
  user : ∀ r ∈ roots, ∀ v, UserAddr v → translatePage s'.mem r v = translatePage s.mem r v

section Process

variable {roots : Set Frame} {fs fs' frames : List Frame} {g f : Frame} {s s' : Kernel}
  {pages : List Word} {files : List VmAreaStruct} {p q v w : Word}

/-- The stack's and the heap's areas are empty in the list of `load_elf_vmas`. -/
theorem overlaps_elfAreas : (∃ area ∈ elfAreas files, area.Overlaps v) ↔
    ∃ area ∈ files, area.Overlaps v := by
  have hempty : ∀ type, ¬ (⟨0#64, 0#64, 0#64, type⟩ : VmAreaStruct).Overlaps v := by
    rintro type ⟨a, ⟨-, hlt⟩, -⟩
    exact absurd hlt (Nat.not_lt_zero _)
  simp [elfAreas, or_and_right, exists_or, hempty]

/-- The pages of a process are those that overlap one of its areas, and the stack's. -/
theorem FileAreas.mem_pages (h : FileAreas files) (v : Word) :
    (∃ p ∈ processPages files, p.toNat / 4096 = v.toNat / 4096) ↔
      (∃ area ∈ elfAreas files, area.Overlaps v) ∨ v.toNat / 4096 = stackPage.toNat / 4096 := by
  rw [overlaps_elfAreas]
  constructor
  · rintro ⟨p, hp, hpv⟩
    obtain ⟨area, harea, hp⟩ | rfl := mem_processPages.mp hp
    · exact Or.inl ⟨area, harea, ((h.mappable area harea).mem_pages v).mp ⟨p, hp, hpv⟩⟩
    · exact Or.inr hpv.symm
  · rintro (⟨area, harea, hv⟩ | hv)
    · obtain ⟨p, hp, hpv⟩ := ((h.mappable area harea).mem_pages v).mpr hv
      exact ⟨p, mem_processPages.mpr (Or.inl ⟨area, harea, hp⟩), hpv⟩
    · exact ⟨stackPage, mem_processPages.mpr (Or.inr rfl), hv.symm⟩

/-- What is mapped after a step, where nothing was before, are its pages. -/
theorem AreaStep.mapped_page (h : AreaStep roots g pages frames fs fs' s s')
    (hcanonical : ∀ p ∈ pages, Canonical p) (hv : Canonical v) (hslot : pml4Idx v ≠ selfSlot)
    (hnone : translatePage s.mem g v = none) (hmapped : translatePage s'.mem g v ≠ none) :
    ∃ p ∈ pages, p.toNat / 4096 = v.toNat / 4096 := by
  by_contra! hne
  rw [h.other v hslot fun p hp hpath =>
    hne p hp (page_eq_of_canonical hv (hcanonical p hp) hpath).symm] at hmapped
  exact hmapped hnone

/-- `create_process` up to its loop: a pcb, and an address space with nothing in its user half. -/
theorem LoadReady.beginProcess (h : LoadReady roots fs s) (hlen : 16 ≤ fs.length)
    (hroom : s.topVirtualAddress.toNat + 4096 * 4 < 2 ^ 64) :
    ∃ g fs' s₁, g ∈ fs ∧ LoadStep roots (insert g roots) 4 16 fs fs' s s₁ ∧
      (∀ w, UserAddr w → translatePage s₁.mem g w = none) ∧
      ∀ head, createProcess head s = (do
        let (areas, pcb, s₂) ← createAreas g.addr s₁.cr3 head.elfHead head.mmap
          { zeroPcb with cr3 := g.addr, eEntry := head.eEntry } s₁
        return (pcb, { head with mmap := areas }, s₂)) := by
  obtain ⟨fs₁, s₁, hpcb, hstep₁⟩ :=
    h.kmallocStruct (show (1 + noOfPages sizeofPcb).toNat = 3 by decide) (by omega) (by omega)
  have hfew := hstep₁.few
  have htop := hstep₁.top
  obtain ⟨g, v, fs₂, s₂, hpml4, hg, hstep₂, hempty⟩ :=
    hstep₁.ready.newUserPml4 (by omega) (by omega)
  refine ⟨g, fs₂, s₂, hstep₁.left g hg, hstep₁.trans hstep₂, hempty, fun head => ?_⟩
  obtain ⟨⟨p, t⟩, htake, hpml4⟩ := bind_eq_ok.mp hpml4
  obtain ⟨⟨r, t'⟩, hcreate, hpml4⟩ := bind_eq_ok.mp hpml4
  obtain ⟨rfl, hrest⟩ := Prod.mk.inj (Except.ok.inj hpml4)
  obtain ⟨-, rfl⟩ := Prod.mk.inj hrest
  unfold createProcess
  rw [hpcb, ok_bind, htake, ok_bind]
  dsimp only
  rw [hcreate, ok_bind]

/-- The process whose areas were created in an address space that had nothing in its user half. -/
theorem AreaStep.newProcess {fs₁ fs₂ : List Frame} {s₁ s₂ : Kernel} {c d : Nat} {head : MmStruct}
    {pcb : Pcb} (h : Owned kernelShared roots fs s) (hg : g ∈ fs)
    (hbegin : LoadStep roots (insert g roots) c d fs fs₁ s s₁)
    (hempty : ∀ w, UserAddr w → translatePage s₁.mem g w = none) (hfiles : FileAreas files)
    (hstep : AreaStep (insert g roots) g (processPages files) frames fs₁ fs₂ s₁ s₂)
    (hlist : head.mmap = elfAreas files) (hcr3 : frameOf pcb.cr3 = g)
    (hpstack : pcb.pstack = userStackTop - 64) : NewProcess roots fs head s pcb s₂ := by
  have hpage : ∀ v, Canonical v → UserAddr v → translatePage s₂.mem g v ≠ none →
      ∃ p ∈ processPages files, p.toNat / 4096 = v.toNat / 4096 := fun v hv huser hmapped =>
    hstep.mapped_page (fun p hp => (hfiles.page hp).1) hv huser.1 (hempty v huser) hmapped
  -- the frame of a page, by way of the page that was mapped
  have hframe : ∀ v f, Canonical v → UserAddr v → translatePage s₂.mem g v = some f →
      ∃ p ∈ processPages files, p.toNat / 4096 = v.toNat / 4096 ∧
        translatePage s₂.mem g p = some f := by
    intro v f hv huser hf
    obtain ⟨p, hp, hpv⟩ := hpage v hv huser (by rw [hf]; simp)
    exact ⟨p, hp, hpv, (translatePage_of_page_eq _ _ hpv).trans hf⟩
  refine ⟨fun v hv huser => ?_, fun v w f hv hvu hw hwu hvf hwf => ?_, fun v f hv huser hf => ?_,
    by rw [hpstack]; decide, hstep.cr3.trans hbegin.cr3, fun r hr v huser => ?_⟩
  · rw [hcr3, hlist, ← hfiles.mem_pages]
    refine ⟨hpage v hv huser, fun ⟨p, hp, hpv⟩ => ?_⟩
    obtain ⟨f, -, hf⟩ := hstep.page hp
    rw [← translatePage_of_page_eq _ _ hpv, hf]
    simp
  · rw [hcr3] at hvf hwf
    obtain ⟨p, hp, hpv, hpf⟩ := hframe v f hv hvu hvf
    obtain ⟨q, hq, hqw, hqf⟩ := hframe w f hw hwu hwf
    rw [← hpv, ← hqw, hstep.page_inj hp hq hpf hqf]
  · rw [hcr3] at hf ⊢
    obtain ⟨p, hp, -, hpf⟩ := hframe v f hv huser hf
    obtain ⟨f', hf', hpf'⟩ := hstep.page hp
    obtain rfl := Option.some.inj (hpf.symm.trans hpf')
    obtain ⟨hfree, hdata⟩ := hstep.taken f hf'
    exact ⟨hbegin.left f hfree, hdata.1⟩
  · have hne : r ≠ g := fun hrg => h.unused g hg (hrg ▸ isTable_root hr (by decide))
    rw [hstep.user r (Or.inr hr) hne v huser]
    exact hbegin.user r hr v huser

/-- A new process gets exactly its pages. On a list of `load_elf_vmas` whose areas can be loaded,
    with frames enough and room on the heap: whenever `create_process` returns, the process is as
    `NewProcess` says, and it returns when the bytes it copies are mapped. -/
theorem createProcess_pages (roots : Set Frame) (fs : List Frame) (s : Kernel)
    (h : LoadReady roots fs s) (head : MmStruct) (files : List VmAreaStruct)
    (hlist : head.mmap = elfAreas files) (hfiles : FileAreas files)
    (hframes : 4 * (processPages files).length + 16 ≤ fs.length)
    (hroom : s.topVirtualAddress.toNat + 4096 * 4 < 2 ^ 64) :
    (∀ pcb head' s', createProcess head s = .ok (pcb, head', s') →
      NewProcess roots fs head s pcb s') ∧
    ((∀ area ∈ files, SourceMapped s.root head.elfHead s area) →
      ∃ pcb head' s', createProcess head s = .ok (pcb, head', s')) := by
  obtain ⟨g, fs₁, s₁, hg, hbegin, hempty, hcreate⟩ := h.beginProcess (by omega) hroom
  have hroot : g ∈ insert g roots := Or.inl rfl
  have hfew := hbegin.few
  have hready : AreasReady g files fs₁ s₁ := by
    refine ⟨fun area harea p hp => hempty p ?_, hempty _ ⟨by decide, by decide⟩, by omega⟩
    exact (hfiles.page (mem_processPages.mpr (Or.inl ⟨area, harea, hp⟩))).2
  rw [hcreate, hlist]
  constructor
  · intro pcb head' s' hok
    obtain ⟨⟨areas, pcb₁, s₂⟩, hareas, hok⟩ := bind_eq_ok.mp hok
    obtain ⟨rfl, hrest⟩ := Prod.mk.inj (Except.ok.inj hok)
    obtain ⟨-, rfl⟩ := Prod.mk.inj hrest
    obtain ⟨hpcb, gs, fs₂, hstep⟩ := hbegin.ready.createAreas_step hroot hfiles hready hareas
    refine hstep.newProcess h.owned hg hbegin hempty hfiles hlist ?_ (by rw [hpcb])
    rw [hpcb]
    exact frameOf_addr g
  · intro hsource
    have hsource₁ : ∀ area ∈ files, SourceMapped g head.elfHead s₁ area := fun area harea =>
      ((hsource area harea).keeps hbegin.keeps h.owned.loaded).of_kernel hbegin.ready.owned
        (Or.inr h.owned.loaded) hroot
    obtain ⟨areas, pcb, s', hareas⟩ := hbegin.ready.createAreas_returns hroot hfiles hready
      hsource₁ { zeroPcb with cr3 := g.addr, eEntry := head.eEntry }
    rw [hareas]
    exact ⟨_, _, _, rfl⟩

end Process

/-- A program with one area of 16 bytes. Its source is the page of `kernel_pml4_t`. -/
def smallHead : MmStruct :=
  ⟨elfAreas [⟨0x400010#64, 0x400020#64, 0, .file⟩], (loadKernel 40).kernelPml4T, 0x400010#64⟩

/-- `create_process` returns, and the process has its two pages. -/
theorem createProcess_pages_small : ∃ pcb head' s',
    createProcess smallHead (loadKernel 40) = .ok (pcb, head', s') ∧
      NewProcess {(loadKernel 40).root} ((sampleFrames 40).drop 3) smallHead (loadKernel 40) pcb
        s' := by
  have h := loadReady_loadKernel (n := 40) (by decide) (by decide)
  have hfiles : FileAreas [⟨0x400010#64, 0x400020#64, 0, .file⟩] :=
    ⟨by simp, by simpa using Mappable.of_low (by decide) (by decide), by simp⟩
  have hsize : (⟨0x400010#64, 0x400020#64, 0, .file⟩ : VmAreaStruct).vmSize.toNat = 4096 := by
    decide
  obtain ⟨hspec, hreturns⟩ := createProcess_pages _ _ _ h smallHead _ rfl hfiles
    (by rw [List.length_drop, sampleFrames_length]; decide)
    (by rw [loadKernel_top (by decide) (by decide)]; decide)
  obtain ⟨pcb, head', s', hrun⟩ := hreturns fun area harea k hk => by
    rw [List.mem_singleton.mp harea] at hk ⊢
    rw [hsize] at hk
    -- byte `k` of the page of `kernel_pml4_t`
    have hpath : path (smallHead.elfHead + 8 * 0 + BitVec.ofNat 64 k) =
        path (loadKernel 40).kernelPml4T := by
      rw [mul_zero, add_zero, add_comm]
      refine path_add_of_aligned h.addrs.pml4Aligned ?_
      rw [BitVec.toNat_ofNat]
      omega
    obtain ⟨f, -, hmapped⟩ := h.addrs.pml4Mapped
    constructor
    · by_contra hne
      rw [← h.addrs.pml4Slot] at hne
      exact path_ne_of_pml4Idx_ne hne hpath
    · unfold translatePage
      rw [hpath]
      show translatePage _ _ (loadKernel 40).kernelPml4T ≠ none
      rw [hmapped _ rfl]
      simp
  exact ⟨pcb, head', s', hrun, hspec pcb head' s' hrun⟩

end SBUnix
