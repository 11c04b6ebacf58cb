import SBUnix.Process.Exec
import SBUnix.Process.Loaded

/-
  Loading a file: is it preserved, and what does the process depend on?

  `load_elf_vmas` keeps `p_memsz` and `p_offset`, not `p_filesz`; `create_process` copies whole pages
  from `elf_head + vm_offset`, which counts words, to the page of `p_vaddr`. So byte `i` of a
  segment is the byte at `ehdr + 8 * p_offset + p_vaddr % 4096 + i` (`ProcessReads.segment`).
  `preserved_iff` says when that is the byte of the file, and `sameImage_iff` when two kernels that
  have the same file get the same process.

  The structs on the heap are no bytes of the model, so nothing is said of a file whose offsets
  lead the copy loop to their pages.
-/

namespace SBUnix

open ByteMem Radix

/-- An address of the kernel half, but not of the `d` pages at the heap top. What is mapped there is
    data. -/
structure KernelSource (roots : Set Frame) (fs : List Frame) (d : Nat) (s : Kernel) (v : Word) :
    Prop where
  high : 2 ^ 64 - 2 ^ 39 ≤ v.toNat
  place : v.toNat < s.topVirtualAddress.toNat ∨ s.topVirtualAddress.toNat + 4096 * d ≤ v.toNat
  data : ∀ f, translatePage s.mem s.root v = some f → DataFrame roots fs s.mem f

/-- The areas of the segments. -/
def Image.areas (f : Image) : List VmAreaStruct := f.segments.map Segment.area

/-- A file for a process: its headers and segments lie inside it, and the segments occupy user
    pages. No page is occupied twice, unless the null page is free. -/
structure Loadable (f : Image) : Prop where
  headers : f.HeadersInside
  inside : ∀ seg ∈ f.segments, seg.offset + seg.filesz ≤ f.length
  filesz : ∀ seg ∈ f.segments, seg.filesz ≤ seg.memsz
  user : ∀ seg ∈ f.segments, UserArea seg.area
  apart : (f.areas.flatMap VmAreaStruct.pages).Nodup ∨ 0 ∉ f.areas.flatMap VmAreaStruct.pages

/-- What loading itself needs of a file: its headers lie inside it, and its segments occupy user
    pages. No page is occupied twice, unless the null page is free. -/
structure UserImage (f : Image) : Prop where
  headers : f.HeadersInside
  user : ∀ seg ∈ f.segments, UserArea seg.area
  apart : (f.areas.flatMap VmAreaStruct.pages).Nodup ∨ 0 ∉ f.areas.flatMap VmAreaStruct.pages

theorem Loadable.userImage {f : Image} (h : Loadable f) : UserImage f :=
  ⟨h.headers, h.user, h.apart⟩

/-- A kernel that has the file at `p`, with frames and room enough to load it. What the copy loop
    reads lies in the kernel half, but not on the pages that are taken for the structs. -/
structure FileReadyAt (roots : Set Frame) (fs : List Frame) (p : Word) (f : Image) (s : Kernel) :
    Prop where
  ready : LoadReady roots fs s
  file : FileAt roots fs s.root p f s
  source : ∀ area ∈ f.areas, ∀ k < area.vmSize.toNat,
    KernelSource roots fs (10 + 2 * f.segments.length) s (copySource p area k)
  frames : 40 + 8 * f.segments.length + 4 * (processPages f.areas).length ≤ fs.length
  room : s.topVirtualAddress.toNat + 4096 * (10 + 2 * f.segments.length) < 2 ^ 64

/-- What the process reads in its user half. -/
structure ProcessReads (p : Word) (f : Image) (s : Kernel) (g : Frame) (s' : Kernel) : Prop where
  content : ∀ area ∈ f.areas, ∀ k < area.vmSize.toNat,
    byteAt s'.mem g (pageAlign area.vmStart + BitVec.ofNat 64 k) =
      byteAt s.mem s.root (copySource p area k)
  stack : stackPage ∉ f.areas.flatMap VmAreaStruct.pages →
    ∀ k < 4096, byteAt s'.mem g (stackPage + BitVec.ofNat 64 k) = some 0
  maps : MapsUser g (processPages f.areas) s'

section Load

variable {roots roots' : Set Frame} {fs fs' : List Frame} {s s' : Kernel} {p v : Word} {f : Image}
  {c d d' : Nat}

/-- Loading leaves the sources alone, mapped or not. -/
theorem LoadStep.kernelSource (h : LoadStep roots roots' d c fs fs' s s')
    (hs : LoadReady roots fs s) (hv : KernelSource roots fs (d + d') s v) :
    KernelSource roots' fs' d' s' v ∧ byteAt s'.mem s'.root v = byteAt s.mem s.root v := by
  have hhigh := hv.high
  have hplace := hv.place
  have htop := h.top
  have hroot : s'.root = s.root := by rw [Kernel.root, h.cr3, Kernel.root]
  have hsame : translatePage s'.mem s.root v = translatePage s.mem s.root v := by
    obtain hbelow | habove := hplace
    · cases htr : translatePage s.mem s.root v with
      | none => exact h.keeps.absent s.root hs.owned.loaded v hhigh hbelow htr
      | some f => exact h.keeps.kept s.root hs.owned.loaded v f (pml4Idx_of_heap hhigh) htr
    · -- nothing is mapped behind the heap, before and after
      rw [hs.above v (by omega), ← hroot]
      exact h.ready.above v (by omega)
  obtain ⟨hdata, hbyte⟩ :=
    KernelData.keeps ⟨pml4Idx_of_kernelSlot hhigh, hv.data⟩ hs.owned.loaded h.keeps hsame
  rw [hroot]
  refine ⟨⟨hhigh, by omega, ?_⟩, hbyte⟩
  rw [hroot]
  exact hdata.2

/-- The kernel half is the same in the address space of the process. -/
theorem KernelSource.inSpace {g : Frame} (h : KernelSource roots fs d s v) (hs : LoadReady roots fs s)
    (hg : g ∈ roots) : KernelData roots fs s g v ∧ byteAt s.mem g v = byteAt s.mem s.root v := by
  have hslot := pml4Idx_of_kernelSlot h.high
  have hsame := hs.owned.translatePage_kernel hs.owned.loaded hg hslot
  refine ⟨⟨hslot, fun f hf => h.data f (hsame ▸ hf)⟩, ?_⟩
  unfold byteAt
  rw [translate_congr hsame]

theorem mem_areas {area : VmAreaStruct} :
    area ∈ f.areas ↔ ∃ seg ∈ f.segments, seg.area = area := by
  simp [Image.areas]

/-- Loading up to the loop over the areas, whose sources are as before. -/
theorem FileReadyAt.beforeLoop (h : FileReadyAt roots fs p f s) (hf : UserImage f) :
    ∃ g fs' s' w pcb, LoadReady (insert g roots) fs' s' ∧
      AreasApart (insert g roots) fs' g p [] f.areas s' ∧
      (∀ area ∈ f.areas, ∀ k < area.vmSize.toNat,
        byteAt s'.mem g (copySource p area k) = byteAt s.mem s.root (copySource p area k)) ∧
      frameOf pcb.cr3 = g ∧
      loadProcess p s = (do
        let (_, pcb, s) ← createAreas g.addr s'.cr3 p (elfAreas f.areas) pcb s'
        return (w, pcb, s)) := by
  have hframes := h.frames
  have hroom := h.room
  obtain ⟨fs₁, s₁, hvmas, hstep₁⟩ :=
    h.ready.loadElfVmas h.file hf.headers (by omega) (by omega)
  have hfew₁ := hstep₁.few
  have htop₁ := hstep₁.top
  obtain ⟨g, fs₂, s₂, hg, hstep₂, hempty, hcreate⟩ :=
    hstep₁.ready.beginProcess (by omega) (by omega)
  have hfew₂ := hstep₂.few
  -- the sources, as the loop sees them
  have hsource : ∀ area ∈ f.areas, ∀ k < area.vmSize.toNat,
      KernelData (insert g roots) fs₂ s₂ g (copySource p area k) ∧
        byteAt s₂.mem g (copySource p area k) = byteAt s.mem s.root (copySource p area k) := by
    intro area harea k hk
    have hv := h.source area harea k hk
    rw [show 10 + 2 * f.segments.length = 6 + 2 * f.segments.length + (4 + 0) by omega] at hv
    obtain ⟨hv₁, hbyte₁⟩ := hstep₁.kernelSource h.ready hv
    obtain ⟨hv₂, hbyte₂⟩ := hstep₂.kernelSource hstep₁.ready hv₁
    obtain ⟨hdata, hbyte⟩ := hv₂.inSpace hstep₂.ready (Or.inl rfl)
    exact ⟨hdata, hbyte.trans (hbyte₂.trans hbyte₁)⟩
  refine ⟨g, fs₂, s₂, s₁.topVirtualAddress,
    { zeroPcb with cr3 := g.addr, eEntry := BitVec.ofNat 64 (f.field 24 8) }, hstep₂.ready,
    ⟨fun area harea => ?_, fun area harea => ?_, hf.apart,
      fun area harea k hk => (hsource area harea k hk).1, by simp, fun v hv huser => ?_, by omega⟩,
    fun area harea k hk => (hsource area harea k hk).2, frameOf_addr g, ?_⟩
  · obtain ⟨seg, -, rfl⟩ := mem_areas.mp harea
    rfl
  · obtain ⟨seg, hseg, rfl⟩ := mem_areas.mp harea
    exact hf.user seg hseg
  · simp [hempty v huser]
  · unfold loadProcess
    rw [hvmas, ok_bind]
    dsimp only
    rw [hcreate, bind_assoc]
    rfl

/-- A file is loaded exactly when the loop gets through its areas, and then the process reads what
    was copied. -/
theorem FileReadyAt.loadProcess (h : FileReadyAt roots fs p f s) (hf : UserImage f) :
    (AreasLoad s.root p s [] f.areas → ∃ w pcb s', SBUnix.loadProcess p s = .ok (w, pcb, s') ∧
      ProcessReads p f s (frameOf pcb.cr3) s') ∧
    (¬ AreasLoad s.root p s [] f.areas → ∃ e, SBUnix.loadProcess p s = .error e) := by
  obtain ⟨g, fs₁, s₁, w, pcb, hready, hapart, hsource, hcr3, hrun⟩ := h.beforeLoop hf
  have hroot : g ∈ insert g roots := Or.inl rfl
  have hload : AreasLoad g p s₁ [] f.areas ↔ AreasLoad s.root p s [] f.areas :=
    areasLoad_congr hsource
  rw [hrun]
  constructor
  · intro hall
    obtain ⟨areas, fs₂, s₂, hareas, -, hloaded⟩ :=
      hready.createAreas_loads hroot hapart (hload.mpr hall) pcb
    rw [hareas]
    refine ⟨_, _, s₂, rfl, ?_⟩
    show ProcessReads p f s (frameOf pcb.cr3) s₂
    rw [hcr3]
    refine ⟨fun area harea k hk => ?_, hloaded.stack, hloaded.maps⟩
    rw [hloaded.content area harea k hk, hsource area harea k hk]
  · intro hnot
    obtain ⟨e, he⟩ := hready.createAreas_faults hroot hapart (mt hload.mp hnot) pcb
    exact ⟨e, by rw [he]; rfl⟩

/-- A load that returns has got through the areas. -/
theorem FileReadyAt.reads {w : Word} {pcb : Pcb} (h : FileReadyAt roots fs p f s) (hf : UserImage f)
    (hrun : SBUnix.loadProcess p s = .ok (w, pcb, s')) :
    AreasLoad s.root p s [] f.areas ∧ ProcessReads p f s (frameOf pcb.cr3) s' := by
  obtain ⟨hloads, hfaults⟩ := h.loadProcess hf
  have hload : AreasLoad s.root p s [] f.areas := by
    by_contra hnot
    obtain ⟨e, he⟩ := hfaults hnot
    rw [hrun] at he
    cases he
  obtain ⟨w', pcb', s'', hrun', hreads⟩ := hloads hload
  rw [hrun, Except.ok.injEq, Prod.mk.injEq, Prod.mk.injEq] at hrun'
  obtain ⟨-, rfl, rfl⟩ := hrun'
  exact ⟨hload, hreads⟩

theorem FileReadyAt.not_load {e : Fault} (h : FileReadyAt roots fs p f s) (hf : UserImage f)
    (hrun : SBUnix.loadProcess p s = .error e) : ¬ AreasLoad s.root p s [] f.areas := by
  intro hload
  obtain ⟨w, pcb, s', hrun', -⟩ := (h.loadProcess hf).1 hload
  rw [hrun] at hrun'
  cases hrun'

end Load

/-! ## Is the file preserved? -/

theorem Image.segment_lt {f : Image} {seg : Segment} (h : seg ∈ f.segments) :
    seg.vaddr < 2 ^ 64 ∧ seg.memsz < 2 ^ 64 := by
  obtain ⟨i, -, hi⟩ := List.mem_filterMap.mp h
  unfold Image.segmentAt at hi
  split_ifs at hi
  obtain rfl := Option.some.inj hi
  exact ⟨f.field_lt _ 8, f.field_lt _ 8⟩

/-- Where byte `i` of the segment is copied from. -/
def Segment.source (p : Word) (seg : Segment) (i : Nat) : Word :=
  copySource p seg.area (seg.vaddr % 4096 + i)

/-- The program is loaded, each segment reads as the file, and the rest of it as zeros. -/
def Preserved (p : Word) (f : Image) (s : Kernel) : Prop :=
  ∃ w pcb s', loadProcess p s = .ok (w, pcb, s') ∧ ∀ seg ∈ f.segments,
    (∀ i < seg.filesz, byteAt s'.mem (frameOf pcb.cr3) (BitVec.ofNat 64 (seg.vaddr + i)) =
      some (f.byte (seg.offset + i))) ∧
    ∀ i, seg.filesz ≤ i → i < seg.memsz →
      byteAt s'.mem (frameOf pcb.cr3) (BitVec.ofNat 64 (seg.vaddr + i)) = some 0

/-- What the copy loop reads happens to be the file, then zeros. -/
structure SourcesMatch (p : Word) (f : Image) (s : Kernel) : Prop where
  load : AreasLoad s.root p s [] f.areas
  file : ∀ seg ∈ f.segments, ∀ i < seg.filesz,
    byteAt s.mem s.root (seg.source p i) = some (f.byte (seg.offset + i))
  rest : ∀ seg ∈ f.segments, ∀ i, seg.filesz ≤ i → i < seg.memsz →
    byteAt s.mem s.root (seg.source p i) = some 0

section Preserve

variable {roots roots' : Set Frame} {fs fs' : List Frame} {s t : Kernel} {p q : Word} {f : Image}

/-- The bytes of a segment lie in its area, behind what precedes it in its first page. -/
theorem Loadable.segment (hf : Loadable f) {seg : Segment} (hseg : seg ∈ f.segments) {i : Nat}
    (hi : i < seg.memsz) : seg.vaddr % 4096 + i < seg.area.vmSize.toNat ∧
      BitVec.ofNat 64 (seg.vaddr + i) =
        pageAlign seg.area.vmStart + BitVec.ofNat 64 (seg.vaddr % 4096 + i) := by
  obtain ⟨hvaddr, hmemsz⟩ := Image.segment_lt hseg
  have harea := hf.user seg hseg
  have hordered := harea.ordered
  have hstart : seg.area.vmStart.toNat = seg.vaddr := Nat.mod_eq_of_lt hvaddr
  have hend : seg.area.vmEnd.toNat = (seg.vaddr + seg.memsz) % 2 ^ 64 := by
    show (BitVec.ofNat 64 seg.vaddr + BitVec.ofNat 64 seg.memsz).toNat = _
    rw [← BitVec.ofNat_add, BitVec.toNat_ofNat]
  constructor
  · rw [harea.vmSize_toNat]
    omega
  · apply BitVec.eq_of_toNat_eq
    rw [BitVec.toNat_add, BitVec.toNat_ofNat, BitVec.toNat_ofNat, pageAlign_toNat]
    omega

/-- A byte of a segment is the byte it was copied from. -/
theorem ProcessReads.segment {g : Frame} {s' : Kernel} (h : ProcessReads p f s g s')
    (hf : Loadable f) {seg : Segment} (hseg : seg ∈ f.segments) {i : Nat} (hi : i < seg.memsz) :
    byteAt s'.mem g (BitVec.ofNat 64 (seg.vaddr + i)) = byteAt s.mem s.root (seg.source p i) := by
  obtain ⟨hlt, haddr⟩ := hf.segment hseg hi
  rw [haddr]
  exact h.content seg.area (mem_areas.mpr ⟨seg, hseg, rfl⟩) _ hlt

theorem Preserved.sourcesMatch (hpreserved : Preserved p f s) (h : FileReadyAt roots fs p f s)
    (hf : Loadable f) : SourcesMatch p f s := by
  obtain ⟨w, pcb, s', hrun, hall⟩ := hpreserved
  obtain ⟨hload, hreads⟩ := h.reads hf.userImage hrun
  refine ⟨hload, fun seg hseg i hi => ?_, fun seg hseg i hfile hi => ?_⟩
  · rw [← hreads.segment hf hseg (lt_of_lt_of_le hi (hf.filesz seg hseg))]
    exact (hall seg hseg).1 i hi
  · rw [← hreads.segment hf hseg hi]
    exact (hall seg hseg).2 i hfile hi

theorem SourcesMatch.preserved (hmatch : SourcesMatch p f s) (h : FileReadyAt roots fs p f s)
    (hf : Loadable f) : Preserved p f s := by
  obtain ⟨w, pcb, s', hrun, hreads⟩ := (h.loadProcess hf.userImage).1 hmatch.load
  refine ⟨w, pcb, s', hrun, fun seg hseg => ⟨fun i hi => ?_, fun i hfile hi => ?_⟩⟩
  · rw [hreads.segment hf hseg (lt_of_lt_of_le hi (hf.filesz seg hseg))]
    exact hmatch.file seg hseg i hi
  · rw [hreads.segment hf hseg hi]
    exact hmatch.rest seg hseg i hfile hi

/-! ## What does the process depend on? -/

/-- The two loads fail, or the two processes read the same at every user address. -/
def SameImage (p : Word) (s : Kernel) (q : Word) (t : Kernel) : Prop :=
  ((∃ e, loadProcess p s = .error e) ∧ ∃ e, loadProcess q t = .error e) ∨
  ∃ w pcb s' w' pcb' t', loadProcess p s = .ok (w, pcb, s') ∧ loadProcess q t = .ok (w', pcb', t') ∧
    ∀ v, Canonical v → UserAddr v →
      byteAt s'.mem (frameOf pcb.cr3) v = byteAt t'.mem (frameOf pcb'.cr3) v

/-- Neither file is loaded, or both are and the copy loops read the same bytes. -/
def SourcesAgree (f : Image) (p : Word) (s : Kernel) (q : Word) (t : Kernel) : Prop :=
  (¬ AreasLoad s.root p s [] f.areas ∧ ¬ AreasLoad t.root q t [] f.areas) ∨
  (AreasLoad s.root p s [] f.areas ∧ AreasLoad t.root q t [] f.areas ∧
    ∀ area ∈ f.areas, ∀ k < area.vmSize.toNat,
      byteAt s.mem s.root (copySource p area k) = byteAt t.mem t.root (copySource q area k))

/-- An address of a page is some byte of it. -/
theorem exists_offset {v page : Word} (hpage : page.toNat % 4096 = 0)
    (h : page.toNat / 4096 = v.toNat / 4096) :
    v = page + BitVec.ofNat 64 (v.toNat % 4096) := by
  have hlt := v.isLt
  apply BitVec.eq_of_toNat_eq
  rw [BitVec.toNat_add, BitVec.toNat_ofNat]
  omega

/-- An address in a page of an area is some byte of the area. -/
theorem UserArea.exists_byte {area : VmAreaStruct} {page v : Word} (h : UserArea area)
    (hpage : page ∈ area.pages) (hv : page.toNat / 4096 = v.toNat / 4096) :
    ∃ k < area.vmSize.toNat, v = pageAlign area.vmStart + BitVec.ofNat 64 k := by
  obtain ⟨i, hi, rfl⟩ := mem_pagesFrom.mp hpage
  have hpage := h.pageAt_toNat hi
  have hlt := v.isLt
  refine ⟨4096 * i + v.toNat % 4096, by omega, ?_⟩
  apply BitVec.eq_of_toNat_eq
  rw [BitVec.toNat_add, BitVec.toNat_ofNat, pageAlign_toNat]
  omega

/-- The bytes of an area are user addresses. -/
theorem UserArea.byte {area : VmAreaStruct} (h : UserArea area) {k : Nat}
    (hk : k < area.vmSize.toNat) :
    Canonical (pageAlign area.vmStart + BitVec.ofNat 64 k) ∧
      UserAddr (pageAlign area.vmStart + BitVec.ofNat 64 k) := by
  have hend := h.vmEnd_le
  have hpages := h.pages_end
  have hsize := h.size_eq
  have hi : k / 4096 < area.vmSize.toNat / 4096 := by omega
  have hpage := h.pageAt_toNat hi
  have hsame : (pageAt (pageAlign area.vmStart) (k / 4096)).toNat / 4096 =
      (pageAlign area.vmStart + BitVec.ofNat 64 k).toNat / 4096 := by
    rw [hpage, add_ofNat_toNat (by rw [pageAlign_toNat]; omega), pageAlign_toNat]
    omega
  obtain ⟨hcanonical, huser⟩ := h.page (mem_pagesFrom.mpr ⟨_, hi, rfl⟩)
  exact ⟨hcanonical.of_page_eq hsame, huser.of_page_eq hsame⟩

/-- Two processes of one file read the same when their areas were copied from the same bytes. -/
theorem ProcessReads.same {g g' : Frame} {s' t' : Kernel} (hf : Loadable f)
    (h : ProcessReads p f s g s') (h' : ProcessReads q f t g' t') :
    (∀ v, Canonical v → UserAddr v → byteAt s'.mem g v = byteAt t'.mem g' v) ↔
      ∀ area ∈ f.areas, ∀ k < area.vmSize.toNat,
        byteAt s.mem s.root (copySource p area k) = byteAt t.mem t.root (copySource q area k) := by
  have huser : ∀ area ∈ f.areas, UserArea area := by
    intro area harea
    obtain ⟨seg, hseg, rfl⟩ := mem_areas.mp harea
    exact hf.user seg hseg
  constructor
  · intro hsame area harea k hk
    obtain ⟨hcanonical, haddr⟩ := (huser area harea).byte hk
    rw [← h.content area harea k hk, ← h'.content area harea k hk]
    exact hsame _ hcanonical haddr
  · intro hsources v hcanonical haddr
    by_cases hmapped : ∃ page ∈ processPages f.areas, page.toNat / 4096 = v.toNat / 4096
    · by_cases hfile : ∃ area ∈ f.areas, ∃ page ∈ area.pages, page.toNat / 4096 = v.toNat / 4096
      · obtain ⟨area, harea, page, hpage, hpv⟩ := hfile
        obtain ⟨k, hk, rfl⟩ := (huser area harea).exists_byte hpage hpv
        rw [h.content area harea k hk, h'.content area harea k hk]
        exact hsources area harea k hk
      · -- only the stack is left
        obtain ⟨page, hpage, hpv⟩ := hmapped
        obtain ⟨area, harea, hpage⟩ | rfl := mem_processPages.mp hpage
        · exact absurd ⟨area, harea, page, hpage, hpv⟩ hfile
        · have hfree : stackPage ∉ f.areas.flatMap VmAreaStruct.pages := by
            intro hmem
            obtain ⟨area, harea, hstack⟩ := List.mem_flatMap.mp hmem
            exact hfile ⟨area, harea, stackPage, hstack, hpv⟩
          rw [exists_offset (by decide) hpv, h.stack hfree _ (Nat.mod_lt _ (by omega)),
            h'.stack hfree _ (Nat.mod_lt _ (by omega))]
    · have hnone := not_not.mp (mt (h.maps v hcanonical haddr).mp hmapped)
      have hnone' := not_not.mp (mt (h'.maps v hcanonical haddr).mp hmapped)
      rw [byteAt_eq_none.mpr hnone, byteAt_eq_none.mpr hnone']

theorem SameImage.sourcesAgree (hsame : SameImage p s q t) (h : FileReadyAt roots fs p f s)
    (h' : FileReadyAt roots' fs' q f t) (hf : Loadable f) : SourcesAgree f p s q t := by
  obtain ⟨⟨e, he⟩, e', he'⟩ | ⟨w, pcb, s', w', pcb', t', hrun, hrun', hall⟩ := hsame
  · exact Or.inl ⟨h.not_load hf.userImage he, h'.not_load hf.userImage he'⟩
  · obtain ⟨hload, hreads⟩ := h.reads hf.userImage hrun
    obtain ⟨hload', hreads'⟩ := h'.reads hf.userImage hrun'
    exact Or.inr ⟨hload, hload', (hreads.same hf hreads').mp hall⟩

theorem SourcesAgree.sameImage (hagree : SourcesAgree f p s q t) (h : FileReadyAt roots fs p f s)
    (h' : FileReadyAt roots' fs' q f t) (hf : Loadable f) : SameImage p s q t := by
  obtain ⟨hnot, hnot'⟩ | ⟨hload, hload', hall⟩ := hagree
  · exact Or.inl ⟨(h.loadProcess hf.userImage).2 hnot, (h'.loadProcess hf.userImage).2 hnot'⟩
  · obtain ⟨w, pcb, s', hrun, hreads⟩ := (h.loadProcess hf.userImage).1 hload
    obtain ⟨w', pcb', t', hrun', hreads'⟩ := (h'.loadProcess hf.userImage).1 hload'
    exact Or.inr ⟨w, pcb, s', w', pcb', t', hrun, hrun', (hreads.same hf hreads').mpr hall⟩

end Preserve

/-! ## A file with a byte behind it -/

/-- A header of 64 bytes and one program header: `PT_LOAD` of the file itself at `0x400000`, where
    it gets a page. -/
def sampleByte (k : Nat) : Byte :=
  if k = 0 then 0x7f
  else if k = 1 then 0x45
  else if k = 2 then 0x4c
  else if k = 3 then 0x46
  else if k = 26 ∨ k = 32 ∨ k = 82 then 0x40
  else if k = 56 ∨ k = 64 then 1
  else if k = 96 then 120
  else if k = 105 then 0x10
  else 0

def sampleImage : Image := ⟨sampleByte, 120⟩

def sampleSegment : Segment := ⟨0x400000, 0, 120, 4096⟩

theorem segments_sampleImage : sampleImage.segments = [sampleSegment] := by decide

/-- The file, and `last` at byte 200 of the page it lies in. -/
def samplePage (last : Byte) (k : Nat) : Byte := if k = 200 then last else sampleByte k

theorem samplePage_file (last : Byte) {k : Nat} (hk : k < 120) : samplePage last k = sampleByte k :=
  if_neg (by omega)

theorem samplePage_rest {k : Nat} (hk : 120 ≤ k) : samplePage 0 k = 0 := by
  unfold samplePage sampleByte
  split_ifs <;> first | rfl | omega

theorem areas_sampleImage : sampleImage.areas = [⟨0x400000#64, 0x401000#64, 0, .file⟩] := by
  unfold Image.areas
  rw [segments_sampleImage]
  rfl

theorem loadable_sampleImage : Loadable sampleImage where
  headers := ⟨by decide, by decide⟩
  inside := by
    rw [segments_sampleImage]
    decide
  filesz := by
    rw [segments_sampleImage]
    decide
  user seg hseg := by
    rw [segments_sampleImage, List.mem_singleton] at hseg
    rw [hseg]
    exact (Mappable.of_low (by decide) (by decide)).userArea
  apart := by
    rw [areas_sampleImage]
    exact Or.inl (by decide)

/-- All bytes of a frame at once. -/
def Kernel.storePage (s : Kernel) (f : Frame) (c : Nat → Byte) : Kernel :=
  { s with mem := fun x => if x / 4096 = f.toNat then c (x % 4096) else s.mem x }

section Sample

variable {roots : Set Frame} {fs : List Frame} {f : Frame} {s : Kernel} {p : Word}
  {c : Nat → Byte}

theorem offStore_storePage (s : Kernel) (f : Frame) (c : Nat → Byte) :
    OffStore {f} s (s.storePage f c) :=
  ⟨⟨rfl, rfl, rfl, rfl⟩, rfl, fun _ hx => if_neg (hx f rfl)⟩

theorem offStore_storePages (s : Kernel) (f : Frame) (c c' : Nat → Byte) :
    OffStore {f} (s.storePage f c) (s.storePage f c') :=
  ⟨⟨rfl, rfl, rfl, rfl⟩, rfl, fun _ hx => (if_neg (hx f rfl)).trans (if_neg (hx f rfl)).symm⟩

/-- A page below the heap top, in a data frame. -/
structure PageAt (roots : Set Frame) (fs : List Frame) (p : Word) (f : Frame) (s : Kernel) :
    Prop where
  ready : LoadReady roots fs s
  aligned : p.toNat % 4096 = 0
  high : 2 ^ 64 - 2 ^ 39 ≤ p.toNat
  below : p.toNat + 4096 ≤ s.topVirtualAddress.toNat
  page : translatePage s.mem s.root p = some f
  data : DataFrame roots fs s.mem f

/-- A new page of the kernel heap. -/
theorem LoadReady.heapPage (h : LoadReady roots fs s) (hlen : 4 ≤ fs.length)
    (hwrap : s.topVirtualAddress.toNat + 4096 < 2 ^ 64) :
    ∃ f ∈ fs, ∃ fs' s', LoadStep roots roots 1 4 fs fs' s s' ∧
      PageAt roots fs' s.topVirtualAddress f s' := by
  obtain ⟨gs, fs', s', -, hgs, htop, hrun⟩ := h.owned.mapRun advancesBy_advanceTop
    entryFlags_pageUser s.topVirtualAddress 1 h.present h.nonzero hlen (h.runReady hwrap)
  obtain ⟨f, rfl⟩ := List.length_eq_one_iff.mp hgs
  have hstep := hrun.loadStep h hwrap rfl htop
  have hpage := hrun.mapped 0 Nat.one_pos
  rw [pageAt_zero] at hpage
  obtain ⟨htaken, hfree, htable⟩ := hrun.taken f List.mem_cons_self
  refine ⟨f, htaken, fs', s', hstep, hstep.ready, h.addrs.topAligned, h.topSlot, by omega, ?_,
    htable, hfree⟩
  rw [hrun.space.root]
  exact hpage

theorem PageAt.ne_zero (h : PageAt roots fs p f s) : p ≠ 0 := by
  have hhigh := h.high
  rw [ne_zero_iff_toNat]
  omega

theorem singleton_data {mem : Mem} (h : DataFrame roots fs mem f) :
    ∀ g ∈ ({f} : Set Frame), DataFrame roots fs mem g := by
  rintro g rfl
  exact h

/-- The page stays while more pages are taken. -/
theorem PageAt.step {roots' : Set Frame} {fs' : List Frame} {s' : Kernel} {d n : Nat}
    (h : PageAt roots fs p f s) (hstep : LoadStep roots roots' d n fs fs' s s') :
    PageAt roots' fs' p f s' := by
  have hbelow := h.below
  have htop := hstep.top
  refine ⟨hstep.ready, h.aligned, h.high, by omega, ?_, hstep.keeps.data f h.data⟩
  rw [show s'.root = s.root from congrArg frameOf hstep.cr3]
  exact hstep.keeps.kept _ h.ready.owned.loaded p f (pml4Idx_of_heap h.high) h.page

/-- The page stays while data is stored. -/
theorem PageAt.offStore {D : Set Frame} {s' : Kernel} (h : PageAt roots fs p f s)
    (hstore : OffStore D s s') (hD : ∀ g ∈ D, DataFrame roots fs s.mem g) :
    PageAt roots fs p f s' := by
  have htables : ∀ g ∈ D, ¬ IsPageTable roots s.mem g := fun g hg => (hD g hg).1
  have htop := hstore.regs.top
  refine ⟨h.ready.offStore hstore hD, h.aligned, h.high, htop ▸ h.below, ?_,
    mt ((hstore.offTable htables).isPageTable_iff f).mp h.data.1, h.data.2⟩
  rw [hstore.regs.root, hstore.translatePage htables h.ready.owned.loaded (pml4Idx_of_heap h.high)]
  exact h.page

theorem PageAt.translatePage_add (h : PageAt roots fs p f s) {k : Nat} (hk : k < 4096) :
    p.toNat + k < 2 ^ 64 ∧ translatePage s.mem s.root (p + BitVec.ofNat 64 k) = some f := by
  have hlt : p.toNat + k < 2 ^ 64 := by
    have htop := s.topVirtualAddress.isLt
    have := h.below
    omega
  refine ⟨hlt, ?_⟩
  rw [← h.page, translatePage, path_add_ofNat h.aligned hlt, show k / 4096 = 0 by omega,
    pageAt_zero]
  rfl

/-- Another page is filled in. -/
theorem PageAt.storePage_ne {g : Frame} (h : PageAt roots fs p f s)
    (hg : DataFrame roots fs s.mem g) (hne : f ≠ g) {k : Nat} (hk : k < 4096) :
    byteAt (s.storePage g c).mem (s.storePage g c).root (p + BitVec.ofNat 64 k) =
      byteAt s.mem s.root (p + BitVec.ofNat 64 k) := by
  have hpage := h.offStore (offStore_storePage s g c) (singleton_data hg)
  rw [byteAt_of_translatePage (hpage.translatePage_add hk).2,
    byteAt_of_translatePage (h.translatePage_add hk).2]
  refine congrArg some (if_neg fun hx => hne (BitVec.eq_of_toNat_eq ?_))
  have hoff := (pageOff (p + BitVec.ofNat 64 k)).isLt
  omega

/-- The page can be filled in. -/
theorem PageAt.storePage (h : PageAt roots fs p f s) (c : Nat → Byte) :
    PageAt roots fs p f (s.storePage f c) ∧ ∀ k < 4096,
      byteAt (s.storePage f c).mem (s.storePage f c).root (p + BitVec.ofNat 64 k) = some (c k) := by
  have hafter := h.offStore (offStore_storePage s f c) (singleton_data h.data)
  refine ⟨hafter, fun k hk => ?_⟩
  obtain ⟨hlt, hin⟩ := hafter.translatePage_add hk
  refine (byteAt_of_translatePage hin).trans (congrArg some ?_)
  rw [pageOff_add_ofNat h.aligned hlt]
  have hx : (f.toNat * 4096 + k % 4096) / 4096 = f.toNat := by omega
  show (if _ then _ else _) = _
  rw [if_pos hx]
  congr 1
  omega

/-- The bytes of the page are data of the kernel half. -/
theorem PageAt.kernelSource (h : PageAt roots fs p f s) {k : Nat} (hk : k < 4096) (d : Nat) :
    KernelSource roots fs d s (p + BitVec.ofNat 64 k) := by
  have hhigh := h.high
  have hbelow := h.below
  obtain ⟨hlt, hin⟩ := h.translatePage_add hk
  have hnat := add_ofNat_toNat hlt
  refine ⟨by omega, by omega, fun g hg => ?_⟩
  obtain rfl := Option.some.inj (hin.symm.trans hg)
  exact h.data

/-- A file in the page. -/
theorem PageAt.fileAt {c : Nat → Byte} {file : Image} (h : PageAt roots fs p f s)
    (hlen : file.length ≤ 4096) (hc : ∀ k < file.length, c k = file.byte k) :
    FileAt roots fs (s.storePage f c).root p file (s.storePage f c) := by
  obtain ⟨hpage, hbyte⟩ := h.storePage c
  refine ⟨fun k hk => ?_, fun k hk => ?_⟩
  · have hsource := hpage.kernelSource (k := k) (by omega) 0
    exact ⟨pml4Idx_of_kernelSlot hsource.high, hsource.data⟩
  · rw [hbyte k (by omega), hc k hk]

/-- A kernel whose page at `p` starts with the file. -/
theorem PageAt.fileReadyAt (h : PageAt roots fs p f s) (last : Byte) (hlen : 56 ≤ fs.length)
    (hroom : s.topVirtualAddress.toNat + 4096 * 12 < 2 ^ 64) :
    FileReadyAt roots fs p sampleImage (s.storePage f (samplePage last)) := by
  obtain ⟨hpage, -⟩ := h.storePage (samplePage last)
  refine ⟨hpage.ready, h.fileAt (show 120 ≤ 4096 by decide) fun k hk => samplePage_file last hk,
    ?_, ?_, ?_⟩
  · rw [areas_sampleImage]
    intro area harea k hk
    rw [List.mem_singleton.mp harea] at hk ⊢
    have hsize : (⟨0x400000#64, 0x401000#64, 0, .file⟩ : VmAreaStruct).vmSize.toNat = 4096 := by
      decide
    unfold copySource
    rw [mul_zero, add_zero]
    exact hpage.kernelSource (by omega) _
  · rw [segments_sampleImage, areas_sampleImage]
    exact hlen
  · rw [segments_sampleImage]
    exact hroom

theorem source_sampleSegment (p : Word) (i : Nat) :
    sampleSegment.source p i = p + BitVec.ofNat 64 i := by
  have hoff : sampleSegment.vaddr % 4096 + i = i := by
    show 0x400000 % 4096 + i = i
    omega
  unfold Segment.source copySource
  rw [hoff]
  show p + 8 * 0 + _ = _
  rw [mul_zero, add_zero]

/-- The copy of the sample is the page. -/
theorem PageAt.load (h : PageAt roots fs p f s) (c : Nat → Byte) :
    AreasLoad (s.storePage f c).root p (s.storePage f c) [] sampleImage.areas := by
  rw [areas_sampleImage]
  refine ⟨by simp, fun k hk => ?_, fun hnil => absurd hnil (by decide), trivial⟩
  have hsize : (⟨0x400000#64, 0x401000#64, 0, .file⟩ : VmAreaStruct).vmSize.toNat = 4096 := by
    decide
  unfold copySource
  rw [mul_zero, add_zero, (h.storePage c).2 k (by omega)]
  simp

/-- Byte 200 is copied. -/
theorem PageAt.not_sourcesAgree (h : PageAt roots fs p f s) :
    ¬ SourcesAgree sampleImage p (s.storePage f (samplePage 0)) p
      (s.storePage f (samplePage 1)) := by
  have hbyte := fun last => (h.storePage (samplePage last)).2 200 (by decide)
  rintro (⟨hnot, -⟩ | ⟨-, -, hall⟩)
  · exact hnot (h.load _)
  · have hsame := hall sampleSegment.area
      (mem_areas.mpr ⟨sampleSegment, by rw [segments_sampleImage]; simp, rfl⟩) 200 (by decide)
    have hsource : copySource p sampleSegment.area 200 = p + BitVec.ofNat 64 200 :=
      source_sampleSegment p 200
    rw [hsource, hbyte 0, hbyte 1] at hsame
    exact absurd (Option.some.inj hsame) (by decide)

theorem samplePageAt : ∃ roots fs p f s, PageAt roots fs p f s ∧ 56 ≤ fs.length ∧
    s.topVirtualAddress.toNat + 4096 * 12 < 2 ^ 64 := by
  have htop := loadKernel_top (n := 100) (by decide) (by decide)
  have hnat : (loadKernel 100).topVirtualAddress.toNat = 0xffffffff80400000 := by rw [htop]; rfl
  have hlen : ((sampleFrames 100).drop 3).length = 97 := by
    rw [List.length_drop, sampleFrames_length]
  obtain ⟨f, -, fs, s, hstep, hpage⟩ := (loadReady_loadKernel (n := 100) (by decide)
    (by decide)).heapPage (by omega) (by omega)
  have hfew := hstep.few
  have htop' := hstep.top
  exact ⟨_, fs, _, f, s, hpage, by omega, by omega⟩

end Sample

/-! ## When the file is preserved, and what the process depends on -/

/-- The file is preserved exactly when the bytes from `ehdr + 8 * p_offset + p_vaddr % 4096` on are
    those of the segment, and then zeros. -/
theorem preserved_iff (roots : Set Frame) (fs : List Frame) (p : Word) (f : Image) (s : Kernel)
    (h : FileReadyAt roots fs p f s) (hf : Loadable f) :
    Preserved p f s ↔ SourcesMatch p f s :=
  ⟨fun hpreserved => hpreserved.sourcesMatch h hf, fun hmatch => hmatch.preserved h hf⟩

/-- With zeros behind the file it is preserved. -/
theorem preserved_zeros : ∃ p s, Preserved p sampleImage s := by
  obtain ⟨roots, fs, p, f, s, hpage, hlen, hroom⟩ := samplePageAt
  have hbyte := (hpage.storePage (samplePage 0)).2
  refine ⟨p, s.storePage f (samplePage 0), (preserved_iff _ _ _ _ _
    (hpage.fileReadyAt 0 hlen hroom) loadable_sampleImage).mpr ⟨hpage.load _, ?_, ?_⟩⟩
  · rw [segments_sampleImage]
    intro seg hseg i hi
    rw [List.mem_singleton.mp hseg] at hi ⊢
    have hi' : i < 120 := hi
    rw [source_sampleSegment, hbyte i (by omega), samplePage_file 0 hi']
    exact congrArg (fun k => some (sampleByte k)) (Nat.zero_add i).symm
  · rw [segments_sampleImage]
    intro seg hseg i hfile hi
    rw [List.mem_singleton.mp hseg] at hfile hi ⊢
    rw [source_sampleSegment, hbyte i hi, samplePage_rest hfile]

/-- A byte behind the file is read as part of the program. -/
theorem not_preserved : ¬ ∀ (roots : Set Frame) (fs : List Frame) (p : Word) (f : Image)
    (s : Kernel), FileReadyAt roots fs p f s → Loadable f → Preserved p f s := by
  intro hall
  obtain ⟨roots, fs, p, f, s, hpage, hlen, hroom⟩ := samplePageAt
  have hready := hpage.fileReadyAt 1 hlen hroom
  have hmatch := (hall roots fs p sampleImage _ hready loadable_sampleImage).sourcesMatch hready
    loadable_sampleImage
  have hrest := hmatch.rest sampleSegment (by rw [segments_sampleImage]; simp) 200
    (by decide) (by decide)
  rw [source_sampleSegment, (hpage.storePage (samplePage 1)).2 200 (by decide)] at hrest
  exact absurd (Option.some.inj hrest) (by decide)

/-- Two kernels that have one file get the same process exactly when neither loads it, or both do
    and their copy loops read the same bytes. -/
theorem sameImage_iff (roots roots' : Set Frame) (fs fs' : List Frame) (p q : Word) (f : Image)
    (s t : Kernel) (h : FileReadyAt roots fs p f s) (h' : FileReadyAt roots' fs' q f t)
    (hf : Loadable f) : SameImage p s q t ↔ SourcesAgree f p s q t :=
  ⟨fun hsame => hsame.sourcesAgree h h' hf, fun hagree => hagree.sameImage h h' hf⟩

/-- The byte behind the file decides. -/
theorem sameImage_sample : ∃ p s t, SameImage p s p s ∧ ¬ SameImage p s p t := by
  obtain ⟨roots, fs, p, f, s, hpage, hlen, hroom⟩ := samplePageAt
  have hready := fun last => hpage.fileReadyAt last hlen hroom
  have hload := hpage.load (samplePage 0)
  refine ⟨p, s.storePage f (samplePage 0), s.storePage f (samplePage 1),
    (sameImage_iff _ _ _ _ _ _ _ _ _ (hready 0) (hready 0) loadable_sampleImage).mpr
      (Or.inr ⟨hload, hload, fun _ _ _ _ => rfl⟩), fun hsame => ?_⟩
  exact hpage.not_sourcesAgree ((sameImage_iff _ _ _ _ _ _ _ _ _ (hready 0) (hready 1)
    loadable_sampleImage).mp hsame)

/-- Two kernels that differ in data behind the file only need not get the same process. -/
theorem not_sameImage : ¬ ∀ (roots : Set Frame) (fs : List Frame) (p : Word) (f : Image)
    (s t : Kernel) (D : Set Frame), FileReadyAt roots fs p f s → FileReadyAt roots fs p f t →
    Loadable f → (∀ g ∈ D, DataFrame roots fs s.mem g) → OffStore D s t → SameImage p s p t := by
  intro hall
  obtain ⟨roots, fs, p, f, s, hpage, hlen, hroom⟩ := samplePageAt
  have hready := fun last => hpage.fileReadyAt last hlen hroom
  have hdata := singleton_data (hpage.storePage (samplePage 0)).1.data
  have hsame := hall roots fs p sampleImage _ _ {f} (hready 0) (hready 1) loadable_sampleImage hdata
    (offStore_storePages s f (samplePage 0) (samplePage 1))
  exact hpage.not_sourcesAgree (hsame.sourcesAgree (hready 0) (hready 1) loadable_sampleImage)

end SBUnix
