import SBUnix.Process.Image

/-
  What a process reads after `create_process`.

  `AreasLoad` is when the loop gets through the areas: no page is mapped twice, every byte it copies
  is mapped, and an area without a page of its own starts in a page that is mapped already. Then the
  areas hold what they were copied from and the stack is zero (`LoadReady.createAreas_loads`); else
  the loop faults (`LoadReady.createAreas_faults`).
-/

namespace SBUnix

open ByteMem Radix

/-- Where byte `k` of the area is copied from. -/
def copySource (elf_head : Word) (area : VmAreaStruct) (k : Nat) : Word :=
  elf_head + 8 * area.vmOffset + BitVec.ofNat 64 k

/-- In the user half of `g` exactly `pages` are mapped. -/
def MapsUser (g : Frame) (pages : List Word) (s : Kernel) : Prop :=
  ∀ v, Canonical v → UserAddr v →
    (translatePage s.mem g v ≠ none ↔ ∃ p ∈ pages, p.toNat / 4096 = v.toNat / 4096)

/-- The loop gets through the areas, when `pages` are mapped before it. -/
def AreasLoad (g : Frame) (elf_head : Word) (s : Kernel) : List Word → List VmAreaStruct → Prop
  | _, [] => True
  | pages, area :: areas =>
    (∀ p ∈ area.pages, p ∉ pages) ∧
    (∀ k < area.vmSize.toNat, byteAt s.mem g (copySource elf_head area k) ≠ none) ∧
    (area.pages = [] → ∃ p ∈ pages, p.toNat / 4096 = area.vmStart.toNat / 4096) ∧
    AreasLoad g elf_head s (pages ++ area.pages) areas

/-- After the loop, with `pages` mapped before it. -/
structure AreasLoaded (g : Frame) (elf_head : Word) (pages : List Word)
    (files : List VmAreaStruct) (s s' : Kernel) : Prop where
  content : ∀ area ∈ files, ∀ k < area.vmSize.toNat,
    byteAt s'.mem g (pageAlign area.vmStart + BitVec.ofNat 64 k) =
      byteAt s.mem g (copySource elf_head area k)
  stack : stackPage ∉ pages ++ files.flatMap VmAreaStruct.pages →
    ∀ k < 4096, byteAt s'.mem g (stackPage + BitVec.ofNat 64 k) = some 0
  maps : MapsUser g (pages ++ processPages files) s'

/-- The areas of a program, with their sources in the kernel half. They and `pages` are apart, or
    the null page, where the copy of an area goes that finds a page mapped, is not among them. -/
structure AreasApart (roots : Set Frame) (fs : List Frame) (g : Frame) (elf_head : Word)
    (pages : List Word) (files : List VmAreaStruct) (s : Kernel) : Prop where
  type : ∀ area ∈ files, area.vmType = .file
  user : ∀ area ∈ files, UserArea area
  apart : (pages ++ files.flatMap VmAreaStruct.pages).Nodup ∨
    0 ∉ pages ++ files.flatMap VmAreaStruct.pages
  source : ∀ area ∈ files, ∀ k < area.vmSize.toNat,
    KernelData roots fs s g (copySource elf_head area k)
  known : ∀ p ∈ pages, p.toNat % 4096 = 0 ∧ Canonical p ∧ UserAddr p
  maps : MapsUser g pages s
  frames : 4 * (processPages files).length ≤ fs.length

section Areas

variable {roots : Set Frame} {fs fs' gs : List Frame} {g : Frame} {s s' : Kernel}
  {area : VmAreaStruct} {files areas : List VmAreaStruct} {pages pages₁ : List Word}
  {elf_head : Word} {p q : Word}

theorem UserArea.page_aligned (h : UserArea area) (hp : p ∈ area.pages) : p.toNat % 4096 = 0 := by
  obtain ⟨i, hi, rfl⟩ := mem_pagesFrom.mp hp
  rw [h.pageAt_toNat hi]
  omega

theorem pages_eq_nil_iff : area.pages = [] ↔ area.vmSize.toNat / 4096 = 0 := by
  rw [← List.length_eq_zero_iff, VmAreaStruct.pages, length_pagesFrom]

/-- Where the area is not mapped it can be created, as far as its source is data. -/
theorem UserArea.fileReady (h : UserArea area)
    (habsent : ∀ p ∈ area.pages, translatePage s.mem g p = none)
    (hsource : ∀ k < area.vmSize.toNat, KernelData roots fs s g (copySource elf_head area k)) :
    FileReady roots fs g elf_head (area.vmSize.toNat / 4096) (pageAlign area.vmStart) area s where
  toPagesReady := h.pagesReady habsent
  start := rfl
  size := h.size_eq
  startUser := by
    refine h.start.2.of_page_eq ?_
    rw [pageAlign_toNat]
    omega
  source k hk := hsource k (by have := h.size_eq; omega)

/-- A page of the area that is mapped is one of `pages`. -/
theorem AreasApart.mapped_iff (h : AreasApart roots fs g elf_head pages (area :: files) s)
    (hp : p ∈ area.pages) : translatePage s.mem g p ≠ none ↔ p ∈ pages := by
  have harea := h.user area List.mem_cons_self
  obtain ⟨hcanonical, huser⟩ := harea.page hp
  rw [h.maps p hcanonical huser]
  constructor
  · rintro ⟨q, hq, hqp⟩
    have hsame : q = p := by
      have := harea.page_aligned hp
      have := (h.known q hq).1
      apply BitVec.eq_of_toNat_eq
      omega
    exact hsame ▸ hq
  · exact fun hmem => ⟨p, hmem, rfl⟩

theorem AreasApart.fileReady (h : AreasApart roots fs g elf_head pages (area :: files) s)
    (hfresh : ∀ p ∈ area.pages, p ∉ pages) :
    FileReady roots fs g elf_head (area.vmSize.toNat / 4096) (pageAlign area.vmStart) area s :=
  (h.user area List.mem_cons_self).fileReady
    (fun p hp => not_not.mp (mt (h.mapped_iff hp).mp (hfresh p hp)))
    (h.source area List.mem_cons_self)

/-- With a page that is mapped already, there is no null page to copy to. -/
theorem AreasApart.null (h : AreasApart roots fs g elf_head pages (area :: files) s)
    (hp : p ∈ area.pages) (hmem : p ∈ pages) :
    translatePage s.mem g 0 = none ∧ ∀ q ∈ area.pages, path 0 ≠ path q := by
  have harea := h.user area List.mem_cons_self
  have hnull : 0 ∉ pages ++ (area :: files).flatMap VmAreaStruct.pages := by
    refine h.apart.resolve_left fun hnodup => ?_
    exact (List.nodup_append.mp hnodup).2.2 p hmem p
      (List.mem_flatMap.mpr ⟨area, List.mem_cons_self, hp⟩) rfl
  have hzero : ∀ q : Word, q.toNat % 4096 = 0 → q.toNat / 4096 = (0 : Word).toNat / 4096 → q = 0 := by
    intro q haligned hpage
    apply BitVec.eq_of_toNat_eq
    rw [show (0 : Word).toNat = 0 from rfl] at hpage ⊢
    omega
  constructor
  · by_contra hmapped
    obtain ⟨q, hq, hpage⟩ := (h.maps 0 (Or.inl (by decide)) ⟨by decide, by decide⟩).mp hmapped
    exact hnull (List.mem_append_left _ (hzero q (h.known q hq).1 hpage ▸ hq))
  · intro q hq hpath
    have hpage := page_eq_of_canonical (Or.inl (by decide)) (harea.page hq).1 hpath
    have hq0 := hzero q (harea.page_aligned hq) hpage.symm
    exact hnull (List.mem_append_right _ (List.mem_flatMap.mpr ⟨area, List.mem_cons_self, hq0 ▸ hq⟩))

/-- A step adds its pages. -/
theorem AreaStep.mapsUser (h : AreaStep roots g pages₁ gs fs fs' s s') (hg : g ∈ roots)
    (hmaps : MapsUser g pages s) (hpages : ∀ p ∈ pages₁, Canonical p) :
    MapsUser g (pages ++ pages₁) s' := by
  intro v hv huser
  constructor
  · intro hmapped
    by_cases hnone : translatePage s.mem g v = none
    · obtain ⟨p, hp, hpv⟩ := h.mapped_page hpages hv huser.1 hnone hmapped
      exact ⟨p, List.mem_append_right _ hp, hpv⟩
    · obtain ⟨p, hp, hpv⟩ := (hmaps v hv huser).mp hnone
      exact ⟨p, List.mem_append_left _ hp, hpv⟩
  · rintro ⟨p, hp, hpv⟩
    obtain hp | hp := List.mem_append.mp hp
    · obtain ⟨f, hf⟩ := Option.ne_none_iff_exists'.mp ((hmaps v hv huser).mpr ⟨p, hp, hpv⟩)
      rw [h.keeps.kept g hg v f huser.1 hf]
      simp
    · obtain ⟨f, -, hf⟩ := h.page hp
      rw [← translatePage_of_page_eq _ _ hpv, hf]
      simp

/-- Creating an area leaves the sources of the others as they are. -/
theorem AreasApart.next (h : AreasApart roots fs g elf_head pages (area :: files) s)
    (hg : g ∈ roots) (hstep : AreaStep roots g area.pages gs fs fs' s s') :
    AreasApart roots fs' g elf_head (pages ++ area.pages) files s' ∧
      ∀ area' ∈ files, ∀ k < area'.vmSize.toNat,
        byteAt s'.mem g (copySource elf_head area' k) =
          byteAt s.mem g (copySource elf_head area' k) := by
  have harea := h.user area List.mem_cons_self
  have hkept : ∀ area' ∈ files, ∀ k < area'.vmSize.toNat,
      KernelData roots fs' s' g (copySource elf_head area' k) ∧
        byteAt s'.mem g (copySource elf_head area' k) =
          byteAt s.mem g (copySource elf_head area' k) := fun area' harea' k hk =>
    hstep.kernelData hg (fun p hp => (harea.page hp).2)
      (h.source area' (List.mem_cons_of_mem _ harea') k hk)
  refine ⟨⟨fun area' harea' => h.type area' (List.mem_cons_of_mem _ harea'),
    fun area' harea' => h.user area' (List.mem_cons_of_mem _ harea'), ?_,
    fun area' harea' k hk => (hkept area' harea' k hk).1, fun p hp => ?_,
    hstep.mapsUser hg h.maps fun p hp => (harea.page hp).1, ?_⟩,
    fun area' harea' k hk => (hkept area' harea' k hk).2⟩
  · have hapart := h.apart
    rwa [List.flatMap_cons, ← List.append_assoc] at hapart
  · obtain hp | hp := List.mem_append.mp hp
    · exact h.known p hp
    · exact ⟨harea.page_aligned hp, harea.page hp⟩
  · have hframes := h.frames
    have hfew := hstep.few
    rw [processPages_cons, List.length_append] at hframes
    omega

theorem areasLoad_congr {g' : Frame} (h : ∀ area ∈ files, ∀ k < area.vmSize.toNat,
    byteAt s'.mem g' (copySource elf_head area k) = byteAt s.mem g (copySource elf_head area k)) :
    AreasLoad g' elf_head s' pages files ↔ AreasLoad g elf_head s pages files := by
  induction files generalizing pages with
  | nil => exact Iff.rfl
  | cons area files ih =>
    have hrest : AreasLoad g' elf_head s' (pages ++ area.pages) files ↔
        AreasLoad g elf_head s (pages ++ area.pages) files :=
      ih fun area' harea' => h area' (List.mem_cons_of_mem _ harea')
    have hfirst := h area List.mem_cons_self
    unfold AreasLoad
    rw [hrest]
    refine and_congr_right fun _ => and_congr_left fun _ =>
      forall_congr' fun k => forall_congr' fun hk => ?_
    rw [hfirst k hk]

/-- The page of an area's start is mapped exactly when it is one of `pages`. -/
theorem AreasApart.start_mapped (h : AreasApart roots fs g elf_head pages (area :: files) s) :
    translatePage s.mem g (pageAlign area.vmStart) ≠ none ↔
      ∃ p ∈ pages, p.toNat / 4096 = area.vmStart.toNat / 4096 := by
  obtain ⟨hcanonical, huser⟩ := (h.user area List.mem_cons_self).start
  rw [← h.maps area.vmStart hcanonical huser, translatePage_of_page_eq s.mem g]
  rw [pageAlign_toNat]
  omega

/-! ## The loop -/

theorem createAreas_cons (htype : area.vmType = .file) (process_cr3 old_cr3 : Word) (pcb : Pcb) :
    createAreas process_cr3 old_cr3 elf_head (elfAreas (area :: files)) pcb s = (do
      let s ← createFileArea process_cr3 old_cr3 elf_head area s
      let (areas, pcb, s) ← createAreas process_cr3 old_cr3 elf_head (elfAreas files) pcb s
      return (area :: areas, pcb, s)) := by
  rw [elfAreas, List.cons_append, createAreas, htype]
  rfl

theorem createAreas_nil {pstack : Word} {t : Kernel} {process_cr3 old_cr3 : Word}
    (h : createStackArea process_cr3 old_cr3 s = .ok (pstack, t)) (elf_head : Word) (pcb : Pcb) :
    ∃ areas, createAreas process_cr3 old_cr3 elf_head (elfAreas []) pcb s =
      .ok (areas, { pcb with pstack := pstack }, t) := by
  rw [elfAreas, List.nil_append, createAreas]
  dsimp only
  rw [h]
  exact ⟨_, rfl⟩

/-- Where the stack's page is mapped, `page_walk_user` returns 0, and the page stays as it is. -/
theorem LoadReady.createStackArea_mapped (h : LoadReady roots fs s) (hg : g ∈ roots)
    (hlen : 4 ≤ fs.length) (hstack : translatePage s.mem g stackPage ≠ none) :
    ∃ fs' s', SBUnix.createStackArea g.addr s.cr3 s = .ok (userStackTop - 64, s') ∧
      Keeps roots roots fs fs' s s' ∧ s'.mem = s.mem := by
  have hu := h.setCr3 (p := g.addr) (by rwa [frameOf_addr])
  have hmapped : (s.setCr3 g.addr).tableAt (path stackPage) ≠ none := by
    unfold Kernel.tableAt
    rw [root_setCr3, frameOf_addr]
    exact hstack
  have hslot : pml4Idx stackPage ≠ selfSlot := by decide
  have hfresh := hu.owned.mapFresh entryFlags_pageUser hu.present hslot
  have hone := fun r t => kmallocTop_one (s := s.setCr3 g.addr) (v := stackPage) (r := r) (t := t)
  generalize mapFresh pageUser stackPage (s.setCr3 g.addr) = res at hfresh hone
  cases hfresh with
  | exhausted hfew => omega
  | mapped _ _ _ _ _ _ habs => exact absurd habs hmapped
  | refused f fs₁ t hfs _ hmem hregs =>
    have hmap := hone 0 t rfl
    rw [if_pos rfl] at hmap
    have hsame : (t.setCr3 s.cr3).mem = s.mem := hmem
    have hroot : t.root = g := hregs.root.trans (frameOf_addr g)
    have hmapped' : translatePage t.mem t.root stackPage ≠ none := by
      rw [hroot, hmem]
      exact hstack
    refine ⟨fs₁, t.setCr3 s.cr3, createStackArea_eq h.stackTop hmap hmapped',
      Keeps.of_mem_eq hsame (fun f hf => hfs ▸ List.mem_cons_of_mem _ hf) ?_, hsame⟩
    show s.topVirtualAddress.toNat ≤ t.topVirtualAddress.toNat
    rw [hregs.top]
    exact le_rfl

/-- The stack's area, also when an area of the program has the stack's page. -/
theorem LoadReady.createStackArea_loaded (h : LoadReady roots fs s) (hg : g ∈ roots)
    (hready : AreasApart roots fs g elf_head pages [] s) :
    ∃ fs' s', SBUnix.createStackArea g.addr s.cr3 s = .ok (userStackTop - 64, s') ∧
      Keeps roots roots fs fs' s s' ∧ AreasLoaded g elf_head pages [] s s' := by
  have hlen : 4 ≤ fs.length := hready.frames
  have hstack : Canonical stackPage ∧ UserAddr stackPage :=
    ⟨Or.inr (by decide), by decide, by decide⟩
  by_cases hnone : translatePage s.mem g stackPage = none
  · obtain ⟨gs, fs', s', hrun, hstep, hzero⟩ := h.createStackArea hg hnone hlen
    have hmaps := hstep.mapsUser hg hready.maps (by simpa using hstack.1)
    refine ⟨fs', s', hrun, hstep.keeps, by simp, fun _ k hk => ?_, hmaps⟩
    obtain ⟨f, -, hf⟩ := hstep.page List.mem_cons_self
    have hpage : translatePage s'.mem g (stackPage + BitVec.ofNat 64 k) = some f := by
      rw [← hf, BitVec.add_comm, translatePage, path_add_of_aligned (by decide)
        (by rw [BitVec.toNat_ofNat]; omega)]
      rfl
    have hlt := (pageOff (stackPage + BitVec.ofNat 64 k)).isLt
    rw [byteAt_of_translatePage hpage, hzero f hf _ (by omega)]
  · obtain ⟨fs', s', hrun, hkeeps, hsame⟩ := h.createStackArea_mapped hg hlen hnone
    refine ⟨fs', s', hrun, hkeeps, by simp, ?_, ?_⟩
    · -- the page is one of `pages`
      intro hfree
      obtain ⟨p, hp, hpage⟩ := (hready.maps stackPage hstack.1 hstack.2).mp hnone
      have haligned := (hready.known p hp).1
      have : p = stackPage := by
        apply BitVec.eq_of_toNat_eq
        have : stackPage.toNat % 4096 = 0 := by decide
        omega
      exact absurd (List.mem_append_left _ (this ▸ hp)) hfree
    · intro v hv huser
      rw [hsame, hready.maps v hv huser]
      constructor
      · rintro ⟨p, hp, hpv⟩
        exact ⟨p, List.mem_append_left _ hp, hpv⟩
      · rintro ⟨p, hp, hpv⟩
        obtain hp | hp := List.mem_append.mp hp
        · exact ⟨p, hp, hpv⟩
        · rw [List.mem_singleton.mp hp] at hpv
          rw [← hready.maps v hv huser, ← translatePage_of_page_eq _ _ hpv]
          exact hnone

theorem AreasApart.room (h : AreasApart roots fs g elf_head pages (area :: files) s) :
    4 * (area.vmSize.toNat / 4096) ≤ fs.length := by
  have hframes := h.frames
  rw [processPages_cons, List.length_append, VmAreaStruct.pages, length_pagesFrom] at hframes
  omega

/-- What an area got stays. -/
theorem AreaStep.byteAt_kept {fs₂ : List Frame} {s₂ : Kernel} {k : Nat}
    (h : AreaStep roots g area.pages gs fs fs' s s') (hg : g ∈ roots) (harea : UserArea area)
    (hkeeps : Keeps roots roots fs' fs₂ s' s₂) (hk : k < area.vmSize.toNat) :
    byteAt s₂.mem g (pageAlign area.vmStart + BitVec.ofNat 64 k) =
      byteAt s'.mem g (pageAlign area.vmStart + BitVec.ofNat 64 k) := by
  have hend := harea.vmEnd_le
  have hpages := harea.pages_end
  have hsize := harea.size_eq
  have hstart : (pageAlign area.vmStart).toNat = area.vmStart.toNat / 4096 * 4096 :=
    pageAlign_toNat _
  have haligned : (pageAlign area.vmStart).toNat % 4096 = 0 := by omega
  have hlt : (pageAlign area.vmStart).toNat + k < 2 ^ 64 := by omega
  have hmem : pageAt (pageAlign area.vmStart) (k / 4096) ∈ area.pages :=
    mem_pagesFrom.mpr ⟨k / 4096, by omega, rfl⟩
  obtain ⟨f, hf, hpage⟩ := h.page hmem
  have hslot : pml4Idx (pageAlign area.vmStart + BitVec.ofNat 64 k) ≠ selfSlot := by
    rw [pml4Idx_add_ofNat haligned hlt]
    exact (harea.page hmem).2.1
  refine hkeeps.byteAt hg hslot ?_ (h.taken f hf).2
  rw [translatePage, path_add_ofNat haligned hlt]
  exact hpage

/-- The areas hold what they were copied from, and the stack is zero. -/
theorem LoadReady.createAreas_loads (h : LoadReady roots fs s) (hg : g ∈ roots)
    (hready : AreasApart roots fs g elf_head pages files s)
    (hload : AreasLoad g elf_head s pages files) (pcb : Pcb) :
    ∃ areas fs' s', createAreas g.addr s.cr3 elf_head (elfAreas files) pcb s =
        .ok (areas, { pcb with pstack := userStackTop - 64 }, s') ∧
      Keeps roots roots fs fs' s s' ∧ AreasLoaded g elf_head pages files s s' := by
  induction files generalizing fs s pages with
  | nil =>
    obtain ⟨fs', s', hstack, hkeeps, hloaded⟩ := h.createStackArea_loaded hg hready
    obtain ⟨areas, hrun⟩ := createAreas_nil hstack elf_head pcb
    exact ⟨areas, fs', s', hrun, hkeeps, hloaded⟩
  | cons area files ih =>
    have harea := hready.user area List.mem_cons_self
    obtain ⟨hfresh, hread, hempty, hrest⟩ := hload
    obtain ⟨gs, fs₁, s₁, hfile, hstep, hcontent⟩ := h.createFileArea hg (hready.fileReady hfresh)
      hready.room (fun k hk => hread k (by have := harea.size_eq; omega))
      fun hn => hready.start_mapped.mpr (hempty (pages_eq_nil_iff.mpr hn))
    change AreaStep roots g area.pages gs fs fs₁ s s₁ at hstep
    obtain ⟨hnext, hsame⟩ := hready.next hg hstep
    obtain ⟨areas, fs₂, s₂, hrun, hkeeps, hloaded⟩ :=
      ih hstep.ready hnext ((areasLoad_congr hsame).mpr hrest)
    have hassoc : pages ++ area.pages ++ files.flatMap VmAreaStruct.pages =
        pages ++ (area :: files).flatMap VmAreaStruct.pages := by
      rw [List.append_assoc, List.flatMap_cons]
    refine ⟨area :: areas, fs₂, s₂, ?_, hstep.keeps.trans hkeeps, ?_, ?_, ?_⟩
    · rw [createAreas_cons (hready.type area List.mem_cons_self), hfile, ok_bind, ← hstep.cr3, hrun]
      rfl
    · intro area' harea' k hk
      obtain rfl | harea' := List.mem_cons.mp harea'
      · rw [hstep.byteAt_kept hg harea hkeeps hk]
        exact hcontent k (by have := harea.size_eq; omega)
      · rw [hloaded.content area' harea' k hk, hsame area' harea' k hk]
    · rw [← hassoc]
      exact hloaded.stack
    · have hmaps := hloaded.maps
      rwa [List.append_assoc, ← processPages_cons] at hmaps

/-- Else the loop faults. -/
theorem LoadReady.createAreas_faults (h : LoadReady roots fs s) (hg : g ∈ roots)
    (hready : AreasApart roots fs g elf_head pages files s)
    (hload : ¬ AreasLoad g elf_head s pages files) (pcb : Pcb) :
    ∃ e, createAreas g.addr s.cr3 elf_head (elfAreas files) pcb s = .error e := by
  induction files generalizing fs s pages with
  | nil => exact absurd trivial hload
  | cons area files ih =>
    have harea := hready.user area List.mem_cons_self
    rw [createAreas_cons (hready.type area List.mem_cons_self)]
    by_cases hfresh : ∀ p ∈ area.pages, p ∉ pages
    swap
    · push Not at hfresh
      obtain ⟨p, hp, hmem⟩ := hfresh
      obtain ⟨hnull, hother⟩ := hready.null hp hmem
      obtain ⟨e, he⟩ := h.createFileArea_refused hg rfl harea.noOfPages hready.room
        (fun q hq => (harea.page hq).2) harea.different ⟨p, hp, (hready.mapped_iff hp).mpr hmem⟩
        hnull hother elf_head
      exact ⟨e, by rw [he]; rfl⟩
    have hfile := hready.fileReady hfresh
    by_cases hread : ∃ k < 4096 * (area.vmSize.toNat / 4096),
        byteAt s.mem g (copySource elf_head area k) = none
    · obtain ⟨e, he⟩ := h.createFileArea_unreadable hg hfile hready.room hread
      exact ⟨e, by rw [he]; rfl⟩
    push Not at hread
    by_cases hempty : area.vmSize.toNat / 4096 = 0 →
        translatePage s.mem g (pageAlign area.vmStart) ≠ none
    · obtain ⟨gs, fs₁, s₁, hrun, hstep, -⟩ := h.createFileArea hg hfile hready.room hread hempty
      change AreaStep roots g area.pages gs fs fs₁ s s₁ at hstep
      obtain ⟨hnext, hsame⟩ := hready.next hg hstep
      have hrest : ¬ AreasLoad g elf_head s₁ (pages ++ area.pages) files := fun hrest =>
        hload ⟨hfresh, fun k hk => hread k (by have := harea.size_eq; omega),
          fun hnil => hready.start_mapped.mp (hempty (pages_eq_nil_iff.mp hnil)),
          (areasLoad_congr hsame).mp hrest⟩
      obtain ⟨e, he⟩ := ih hstep.ready hnext hrest
      refine ⟨e, ?_⟩
      rw [hrun, ok_bind, ← hstep.cr3, he]
      rfl
    · push Not at hempty
      obtain ⟨hn, hnone⟩ := hempty
      obtain ⟨e, he⟩ := h.createFileArea_empty hg (hn ▸ hfile) hnone
      exact ⟨e, by rw [he]; rfl⟩

end Areas

end SBUnix
