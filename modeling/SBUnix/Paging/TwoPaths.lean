import SBUnix.Paging.LinearMap

/-
  `page_walk` and `map_all_kernel_pages` on the same tables.

  `WindowTables` is to the recursive window what `LinearTables` is to the addresses from `KERNBASE`
  on: what `page_walk` reads is what `descend` reads (`WindowTables.walkAndMap_eq`), and what it
  stores is what `mapEntries` stores (`WindowTables.fillFrom`). So the two agree wherever both end
  (`pathsAgree_iff`): `page_walk` reads past the end of a list that is too short, and the loop of
  `map_all_kernel_pages` never gets past an end in the last page.
-/

namespace SBUnix

open ByteMem Radix

/-! ## The recursive window -/

/-- The kernel's memory holds the tables `m` of the loaded PML4, and its list the frames `fs`. -/
structure WindowTables (root : Frame) (fs : List Frame) (m : Entries) (s : Kernel) : Prop where
  mem : entries s.mem = m
  loaded : s.root = root
  free : FreeFrames s.freeList fs

section Window

variable {root g t : Frame} {fs : List Frame} {m : Entries} {s : Kernel} {p : List Idx} {i : Idx}
  {a e v : Word} {n : Nat}

/-- Taking the next frame. -/
theorem WindowTables.take (h : WindowTables root (g :: fs) m s) :
    ∃ s', s.takeFrame = .ok (g.addr, s') ∧ WindowTables root fs m s' := by
  obtain ⟨fl, hnext, hfree⟩ := h.free.cons
  refine ⟨{ s with freeList := fl }, ?_, h.mem, h.loaded, hfree⟩
  unfold Kernel.takeFrame
  rw [hnext]
  rfl

theorem WindowTables.take_nil (h : WindowTables root [] m s) :
    s.takeFrame = .error (.strayRead kernbase) := by
  unfold Kernel.takeFrame
  rw [h.free.nil]
  rfl

theorem WindowTables.self_ref (h : WindowTables root fs m s)
    (hself : target (m root selfSlot) = some root) :
    target (entries s.mem s.root selfSlot) = some s.root := by
  rw [h.mem, h.loaded, hself]

theorem WindowTables.tableAt_eq (h : WindowTables root fs m s) (p : List Idx) :
    s.tableAt p = walk target m root p := by
  unfold Kernel.tableAt
  rw [h.mem, h.loaded]

/-- A load through the window. -/
theorem WindowTables.load (h : WindowTables root fs m s)
    (hself : target (m root selfSlot) = some root) (ha : RecWindow a p i)
    (hw : walk target m root p = some t) : s.load a = .ok (m t i) := by
  rw [← h.mem]
  exact Kernel.load_window ha (h.self_ref hself) (by rw [h.tableAt_eq, hw])

/-- A store through the window. -/
theorem WindowTables.store (h : WindowTables root fs m s)
    (hself : target (m root selfSlot) = some root) (ha : RecWindow a p i)
    (hw : walk target m root p = some t) (e : Word) :
    ∃ s', s.store a e = .ok s' ∧ WindowTables root fs (setEntry m t i e) s' := by
  refine ⟨s.setSlot t i e, Kernel.store_window ha (h.self_ref hself) (by rw [h.tableAt_eq, hw]) e,
    ?_, h.loaded, h.free⟩
  rw [entries_setSlot, h.mem]

/-! ## `page_walk` -/

/-- The stores of the walk are those of `mapEntries`. -/
theorem WindowTables.fillFrom (h : WindowTables root fs m s) (htree : TableTree root fs m)
    (hv : pml4Idx v ≠ selfSlot) (hn : n ≤ 3) (hlen : n ≤ fs.length)
    (hw : walk target m root ((path v).take (3 - n)) = some t) (pAddr : Word) :
    ∃ s', fillFrom pageKernel pAddr v n s = .ok (1, s') ∧
      WindowTables root (fs.drop n) (mapEntries pAddr v n fs t m) s' := by
  have hself := htree.forest.self_ref root rfl
  induction n generalizing s t fs m with
  | zero =>
    obtain ⟨s', hstore, h'⟩ := h.store hself (recWindow_windowAddr v (d := 3) (by omega)) hw
      (pAddr ||| pageKernel)
    refine ⟨s', ?_, h'⟩
    rw [SBUnix.fillFrom, hstore]
    rfl
  | succ n ih =>
    obtain ⟨g, fs, rfl⟩ := List.exists_cons_of_length_pos (by omega : 0 < fs.length)
    have hd : 3 - (n + 1) = 2 - n := by omega
    have hd' : 2 - n + 1 = 3 - n := by omega
    rw [hd] at hw
    obtain ⟨htree₁, -, hw₁, -⟩ := htree.link_path hv (by omega) hw
    rw [hd'] at hw₁
    obtain ⟨s₁, htake, h₁⟩ := h.take
    obtain ⟨s₂, hstore, h₂⟩ := h₁.store hself (recWindow_windowAddr v (d := 2 - n) (by omega)) hw
      (g.addr ||| pageKernel)
    obtain ⟨s', hrun, h'⟩ := ih h₂ htree₁ (by omega) (by simpa using hlen) hw₁
      (htree₁.forest.self_ref root rfl)
    refine ⟨s', ?_, h'⟩
    rw [SBUnix.fillFrom, htake, ok_bind]
    dsimp only
    rw [hstore, ok_bind]
    exact hrun

/-- With too few frames they end in the allocator's stray read. -/
theorem WindowTables.fillFrom_exhausted (h : WindowTables root fs m s) (htree : TableTree root fs m)
    (hv : pml4Idx v ≠ selfSlot) (hn : n ≤ 3) (hlen : fs.length < n)
    (hw : walk target m root ((path v).take (3 - n)) = some t) (pAddr : Word) :
    SBUnix.fillFrom pageKernel pAddr v n s = .error (.strayRead kernbase) := by
  induction n generalizing s t fs m with
  | zero => omega
  | succ n ih =>
    cases fs with
    | nil =>
      rw [SBUnix.fillFrom, h.take_nil]
      rfl
    | cons g fs =>
      have hd : 3 - (n + 1) = 2 - n := by omega
      have hd' : 2 - n + 1 = 3 - n := by omega
      rw [hd] at hw
      obtain ⟨htree₁, -, hw₁, -⟩ := htree.link_path hv (by omega) hw
      rw [hd'] at hw₁
      obtain ⟨s₁, htake, h₁⟩ := h.take
      obtain ⟨s₂, hstore, h₂⟩ := h₁.store (htree.forest.self_ref root rfl)
        (recWindow_windowAddr v (d := 2 - n) (by omega)) hw (g.addr ||| pageKernel)
      have hrun := ih h₂ htree₁ (by omega) (by simpa using hlen) hw₁
      rw [SBUnix.fillFrom, htake, ok_bind]
      dsimp only
      rw [hstore, ok_bind]
      exact hrun

/-- On a page without a valid last-level entry the walk goes down as `descend` does. -/
theorem WindowTables.walkAndMap_eq (h : WindowTables root fs m s)
    (hself : target (m root selfSlot) = some root) (hpte : ¬ HasValidPte s v) (flags pAddr : Word) :
    walkAndMap flags pAddr v s = SBUnix.fillFrom flags pAddr v (descend m v 3 root).1 s := by
  have hstep : ∀ {d : Nat} {t : Frame}, d < 4 → walk target m root ((path v).take d) = some t →
      isValidPage (m t (idxAt v d)) = true →
      walk target m root ((path v).take (d + 1)) = some (frameOf (m t (idxAt v d))) := by
    intro d t hd hw hvalid
    rw [take_succ_path v hd, walk_concat, hw, Option.bind_some, target,
      if_pos (present_of_isValidPage hvalid)]
  rw [SBUnix.walkAndMap_eq, h.load hself (recWindow_windowAddr v (d := 0) (by omega)) rfl, ok_bind,
    descend]
  by_cases hv₀ : isValidPage (m root (idxAt v 0)) = true
  swap
  · rw [if_neg hv₀, if_neg hv₀]
  have hw₁ := hstep (d := 0) (by omega) rfl hv₀
  rw [if_pos hv₀, if_pos hv₀, h.load hself (recWindow_windowAddr v (d := 1) (by omega)) hw₁,
    ok_bind, descend]
  by_cases hv₁ : isValidPage (m (frameOf (m root (idxAt v 0))) (idxAt v 1)) = true
  swap
  · rw [if_neg hv₁, if_neg hv₁]
  have hw₂ := hstep (d := 1) (by omega) hw₁ hv₁
  rw [if_pos hv₁, if_pos hv₁, h.load hself (recWindow_windowAddr v (d := 2) (by omega)) hw₂,
    ok_bind, descend]
  by_cases hv₂ : isValidPage
      (m (frameOf (m (frameOf (m root (idxAt v 0))) (idxAt v 1))) (idxAt v 2)) = true
  swap
  · rw [if_neg hv₂, if_neg hv₂]
  have hw₃ := hstep (d := 2) (by omega) hw₂ hv₂
  rw [if_pos hv₂, if_pos hv₂, h.load hself (recWindow_windowAddr v (d := 3) (by omega)) hw₃,
    ok_bind, if_neg]
  · rfl
  · intro hvalid
    refine hpte ⟨_, (h.tableAt_eq _).trans hw₃, ?_⟩
    rw [h.mem]
    exact hvalid

end Window

/-! ## Both paths -/

/-- The address of the last page. -/
def lastPage : Word := 0xfffffffffffff000#64

theorem pageAlign_aligned (v : Word) : (pageAlign v).toNat % 4096 = 0 := by
  rw [pageAlign_toNat]
  omega

/-- When its end is in the last page the loop goes round for ever. -/
theorem mapKernelPagesLoop_ne_ok {kernelPml4 vEnd v p : Word} {l l' : FreeList Mem} {fuel : Nat}
    (hend : lastPage ≤ vEnd) (hv : v.toNat % 4096 = 0) :
    mapKernelPagesLoop kernelPml4 vEnd fuel v p l ≠ .ok l' := by
  induction fuel generalizing v p l with
  | zero =>
    intro h
    cases h
  | succ fuel ih =>
    have hle := BitVec.le_def.mp hend
    have hlast : lastPage.toNat = 2 ^ 64 - 4096 := rfl
    have hvlt := v.isLt
    rw [mapKernelPagesLoop, if_pos (BitVec.le_def.mpr (by omega))]
    cases mapKernelPage kernelPml4 v p l with
    | error e =>
      intro h
      cases h
    | ok l₁ =>
      rw [ok_bind]
      refine ih ?_
      rw [BitVec.toNat_add, show pageSize.toNat = 4096 from rfl]
      omega

/-- The running kernel `s` and the boot memory `l` hold the same tables of `root`, a tree, and the
    same frames `fs` to take: distinct, zero-filled, no tables, and below 2 GiB. -/
structure TwoWindows (root : Frame) (fs : List Frame) (s : Kernel) (l : FreeList Mem) : Prop where
  tree : TableTree root fs (entries s.mem)
  loaded : s.root = root
  free : FreeFrames s.freeList fs
  low : ∀ g, IsPageTable {root} s.mem g ∨ g ∈ fs → g.toNat < 2 ^ 19
  same : ∀ g, IsPageTable {root} s.mem g ∨ g ∈ fs → ∀ j, entries l.descs g j = entries s.mem g j
  list : MemFrames {g | IsPageTable {root} s.mem g ∨ g ∈ fs} l.descs l.freeListHead fs

/-- `page_walk` and `map_all_kernel_pages` on the page `v` leave the same words in every page table,
    and take the same frames: what is left is the same end of `fs`. -/
def PathsAgree (root : Frame) (fs : List Frame) (p v : Word) (s : Kernel) (l : FreeList Mem) : Prop :=
  ∃ s' l' fs', pageWalk p v s = .ok (1, s') ∧
    mapAllKernelPages v v p (kernbase + root.addr) l = .ok l' ∧
    (∀ g, IsPageTable {root} s'.mem g ∨ IsPageTable {root} l'.descs g →
      ∀ j, entries l'.descs g j = entries s'.mem g j) ∧
    fs' <:+ fs ∧ FreeFrames s'.freeList fs' ∧
    ∃ nodes, BootChain l'.descs l'.freeListHead nodes ∧
      nodes.map Prod.snd = fs'.map Frame.addr

section Agree

variable {root : Frame} {fs : List Frame} {s : Kernel} {l : FreeList Mem} {p v : Word}

/-- One memory behind both windows. -/
theorem LinearSpace.twoWindows (h : LinearSpace root fs l) (hmem : s.mem = l.descs)
    (hroot : s.root = root) (hfree : FreeFrames s.freeList fs) : TwoWindows root fs s l := by
  obtain ⟨htree, hlow, hlist⟩ := h
  rw [← hmem] at htree hlow
  refine ⟨htree, hroot, hfree, hlow, fun _ _ _ => by rw [hmem], ?_⟩
  rw [← hmem] at hlist ⊢
  exact hlist

theorem TwoWindows.window (h : TwoWindows root fs s l) :
    WindowTables root fs (entries s.mem) s := ⟨rfl, h.loaded, h.free⟩

theorem TwoWindows.linear (h : TwoWindows root fs s l) :
    LinearTables {g | IsPageTable {root} s.mem g ∨ g ∈ fs} root fs (entries s.mem) l :=
  ⟨fun _ hg => hg, h.low, h.same, h.list⟩

/-- The memory behind both windows has the same tables after the same stores. -/
theorem LinearTables.isPageTable_iff {G : Set Frame} {m : Entries} (h : LinearTables G root fs m l)
    (g : Frame) : IsPageTable {root} l.descs g ↔ IsTable target selfSlot 4 m {root} g :=
  isTable_congr_tables (fun x hx j => h.same x (h.inside x (Or.inl hx)) j) g

theorem TwoWindows.agree (h : TwoWindows root fs s l) (hp : p.toNat % 4096 = 0)
    (hvp : v.toNat % 4096 = 0) (hv : pml4Idx v ≠ selfSlot) (hpte : ¬ HasValidPte s v)
    (hlen : (descend (entries s.mem) v 3 root).1 ≤ fs.length) (hlast : v ≠ lastPage) :
    PathsAgree root fs p v s l := by
  have hself := h.tree.forest.self_ref root rfl
  obtain ⟨s', hwalk, hs'⟩ := h.window.fillFrom h.tree hv (descend_le _ v 3 root) hlen
    (descend_spec (m := entries s.mem) (v := v) (n := 3) le_rfl rfl).1 p
  obtain ⟨l', hround, hl'⟩ := h.linear.mapKernelPage h.tree hv hlen p
  have hvend : v.toNat < 2 ^ 64 - 4096 := by
    have hlt := v.isLt
    have hne : v.toNat ≠ 2 ^ 64 - 4096 := fun heq => hlast (BitVec.eq_of_toNat_eq heq)
    omega
  have hpalign : pageAlign p = p := by
    apply BitVec.eq_of_toNat_eq
    rw [pageAlign_toNat]
    omega
  have hvalign : pageAlign v = v := by
    apply BitVec.eq_of_toNat_eq
    rw [pageAlign_toNat]
    omega
  have hwalk' : pageWalk p v s = .ok (1, s') :=
    (h.window.walkAndMap_eq hself hpte pageKernel p).trans hwalk
  have hmap : mapAllKernelPages v v p (kernbase + root.addr) l = .ok l' := by
    rw [mapAllKernelPages_self hvend, hpalign, hvalign, hround]
  obtain ⟨nodes, hchain, hframes, -⟩ := hl'.list
  refine ⟨s', l', _, hwalk', hmap, fun g hg j => ?_, List.drop_suffix _ fs, hs'.free, nodes, hchain,
    hframes⟩
  rw [hl'.isPageTable_iff, IsPageTable, hs'.mem, or_self] at hg
  rw [hs'.mem, hl'.same g (hl'.inside g (Or.inl hg))]

/-- The two paths agree exactly when the list has a frame for each missing table and the page is not
    the last one. -/
theorem pathsAgree_iff (root : Frame) (fs : List Frame) (s : Kernel) (l : FreeList Mem)
    (h : TwoWindows root fs s l) (p v : Word) (hp : p.toNat % 4096 = 0) (hvp : v.toNat % 4096 = 0)
    (hv : pml4Idx v ≠ selfSlot) (hpte : ¬ HasValidPte s v) :
    PathsAgree root fs p v s l ↔
      (descend (entries s.mem) v 3 root).1 ≤ fs.length ∧ v ≠ lastPage := by
  refine ⟨fun hagree => ?_, fun hcond => h.agree hp hvp hv hpte hcond.1 hcond.2⟩
  obtain ⟨s', l', -, hwalk, hmap, -⟩ := hagree
  constructor
  · by_contra hshort
    have hself := h.tree.forest.self_ref root rfl
    have hstray := h.window.fillFrom_exhausted h.tree hv (descend_le _ v 3 root)
      (not_le.mp hshort) (descend_spec (m := entries s.mem) (v := v) (n := 3) le_rfl rfl).1 p
    rw [pageWalk, h.window.walkAndMap_eq hself hpte, hstray] at hwalk
    cases hwalk
  · rintro rfl
    exact mapKernelPagesLoop_ne_ok (BitVec.le_refl _) (pageAlign_aligned lastPage) hmap

end Agree

/-! ## A kernel with one table -/

/-- The kernel that has `loneSpace` loaded, with descriptors for the same three frames. -/
def loneKernel : Kernel := { sampleKernel 3 with mem := loneSpace.descs }

theorem freeFrames_sampleList {n : Nat} (hn : 24 * n < 2 ^ 31) :
    FreeFrames (sampleList n) (sampleFrames n) := by
  obtain ⟨nodes, hc, hmap, hlow⟩ := sampleDescs_chain n hn
  refine ⟨⟨BitVec.ofNat 64 (24 * n), nodes, rfl, hc, hmap, hlow⟩, ?_⟩
  show sampleDescs 0 = none
  decide

theorem mem_loneKernel : loneKernel.mem = loneSpace.descs := by
  unfold loneKernel
  dsimp only

theorem freeFrames_loneKernel : FreeFrames loneKernel.freeList (sampleFrames 3) :=
  freeFrames_sampleList (by decide)

theorem sampleFrames_three : sampleFrames 3 = [19, 18, 17] := by decide

theorem twoWindows_lone : TwoWindows 1 [19, 18, 17] loneKernel loneSpace :=
  linearSpace_loneSpace.twoWindows mem_loneKernel (frameOf_addr 1)
    (sampleFrames_three ▸ freeFrames_loneKernel)

theorem not_hasValidPte_lone {v : Word} (hv : pml4Idx v ≠ selfSlot) :
    ¬ HasValidPte loneKernel v := by
  rintro ⟨f, hf, -⟩
  rw [twoWindows_lone.window.tableAt_eq, mem_loneKernel] at hf
  have habs := absent_loneSpace (pml4Idx v) hv
  rw [show (path v).take 3 = [pml4Idx v, pdpIdx v, pdIdx v] from rfl, walk_cons, habs,
    Option.bind_none] at hf
  cases hf

theorem pathsAgree_iff_lone :
    PathsAgree 1 [19, 18, 17] 0x6000#64 0x1000#64 loneKernel loneSpace ↔
      (descend (entries loneKernel.mem) 0x1000#64 3 1).1 ≤ [(19 : Frame), 18, 17].length ∧
        0x1000#64 ≠ lastPage :=
  pathsAgree_iff 1 [19, 18, 17] loneKernel loneSpace twoWindows_lone 0x6000#64 0x1000#64 (by decide)
    (by decide) (by decide) (not_hasValidPte_lone (by decide))

/-- On the last page `map_all_kernel_pages` goes round for ever, with frames for every table. -/
theorem not_pathsAgree_lastPage :
    TwoWindows 1 [19, 18, 17] loneKernel loneSpace ∧ pml4Idx lastPage ≠ selfSlot ∧
      ¬ HasValidPte loneKernel lastPage ∧
      (descend (entries loneKernel.mem) lastPage 3 1).1 ≤ [(19 : Frame), 18, 17].length ∧
      ¬ PathsAgree 1 [19, 18, 17] 0x6000#64 lastPage loneKernel loneSpace := by
  refine ⟨twoWindows_lone, by decide, not_hasValidPte_lone (by decide), descend_le _ _ 3 1, ?_⟩
  rintro ⟨s', l', -, -, hmap, -⟩
  exact mapKernelPagesLoop_ne_ok (BitVec.le_refl lastPage) (pageAlign_aligned lastPage) hmap

end SBUnix
