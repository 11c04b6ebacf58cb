import SBUnix.Paging.Fill

/-
  `page_walk` and `page_walk_user` on owned page tables.

  With `missingTables s v` tables missing on the way to `v`, the walk takes that many frames,
  hangs each as a table one level further down, and fills the last-level slot. `fillFrom` is
  that sequence of stores for a given number of missing tables, and `walkAndMap_cases` says
  that the source's four nested branches are it. The three outcomes of a walk are
  `Owned.walkAndMap_mapped`, `Owned.walkAndMap_unmapped` and `Owned.walkAndMap_exhausted`.
-/

namespace SBUnix

open ByteMem Radix

/-! ## The levels of a virtual address -/

/-- The table index of `v` at depth `d` below the PML4. -/
def idxAt (v : Word) : Nat → Idx
  | 0 => pml4Idx v
  | 1 => pdpIdx v
  | 2 => pdIdx v
  | _ => ptIdx v

/-- The recursive-window address of that entry. -/
def windowAddr (v : Word) : Nat → Word
  | 0 => pml4RecAddr v
  | 1 => pdpeRecAddr v
  | 2 => pgdRecAddr v
  | _ => pteRecAddr v

theorem take_succ_path (v : Word) {d : Nat} (hd : d < 4) :
    (path v).take (d + 1) = (path v).take d ++ [idxAt v d] := by
  interval_cases d <;> rfl

theorem recWindow_windowAddr (v : Word) {d : Nat} (hd : d < 4) :
    RecWindow (windowAddr v d) ((path v).take d) (idxAt v d) := by
  interval_cases d
  · exact recWindow_pml4 v
  · exact recWindow_pdpe v
  · exact recWindow_pgd v
  · exact recWindow_pte v

theorem length_take_path (v : Word) {d : Nat} (hd : d ≤ 4) : ((path v).take d).length = d := by
  rw [List.length_take, path_length]
  omega

theorem tablePath_take (v : Word) (hv : pml4Idx v ≠ selfSlot) {d : Nat} (hd : d < 4) :
    TablePath selfSlot 4 ((path v).take d) := by
  refine ⟨by rwa [length_take_path v hd.le], ?_⟩
  cases d with
  | zero => simp
  | succ d => simpa [path] using hv

/-! ## The branches of the walk -/

/-- The stores of a walk to `vAddr` that finds `n` tables missing. -/
def fillFrom (flags pAddr vAddr : Word) : Nat → Kernel → Except Fault (Word × Kernel)
  | 0, s => do
    let s ← s.store (windowAddr vAddr 3) (pAddr ||| flags)
    return (1, s)
  | n + 1, s => do
    let (physicalPage, s) ← s.takeFrame
    let s ← s.store (windowAddr vAddr (2 - n)) (physicalPage ||| flags)
    fillFrom flags pAddr vAddr n s

/-- The four nested branches, each as `fillFrom`. -/
theorem walkAndMap_eq (flags p v : Word) (s : Kernel) : walkAndMap flags p v s = (do
    if isValidPage (← s.load (windowAddr v 0)) then
      if isValidPage (← s.load (windowAddr v 1)) then
        if isValidPage (← s.load (windowAddr v 2)) then
          if isValidPage (← s.load (windowAddr v 3)) then
            return (0, s)
          else fillFrom flags p v 0 s
        else fillFrom flags p v 1 s
      else fillFrom flags p v 2 s
    else fillFrom flags p v 3 s) := rfl

/-- The number of tables missing on the way to `v`. -/
def missingTables (s : Kernel) (v : Word) : Nat :=
  if s.tableAt ((path v).take 1) = none then 3
  else if s.tableAt ((path v).take 2) = none then 2
  else if s.tableAt ((path v).take 3) = none then 1
  else 0

theorem missingTables_le (s : Kernel) (v : Word) : missingTables s v ≤ 3 := by
  unfold missingTables
  split_ifs <;> omega

section Walk

variable {shared : Set Idx} {roots : Set Frame} {fs : List Frame} {s : Kernel} {v : Word}
  {f : Frame} {flags : Word}

/-- Reading the entry of `v` at depth `d` decides whether the next table is there. -/
theorem Owned.load_level (h : Owned shared roots fs s) (hv : pml4Idx v ≠ selfSlot) {d : Nat}
    (hd : d < 4) (hw : s.tableAt ((path v).take d) = some f) :
    s.load (windowAddr v d) = .ok (entries s.mem f (idxAt v d)) ∧
      ((isValidPage (entries s.mem f (idxAt v d)) = true ∧
          ∃ g, s.tableAt ((path v).take (d + 1)) = some g) ∨
        (isValidPage (entries s.mem f (idxAt v d)) = false ∧
          target (entries s.mem f (idxAt v d)) = none ∧
          s.tableAt ((path v).take (d + 1)) = none)) := by
  have hnext : s.tableAt ((path v).take (d + 1)) = target (entries s.mem f (idxAt v d)) := by
    unfold Kernel.tableAt at hw ⊢
    rw [take_succ_path v hd, walk_concat, hw, Option.bind_some]
  refine ⟨Kernel.load_window (recWindow_windowAddr v hd) h.self_ref hw, ?_⟩
  rw [hnext]
  have hiff := h.isValidPage_iff_present (tablePath_take v hv hd) hw (idxAt v d)
  cases hvalid : isValidPage (entries s.mem f (idxAt v d)) with
  | true =>
    exact Or.inl ⟨rfl, frameOf (entries s.mem f (idxAt v d)), if_pos (hiff.mp hvalid)⟩
  | false =>
    have hnone : target (entries s.mem f (idxAt v d)) = none := by
      rw [target_eq_none_iff, ← Bool.not_eq_true, ← hiff, hvalid]
      decide
    exact Or.inr ⟨rfl, hnone, hnone⟩

/-- The walk returns 0 on a mapped page, and is `fillFrom` the missing tables on any other. -/
theorem Owned.walkAndMap_cases (h : Owned shared roots fs s) (hv : pml4Idx v ≠ selfSlot)
    (flags p : Word) :
    (∃ x, s.tableAt (path v) = some x ∧ missingTables s v = 0 ∧
        walkAndMap flags p v s = .ok (0, s)) ∨
      (s.tableAt (path v) = none ∧
        walkAndMap flags p v s = fillFrom flags p v (missingTables s v) s ∧
        ∃ f, s.tableAt ((path v).take (3 - missingTables s v)) = some f ∧
          target (entries s.mem f (idxAt v (3 - missingTables s v))) = none) := by
  have hunmapped : ∀ d, d < 4 → s.tableAt ((path v).take d) = none →
      s.tableAt (path v) = none := by
    intro d hd hnone
    unfold Kernel.tableAt at hnone ⊢
    rw [← List.take_append_drop d (path v), walk_append, hnone, Option.bind_none]
  obtain ⟨hl₀, ⟨hv₀, f₁, hw₁⟩ | ⟨hv₀, habs, hw₁⟩⟩ :=
    h.load_level hv (d := 0) (by omega) (f := s.root) rfl
  swap
  · have hn : missingTables s v = 3 := if_pos hw₁
    rw [walkAndMap_eq, hl₀, ok_bind, hv₀, hn]
    exact Or.inr ⟨hunmapped 1 (by omega) hw₁, rfl, s.root, rfl, habs⟩
  obtain ⟨hl₁, ⟨hv₁, f₂, hw₂⟩ | ⟨hv₁, habs, hw₂⟩⟩ := h.load_level hv (d := 1) (by omega) hw₁
  swap
  · have hn : missingTables s v = 2 := by simp [missingTables, hw₁, hw₂]
    rw [walkAndMap_eq, hl₀, ok_bind, if_pos hv₀, hl₁, ok_bind, hv₁, hn]
    exact Or.inr ⟨hunmapped 2 (by omega) hw₂, rfl, f₁, hw₁, habs⟩
  obtain ⟨hl₂, ⟨hv₂, f₃, hw₃⟩ | ⟨hv₂, habs, hw₃⟩⟩ := h.load_level hv (d := 2) (by omega) hw₂
  swap
  · have hn : missingTables s v = 1 := by simp [missingTables, hw₁, hw₂, hw₃]
    rw [walkAndMap_eq, hl₀, ok_bind, if_pos hv₀, hl₁, ok_bind, if_pos hv₁, hl₂, ok_bind, hv₂, hn]
    exact Or.inr ⟨hunmapped 3 (by omega) hw₃, rfl, f₂, hw₂, habs⟩
  have hn : missingTables s v = 0 := by simp [missingTables, hw₁, hw₂, hw₃]
  obtain ⟨hl₃, ⟨hv₃, x, hw₄⟩ | ⟨hv₃, habs, hw₄⟩⟩ := h.load_level hv (d := 3) (by omega) hw₃ <;>
    rw [walkAndMap_eq, hl₀, ok_bind, if_pos hv₀, hl₁, ok_bind, if_pos hv₁, hl₂, ok_bind,
      if_pos hv₂, hl₃, ok_bind, hv₃, hn]
  · exact Or.inl ⟨x, hw₄, rfl, rfl⟩
  · exact Or.inr ⟨hw₄, rfl, f₃, hw₃, habs⟩

/-- One page was mapped in the loaded address space: path `q₀` got frame `g`, the frames `used`
    became tables, and `fs` are left. -/
structure MappedPage (shared : Set Idx) (roots : Set Frame) (used fs : List Frame)
    (q₀ : List Idx) (g : Frame) (s s' : Kernel) : Prop where
  owned : Owned shared roots fs s'
  grown : Grown roots used s s'
  maps : MapsOnly shared roots q₀ g s s'

/-- One more table on the way down: the walk continues from a blank one. -/
theorem Owned.fillFrom_succ {g : Frame} (h : Owned shared roots (g :: fs) s)
    (hf : EntryFlags flags) (hv : pml4Idx v ≠ selfSlot) (p : Word) {n : Nat} (hn : n + 1 ≤ 3)
    (hshared : n + 1 = 3 → pml4Idx v ∉ shared)
    (hw : s.tableAt ((path v).take (3 - (n + 1))) = some f)
    (habs : target (entries s.mem f (idxAt v (3 - (n + 1)))) = none) :
    ∃ s₂, fillFrom flags p v (n + 1) s = fillFrom flags p v n s₂ ∧ Owned shared roots fs s₂ ∧
      Grown roots [g] s s₂ ∧ SameTrans roots s s₂ ∧
      s₂.tableAt ((path v).take (3 - n)) = some g ∧
      ∀ j, target (entries s₂.mem g j) = none := by
  have hd : 3 - (n + 1) = 2 - n := by omega
  have hd' : 2 - n + 1 = 3 - n := by omega
  rw [hd] at hw habs
  have hlen : ((path v).take (2 - n)).length = 2 - n := length_take_path v (by omega)
  have hroot : (path v).take (2 - n) = [] → idxAt v (2 - n) ≠ selfSlot ∧
      idxAt v (2 - n) ∉ shared := by
    intro hnil
    rw [hnil, List.length_nil] at hlen
    rw [← hlen]
    exact ⟨hv, hshared (by omega)⟩
  obtain ⟨s₁, s₂, htake, hstore, howned, hgrown, hsame, hw₂, hblank⟩ :=
    h.link hf (recWindow_windowAddr v (d := 2 - n) (by omega)) (tablePath_take v hv (by omega))
      (by omega) hroot hw habs
  rw [← take_succ_path v (by omega), hd'] at hw₂
  refine ⟨s₂, ?_, howned, hgrown, hsame, hw₂, hblank⟩
  unfold fillFrom
  rw [htake, ok_bind]
  dsimp only
  rw [hstore, ok_bind]
  cases n <;> rfl

/-- With a frame for each of the `n` missing tables, the stores map the page. -/
theorem Owned.fillFrom (h : Owned shared roots fs s) (hf : EntryFlags flags)
    (hv : pml4Idx v ≠ selfSlot) (p : Word) {n : Nat} (hn : n ≤ 3) (hlen : n ≤ fs.length)
    (hshared : n = 3 → pml4Idx v ∉ shared)
    (hw : s.tableAt ((path v).take (3 - n)) = some f)
    (habs : target (entries s.mem f (idxAt v (3 - n))) = none) :
    ∃ s', SBUnix.fillFrom flags p v n s = .ok (1, s') ∧
      MappedPage shared roots (fs.take n) (fs.drop n) (path v) (frameOf p) s s' := by
  induction n generalizing s f fs with
  | zero =>
    obtain ⟨s', hstore, howned, hgrown, hmaps⟩ :=
      h.mapLeaf (recWindow_windowAddr v (by omega)) (tablePath_take v hv (by omega))
        (length_take_path v (by omega)) hw habs (isValidPage_or_flags p hf)
    rw [frameOf_or_flags p hf, ← take_succ_path v (by omega)] at hmaps
    refine ⟨s', ?_, howned, hgrown, hmaps⟩
    rw [SBUnix.fillFrom, hstore]
    rfl
  | succ n ih =>
    cases fs with
    | nil => simp at hlen
    | cons g fs =>
      obtain ⟨s₂, hrun, howned, hgrown, hsame, hw₂, hblank⟩ :=
        h.fillFrom_succ hf hv p hn hshared hw habs
      obtain ⟨s', hrun', hmapped⟩ := ih howned (by omega) (by simpa using hlen)
        (fun h3 => by omega) hw₂ (hblank _)
      exact ⟨s', hrun.trans hrun', hmapped.owned, hgrown.trans hmapped.grown,
        hsame.mapsOnly hgrown.regs.root hmapped.maps⟩

/-- With too few frames the stores end in the allocator's stray read. -/
theorem Owned.fillFrom_exhausted (h : Owned shared roots fs s) (hf : EntryFlags flags)
    (hv : pml4Idx v ≠ selfSlot) (p : Word) {n : Nat} (hn : n ≤ 3) (hlen : fs.length < n)
    (hshared : n = 3 → pml4Idx v ∉ shared)
    (hw : s.tableAt ((path v).take (3 - n)) = some f)
    (habs : target (entries s.mem f (idxAt v (3 - n))) = none) :
    SBUnix.fillFrom flags p v n s = .error (.strayRead kernbase) := by
  induction n generalizing s f fs with
  | zero => omega
  | succ n ih =>
    cases fs with
    | nil =>
      rw [SBUnix.fillFrom, h.takeFrame_nil]
      rfl
    | cons g fs =>
      obtain ⟨s₂, hrun, howned, -, -, hw₂, hblank⟩ :=
        h.fillFrom_succ hf hv p hn hshared hw habs
      rw [hrun]
      exact ih howned (by omega) (by simpa using hlen) (fun h3 => by omega) hw₂ (hblank _)

/-! ## The three outcomes -/

/-- The shared slots' tables are there, so no walk links one. -/
def SharedPresent (shared : Set Idx) (s : Kernel) : Prop :=
  ∀ i ∈ shared, target (entries s.mem s.root i) ≠ none

/-- A walk to a shared slot never misses all three tables. -/
theorem notMem_shared_of_missing (hsp : SharedPresent shared s) (hn : missingTables s v = 3) :
    pml4Idx v ∉ shared := by
  intro hmem
  have hone : s.tableAt ((path v).take 1) = none := by
    by_contra hsome
    rw [missingTables, if_neg hsome] at hn
    split_ifs at hn <;> omega
  refine hsp (pml4Idx v) hmem ?_
  unfold Kernel.tableAt path at hone
  simpa using hone

/-- On a mapped page the walk returns 0 and changes nothing. -/
theorem Owned.walkAndMap_mapped (h : Owned shared roots fs s) (hv : pml4Idx v ≠ selfSlot)
    (flags p : Word) (hm : s.tableAt (path v) ≠ none) :
    walkAndMap flags p v s = .ok (0, s) := by
  obtain ⟨-, -, -, hrun⟩ | ⟨hnone, -⟩ := h.walkAndMap_cases hv flags p
  · exact hrun
  · exact absurd hnone hm

/-- On any other page, with a frame for each missing table, it returns 1 and maps the page. -/
theorem Owned.walkAndMap_unmapped (h : Owned shared roots fs s) (hf : EntryFlags flags)
    (hsp : SharedPresent shared s) (hv : pml4Idx v ≠ selfSlot) (p : Word)
    (hm : s.tableAt (path v) = none) (hlen : missingTables s v ≤ fs.length) :
    ∃ s', walkAndMap flags p v s = .ok (1, s') ∧
      MappedPage shared roots (fs.take (missingTables s v)) (fs.drop (missingTables s v)) (path v)
        (frameOf p) s s' := by
  obtain ⟨x, hx, -⟩ | ⟨-, hrun, f, hw, habs⟩ := h.walkAndMap_cases hv flags p
  · rw [hm] at hx
    cases hx
  · rw [hrun]
    exact h.fillFrom hf hv p (missingTables_le s v) hlen (notMem_shared_of_missing hsp) hw habs

/-- With too few frames it ends in the allocator's stray read. -/
theorem Owned.walkAndMap_exhausted (h : Owned shared roots fs s) (hf : EntryFlags flags)
    (hsp : SharedPresent shared s) (hv : pml4Idx v ≠ selfSlot) (p : Word)
    (hlen : fs.length < missingTables s v) :
    walkAndMap flags p v s = .error (.strayRead kernbase) := by
  obtain ⟨x, -, hzero, -⟩ | ⟨-, hrun, f, hw, habs⟩ := h.walkAndMap_cases hv flags p
  · omega
  · rw [hrun]
    exact h.fillFrom_exhausted hf hv p (missingTables_le s v) hlen
      (notMem_shared_of_missing hsp) hw habs

end Walk

/-! ## `page_walk` and `page_walk_user` map exactly one page -/

/-- `v` has a valid last-level entry. -/
def HasValidPte (s : Kernel) (v : Word) : Prop :=
  ∃ f, s.tableAt ((path v).take 3) = some f ∧ isValidPage (entries s.mem f (ptIdx v)) = true

theorem Owned.hasValidPte_iff {shared : Set Idx} {roots : Set Frame} {fs : List Frame}
    {s : Kernel} (h : Owned shared roots fs s) {v : Word} (hv : pml4Idx v ≠ selfSlot) :
    HasValidPte s v ↔ s.tableAt (path v) ≠ none := by
  have hwalk : s.tableAt (path v) =
      (s.tableAt ((path v).take 3)).bind fun g => target (entries s.mem g (ptIdx v)) :=
    walk_concat target (entries s.mem) s.root ((path v).take 3) (ptIdx v)
  unfold HasValidPte
  constructor
  · intro hvalid
    obtain ⟨f, hf, hvalid⟩ := hvalid
    rw [hwalk, hf, Option.bind_some, target, if_pos (present_of_isValidPage hvalid)]
    simp
  · intro hm
    obtain ⟨x, hx⟩ := Option.ne_none_iff_exists'.mp hm
    rw [hwalk] at hx
    obtain ⟨f, hf, hx⟩ := Option.bind_eq_some_iff.mp hx
    refine ⟨f, hf, (h.isValidPage_iff_present (tablePath_take v hv (by omega)) hf _).mpr ?_⟩
    by_contra habs
    rw [(target_eq_none_iff _).mpr (Bool.not_eq_true _ ▸ habs)] at hx
    cases hx

theorem path_head (v : Word) : (path v).head? = some (pml4Idx v) := rfl

/-- A page outside slot 510 has its own path. -/
theorem path_head_ne {v : Word} (hv : pml4Idx v ≠ selfSlot) : (path v).head? ≠ some selfSlot := by
  rw [path_head, Ne, Option.some.injEq]
  exact hv

/-- Either walk maps exactly the page it is asked to map, and leaves a mapped page alone. -/
theorem pageWalk_exact (walk : Word → Word → Kernel → Except Fault (Word × Kernel))
    (hwalk : walk = pageWalk ∨ walk = pageWalkUser) (s : Kernel) (fs : List Frame)
    (h : Owned ∅ {s.root} fs s) (pAddr vAddr : Word) (hp : pAddr.toNat % 4096 = 0)
    (hv : pml4Idx vAddr ≠ selfSlot) (henough : missingTables s vAddr ≤ fs.length) :
    (¬ HasValidPte s vAddr → ∃ s', walk pAddr vAddr s = .ok (1, s') ∧ s'.root = s.root ∧
        translate s'.mem s.root vAddr = some (pAddr.toNat + (pageOff vAddr).toNat) ∧
        ∀ w, pml4Idx w ≠ selfSlot → path w ≠ path vAddr →
          translate s'.mem s.root w = translate s.mem s.root w) ∧
      (HasValidPte s vAddr → walk pAddr vAddr s = .ok (0, s)) := by
  have hflags : ∃ flags, EntryFlags flags ∧ walk = walkAndMap flags := by
    obtain rfl | rfl := hwalk
    · exact ⟨pageKernel, entryFlags_pageKernel, rfl⟩
    · exact ⟨pageUser, entryFlags_pageUser, rfl⟩
  obtain ⟨flags, hf, rfl⟩ := hflags
  have hsp : SharedPresent ∅ s := fun i hi => absurd hi (Set.notMem_empty i)
  rw [h.hasValidPte_iff hv]
  constructor
  · intro hm
    obtain ⟨s', hrun, hmapped⟩ := h.walkAndMap_unmapped hf hsp hv pAddr (not_not.mp hm) henough
    refine ⟨s', hrun, hmapped.grown.regs.root, ?_, ?_⟩
    · have hwalk := hmapped.maps.mapped s.root rfl (Or.inl rfl)
      rw [translate_eq_some hwalk, frameOf_toNat]
      congr 2
      omega
    · intro w hw hne
      apply translate_congr
      refine hmapped.maps.other s.root rfl (path w) rfl (path_head_ne hw) ?_
      intro hcond
      exact hne hcond.1
  · exact h.walkAndMap_mapped hv flags pAddr

/-! ## An address space of one page table -/

/-- The frames of `sampleList n`, in list order. -/
def sampleFrames : Nat → List Frame
  | 0 => []
  | n + 1 => BitVec.ofNat 52 (n + 17) :: sampleFrames n

/-- Descriptors 24 bytes apart, each linked to the one below it. -/
def sampleDescs : DescStore := fun p =>
  if p.toNat % 24 = 0 ∧ 0 < p.toNat then
    some ⟨p - 24#64, 0, Frame.addr (BitVec.ofNat 52 (p.toNat / 24 + 16))⟩
  else none

/-- A free list of `n` descriptors. -/
def sampleList (n : Nat) : FreeList DescStore where
  descs := sampleDescs
  freeListHead := BitVec.ofNat 64 (24 * n)
  freeListHeadKmalloc := kernbase + BitVec.ofNat 64 (24 * n)

/-- Only the PML4 in frame 1, which holds nothing but the reference to itself. -/
def sampleKernel (n : Nat) : Kernel where
  mem := writeWord (fun _ => 0) (entryAddr 1 selfSlot) (Frame.addr 1 ||| pageUser)
  cr3 := Frame.addr 1
  freeList := sampleList n
  topVirtualAddress := 0xffffffff80400000#64
  kernelPml4T := 0xffffffff80300000#64
  pagingUserStackTop := 0

theorem sampleDescs_chain (n : Nat) (hn : 24 * n < 2 ^ 31) :
    ∃ nodes, FreeChain sampleDescs (BitVec.ofNat 64 (24 * n)) nodes ∧
      nodes.map Prod.snd = (sampleFrames n).map Frame.addr ∧ ∀ e ∈ nodes, e.1.toNat < 2 ^ 31 := by
  induction n with
  | zero => exact ⟨[], rfl, rfl, by simp⟩
  | succ n ih =>
    obtain ⟨nodes, hc, hmap, hlow⟩ := ih (by omega)
    have hnat : (BitVec.ofNat 64 (24 * (n + 1))).toNat = 24 * (n + 1) := by
      rw [BitVec.toNat_ofNat]
      omega
    have hnext : BitVec.ofNat 64 (24 * (n + 1)) - 24#64 = BitVec.ofNat 64 (24 * n) := by
      apply BitVec.eq_of_toNat_eq
      simp only [BitVec.toNat_sub, BitVec.toNat_ofNat]
      omega
    have hdesc : sampleDescs (BitVec.ofNat 64 (24 * (n + 1))) =
        some ⟨BitVec.ofNat 64 (24 * n), 0, Frame.addr (BitVec.ofNat 52 (n + 17))⟩ := by
      unfold sampleDescs
      rw [if_pos (by rw [hnat]; omega), hnat, hnext, show 24 * (n + 1) / 24 + 16 = n + 17 by omega]
    refine ⟨(BitVec.ofNat 64 (24 * (n + 1)), Frame.addr (BitVec.ofNat 52 (n + 17))) :: nodes,
      ⟨rfl, ?_, _, ?_, hc⟩, ?_, ?_⟩
    · rw [ne_zero_iff_toNat, hnat]
      omega
    · rw [descNode, hdesc]
      rfl
    · rw [List.map_cons, hmap, sampleFrames, List.map_cons]
    · intro e he
      obtain rfl | he := List.mem_cons.mp he
      · rw [hnat]
        omega
      · exact hlow e he

theorem mem_sampleFrames {n : Nat} (hn : n < 2 ^ 20) {f : Frame} (hf : f ∈ sampleFrames n) :
    17 ≤ f.toNat ∧ f.toNat < n + 17 := by
  induction n with
  | zero => simp [sampleFrames] at hf
  | succ n ih =>
    obtain rfl | hf := List.mem_cons.mp hf
    · rw [BitVec.toNat_ofNat]
      omega
    · have := ih (by omega) hf
      omega

theorem sampleFrames_nodup {n : Nat} (hn : n < 2 ^ 20) : (sampleFrames n).Nodup := by
  induction n with
  | zero => simp [sampleFrames]
  | succ n ih =>
    refine List.nodup_cons.mpr ⟨fun hmem => ?_, ih (by omega)⟩
    have hlt := mem_sampleFrames (by omega) hmem
    rw [BitVec.toNat_ofNat] at hlt
    omega

theorem sampleFrames_length (n : Nat) : (sampleFrames n).length = n := by
  induction n with
  | zero => rfl
  | succ n ih => rw [sampleFrames, List.length_cons, ih]

theorem entries_sampleKernel (n : Nat) (f : Frame) (i : Idx) :
    entries (sampleKernel n).mem f i =
      if f = 1 ∧ i = selfSlot then Frame.addr 1 ||| pageUser else 0 := by
  unfold sampleKernel
  rw [entries_writeWord, setEntry]
  have hzero : entries (fun _ => 0) f i = 0 := (readWord_eq_zero _ _).mpr fun _ _ => rfl
  rw [hzero]

theorem sampleKernel_root (n : Nat) : (sampleKernel n).root = 1 := frameOf_addr 1

theorem owned_sampleKernel {n : Nat} (hn : n < 2 ^ 20) (shared : Set Idx) :
    Owned shared {(sampleKernel n).root} (sampleFrames n) (sampleKernel n) := by
  have hself : target (entries (sampleKernel n).mem 1 selfSlot) = some 1 := by
    rw [entries_sampleKernel, if_pos ⟨rfl, rfl⟩, target_or_flags _ entryFlags_pageUser,
      frameOf_addr]
  have habs : ∀ j, j ≠ selfSlot → target (entries (sampleKernel n).mem 1 j) = none := by
    intro j hj
    rw [entries_sampleKernel, if_neg fun h => hj h.2, target_zero]
  have htable : ∀ g, IsPageTable {1} (sampleKernel n).mem g → g = 1 := by
    intro g hg
    obtain ⟨r, hr, p, hp, hw⟩ := hg
    obtain rfl := Set.mem_singleton_iff.mp hr
    exact (walk_loneRoot habs hp.head hw).2
  have hne : ∀ f ∈ sampleFrames n, f ≠ 1 := by
    intro f hf h1
    have hge := (mem_sampleFrames hn hf).1
    rw [h1] at hge
    exact absurd hge (by decide)
  rw [sampleKernel_root]
  exact {
    forest := Forest.loneRoot hself habs
    loaded := sampleKernel_root n
    writable := by
      intro g hg j hj
      rw [htable g hg, entries_sampleKernel] at hj ⊢
      split_ifs at hj ⊢ with hc
      · exact isValidPage_or_flags _ entryFlags_pageUser
      · exact absurd hj (by decide)
    free := by
      obtain ⟨nodes, hc, hmap, hlow⟩ := sampleDescs_chain n (by omega)
      refine ⟨⟨BitVec.ofNat 64 (24 * n), nodes, rfl, hc, hmap, hlow⟩, ?_⟩
      show sampleDescs 0 = none
      decide
    nodup := sampleFrames_nodup hn
    zero := fun f hf j => by rw [entries_sampleKernel, if_neg fun h => hne f hf h.1]
    unused := fun f hf hg => hne f hf (htable f hg) }

theorem pageWalk_exact_sample :
    (¬ HasValidPte (sampleKernel 3) 0x400000#64 →
        ∃ s', pageWalk 0x200000#64 0x400000#64 (sampleKernel 3) = .ok (1, s') ∧
          s'.root = (sampleKernel 3).root ∧
          translate s'.mem (sampleKernel 3).root 0x400000#64 =
            some ((0x200000#64).toNat + (pageOff 0x400000#64).toNat) ∧
          ∀ w, pml4Idx w ≠ selfSlot → path w ≠ path 0x400000#64 →
            translate s'.mem (sampleKernel 3).root w =
              translate (sampleKernel 3).mem (sampleKernel 3).root w) ∧
      (HasValidPte (sampleKernel 3) 0x400000#64 →
        pageWalk 0x200000#64 0x400000#64 (sampleKernel 3) = .ok (0, sampleKernel 3)) :=
  pageWalk_exact pageWalk (Or.inl rfl) (sampleKernel 3) (sampleFrames 3)
    (owned_sampleKernel (by decide) ∅) 0x200000#64 0x400000#64 (by decide) (by decide)
    (missingTables_le _ _)

end SBUnix
