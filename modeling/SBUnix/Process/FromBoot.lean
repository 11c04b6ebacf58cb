import SBUnix.Paging.BootKeeps
import SBUnix.Process.KernelStacks

/-
  From the memory map to processes.

  `start` builds the free list and the kernel's page tables while the loader's mapping is in force,
  loads CR3 and moves the head of the list to `KERNBASE` (`Paged.kernel`). What is left of the list
  are zero frames that nothing else uses, so from there on processes can be created
  (`Started.loadReady`). A page that the kernel has behind the load of CR3 stays where it is in every
  address space, and its frame is never given away (`KernelPages.run`). Together: whatever processes
  are created and do, each has its own memory, and no frame of the kernel's image or of the
  descriptors becomes a page table or a page of theirs (`boot_processes`).
-/

namespace SBUnix

open ByteMem Radix

/-! ## The hand-over -/

namespace Kernel

/-- `set_top_virtual_address`. -/
def setTopVirtualAddress (vAddr : Word) (s : Kernel) : Kernel :=
  { s with
    topVirtualAddress := vAddr
    pagingUserStackTop := 0xfffffe0000000000#64 + 0x1000 - 0x8 }

end Kernel

/-- The kernel behind `set_cr3`, `set_new_free_list_head` and `set_top_virtual_address`. The
    descriptors are those in memory. -/
def Paged.kernel (sp : Paged) : Kernel :=
  Kernel.setTopVirtualAddress sp.topVirtualAddress
    { mem := sp.list.descs
      cr3 := sp.kernelCr3
      freeList := setNewFreeListHead
        ⟨DescMem.page sp.list.descs, sp.list.freeListHead, sp.list.freeListHeadKmalloc⟩
      topVirtualAddress := 0
      kernelPml4T := kernbase + sp.kernelCr3
      pagingUserStackTop := 0 }

/-- The frames behind the first `k` of a list of `n`. -/
def framesFrom (f : Nat → Nat) (n k : Nat) : List Frame :=
  (List.range' k (n - k)).map fun j => BitVec.ofNat 52 (f j / 4096)

section Frames

variable {b n k j : Nat} {f : Nat → Nat} {m : Mem} {p : Word} {nodes : List (Word × Word)}

theorem length_framesFrom : (framesFrom f n k).length = n - k := by
  rw [framesFrom, List.length_map, List.length_range']

theorem frame_toNat (hlow : f j < 2 ^ 31) : (BitVec.ofNat 52 (f j / 4096)).toNat = f j / 4096 := by
  rw [BitVec.toNat_ofNat]
  omega

theorem mem_framesFrom {g : Frame} (hg : g ∈ framesFrom f n k) :
    ∃ j, k ≤ j ∧ j < n ∧ g = BitVec.ofNat 52 (f j / 4096) := by
  obtain ⟨j, hj, rfl⟩ := List.mem_map.mp hg
  rw [List.mem_range'_1] at hj
  exact ⟨j, hj.1, by omega, rfl⟩

theorem page_null (m : Mem) : (DescMem.page m 0 : Option Page) = none := if_pos rfl

theorem descNode_page (m : Mem) (hp : p ≠ 0) : descNode (DescMem.page m) p = memNode m p := by
  have hpage : DescMem.page m p = some ⟨readWord m (bootPhys p), readWord m (bootPhys (8#64 + p)),
      readWord m (bootPhys (16#64 + p))⟩ := if_neg hp
  rw [descNode, hpage]
  rfl

/-- The list in memory, as a store of descriptors. -/
theorem freeChain_of_bootChain (h : BootChain m p nodes) (h0 : ∀ e ∈ nodes, e.1 ≠ 0) :
    FreeChain (DescMem.page m) p nodes :=
  Linked.Chain.congr h fun e he => descNode_page m (h0 e he)

theorem freeFrames_of_listInv (hroom : Room b n) (hf : Frames b n f) (hlow : ∀ j < n, f j < 2 ^ 31)
    (hdescs : b + 24 * n < 2 ^ 31) (h : ListInv m b n f) (hk : k ≤ n) (head : Word) :
    FreeFrames (setNewFreeListHead ⟨DescMem.page m, cursor b n k, head⟩) (framesFrom f n k) where
  chain := by
    have hchain := h.chain hroom k (n - k) (by omega)
    refine ⟨cursor b n k, _, rfl, freeChain_of_bootChain hchain fun e he => ?_, ?_, fun e he => ?_⟩
    · obtain ⟨j, hj, rfl⟩ := List.mem_map.mp he
      rw [List.mem_range'_1] at hj
      exact descAt_ne_zero hroom (by omega)
    · unfold framesFrom
      rw [List.map_map, List.map_map]
      refine List.map_congr_left fun j hj => BitVec.eq_of_toNat_eq ?_
      rw [List.mem_range'_1] at hj
      have hj' : j < n := by omega
      have halign := hf.aligned j hj'
      show (BitVec.ofNat 64 (f j)).toNat = (Frame.addr (BitVec.ofNat 52 (f j / 4096))).toNat
      rw [hf.toNat hj', Frame.addr_toNat, frame_toNat (hlow j hj')]
      omega
    · obtain ⟨j, hj, rfl⟩ := List.mem_map.mp he
      rw [List.mem_range'_1] at hj
      show (descAt b j).toNat < 2 ^ 31
      rw [descAt_toNat hroom (by omega)]
      omega
  null := page_null m

end Frames

/-! ## A kernel that can create processes -/

/-- A list of `n` frames from `b` on, below 2 GiB and in ascending order. -/
structure BootFrames (b n : Nat) (f : Nat → Nat) : Prop where
  frames : Frames b n f
  low : ∀ k < n, f k < 2 ^ 31
  ge : ∀ k < n, b + 4096 * k ≤ f k
  ascending : ∀ j k, j < k → k < n → f j < f k

section Owned

variable {b n n₀ j k : Nat} {f : Nat → Nat} {m : Mem} {physbase physfree len : Word} {sp : Paged}
  {S : Finset Nat} {T : Finset (List Idx)} {M : List Idx → Option Frame} {l : FreeList Mem}
  {root : Frame}

theorem BootFrames.frame_inj (h : BootFrames b n f) (hj : j < n) (hk : k < n)
    (heq : BitVec.ofNat 52 (f j / 4096) = BitVec.ofNat 52 (f k / 4096)) : j = k := by
  have hnat := congrArg BitVec.toNat heq
  rw [frame_toNat (h.low j hj), frame_toNat (h.low k hk)] at hnat
  have hj' := h.frames.aligned j hj
  have hk' := h.frames.aligned k hk
  obtain hlt | rfl | hlt := lt_trichotomy j k
  · have := h.ascending j k hlt hk
    omega
  · rfl
  · have := h.ascending k j hlt hj
    omega

theorem BootFrames.nodup (h : BootFrames b n f) : (framesFrom f n k).Nodup := by
  refine List.Nodup.map_on (fun x hx y hy heq => ?_) List.nodup_range'
  rw [List.mem_range'_1] at hx hy
  exact h.frame_inj (by omega) (by omega) heq

/-- The pool's frames are the first ones of the list. -/
theorem Pool.frame_eq (hpool : Pool b n n₀ f) (hj : j < n₀) :
    poolFrame b j = BitVec.ofNat 52 (f j / 4096) := by
  have hb := hpool.room.aligned
  unfold poolFrame
  rw [hpool.frames j hj, Nat.add_mul_div_left _ _ (by decide)]

theorem entries_zero {g : Frame} (h : ∀ x < 4096, m (g.toNat * 4096 + x) = 0) (i : Idx) :
    entries m g i = 0 := by
  have hi := i.isLt
  unfold entries entryAddr
  rw [readWord_eq_zero]
  intro x hx
  rw [Nat.add_assoc]
  exact h _ (by omega)

/-- The tables and what is left of the list. -/
theorem Paging.owned (hpool : Pool b n n₀ f) (hframes : BootFrames b n f)
    (h : Paging b n n₀ f root T M sp.list) (hroot : sp.kernelCr3 = root.addr)
    (hdescs : b + 24 * n < 2 ^ 31)
    (hzero : ∀ k, n₀ ≤ k → k < n → ∀ x < 4096, sp.list.descs (f k + x) = 0) :
    Owned kernelShared {root} (framesFrom f n (descPages n + 1 + T.card)) sp.kernel := by
  have hbound := h.tables.bound
  have hle := hpool.le
  have hcr3 : sp.kernel.root = root := by
    show frameOf sp.kernelCr3 = root
    rw [hroot, frameOf_addr]
  refine Owned.of_single ⟨h.tables.forest, hcr3, h.tables.valid, ?_, hframes.nodup, ?_, ?_⟩
  · show FreeFrames (setNewFreeListHead ⟨DescMem.page sp.list.descs, sp.list.freeListHead, _⟩) _
    rw [h.head]
    exact freeFrames_of_listInv hpool.room hframes.frames hframes.low hdescs h.list (by omega) _
  · intro g hg i
    obtain ⟨k, hk, hkn, rfl⟩ := mem_framesFrom hg
    by_cases hkn₀ : k < n₀
    · rw [← hpool.frame_eq hkn₀]
      exact h.tables.zero k hk hkn₀ i
    · refine entries_zero (fun x hx => ?_) i
      have halign := hframes.frames.aligned k hkn
      rw [frame_toNat (hframes.low k hkn), Nat.div_mul_cancel (Nat.dvd_of_mod_eq_zero halign)]
      exact hzero k (by omega) hkn x hx
  · intro g hg htable
    obtain ⟨k, hk, hkn, rfl⟩ := mem_framesFrom hg
    obtain ⟨j, -, hj, heq⟩ := h.tables.tables _ htable
    rw [hpool.frame_eq (by omega)] at heq
    have := hframes.frame_inj hkn (by omega) heq
    omega

/-- Kernel pages are in the kernel's slot. -/
theorem pml4Idx_kernelPage {a : Nat} (ha : a < 2 ^ 19) : pml4Idx (kernelPage a) = kernelSlot := by
  have hk := kernbase_toNat
  apply BitVec.eq_of_toNat_eq
  rw [pml4Idx_toNat, kernelPage_toNat ha, show kernelSlot.toNat = 511 from rfl]
  omega

/-- A page that `start` mapped. -/
theorem Paging.translatePage_kernelPage (h : Paging b n n₀ f root T M l) (hM : Identity S M)
    {a : Nat} (ha : a ∈ S) :
    translatePage l.descs root (kernelPage a) = some (BitVec.ofNat 52 a) := by
  rw [h.translatePage_eq (kernbase_le_kernelPage (hM.low a ha)), hM.page a ha]

theorem Started.top_toNat (h : Started b n n₀ f S sp)
    (htop : b + 4096 * (descPages n + 200) < 2 ^ 31) :
    sp.kernel.topVirtualAddress.toNat =
      kernbase.toNat + 4096 * (b / 4096 + descPages n + 200) := by
  show sp.topVirtualAddress.toNat = _
  rw [h.top, kernelPage_toNat (by omega)]

theorem mem_startPages {a d : Nat} (ha : physbase.toNat / 4096 ≤ a) (hab : a < b / 4096 + d + 11) :
    a ∈ startPages physbase.toNat b d := by
  rw [startPages, Finset.mem_union, Finset.mem_Ico]
  exact Or.inl ⟨ha, hab⟩

/-- Where `start` ends, processes can be created. -/
theorem Started.loadReady (hpool : Pool b n n₀ f) (hframes : BootFrames b n f)
    (hn : descPages n < n₀) (hlow : physbase.toNat < b)
    (htop : b + 4096 * (descPages n + 200) < 2 ^ 31)
    (hzero : ∀ k, n₀ ≤ k → k < n → ∀ x < 4096, sp.list.descs (f k + x) = 0)
    (h : Started b n n₀ f (startPages physbase.toNat b (descPages n)) sp) :
    LoadReady {poolFrame b (descPages n)}
      (framesFrom f n (descPages n + startFrames physbase.toNat b (descPages n))) sp.kernel := by
  obtain ⟨M, hpaging, hM⟩ := h.paging
  have hb := hpool.room.aligned
  have hk := kernbase_toNat
  have hdescs : 24 * n ≤ 4096 * descPages n := by
    unfold descPages
    omega
  have howned := hpaging.owned hpool hframes h.kernelCr3 (by omega) hzero
  rw [Nat.add_assoc] at howned
  have hroot : sp.kernel.root = poolFrame b (descPages n) := howned.loaded
  -- the page of the PML4
  have hpml4 : sp.kernel.kernelPml4T = kernelPage (b / 4096 + descPages n) := by
    refine eq_kernelPage (by omega) ?_
    show (kernbase + sp.kernelCr3).toNat = _
    rw [h.kernelCr3, BitVec.toNat_add, Frame.addr_toNat, hpool.frame_addr hn]
    omega
  have htopnat := h.top_toNat htop
  refine ⟨howned, ?_, ⟨?_, ?_, ?_, ?_⟩, ?_, ?_, ?_, by rfl⟩
  · intro i hi
    obtain rfl := Set.mem_singleton_iff.mp hi
    have hin : [kernelSlot] ∈ tablesOf (startPages physbase.toNat b (descPages n)) := by
      refine Finset.mem_biUnion.mpr ⟨b / 4096, mem_startPages (by omega) (by omega), ?_⟩
      rw [tablePaths, pml4Idx_kernelPage (by omega)]
      exact Finset.mem_insert_self _ _
    have hpath := (hpaging.tables.paths [kernelSlot] (by simp) ⟨by decide, by decide⟩).mpr hin
    rw [walk_cons] at hpath
    intro hnone
    rw [hroot] at hnone
    exact hpath (by rw [show entries sp.list.descs = entries sp.kernel.mem from rfl, hnone]; rfl)
  · omega
  · rw [hpml4, kernelPage_toNat (by omega)]
    omega
  · rw [hpml4, pml4Idx_kernelPage (by omega)]
  · refine ⟨_, rfl, fun r hr => ?_⟩
    rw [Set.mem_singleton_iff.mp hr, hpml4]
    exact hpaging.translatePage_kernelPage hM (mem_startPages (by omega) (by omega))
  · intro h0
    obtain ⟨k, hk, hkn, heq⟩ := mem_framesFrom h0
    have hnat := congrArg BitVec.toNat heq
    rw [frame_toNat (hframes.low k hkn)] at hnat
    have := hframes.ge k hkn
    change 0 = _ at hnat
    omega
  · omega
  · intro v hv
    rw [hroot]
    refine Option.map_eq_none_iff.mp (hpaging.translate_none hM
      (c := b / 4096 + descPages n + 200) (by omega) (fun a ha => ?_) ?_)
    · rw [startPages, Finset.mem_union, Finset.mem_Ico, Finset.mem_Ico] at ha
      omega
    · rw [BitVec.le_def, kernelPage_toNat (by omega)]
      omega

end Owned

/-! ## From the memory map -/

/-- `start`, and the frames it leaves. -/
structure Handed (m : Mem) (physbase physfree : Word) (map : List Smap) (b n k : Nat)
    (f : Nat → Nat) (sp : Paged) : Prop where
  aligned : b % 4096 = 0
  run : ∃ s l, buildFreeList m physfree map = .ok s ∧ setFreeListHead s = .ok l ∧
    startPaging physbase physfree l.2.1 l.1 = .ok sp
  ready : LoadReady {sp.kernel.root} (framesFrom f n k) sp.kernel
  top : sp.kernel.topVirtualAddress.toNat =
    kernbase.toNat + 4096 * (b / 4096 + descPages n + 200)
  page : ∀ a, physbase.toNat / 4096 ≤ a → a < b / 4096 + descPages n →
    KernelPage {sp.kernel.root} (framesFrom f n k) ⟨sp.kernel, []⟩ (kernelPage a)
      (BitVec.ofNat 52 a)

/-- The kernel's pages and those of the descriptors. -/
theorem Started.kernelPage {b n n₀ a : Nat} {f : Nat → Nat} {physbase : Word} {sp : Paged}
    (hpool : Pool b n n₀ f) (hframes : BootFrames b n f)
    (htop : b + 4096 * (descPages n + 200) < 2 ^ 31)
    (h : Started b n n₀ f (startPages physbase.toNat b (descPages n)) sp)
    (ha : physbase.toNat / 4096 ≤ a) (hab : a < b / 4096 + descPages n) :
    KernelPage {poolFrame b (descPages n)}
      (framesFrom f n (descPages n + startFrames physbase.toNat b (descPages n))) ⟨sp.kernel, []⟩
      (SBUnix.kernelPage a) (BitVec.ofNat 52 a) := by
  obtain ⟨M, hpaging, hM⟩ := h.paging
  have hb := hpool.room.aligned
  have hnat : (BitVec.ofNat 52 a).toNat = a := by
    rw [BitVec.toNat_ofNat]
    omega
  refine ⟨pml4Idx_kernelPage (by omega), fun r hr => ?_, ⟨fun htable => ?_, fun hfree => ?_⟩,
    by simp⟩
  · rw [Set.mem_singleton_iff.mp hr]
    exact hpaging.translatePage_kernelPage hM (mem_startPages ha (by omega))
  · -- the tables lie behind the descriptors
    obtain ⟨j, hj, hjk, heq⟩ := hpaging.tables.tables _ htable
    have := hpaging.tables.bound
    have hframe := congrArg BitVec.toNat heq
    rw [hnat, hpool.frame_toNat (by omega)] at hframe
    omega
  · obtain ⟨k, hk, hkn, heq⟩ := mem_framesFrom hfree
    have hframe := congrArg BitVec.toNat heq
    rw [hnat, frame_toNat (hframes.low k hkn)] at hframe
    have := hframes.ge k hkn
    omega

section Start

variable {b n₀ : Nat} {L : List Nat} {m : Mem} {physbase physfree : Word} {map : List Smap}

theorem bootFrames_listed {regions : List Smap} (hb : b % 4096 = 0) (hmap : MemoryMap regions)
    (hsep : Separated regions) (hL : listedFrames b regions = L) (hlow : ∀ p ∈ L, p < 2 ^ 31) :
    BootFrames b L.length (L.getD · 0) := by
  subst hL
  refine ⟨frames_listedFrames hb hmap, fun k hk => hlow _ (getD_mem hk),
    listedFrames_ge hb hsep, fun j k hjk hk => ?_⟩
  rw [List.getD_eq_getElem _ _ hk, List.getD_eq_getElem _ _ (hjk.trans hk)]
  exact List.pairwise_iff_getElem.mp (listedFrames_ascending hsep) j k (hjk.trans hk) hk hjk

/-- `start` over a list that starts with enough zero frames. -/
theorem StartsAt.handed (h : StartsAt b n₀ L) (hphys : physfree.toNat = b) (hb : b % 4096 = 0)
    (hbase : physbase < physfree) (hmap : MemoryMap (map.filter Smap.IsUsable))
    (hsep : Separated (map.filter Smap.IsUsable))
    (hL : listedFrames b (map.filter Smap.IsUsable) = L)
    (hroom : descPages L.length + startFrames physbase.toNat b (descPages L.length) ≤ n₀)
    (hzero : ∀ p ∈ L.drop (descPages L.length), ∀ x < 4096, m (p + x) = 0)
    (hlow : ∀ p ∈ L, p < 2 ^ 31) (htop : b + 4096 * (descPages L.length + 200) < 2 ^ 31) :
    ∃ sp, Handed m physbase physfree map b L.length
      (descPages L.length + startFrames physbase.toNat b (descPages L.length)) (L.getD · 0) sp := by
  have hframes : 0 < startFrames physbase.toNat b (descPages L.length) :=
    Nat.add_pos_left Nat.one_pos _
  have hlt := BitVec.lt_def.mp hbase
  have hround := roundUp_of_aligned (w := physfree) (by omega) (by omega)
  have hle := h.le
  obtain ⟨hnil, -⟩ | ⟨hne, hlist, s, hbuild, hbuilt⟩ := buildFreeList_intact m physfree map
    (hround.trans hphys) hmap hL (h.intact (by omega) hlow)
  · rw [hnil, List.length_nil] at hle
    omega
  have hpool := h.pool (hlist.mono (Nat.le_succ _)) (by omega) hlow
  have hbound := hlist.bound
  obtain ⟨hinv, l, hhead, hl⟩ := setFreeListHead_builtList hlist (by omega) hbuilt
  have hpages := setFreeListHead_pages (by omega) hbuilt.total hhead
  have hboot := bootFrames_listed hb hmap hsep hL hlow
  have hfree := hbuilt.inv.bytes_eq_zero hboot.frames hboot.ge fun k hk hkn => hzero _ (by
    rw [List.mem_drop_iff_getElem]
    refine ⟨k - descPages L.length, by omega, ?_⟩
    rw [List.getD_eq_getElem _ _ (by omega)]
    congr 1
    omega)
  have hz : ∀ j, descPages L.length ≤ j → j < n₀ → ∀ i, entries s.mem (poolFrame b j) i = 0 := by
    intro j hj hjn
    refine entries_zero fun x hx => ?_
    rw [hpool.frame_addr hjn, ← hpool.frames j hjn]
    exact hfree j hj (by omega) x hx
  obtain ⟨sp, hrun, hstarted⟩ := startPaging_eq hpool hinv hz hphys hbase hpages htop hroom
  have houtside := startPaging_outside hpool hinv hz hphys hbase hpages htop hroom hrun
  have hready := hstarted.loadReady hpool hboot (by omega) (by omega) htop fun k hk hkn x hx => by
    rw [houtside _ (Or.inr ((h.behind k hk hkn).trans (Nat.le_add_right _ _)))]
    exact hfree k (by omega) hkn x hx
  have hroot : sp.kernel.root = poolFrame b (descPages L.length) := hready.owned.loaded
  rw [← hl] at hrun
  rw [← hroot] at hready
  refine ⟨sp, hb, ⟨s, l, hbuild, hhead, hrun⟩, hready, hstarted.top_toNat htop, fun a ha hab => ?_⟩
  rw [hroot]
  exact hstarted.kernelPage hpool hboot htop ha hab

/-- The frames that `start` takes of the list. -/
def bootTaken (physbase physfree : Word) (map : List Smap) : Nat :=
  descPages (bootFrames physfree map).length +
    startFrames physbase.toNat physfree.toNat (descPages (bootFrames physfree map).length)

theorem BootMemory.handed (h : BootMemory m physbase physfree map)
    (hsep : Separated (map.filter Smap.IsUsable)) :
    ∃ sp, Handed m physbase physfree map physfree.toNat (bootFrames physfree map).length
      (bootTaken physbase physfree map) ((bootFrames physfree map).getD · 0) sp := by
  obtain ⟨before, r, after, hregions, hbefore, hr, hpages⟩ := h.room
  have habove := BitVec.lt_def.mp h.above
  have halign := h.aligned
  have hstopmod : r.stop % 4096 = 0 := up_mod _
  obtain ⟨n₀, hn₀⟩ : ∃ n₀, r.stop = physfree.toNat + 4096 * n₀ :=
    ⟨(r.stop - physfree.toNat) / 4096, by omega⟩
  have hpos : 0 < n₀ := by
    unfold startFrames at hpages
    omega
  have hstarts : StartsAt physfree.toNat n₀ (bootFrames physfree map) := by
    have hmap := h.memoryMap
    rw [hregions] at hmap
    rw [bootFrames, hregions]
    exact startsAt_listedFrames halign (by omega) hmap hbefore hr hn₀ hpos
  exact hstarts.handed rfl halign h.above h.memoryMap hsep rfl (by omega) h.zero h.low h.top

end Start

/-- The kernel sees its image and `n` descriptors in every address space; their frames are neither
    page tables nor free, and no page of a process lies in them. -/
structure KernelKept (physbase physfree : Word) (n : Nat) (boot : Frame) (t : Tasks) : Prop where
  seen : ∀ r ∈ t.spaces boot, ∀ a, physbase.toNat ≤ a → a < physfree.toNat + 24 * n →
    SeenAt t.kernel.mem r a
  taken : ∃ fs, FreeFrames t.kernel.freeList fs ∧ ∀ f : Frame, physbase.toNat / 4096 ≤ f.toNat →
    4096 * f.toNat < physfree.toNat + 24 * n →
    DataFrame {r | r ∈ t.spaces boot} fs t.kernel.mem f
  apart : ∀ p ∈ t.processes, ∀ v f, Backs t.kernel.mem p v f → ∀ a, physbase.toNat ≤ a →
    a < physfree.toNat + 24 * n → a / 4096 ≠ f.toNat

section Kept

variable {m : Mem} {physbase physfree : Word} {map : List Smap} {n k : Nat} {f : Nat → Nat}
  {sp : Paged} {t : Tasks} {es : List TaskEvent}

theorem seenAt_of_page {r : Frame} {a : Nat} (ha : a / 4096 < 2 ^ 19)
    (h : translatePage m r (kernelPage (a / 4096)) = some (BitVec.ofNat 52 (a / 4096))) :
    SeenAt m r a := by
  have hk := kernbase_toNat
  have haddr : (kernbase + BitVec.ofNat 64 a).toNat = kernbase.toNat + a := by
    rw [BitVec.toNat_add, ofNat_toNat_low (by omega)]
    omega
  have hpage := translatePage_of_page_eq m r (v := kernbase + BitVec.ofNat 64 a)
    (w := kernelPage (a / 4096)) (by rw [haddr, kernelPage_toNat ha]; omega)
  rw [h] at hpage
  unfold SeenAt
  rw [translate_eq_some hpage, pageOff_toNat, haddr, BitVec.toNat_ofNat]
  congr 1
  omega

/-- A run leaves the kernel where it is. -/
theorem Handed.kept (h : Handed m physbase physfree map physfree.toNat n k f sp)
    (htop : physfree.toNat + 4096 * (descPages n + 200 + (es.map TaskEvent.pages).sum) < 2 ^ 31)
    (hframes : (es.map TaskEvent.frames).sum ≤ n - k)
    (hrun : Steps.Run Tasks.Step ⟨sp.kernel, []⟩ es t) :
    KernelKept physbase physfree n sp.kernel.root t := by
  have hk := kernbase_toNat
  have haligned := h.aligned
  have hdescs : 24 * n ≤ 4096 * descPages n := by
    unfold descPages
    omega
  have hstart : ∀ q ∈ {q : Word × Frame | ∃ a, physbase.toNat / 4096 ≤ a ∧
      a < physfree.toNat / 4096 + descPages n ∧ q = (kernelPage a, BitVec.ofNat 52 a)},
      KernelPage {sp.kernel.root} (framesFrom f n k) ⟨sp.kernel, []⟩ q.1 q.2 := by
    rintro q ⟨a, ha, hab, rfl⟩
    exact h.page a ha hab
  obtain ⟨roots', fs', m', hsub, hi, hpages⟩ := KernelPages.run hstart (Isolated.init h.ready)
    (by rw [length_framesFrom]; exact hframes)
    (show sp.kernel.topVirtualAddress.toNat + 4096 * (es.map TaskEvent.pages).sum < 2 ^ 64 by
      rw [h.top]
      omega) hrun
  have hpage : ∀ a, physbase.toNat ≤ a → a < physfree.toNat + 24 * n →
      KernelPage roots' fs' t (kernelPage (a / 4096)) (BitVec.ofNat 52 (a / 4096)) :=
    fun a ha hab => hpages _ ⟨a / 4096, by omega, by omega, rfl⟩
  have hspaces : ∀ r ∈ t.spaces sp.kernel.root, r ∈ roots' := by
    intro r hr
    obtain rfl | hr := List.mem_cons.mp hr
    · exact hsub rfl
    · obtain ⟨p, hp, rfl⟩ := List.mem_map.mp hr
      exact hi.space p hp
  refine ⟨fun r hr a ha hab => ?_, ⟨fs', hi.ready.owned.free, fun f hf hfb => ?_⟩,
    fun p hp v f hf a ha hab heq => ?_⟩
  · exact seenAt_of_page (by omega) ((hpage a ha hab).mapped r (hspaces r hr))
  · have hdata := (hpages (kernelPage f.toNat, BitVec.ofNat 52 f.toNat)
      ⟨f.toNat, hf, by omega, rfl⟩).data
    rw [BitVec.ofNat_toNat, BitVec.setWidth_eq] at hdata
    exact ⟨fun htable => hdata.1 (htable.mono hspaces), hdata.2⟩
  · have hframe : BitVec.ofNat 52 (a / 4096) = f :=
      BitVec.eq_of_toNat_eq (by rw [BitVec.toNat_ofNat]; omega)
    exact (hframe ▸ hpage a ha hab).notUser p hp v hf

end Kept

/-- Memory up to 640 KiB, and from 1 MiB to 192 KiB behind the kernel. -/
def roomyMap : List Smap := [⟨0, 0x9fc00, 1⟩, ⟨0x9fc00, 0x400, 2⟩, ⟨0x100000, 0x180000, 1⟩]

theorem roomyMap_filter :
    roomyMap.filter Smap.IsUsable = [⟨0, 0x9fc00, 1⟩, ⟨0x100000, 0x180000, 1⟩] := by decide

theorem roomyMap_frames :
    bootFrames 0x250000 roomyMap = (List.range 48).map fun j => 0x250000 + 4096 * j := by
  unfold bootFrames
  rw [roomyMap_filter]
  decide +kernel

theorem roomyMap_separated : Separated (roomyMap.filter Smap.IsUsable) := by
  rw [roomyMap_filter]
  unfold Separated
  decide

theorem roomyMap_descPages : descPages (bootFrames 0x250000 roomyMap).length = 1 := by
  rw [roomyMap_frames]
  rfl

theorem bootMemory_roomyMap : BootMemory (fun _ => 0) 0x200000 0x250000 roomyMap := by
  refine ⟨rfl, by decide, ?_, ?_, fun _ _ _ _ => rfl, ?_, ?_⟩
  · rw [roomyMap_filter]
    constructor <;> decide
  · rw [roomyMap_descPages, roomyMap_filter]
    have hbase : (0x200000 : Word).toNat = 0x200000 := rfl
    have hfree : (0x250000 : Word).toNat = 0x250000 := rfl
    rw [hbase, hfree, pcMap_startFrames]
    exact ⟨[⟨0, 0x9fc00, 1⟩], ⟨0x100000, 0x180000, 1⟩, [], rfl, by decide, by decide, by decide⟩
  · rw [roomyMap_frames]
    intro p hp
    obtain ⟨j, hj, rfl⟩ := List.mem_map.mp hp
    have := List.mem_range.mp hj
    omega
  · rw [roomyMap_descPages]
    decide

theorem bootTaken_roomyMap : bootTaken 0x200000 0x250000 roomyMap = 6 := by
  have hbase : (0x200000 : Word).toNat = 0x200000 := rfl
  have hfree : (0x250000 : Word).toNat = 0x250000 := rfl
  rw [bootTaken, roomyMap_descPages, hbase, hfree, pcMap_startFrames]

end SBUnix
