import SBUnix.Paging.BootMap

/-
  The address space that `start` loads.

  `startPaging_eq` follows `start` from the list that `set_free_list_head` left to the tables: the
  PML4 is the first frame behind the descriptors, and the two calls of `map_all_kernel_pages` map
  `startPages`. `bootAddressSpace` starts at the memory map, and says that the tables map what the
  kernel uses behind the load of CR3: its image, the list and the PML4, and nothing from the address
  on that `set_top_virtual_address` gets.
-/

namespace SBUnix

open ByteMem Radix

/-! ## The two calls -/

/-- The pages that `start` maps, for descriptors in `d` pages: those of the kernel and of the list
    with 11 more, and two for the screen. -/
def startPages (physbase physfree d : Nat) : Finset Nat :=
  Finset.Ico (physbase / 4096) (physfree / 4096 + d + 11) ∪ Finset.Ico 0xb8 0xba

/-- The frames that `start` takes: the PML4, and one for every other table. -/
def startFrames (physbase physfree d : Nat) : Nat :=
  1 + (tablesOf (startPages physbase physfree d)).card

/-- The tables that `start` loads. -/
structure Started (b n n₀ : Nat) (f : Nat → Nat) (S : Finset Nat) (sp : Paged) : Prop where
  kernelCr3 : sp.kernelCr3 = (poolFrame b (descPages n)).addr
  top : sp.topVirtualAddress = kernelPage (b / 4096 + descPages n + 200)
  paging : ∃ M, Paging b n n₀ f (poolFrame b (descPages n)) (tablesOf S) M sp.list ∧ Identity S M

section Start

variable {b n n₀ : Nat} {f : Nat → Nat} {m : Mem} {physbase physfree len : Word}

theorem eq_kernelPage {v : Word} {a : Nat} (ha : a < 2 ^ 19)
    (hv : v.toNat = kernbase.toNat + 4096 * a) : v = kernelPage a :=
  BitVec.eq_of_toNat_eq (hv.trans (kernelPage_toNat ha).symm)

/-- The end of the first call is the start of a page. -/
theorem kernelEnd_eq (hphys : physfree.toNat = b) (hb : b % 4096 = 0)
    (hlen : len.toNat = descPages n) (htop : b + 4096 * (descPages n + 200) < 2 ^ 31) :
    kernbase + physfree + (len * pageSize + 10 * pageSize) =
      kernelPage (b / 4096 + descPages n + 10) := by
  have hk := kernbase_toNat
  have hpages : (len * pageSize).toNat = descPages n * 4096 := by
    rw [BitVec.toNat_mul, hlen, show pageSize.toNat = 4096 from rfl]
    omega
  apply eq_kernelPage (by omega)
  rw [BitVec.toNat_add, BitVec.toNat_add, BitVec.toNat_add, hphys, hpages,
    show (10 * pageSize : Word).toNat = 40960 from rfl]
  omega

theorem topVirtualAddress_eq (hphys : physfree.toNat = b) (hb : b % 4096 = 0)
    (hlen : len.toNat = descPages n) (htop : b + 4096 * (descPages n + 200) < 2 ^ 31) :
    kernbase + physfree + len * pageSize + 200 * pageSize =
      kernelPage (b / 4096 + descPages n + 200) := by
  have hk := kernbase_toNat
  have hpages : (len * pageSize).toNat = descPages n * 4096 := by
    rw [BitVec.toNat_mul, hlen, show pageSize.toNat = 4096 from rfl]
    omega
  apply eq_kernelPage (by omega)
  rw [BitVec.toNat_add, BitVec.toNat_add, BitVec.toNat_add, hphys, hpages,
    show (200 * pageSize : Word).toNat = 819200 from rfl]
  omega

/-- The bounds of a call that ends with page `e`. -/
theorem kernelPage_bounds {e : Nat} (he : e + 1 < 2 ^ 19) :
    kernelPage e ≤ kernelPage e ∧ kernelPage e < kernelPage (e + 1) := by
  refine ⟨BitVec.le_refl _, ?_⟩
  rw [BitVec.lt_def, kernelPage_toNat (by omega), kernelPage_toNat he]
  omega

theorem startPages_eq (base b d : Nat) :
    startPages base b d = ∅ ∪ Finset.Ico (base / 4096) (b / 4096 + d + 10 + 1) ∪
      Finset.Ico 0xb8 (0xb9 + 1) := by
  rw [startPages, Finset.empty_union]

/-- What the first call needs is among what both need. -/
theorem card_firstCall_le (base b d : Nat) :
    (tablesOf (∅ ∪ Finset.Ico (base / 4096) (b / 4096 + d + 10 + 1))).card ≤
      (tablesOf (startPages base b d)).card := by
  rw [startPages_eq]
  exact Finset.card_le_card (tablesOf_mono Finset.subset_union_left)

theorem Identity.empty : Identity ∅ fun _ => none := ⟨by simp, by simp, fun _ _ => rfl⟩

/-- `start` over a list whose first region has enough zero frames. -/
theorem startPaging_eq (hpool : Pool b n n₀ f) (hlist : ListInv m b n f)
    (hzero : ∀ j, descPages n ≤ j → j < n₀ → ∀ i, entries m (poolFrame b j) i = 0)
    (hphys : physfree.toNat = b) (hbase : physbase < physfree) (hlen : len.toNat = descPages n)
    (htop : b + 4096 * (descPages n + 200) < 2 ^ 31)
    (hroom : descPages n + startFrames physbase.toNat b (descPages n) ≤ n₀) :
    ∃ sp, startPaging physbase physfree len ⟨m, cursor b n (descPages n), 0⟩ = .ok sp ∧
      Started b n n₀ f (startPages physbase.toNat b (descPages n)) sp := by
  have hb := hpool.room.aligned
  have hlt : physbase.toNat < b := hphys ▸ BitVec.lt_def.mp hbase
  unfold startFrames at hroom
  have hcard := card_firstCall_le physbase.toNat b (descPages n)
  obtain ⟨l, hpml4, h⟩ := createKernelPml4_eq hpool hlist hzero (by omega)
  -- the kernel and the list
  have hend := kernelEnd_eq hphys hb hlen htop
  have hbounds := kernelPage_bounds (e := b / 4096 + descPages n + 10) (by omega)
  obtain ⟨l₁, M₁, hrun₁, h₁, hM₁⟩ := h.mapAllKernelPages hpool .empty (w := physbase)
    (by omega) (by omega) (by omega) hbounds (by omega)
  -- the screen
  obtain ⟨l₂, M₂, hrun₂, h₂, hM₂⟩ := h₁.mapAllKernelPages hpool hM₁ (w := 0xb8000#64)
    (e := 0xb9) (by decide) (by decide) (by decide) ⟨BitVec.le_refl _, by decide⟩ (by
      show descPages n + 1 + (tablesOf (_ ∪ Finset.Ico 0xb8 (0xb9 + 1))).card ≤ n₀
      rw [← startPages_eq]
      omega)
  refine ⟨⟨_, _, l₂⟩, ?_, rfl, topVirtualAddress_eq hphys hb hlen htop, M₂, ?_, ?_⟩
  · unfold startPaging
    rw [hpml4, ok_bind]
    dsimp only
    rw [hend, hrun₁, ok_bind, show kernbase + 0xb8000#64 + pageSize = kernelPage 0xb9 from rfl,
      hrun₂]
    rfl
  · rw [startPages_eq]
    exact h₂
  · rw [startPages_eq]
    exact hM₂

end Start

/-! ## What is mapped -/

/-- The kernel sees byte `a` at `KERNBASE + a`. -/
def SeenAt (m : Mem) (root : Frame) (a : Nat) : Prop :=
  translate m root (kernbase + BitVec.ofNat 64 a) = some a

/-- The address space of `root` has the list, the PML4 and the kernel where the kernel looks for
    them, and is empty from `top` on. -/
structure BootSpace (m : Mem) (root : Frame) (physbase physfree freeList top : Word) : Prop where
  descriptors : ∃ nodes, BootChain m freeList nodes ∧
    ∀ node ∈ nodes, ∀ x < sizeofPage.toNat, SeenAt m root (node.1.toNat + x)
  pml4 : ∀ x < pageSize.toNat, SeenAt m root (root.addr.toNat + x)
  kernel : ∀ a, physbase.toNat ≤ a → a ≤ physfree.toNat → SeenAt m root a
  above : ∀ v, top ≤ v → translate m root v = none

section Mapped

variable {b n n₀ : Nat} {f : Nat → Nat} {root : Frame} {S : Finset Nat} {T : Finset (List Idx)}
  {M : List Idx → Option Frame} {l : FreeList Mem} {v : Word}

theorem Paging.translatePage_eq (h : Paging b n n₀ f root T M l) (hv : kernbase ≤ v) :
    translatePage l.descs root v = M (path v) :=
  h.tables.pages (path v) (path_length v) (path_head_ne (pml4Idx_kernel hv))

theorem Paging.seenAt (h : Paging b n n₀ f root T M l) (hM : Identity S M) {a : Nat}
    (ha : a / 4096 ∈ S) : SeenAt l.descs root a := by
  have hk := kernbase_toNat
  have hlow := hM.low _ ha
  have haddr : (kernbase + BitVec.ofNat 64 a).toNat = kernbase.toNat + a := by
    rw [BitVec.toNat_add, ofNat_toNat_low (by omega)]
    omega
  have hv : kernbase ≤ kernbase + BitVec.ofNat 64 a := by
    rw [BitVec.le_def, haddr]
    omega
  have hpath : path (kernbase + BitVec.ofNat 64 a) = path (kernelPage (a / 4096)) := by
    rw [path_eq_kernelPage hv hlow, BitVec.toNat_sub_of_le hv, haddr, Nat.add_sub_cancel_left]
  have hpage := h.translatePage_eq hv
  rw [hpath, hM.page _ ha] at hpage
  unfold SeenAt
  rw [translate_eq_some hpage, pageOff_toNat, haddr, BitVec.toNat_ofNat]
  congr 1
  omega

theorem Paging.translate_none (h : Paging b n n₀ f root T M l) (hM : Identity S M) {c : Nat}
    (hc : c < 2 ^ 19) (hS : ∀ a ∈ S, a < c) (hv : kernelPage c ≤ v) :
    translate l.descs root v = none := by
  have hk := kernbase_toNat
  have hle := BitVec.le_def.mp hv
  rw [kernelPage_toNat hc] at hle
  have hkv : kernbase ≤ v := by
    rw [BitVec.le_def]
    omega
  apply translate_eq_none
  rw [h.translatePage_eq hkv]
  refine hM.other _ fun a ha => ?_
  have hac := hS a ha
  rw [Ne, path_eq_kernelPage hkv (hM.low a ha), BitVec.toNat_sub_of_le hkv]
  omega

/-- The pages that `start` maps are enough. -/
theorem Started.bootSpace {physbase physfree : Word} {sp : Paged} (hpool : Pool b n n₀ f)
    (hn : descPages n < n₀) (hphys : physfree.toNat = b) (hbase : physbase < physfree)
    (htop : b + 4096 * (descPages n + 200) < 2 ^ 31)
    (h : Started b n n₀ f (startPages physbase.toNat b (descPages n)) sp) :
    BootSpace sp.list.descs (frameOf sp.kernelCr3) physbase physfree (cursor b n 0)
      sp.topVirtualAddress := by
  obtain ⟨M, hpaging, hM⟩ := h.paging
  have hb := hpool.room.aligned
  have hlt := BitVec.lt_def.mp hbase
  have hdescs : 24 * n ≤ 4096 * descPages n := by
    unfold descPages
    omega
  have hmem : ∀ a, physbase.toNat ≤ a → a < b + 4096 * (descPages n + 11) →
      a / 4096 ∈ startPages physbase.toNat b (descPages n) := by
    intro a ha hab
    rw [startPages, Finset.mem_union, Finset.mem_Ico]
    omega
  rw [h.kernelCr3, frameOf_addr, h.top]
  refine ⟨⟨_, hpaging.list.chain hpool.room 0 n (Nat.zero_add n), ?_⟩, ?_, ?_, ?_⟩
  · intro node hnode x hx
    obtain ⟨k, hk, rfl⟩ := List.mem_map.mp hnode
    rw [List.mem_range'_1] at hk
    have hx' : x < 24 := hx
    rw [descAt_toNat hpool.room (by omega)]
    exact hpaging.seenAt hM (hmem _ (by omega) (by omega))
  · intro x hx
    have hx' : x < 4096 := hx
    rw [Frame.addr_toNat, hpool.frame_addr hn]
    exact hpaging.seenAt hM (hmem _ (by omega) (by omega))
  · intro a ha hab
    exact hpaging.seenAt hM (hmem a ha (by omega))
  · intro v hv
    refine hpaging.translate_none hM (by omega) (fun a ha => ?_) hv
    rw [startPages, Finset.mem_union, Finset.mem_Ico, Finset.mem_Ico] at ha
    omega

end Mapped

/-! ## From the memory map -/

/-- The frames of the list that `start` builds. -/
def bootFrames (physfree : Word) (map : List Smap) : List Nat :=
  listedFrames physfree.toNat (map.filter Smap.IsUsable)

/-- The region that the list starts in has `k` pages from `b` on. -/
def HasPages (b k : Nat) (regions : List Smap) : Prop :=
  ∃ before r after, regions = before ++ r :: after ∧ (∀ r' ∈ before, ¬ r'.Straddles b) ∧
    r.Straddles b ∧ b + 4096 * k ≤ r.stop

/-- The memory that `start` finds: a page-aligned `physfree` above `physbase`, and a memory map
    whose region around it has a page for every page of descriptors and for every frame that
    `start` takes. The frames behind the descriptors are zero, all lie below 2 GiB, and
    `set_top_virtual_address` gets an address that did not wrap. -/
structure BootMemory (m : Mem) (physbase physfree : Word) (map : List Smap) : Prop where
  aligned : physfree.toNat % 4096 = 0
  above : physbase < physfree
  memoryMap : MemoryMap (map.filter Smap.IsUsable)
  room : HasPages physfree.toNat (descPages (bootFrames physfree map).length +
    startFrames physbase.toNat physfree.toNat (descPages (bootFrames physfree map).length))
    (map.filter Smap.IsUsable)
  zero : ∀ p ∈ (bootFrames physfree map).drop (descPages (bootFrames physfree map).length),
    ∀ x < 4096, m (p + x) = 0
  low : ∀ p ∈ bootFrames physfree map, p < 2 ^ 31
  top : physfree.toNat + 4096 * (descPages (bootFrames physfree map).length + 200) < 2 ^ 31

/-- The list starts with the `n₀` frames from `b` on, and the others lie behind them. -/
structure StartsAt (b n₀ : Nat) (L : List Nat) : Prop where
  le : n₀ ≤ L.length
  frames : ∀ j < n₀, L.getD j 0 = b + 4096 * j
  behind : ∀ j, n₀ ≤ j → j < L.length → b + 4096 * n₀ ≤ L.getD j 0

section Lists

variable {b n₀ : Nat} {L : List Nat} {before after : List Smap} {r : Smap}

theorem getD_mem {j : Nat} (hj : j < L.length) : L.getD j 0 ∈ L := by
  rw [List.getD_eq_getElem _ _ hj]
  exact List.getElem_mem hj

theorem startsAt_listedFrames (hb : b % 4096 = 0) (hb0 : b ≠ 0)
    (hmap : MemoryMap (before ++ r :: after)) (hbefore : ∀ r' ∈ before, ¬ r'.Straddles b)
    (hr : r.Straddles b) (hstop : r.stop = b + 4096 * n₀) (hn₀ : 0 < n₀) :
    StartsAt b n₀ (listedFrames b (before ++ r :: after)) := by
  have hlist : listedFrames b (before ++ r :: after) =
      (List.range n₀).map (fun j => b + 4096 * j) ++ after.flatMap Smap.laterFrames := by
    rw [listedFrames_append hbefore, listedFrames, if_pos hr, if_neg (by omega),
      show (r.stop - b) / 4096 = n₀ by omega]
  rw [hlist]
  refine ⟨?_, fun j hj => ?_, fun j hj hjL => ?_⟩
  · rw [List.length_append, List.length_map, List.length_range]
    exact Nat.le_add_right _ _
  · rw [List.getD_append _ _ _ _ (by simpa using hj)]
    simp [List.getD_eq_getElem?_getD, hj]
  · rw [List.length_append, List.length_map, List.length_range] at hjL
    rw [List.getD_append_right _ _ _ _ (by simpa using hj), List.length_map, List.length_range,
      ← hstop]
    obtain ⟨z, hz, hp⟩ := List.mem_flatMap.mp
      (getD_mem (L := after.flatMap Smap.laterFrames) (j := j - n₀) (by omega))
    have hmem : z ∈ before ++ r :: after :=
      List.mem_append_right _ (List.mem_cons_of_mem _ hz)
    have hasc := (List.pairwise_cons.mp (List.pairwise_append.mp hmap.ascending).2.1).1 z hz
    exact (up_mono hasc).trans (mem_laterFrames (hmap.bounded z hmem) hp).2.1

/-- Descriptors in the first frames are not cleared. -/
theorem StartsAt.intact (h : StartsAt b n₀ L) (hn : descPages L.length ≤ n₀)
    (hlow : ∀ p ∈ L, p < 2 ^ 31) : Intact b L := by
  intro k hk
  have halias : aliasFrame (L.getD k 0) = L.getD k 0 := if_pos (hlow _ (getD_mem hk))
  have hge : b + 24 * k ≤ L.getD k 0 := by
    by_cases hkn : k < n₀
    · rw [h.frames k hkn]
      omega
    · have hbehind := h.behind k (by omega) hk
      unfold descPages at hn
      omega
  unfold Apart
  rw [halias]
  omega

theorem StartsAt.pool (h : StartsAt b n₀ L) (hroom : Room b L.length) (hn₀ : 0 < n₀)
    (hlow : ∀ p ∈ L, p < 2 ^ 31) : Pool b L.length n₀ (L.getD · 0) := by
  have hle := h.le
  have hb := hroom.aligned
  have hlast := hlow _ (getD_mem (L := L) (j := n₀ - 1) (by omega))
  rw [h.frames _ (by omega)] at hlast
  exact ⟨hroom, h.le, by omega, h.frames⟩

end Lists

/-- The frames that were zero are zero when the list is built. -/
theorem BuildInv.entries_eq_zero {b n n₀ : Nat} {f : Nat → Nat} {m m₀ : Mem}
    (hpool : Pool b n n₀ f) (h : BuildInv m₀ m b n n f)
    (hzero : ∀ j, descPages n ≤ j → j < n₀ → ∀ x < 4096, m₀ (f j + x) = 0) (j : Nat)
    (hj : descPages n ≤ j) (hjn : j < n₀) (i : Idx) : entries m (poolFrame b j) i = 0 := by
  have hle := hpool.le
  have hb := hpool.room.aligned
  have hf := hpool.frames j hjn
  have hbehind : b + 24 * n ≤ f j := by
    unfold descPages at hj
    omega
  have hbyte : ∀ x < 4096, m (f j + x) = 0 := by
    intro x hx
    by_cases hx' : x < 512
    · exact h.cleared j (by omega) hbehind x hx'
    · rw [h.kept (f j) (by omega) hbehind x (by omega) hx]
      exact hzero j hj hjn x hx
  have hi := i.isLt
  unfold entries entryAddr
  rw [readWord_eq_zero, hpool.frame_addr hjn, ← hf]
  intro k hk
  rw [Nat.add_assoc]
  exact hbyte _ (by omega)

theorem roundUp_of_aligned {w : Word} (h : w.toNat % 4096 = 0) (hlow : w.toNat < 2 ^ 31) :
    (roundUp w).toNat = w.toNat := by
  rw [roundUp_toNat w (by omega)]
  omega

/-- `free_list_page_length`. -/
theorem setFreeListHead_pages {s : Boot} {n : Nat} (hn : n < 2 ^ 59)
    (htotal : s.freeListTotalPages = BitVec.ofNat 64 n) {l : FreeList Mem × Word × Word}
    (hl : setFreeListHead s = .ok l) : l.2.1.toNat = descPages n := by
  obtain ⟨temp, -, hret⟩ := bind_eq_ok.mp hl
  cases hret
  show (pagesReqd s.freeListTotalPages).toNat = _
  rw [htotal, pagesReqd_ofNat hn]

/-- `start` over a list that starts with enough zero frames. -/
theorem StartsAt.bootSpace {b n₀ : Nat} {L : List Nat} {m : Mem} {physbase physfree : Word}
    {map : List Smap} (h : StartsAt b n₀ L) (hphys : physfree.toNat = b) (hb : b % 4096 = 0)
    (hbase : physbase < physfree) (hmap : MemoryMap (map.filter Smap.IsUsable))
    (hL : listedFrames b (map.filter Smap.IsUsable) = L)
    (hroom : descPages L.length + startFrames physbase.toNat b (descPages L.length) ≤ n₀)
    (hzero : ∀ p ∈ L.drop (descPages L.length), ∀ x < 4096, m (p + x) = 0)
    (hlow : ∀ p ∈ L, p < 2 ^ 31) (htop : b + 4096 * (descPages L.length + 200) < 2 ^ 31) :
    ∃ s l sp, buildFreeList m physfree map = .ok s ∧ setFreeListHead s = .ok l ∧
      startPaging physbase physfree l.2.1 l.1 = .ok sp ∧
      BootSpace sp.list.descs (frameOf sp.kernelCr3) physbase physfree s.freeList
        sp.topVirtualAddress := by
  have hframes : 0 < startFrames physbase.toNat b (descPages L.length) :=
    Nat.add_pos_left Nat.one_pos _
  have hround := roundUp_of_aligned (w := physfree) (by omega) (by omega)
  have hle := h.le
  obtain ⟨hnil, -⟩ | ⟨hne, hlist, s, hbuild, hbuilt⟩ := buildFreeList_intact m physfree map
    (hround.trans hphys) hmap hL (h.intact (by omega) hlow)
  · rw [hnil, List.length_nil] at hle
    omega
  have hpool := h.pool (hlist.mono (Nat.le_succ _)) (by omega) hlow
  have hbound := hlist.bound
  obtain ⟨hinv, l, hhead, hl⟩ := setFreeListHead_builtList hlist (by omega) hbuilt
  have hpages := setFreeListHead_pages (by omega) hbuilt.total hhead
  have hz := hbuilt.inv.entries_eq_zero hpool fun j hj hjn => hzero _ (by
    rw [List.mem_drop_iff_getElem]
    refine ⟨j - descPages L.length, by omega, ?_⟩
    rw [List.getD_eq_getElem _ _ (by omega)]
    congr 1
    omega)
  obtain ⟨sp, hrun, hstarted⟩ := startPaging_eq hpool hinv hz hphys hbase hpages htop hroom
  have hspace := hstarted.bootSpace hpool (by omega) hphys hbase htop
  rw [cursor_of_lt (by omega), ← hbuilt.freeList] at hspace
  rw [← hl] at hrun
  exact ⟨s, l, sp, hbuild, hhead, hrun, hspace⟩

/-- `start` loads an address space that has the free list, the PML4 and the kernel where the kernel
    looks for them, and nothing from its top address on. -/
theorem bootAddressSpace (m : Mem) (physbase physfree : Word) (map : List Smap)
    (h : BootMemory m physbase physfree map) :
    ∃ s l sp, buildFreeList m physfree map = .ok s ∧ setFreeListHead s = .ok l ∧
      startPaging physbase physfree l.2.1 l.1 = .ok sp ∧
      BootSpace sp.list.descs (frameOf sp.kernelCr3) physbase physfree s.freeList
        sp.topVirtualAddress := by
  obtain ⟨before, r, after, hregions, hbefore, hr, hpages⟩ := h.room
  have habove := BitVec.lt_def.mp h.above
  have halign := h.aligned
  have hstopmod : r.stop % 4096 = 0 := up_mod _
  obtain ⟨n₀, hn₀⟩ : ∃ n₀, r.stop = physfree.toNat + 4096 * n₀ :=
    ⟨(r.stop - physfree.toNat) / 4096, by omega⟩
  have hpos : 0 < n₀ := by
    unfold startFrames at hpages
    omega
  have hstarts : StartsAt physfree.toNat n₀ (bootFrames physfree map) := by
    have hmap := h.memoryMap
    rw [hregions] at hmap
    rw [bootFrames, hregions]
    exact startsAt_listedFrames halign (by omega) hmap hbefore hr hn₀ hpos
  exact hstarts.bootSpace rfl halign h.above h.memoryMap rfl (by omega) h.zero h.low h.top

/-- Memory up to 640 KiB, and from 1 MiB to behind the kernel. -/
def pcMap : List Smap := [⟨0, 0x9fc00, 1⟩, ⟨0x9fc00, 0x400, 2⟩, ⟨0x100000, 0x160000, 1⟩]

theorem pcMap_filter :
    pcMap.filter Smap.IsUsable = [⟨0, 0x9fc00, 1⟩, ⟨0x100000, 0x160000, 1⟩] := by decide

theorem pcMap_frames :
    bootFrames 0x250000 pcMap = (List.range 16).map fun j => 0x250000 + 4096 * j := by
  unfold bootFrames
  rw [pcMap_filter]
  decide +kernel

/-- The kernel and the list lie in one range of 2 MiB, the screen in another. -/
theorem pcMap_startFrames : startFrames 0x200000 0x250000 1 = 5 := by decide +kernel

/-- A kernel of 320 KiB at 2 MiB, over zeroed memory. -/
theorem bootAddressSpace_pcMap :
    ∃ s l sp, buildFreeList (fun _ => 0) 0x250000 pcMap = .ok s ∧ setFreeListHead s = .ok l ∧
      startPaging 0x200000 0x250000 l.2.1 l.1 = .ok sp ∧
      BootSpace sp.list.descs (frameOf sp.kernelCr3) 0x200000 0x250000 s.freeList
        sp.topVirtualAddress := by
  have hn : descPages (bootFrames 0x250000 pcMap).length = 1 := by
    rw [pcMap_frames]
    rfl
  refine bootAddressSpace (fun _ => 0) 0x200000 0x250000 pcMap
    ⟨rfl, by decide, ?_, ?_, fun _ _ _ _ => rfl, ?_, ?_⟩
  · rw [pcMap_filter]
    constructor <;> decide
  · rw [hn, pcMap_filter]
    have hbase : (0x200000 : Word).toNat = 0x200000 := rfl
    have hfree : (0x250000 : Word).toNat = 0x250000 := rfl
    rw [hbase, hfree, pcMap_startFrames]
    exact ⟨[⟨0, 0x9fc00, 1⟩], ⟨0x100000, 0x160000, 1⟩, [], rfl, by decide, by decide, by decide⟩
  · rw [pcMap_frames]
    decide
  · rw [hn]
    decide

end SBUnix
