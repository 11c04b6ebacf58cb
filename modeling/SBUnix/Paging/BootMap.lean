import SBUnix.Paging.BootTables

/-
  The loop of `map_all_kernel_pages`, over the tables and the list that their frames come from.

  `Paging b n n₀ f root T M l` joins the two. What a round does depends on the tables that are there
  (`Paging.roundCase`): it adds a page and the tables it needs (`Paging.mapKernelPage`), and the loop
  a range of pages (`Paging.mapAllKernelPages`). The tables that a set of pages needs are known
  beforehand (`tablesOf`), and so is the number of frames.
-/

namespace SBUnix

open ByteMem Radix

/-! ## Tables through the loader's mapping -/

section Addresses

variable {m : Mem} {l : FreeList Mem} {t : Frame} {e : Word}

theorem and_1ff (v : Word) (s : Nat) :
    (v >>> s) &&& 0x1ff#64 = (v.extractLsb' s 9).setWidth 64 := by
  apply BitVec.eq_of_toNat_eq
  have hmask : (0x1ff#64).toNat = 2 ^ 9 - 1 := rfl
  rw [BitVec.toNat_and, hmask, Nat.and_two_pow_sub_one_eq_mod, BitVec.toNat_setWidth,
    BitVec.extractLsb'_toNat, BitVec.toNat_ushiftRight]
  omega

theorem pml4OffsetOf_eq (v : Word) : pml4OffsetOf v = (pml4Idx v).setWidth 64 := and_1ff v 39
theorem pdpeOffsetOf_eq (v : Word) : pdpeOffsetOf v = (pdpIdx v).setWidth 64 := and_1ff v 30
theorem pgdOffsetOf_eq (v : Word) : pgdOffsetOf v = (pdIdx v).setWidth 64 := and_1ff v 21
theorem pteOffsetOf_eq (v : Word) : pteOffsetOf v = (ptIdx v).setWidth 64 := and_1ff v 12

/-- An entry of a table below 2 GiB. -/
theorem bootPhys_table (ht : t.toNat < 2 ^ 19) (i : Idx) :
    bootPhys (kernbase + t.addr + 8 * i.setWidth 64) = entryAddr t i := by
  have hk := kernbase_toNat
  have hi := i.isLt
  have hoff : (8 * i.setWidth 64 : Word).toNat = 8 * i.toNat := by
    rw [BitVec.toNat_mul, BitVec.toNat_setWidth, show (8 : Word).toNat = 8 from rfl]
    omega
  have hsum : (kernbase + t.addr + 8 * i.setWidth 64).toNat =
      kernbase.toNat + (t.toNat * 4096 + 8 * i.toNat) := by
    rw [BitVec.toNat_add, BitVec.toNat_add, hoff, Frame.addr_toNat]
    omega
  unfold bootPhys entryAddr
  rw [if_pos (BitVec.le_def.mpr (by omega)), BitVec.toNat_sub_of_le (BitVec.le_def.mpr (by omega)),
    hsum]
  omega

theorem tableEntry_eq (ht : t.toNat < 2 ^ 19) (i : Idx) :
    tableEntry m (kernbase + t.addr) (i.setWidth 64) = entries m t i := by
  unfold tableEntry entries
  rw [bootPhys_table ht]

theorem setTableEntry_eq (ht : t.toNat < 2 ^ 19) (i : Idx) :
    l.setTableEntry (kernbase + t.addr) (i.setWidth 64) e =
      { l with descs := writeWord l.descs (entryAddr t i) e } := by
  unfold FreeList.setTableEntry
  rw [bootPhys_table ht]

/-- The flags of an entry are cut off. -/
theorem toVirtual_eq (ht : (frameOf e).toNat < 2 ^ 19) :
    toVirtual e = kernbase + (frameOf e).addr := by
  have hk := kernbase_toNat
  have he := e.isLt
  rw [frameOf_toNat] at ht
  have hlow : e < kernbase := by
    rw [BitVec.lt_def]
    omega
  have halign : pageAlign e = (frameOf e).addr := by
    apply BitVec.eq_of_toNat_eq
    rw [pageAlign_toNat, Frame.addr_toNat, frameOf_toNat]
  rw [toVirtual, if_pos hlow, halign]

end Addresses

/-! ## A round -/

/-- The tables of `root` and the list behind the frames they took. -/
structure Paging (b n n₀ : Nat) (f : Nat → Nat) (root : Frame) (T : Finset (List Idx))
    (M : List Idx → Option Frame) (l : FreeList Mem) : Prop where
  tables : BootTables b n n₀ root (descPages n + 1 + T.card) T M l.descs
  list : ListInv l.descs b n f
  head : l.freeListHead = cursor b n (descPages n + 1 + T.card)

section Round

variable {b n n₀ : Nat} {f : Nat → Nat} {root t : Frame} {T : Finset (List Idx)}
  {M : List Idx → Option Frame} {l : FreeList Mem} {p : List Idx} {i : Idx} {vAddr pAddr : Word}

/-- Descriptors and tables lie apart. -/
theorem ListInv.writeEntry (hpool : Pool b n n₀ f) {m : Mem} (h : ListInv m b n f) {j : Nat}
    (hj : j < n₀) (hd : descPages n ≤ j) (i : Idx) (e : Word) :
    ListInv (writeWord m (entryAddr (poolFrame b j) i) e) b n f := by
  have hge := hpool.entryAddr_ge hj hd i
  exact h.congr (fun _ _ => readWord_writeWord_of_disjoint _ _ (by omega))
    fun _ _ => readWord_writeWord_of_disjoint _ _ (by omega)

theorem Pool.samePool_writeStatus (hpool : Pool b n n₀ f) (m : Mem) {k : Nat} (hk : k < n) :
    SamePool b n n₀ m (writeStatus m b k) := by
  intro j hd hj i
  have hge := hpool.entryAddr_ge hj hd i
  unfold entries writeStatus
  exact readWord_writeWord_of_disjoint _ _ (by omega)

/-- A table lies in a frame of the pool, below 2 GiB. -/
theorem Paging.table (hpool : Pool b n n₀ f) (h : Paging b n n₀ f root T M l)
    (hp : TablePath selfSlot 4 p) (hw : walk target (entries l.descs) root p = some t) :
    t.toNat < 2 ^ 19 ∧ ∃ j, j < n₀ ∧ descPages n ≤ j ∧ t = poolFrame b j := by
  obtain ⟨j, hd, hj, rfl⟩ := h.tables.tables t (isPageTable_of_walk hp hw)
  have hbound := h.tables.bound
  have hlow := hpool.low
  have hb := hpool.room.aligned
  refine ⟨?_, j, by omega, hd, rfl⟩
  rw [hpool.frame_toNat (by omega)]
  omega

/-- `newTable` hangs the next frame into an absent slot. -/
theorem Paging.newTable (hpool : Pool b n n₀ f) (h : Paging b n n₀ f root T M l)
    (hw : walk target (entries l.descs) root p = some t) (hp : TablePath selfSlot 4 (p ++ [i]))
    (hT : p ++ [i] ∉ T) (hroom : descPages n + 1 + T.card < n₀) :
    ∃ g l', newTable (kernbase + t.addr) (i.setWidth 64) l = .ok (g.addr, l') ∧ g.toNat < 2 ^ 19 ∧
      Paging b n n₀ f root (insert (p ++ [i]) T) M l' ∧
      walk target (entries l'.descs) root (p ++ [i]) = some g := by
  obtain ⟨k, hk⟩ : ∃ k, k = descPages n + 1 + T.card := ⟨_, rfl⟩
  have hle := hpool.le
  obtain ⟨ht, j, hj, hd, rfl⟩ := h.table hpool hp.mapPath.tablePath_prefix hw
  have hcall := getNextFreePage_cursor hpool.room h.list (by omega) h.head
  rw [← hk] at hcall hroom
  have hsame := hpool.samePool_writeStatus l.descs (k := k) (by omega)
  have htables : BootTables b n n₀ root k T M (writeStatus l.descs b k) :=
    (hk ▸ h.tables).congr hsame (by omega)
  have hw' : walk target (entries (writeStatus l.descs b k)) root p = some (poolFrame b j) := by
    rw [h.tables.walk_eq hsame hp.mapPath.tablePath_prefix.mapPath]
    exact hw
  obtain ⟨hlinked, hwalk⟩ := htables.link hpool hroom (by omega) hw' hp hT
  have hcard : descPages n + 1 + (insert (p ++ [i]) T).card = k + 1 := by
    rw [Finset.card_insert_of_notMem hT]
    omega
  have hlist := (h.list.writeStatus k).writeEntry hpool hj hd i
    ((poolFrame b k).addr ||| pageKernel)
  refine ⟨poolFrame b k, ⟨writeWord (writeStatus l.descs b k) (entryAddr (poolFrame b j) i)
    ((poolFrame b k).addr ||| pageKernel), cursor b n (k + 1), l.freeListHeadKmalloc⟩,
    ?_, ?_, ⟨?_, hlist, ?_⟩, hwalk⟩
  · unfold SBUnix.newTable
    rw [hcall, ok_bind, hpool.ofNat_frame hroom]
    dsimp only
    rw [setTableEntry_eq ht]
    rfl
  · have hlow := hpool.low
    have hb := hpool.room.aligned
    rw [hpool.frame_toNat hroom]
    omega
  · rw [hcard]
    exact hlinked
  · rw [hcard]

/-- A frame of the list as a table. -/
theorem toVirtual_addr {g : Frame} (hg : g.toNat < 2 ^ 19) :
    toVirtual g.addr = kernbase + g.addr := by
  have h := toVirtual_eq (e := g.addr) (by rwa [frameOf_addr])
  rwa [frameOf_addr] at h

/-- The last store of a round. -/
theorem Paging.setPte (hpool : Pool b n n₀ f) (h : Paging b n n₀ f root T M l)
    (hw : walk target (entries l.descs) root p = some t) (hp : TablePath selfSlot 4 p)
    (hlen : p.length = 3) (pAddr : Word) :
    Paging b n n₀ f root T (Function.update M (p ++ [i]) (some (frameOf pAddr)))
      (l.setTableEntry (kernbase + t.addr) (i.setWidth 64) (pAddr ||| pageKernel)) := by
  obtain ⟨ht, j, hj, hd, rfl⟩ := h.table hpool hp hw
  rw [setTableEntry_eq ht]
  refine ⟨?_, h.list.writeEntry hpool hj hd i _, h.head⟩
  have hmap := h.tables.map (i := i) (isValidPage_or_flags pAddr entryFlags_pageKernel) hlen hp hw
    hpool
  rw [frameOf_or_flags pAddr entryFlags_pageKernel] at hmap
  exact hmap

/-- What a round reads at a level: a table, or a slot that is absent. -/
theorem Paging.entry_cases (hpool : Pool b n n₀ f) (h : Paging b n n₀ f root T M l)
    (hw : walk target (entries l.descs) root p = some t) (hp : TablePath selfSlot 4 (p ++ [i])) :
    (isValidPage (tableEntry l.descs (kernbase + t.addr) (i.setWidth 64)) = true ∧ p ++ [i] ∈ T ∧
      ∃ g, toVirtual (tableEntry l.descs (kernbase + t.addr) (i.setWidth 64)) = kernbase + g.addr ∧
        walk target (entries l.descs) root (p ++ [i]) = some g) ∨
    (isValidPage (tableEntry l.descs (kernbase + t.addr) (i.setWidth 64)) ≠ true ∧
      p ++ [i] ∉ T) := by
  have hptab := hp.mapPath.tablePath_prefix
  obtain ⟨ht, -⟩ := h.table hpool hptab hw
  rw [tableEntry_eq ht]
  have hstep : walk target (entries l.descs) root (p ++ [i]) = target (entries l.descs t i) := by
    rw [walk_concat, hw, Option.bind_some]
  have hmem := h.tables.paths (p ++ [i]) (by simp) hp
  by_cases hv : isValidPage (entries l.descs t i) = true
  · have hwalk : walk target (entries l.descs) root (p ++ [i]) =
        some (frameOf (entries l.descs t i)) := by
      rw [hstep, target, if_pos (present_of_isValidPage hv)]
    obtain ⟨hlow, -⟩ := h.table hpool hp hwalk
    exact Or.inl ⟨hv, hmem.mp (by simp [hwalk]), _, toVirtual_eq hlow, hwalk⟩
  · refine Or.inr ⟨hv, fun hT => hmem.mpr hT ?_⟩
    rw [hstep, target_eq_none_iff, Bool.eq_false_iff]
    exact fun hpres => hv (h.tables.valid t (isPageTable_of_walk hptab hw) i hpres)

/-- Below a path without a table there is none. -/
theorem Paging.notMem_append (h : Paging b n n₀ f root T M l) (hp : TablePath selfSlot 4 (p ++ [i]))
    (hne : p ≠ []) (hT : p ∉ T) : p ++ [i] ∉ T := by
  intro hmem
  have hsome := (h.tables.paths (p ++ [i]) (by simp) hp).mpr hmem
  refine hT ((h.tables.paths p hne hp.mapPath.tablePath_prefix).mp fun hnone => hsome ?_)
  rw [walk_concat, hnone, Option.bind_none]

theorem tablePath_pml4 (hv : pml4Idx vAddr ≠ selfSlot) : TablePath selfSlot 4 [pml4Idx vAddr] :=
  ⟨by simp, by simpa using hv⟩

theorem tablePath_pdp (hv : pml4Idx vAddr ≠ selfSlot) :
    TablePath selfSlot 4 [pml4Idx vAddr, pdpIdx vAddr] :=
  ⟨by simp, by simpa using hv⟩

theorem tablePath_pd (hv : pml4Idx vAddr ≠ selfSlot) :
    TablePath selfSlot 4 [pml4Idx vAddr, pdpIdx vAddr, pdIdx vAddr] :=
  ⟨by simp, by simpa using hv⟩

/-- The paths of the tables that the page of `v` needs. -/
def tablePaths (v : Word) : Finset (List Idx) :=
  {[pml4Idx v], [pml4Idx v, pdpIdx v], [pml4Idx v, pdpIdx v, pdIdx v]}

theorem Paging.mapWithoutPte (hpool : Pool b n n₀ f) (h : Paging b n n₀ f root T M l)
    (hv : pml4Idx vAddr ≠ selfSlot)
    (hw : walk target (entries l.descs) root [pml4Idx vAddr, pdpIdx vAddr] = some t)
    (hT : [pml4Idx vAddr, pdpIdx vAddr, pdIdx vAddr] ∉ T)
    (hroom : descPages n + 1 + T.card < n₀) (pAddr : Word) :
    ∃ l', mapWithoutPte (kernbase + t.addr) vAddr pAddr l = .ok l' ∧
      Paging b n n₀ f root (insert [pml4Idx vAddr, pdpIdx vAddr, pdIdx vAddr] T)
        (Function.update M (path vAddr) (some (frameOf pAddr))) l' := by
  obtain ⟨g, l₁, hnew, hg, h₁, hw₁⟩ := h.newTable hpool (i := pdIdx vAddr) hw
    (tablePath_pd hv) hT hroom
  refine ⟨_, ?_, h₁.setPte hpool (i := ptIdx vAddr) hw₁ (tablePath_pd hv) rfl pAddr⟩
  unfold SBUnix.mapWithoutPte
  rw [pgdOffsetOf_eq, hnew, ok_bind, pteOffsetOf_eq]
  dsimp only
  rw [toVirtual_addr hg]
  rfl

theorem Paging.mapWithoutPgd (hpool : Pool b n n₀ f) (h : Paging b n n₀ f root T M l)
    (hv : pml4Idx vAddr ≠ selfSlot)
    (hw : walk target (entries l.descs) root [pml4Idx vAddr] = some t)
    (hT : [pml4Idx vAddr, pdpIdx vAddr] ∉ T)
    (hroom : descPages n + 1 + T.card + 1 < n₀) (pAddr : Word) :
    ∃ l', mapWithoutPgd (kernbase + t.addr) vAddr pAddr l = .ok l' ∧
      Paging b n n₀ f root (insert [pml4Idx vAddr, pdpIdx vAddr, pdIdx vAddr]
          (insert [pml4Idx vAddr, pdpIdx vAddr] T))
        (Function.update M (path vAddr) (some (frameOf pAddr))) l' := by
  obtain ⟨g, l₁, hnew, hg, h₁, hw₁⟩ := h.newTable hpool (i := pdpIdx vAddr) hw
    (tablePath_pdp hv) hT (by omega)
  have hT₁ : [pml4Idx vAddr, pdpIdx vAddr, pdIdx vAddr] ∉
      insert [pml4Idx vAddr, pdpIdx vAddr] T := by
    have := h.notMem_append (i := pdIdx vAddr) (tablePath_pd hv) (by simp) hT
    simpa using this
  have hcard := Finset.card_insert_of_notMem hT
  obtain ⟨l₂, hrun, h₂⟩ := h₁.mapWithoutPte hpool hv hw₁ hT₁ (by
    show descPages n + 1 + (insert [pml4Idx vAddr, pdpIdx vAddr] T).card < n₀
    omega) pAddr
  refine ⟨l₂, ?_, h₂⟩
  unfold SBUnix.mapWithoutPgd
  rw [pdpeOffsetOf_eq, hnew, ok_bind]
  dsimp only
  rw [toVirtual_addr hg]
  exact hrun

theorem Paging.mapWithoutPdpe (hpool : Pool b n n₀ f) (h : Paging b n n₀ f root T M l)
    (hv : pml4Idx vAddr ≠ selfSlot) (hT : [pml4Idx vAddr] ∉ T)
    (hroom : descPages n + 1 + T.card + 2 < n₀) (pAddr : Word) :
    ∃ l', mapWithoutPdpe (kernbase + root.addr) vAddr pAddr l = .ok l' ∧
      Paging b n n₀ f root (insert [pml4Idx vAddr, pdpIdx vAddr, pdIdx vAddr]
          (insert [pml4Idx vAddr, pdpIdx vAddr] (insert [pml4Idx vAddr] T)))
        (Function.update M (path vAddr) (some (frameOf pAddr))) l' := by
  obtain ⟨g, l₁, hnew, hg, h₁, hw₁⟩ := h.newTable hpool (p := []) (i := pml4Idx vAddr) rfl
    (tablePath_pml4 hv) hT (by omega)
  have hT₁ : [pml4Idx vAddr, pdpIdx vAddr] ∉ insert [pml4Idx vAddr] T := by
    have := h.notMem_append (i := pdpIdx vAddr) (tablePath_pdp hv) (by simp) hT
    simpa using this
  have hcard := Finset.card_insert_of_notMem hT
  obtain ⟨l₂, hrun, h₂⟩ := h₁.mapWithoutPgd hpool hv hw₁ hT₁ (by
    show descPages n + 1 + (insert [pml4Idx vAddr] T).card + 1 < n₀
    omega) pAddr
  refine ⟨l₂, ?_, h₂⟩
  unfold SBUnix.mapWithoutPdpe
  rw [pml4OffsetOf_eq, hnew, ok_bind]
  dsimp only
  rw [toVirtual_addr hg]
  exact hrun

theorem union_tablePaths (T : Finset (List Idx)) (v : Word) :
    T ∪ tablePaths v = insert [pml4Idx v, pdpIdx v, pdIdx v]
      (insert [pml4Idx v, pdpIdx v] (insert [pml4Idx v] T)) := by
  ext p
  simp only [tablePaths, Finset.mem_union, Finset.mem_insert, Finset.mem_singleton]
  grind

/-- A round, by the tables that are there: all of them, all but the last one, the first one or
    none. -/
inductive RoundCase (root : Frame) (T : Finset (List Idx)) (vAddr pAddr : Word)
    (l : FreeList Mem) : Prop
  | withPte (t : Frame)
      (walk : walk target (entries l.descs) root
        [pml4Idx vAddr, pdpIdx vAddr, pdIdx vAddr] = some t)
      (tables : T ∪ tablePaths vAddr = T)
      (run : mapKernelPage (kernbase + root.addr) vAddr pAddr l = .ok (l.setTableEntry
        (kernbase + t.addr) ((ptIdx vAddr).setWidth 64) (pAddr ||| pageKernel)))
  | withoutPte (t : Frame)
      (walk : walk target (entries l.descs) root [pml4Idx vAddr, pdpIdx vAddr] = some t)
      (absent : [pml4Idx vAddr, pdpIdx vAddr, pdIdx vAddr] ∉ T)
      (tables : T ∪ tablePaths vAddr = insert [pml4Idx vAddr, pdpIdx vAddr, pdIdx vAddr] T)
      (card : (T ∪ tablePaths vAddr).card = T.card + 1)
      (run : mapKernelPage (kernbase + root.addr) vAddr pAddr l =
        mapWithoutPte (kernbase + t.addr) vAddr pAddr l)
  | withoutPgd (t : Frame)
      (walk : walk target (entries l.descs) root [pml4Idx vAddr] = some t)
      (absent : [pml4Idx vAddr, pdpIdx vAddr] ∉ T)
      (tables : T ∪ tablePaths vAddr = insert [pml4Idx vAddr, pdpIdx vAddr, pdIdx vAddr]
        (insert [pml4Idx vAddr, pdpIdx vAddr] T))
      (card : (T ∪ tablePaths vAddr).card = T.card + 2)
      (run : mapKernelPage (kernbase + root.addr) vAddr pAddr l =
        mapWithoutPgd (kernbase + t.addr) vAddr pAddr l)
  | withoutPdpe
      (absent : [pml4Idx vAddr] ∉ T)
      (card : (T ∪ tablePaths vAddr).card = T.card + 3)
      (run : mapKernelPage (kernbase + root.addr) vAddr pAddr l =
        mapWithoutPdpe (kernbase + root.addr) vAddr pAddr l)

theorem Paging.roundCase (hpool : Pool b n n₀ f) (h : Paging b n n₀ f root T M l)
    (hv : pml4Idx vAddr ≠ selfSlot) (pAddr : Word) : RoundCase root T vAddr pAddr l := by
  have hp₁ : TablePath selfSlot 4 ([] ++ [pml4Idx vAddr]) := tablePath_pml4 hv
  have hp₂ : TablePath selfSlot 4 ([pml4Idx vAddr] ++ [pdpIdx vAddr]) := tablePath_pdp hv
  have hp₃ : TablePath selfSlot 4 ([pml4Idx vAddr, pdpIdx vAddr] ++ [pdIdx vAddr]) :=
    tablePath_pd hv
  obtain ⟨res, hres⟩ : ∃ res, SBUnix.mapKernelPage (kernbase + root.addr) vAddr pAddr l = res :=
    ⟨_, rfl⟩
  have hrun := hres
  unfold SBUnix.mapKernelPage at hrun
  dsimp only at hrun
  rw [pml4OffsetOf_eq, pdpeOffsetOf_eq, pgdOffsetOf_eq, pteOffsetOf_eq] at hrun
  have hset := union_tablePaths T vAddr
  obtain ⟨hv₁, hT₁, g₁, hg₁, hw₁⟩ | ⟨hv₁, hT₁⟩ := h.entry_cases hpool (p := []) rfl hp₁
  · rw [if_pos hv₁, hg₁] at hrun
    rw [Finset.insert_eq_of_mem (a := [pml4Idx vAddr]) hT₁] at hset
    obtain ⟨hv₂, hT₂, g₂, hg₂, hw₂⟩ | ⟨hv₂, hT₂⟩ := h.entry_cases hpool hw₁ hp₂
    · rw [if_pos hv₂, hg₂] at hrun
      rw [Finset.insert_eq_of_mem (a := [pml4Idx vAddr, pdpIdx vAddr]) hT₂] at hset
      obtain ⟨hv₃, hT₃, g₃, hg₃, hw₃⟩ | ⟨hv₃, hT₃⟩ := h.entry_cases hpool hw₂ hp₃
      · rw [if_pos hv₃, hg₃] at hrun
        rw [Finset.insert_eq_of_mem (a := [pml4Idx vAddr, pdpIdx vAddr, pdIdx vAddr]) hT₃] at hset
        exact .withPte g₃ hw₃ hset (hres.trans hrun.symm)
      · rw [if_neg hv₃] at hrun
        have hcard := Finset.card_insert_of_notMem
          (a := [pml4Idx vAddr, pdpIdx vAddr, pdIdx vAddr]) hT₃
        exact .withoutPte g₂ hw₂ hT₃ hset (hset ▸ hcard) (hres.trans hrun.symm)
    · rw [if_neg hv₂] at hrun
      have hT₃ := h.notMem_append hp₃ (by simp) hT₂
      have hcard := Finset.card_insert_of_notMem (a := [pml4Idx vAddr, pdpIdx vAddr]) hT₂
      refine .withoutPgd g₁ hw₁ hT₂ hset ?_ (hres.trans hrun.symm)
      rw [hset, Finset.card_insert_of_notMem (by simpa using hT₃), hcard]
  · rw [if_neg hv₁] at hrun
    have hT₂ := h.notMem_append hp₂ (by simp) hT₁
    have hT₃ := h.notMem_append hp₃ (by simp) hT₂
    have hcard := Finset.card_insert_of_notMem (a := [pml4Idx vAddr]) hT₁
    refine .withoutPdpe hT₁ ?_ (hres.trans hrun.symm)
    rw [hset, Finset.card_insert_of_notMem (by simpa using hT₃),
      Finset.card_insert_of_notMem (by simpa using hT₂), hcard]

/-- A round maps its page and adds the tables that were missing. -/
theorem Paging.mapKernelPage (hpool : Pool b n n₀ f) (h : Paging b n n₀ f root T M l)
    (hv : pml4Idx vAddr ≠ selfSlot)
    (hroom : descPages n + 1 + (T ∪ tablePaths vAddr).card ≤ n₀) (pAddr : Word) :
    ∃ l', mapKernelPage (kernbase + root.addr) vAddr pAddr l = .ok l' ∧
      Paging b n n₀ f root (T ∪ tablePaths vAddr)
        (Function.update M (path vAddr) (some (frameOf pAddr))) l' := by
  cases h.roundCase hpool hv pAddr with
  | withPte t hw htables hrun =>
    rw [hrun, htables]
    exact ⟨_, rfl, h.setPte hpool hw (tablePath_pd hv) rfl pAddr⟩
  | withoutPte t hw hT htables hcard hrun =>
    rw [hrun, htables]
    exact h.mapWithoutPte hpool hv hw hT (by omega) pAddr
  | withoutPgd t hw hT htables hcard hrun =>
    rw [hrun, htables]
    exact h.mapWithoutPgd hpool hv hw hT (by omega) pAddr
  | withoutPdpe hT hcard hrun =>
    rw [hrun, union_tablePaths]
    exact h.mapWithoutPdpe hpool hv hT (by omega) pAddr

end Round

/-! ## A range of pages -/

/-- Where the kernel sees the physical page `a`. -/
def kernelPage (a : Nat) : Word := kernbase + BitVec.ofNat 64 (4096 * a)

/-- The paths of the tables that the pages `S` need. -/
def tablesOf (S : Finset Nat) : Finset (List Idx) := S.biUnion fun a => tablePaths (kernelPage a)

/-- The pages `S` lie below 2 GiB and are mapped where the kernel sees them, and no others. -/
structure Identity (S : Finset Nat) (M : List Idx → Option Frame) : Prop where
  low : ∀ a ∈ S, a < 2 ^ 19
  page : ∀ a ∈ S, M (path (kernelPage a)) = some (BitVec.ofNat 52 a)
  other : ∀ q, (∀ a ∈ S, q ≠ path (kernelPage a)) → M q = none

section Pages

variable {a c : Nat} {S : Finset Nat} {M : List Idx → Option Frame} {v : Word}

theorem kernelPage_toNat (ha : a < 2 ^ 19) : (kernelPage a).toNat = kernbase.toNat + 4096 * a := by
  have hk := kernbase_toNat
  unfold kernelPage
  rw [BitVec.toNat_add, ofNat_toNat_low (by omega)]
  omega

theorem kernelPage_succ (a : Nat) : pageSize + kernelPage a = kernelPage (a + 1) := by
  unfold kernelPage
  rw [Nat.mul_succ, BitVec.ofNat_add, add_left_comm, add_comm (BitVec.ofNat 64 (4096 * a))]
  rfl

theorem lowPage_succ (a : Nat) :
    pageSize + BitVec.ofNat 64 (4096 * a) = BitVec.ofNat 64 (4096 * (a + 1)) := by
  rw [Nat.mul_succ, BitVec.ofNat_add, add_comm]
  rfl

theorem tablesOf_mono {S S' : Finset Nat} (h : S ⊆ S') : tablesOf S ⊆ tablesOf S' :=
  Finset.biUnion_subset_biUnion_of_subset_left _ h

theorem tablesOf_insert (S : Finset Nat) (a : Nat) :
    tablesOf S ∪ tablePaths (kernelPage a) = tablesOf (insert a S) := by
  unfold tablesOf
  rw [Finset.biUnion_insert, Finset.union_comm]

/-- A range from page `a` on is `a` and the range behind it. -/
theorem insert_union_Ico (S : Finset Nat) (a c : Nat) :
    insert a S ∪ Finset.Ico (a + 1) (a + 1 + c) = S ∪ Finset.Ico a (a + (c + 1)) := by
  ext x
  simp only [Finset.mem_union, Finset.mem_insert, Finset.mem_Ico]
  grind

/-- The tables of page `a` are among those of a range from `a` on. -/
theorem card_tablesOf_insert_le (S : Finset Nat) (a c : Nat) :
    (tablesOf S ∪ tablePaths (kernelPage a)).card ≤
      (tablesOf (S ∪ Finset.Ico a (a + (c + 1)))).card := by
  rw [tablesOf_insert, ← insert_union_Ico]
  exact Finset.card_le_card (tablesOf_mono Finset.subset_union_left)

/-- From `KERNBASE` on a page is told by its path. -/
theorem path_eq_kernelPage (hv : kernbase ≤ v) (ha : a < 2 ^ 19) :
    path v = path (kernelPage a) ↔ (v - kernbase).toNat / 4096 = a := by
  have hk := kernbase_toNat
  have hlt := v.isLt
  have hle : kernbase.toNat ≤ v.toNat := BitVec.le_def.mp hv
  rw [path_eq_iff, kernelPage_toNat ha, BitVec.toNat_sub_of_le hv]
  omega

theorem pml4Idx_kernel (hv : kernbase ≤ v) : pml4Idx v ≠ selfSlot := by
  have hk := kernbase_toNat
  have hlt := v.isLt
  have hle : kernbase.toNat ≤ v.toNat := BitVec.le_def.mp hv
  intro h
  have hidx := pml4Idx_toNat v
  rw [h, show selfSlot.toNat = 510 from rfl] at hidx
  omega

theorem kernbase_le_kernelPage (ha : a < 2 ^ 19) : kernbase ≤ kernelPage a := by
  rw [BitVec.le_def, kernelPage_toNat ha]
  omega

theorem kernelPage_sub (ha : a < 2 ^ 19) : (kernelPage a - kernbase).toNat / 4096 = a := by
  rw [BitVec.toNat_sub_of_le (kernbase_le_kernelPage ha), kernelPage_toNat ha]
  omega

/-- One page more. -/
theorem Identity.insert (h : Identity S M) (ha : a < 2 ^ 19) :
    Identity (insert a S) (Function.update M (path (kernelPage a)) (some (BitVec.ofNat 52 a))) := by
  refine ⟨fun x hx => ?_, fun x hx => ?_, fun q hq => ?_⟩
  · obtain rfl | hx := Finset.mem_insert.mp hx
    · exact ha
    · exact h.low x hx
  · by_cases hxa : x = a
    · rw [hxa, Function.update_self]
    · have hxS : x ∈ S := Finset.mem_of_mem_insert_of_ne hx hxa
      have hne : path (kernelPage x) ≠ path (kernelPage a) := by
        rw [Ne, path_eq_kernelPage (kernbase_le_kernelPage (h.low x hxS)) ha,
          kernelPage_sub (h.low x hxS)]
        exact hxa
      rw [Function.update_of_ne hne]
      exact h.page x hxS
  · rw [Function.update_of_ne (hq a (Finset.mem_insert_self a S))]
    exact h.other q fun x hx => hq x (Finset.mem_insert_of_mem hx)

end Pages

section Range

variable {b n n₀ a e : Nat} {f : Nat → Nat} {root : Frame} {S : Finset Nat}
  {M : List Idx → Option Frame} {l : FreeList Mem} {vAddrEnd : Word}

theorem frameOf_ofNat (ha : a < 2 ^ 19) :
    frameOf (BitVec.ofNat 64 (4096 * a)) = BitVec.ofNat 52 a := by
  apply BitVec.eq_of_toNat_eq
  rw [frameOf_toNat, ofNat_toNat_low (by omega), BitVec.toNat_ofNat]
  omega

/-- `c` rounds from page `a` on, when the loop's end lies in the page before `a + c`. -/
theorem Paging.mapKernelPagesLoop (hpool : Pool b n n₀ f) {c : Nat}
    (h : Paging b n n₀ f root (tablesOf S) M l) (hM : Identity S M) (hlow : a + c < 2 ^ 19)
    (hend : ∀ x < 2 ^ 19, kernelPage x ≤ vAddrEnd ↔ x < a + c)
    (hroom : descPages n + 1 + (tablesOf (S ∪ Finset.Ico a (a + c))).card ≤ n₀) (fuel : Nat)
    (hfuel : c < fuel) :
    ∃ l' M', SBUnix.mapKernelPagesLoop (kernbase + root.addr) vAddrEnd fuel (kernelPage a)
        (BitVec.ofNat 64 (4096 * a)) l = .ok l' ∧
      Paging b n n₀ f root (tablesOf (S ∪ Finset.Ico a (a + c))) M' l' ∧
      Identity (S ∪ Finset.Ico a (a + c)) M' := by
  induction c generalizing a S M l fuel with
  | zero =>
    obtain ⟨fuel, rfl⟩ := Nat.exists_eq_succ_of_ne_zero (show fuel ≠ 0 by omega)
    rw [Nat.add_zero, Finset.Ico_self, Finset.union_empty]
    rw [SBUnix.mapKernelPagesLoop, if_neg ((hend a (by omega)).not.mpr (by omega))]
    exact ⟨l, M, rfl, h, hM⟩
  | succ c ih =>
    obtain ⟨fuel, rfl⟩ := Nat.exists_eq_succ_of_ne_zero (show fuel ≠ 0 by omega)
    have ha : a < 2 ^ 19 := by omega
    have hcard := card_tablesOf_insert_le S a c
    obtain ⟨l₁, hround, h₁⟩ := h.mapKernelPage hpool (pml4Idx_kernel (kernbase_le_kernelPage ha))
      (by omega) (BitVec.ofNat 64 (4096 * a))
    rw [tablesOf_insert, frameOf_ofNat ha] at h₁
    obtain ⟨l', M', hrun, h', hM'⟩ := ih h₁ (hM.insert ha) (a := a + 1) (by omega)
      (fun x hx => by rw [hend x hx, Nat.add_right_comm, Nat.add_assoc])
      (by rw [insert_union_Ico]; exact hroom) fuel (by omega)
    rw [insert_union_Ico] at h' hM'
    refine ⟨l', M', ?_, h', hM'⟩
    rw [SBUnix.mapKernelPagesLoop, if_pos ((hend a ha).mpr (by omega)), hround, ok_bind,
      kernelPage_succ, lowPage_succ]
    exact hrun

theorem pageAlign_kernel {w : Word} (hw : w.toNat < 2 ^ 31) :
    pageAlign (kernbase + w) = kernelPage (w.toNat / 4096) := by
  have hk := kernbase_toNat
  apply BitVec.eq_of_toNat_eq
  rw [pageAlign_toNat, kernelPage_toNat (by omega), BitVec.toNat_add]
  omega

theorem pageAlign_low {w : Word} : pageAlign w = BitVec.ofNat 64 (4096 * (w.toNat / 4096)) := by
  have hw := w.isLt
  apply BitVec.eq_of_toNat_eq
  rw [pageAlign_toNat, BitVec.toNat_ofNat]
  omega

/-- `map_all_kernel_pages` from `KERNBASE + w` to a byte of page `e`. -/
theorem Paging.mapAllKernelPages (hpool : Pool b n n₀ f)
    (h : Paging b n n₀ f root (tablesOf S) M l) (hM : Identity S M) {w : Word}
    (hw : w.toNat < 2 ^ 31) (hwe : w.toNat / 4096 ≤ e) (he : e + 1 < 2 ^ 19)
    (hend : kernelPage e ≤ vAddrEnd ∧ vAddrEnd < kernelPage (e + 1))
    (hroom : descPages n + 1 +
      (tablesOf (S ∪ Finset.Ico (w.toNat / 4096) (e + 1))).card ≤ n₀) :
    ∃ l' M', mapAllKernelPages (kernbase + w) vAddrEnd w (kernbase + root.addr) l = .ok l' ∧
      Paging b n n₀ f root (tablesOf (S ∪ Finset.Ico (w.toNat / 4096) (e + 1))) M' l' ∧
      Identity (S ∪ Finset.Ico (w.toNat / 4096) (e + 1)) M' := by
  obtain ⟨hend, hend'⟩ := hend
  rw [BitVec.le_def, kernelPage_toNat (by omega)] at hend
  rw [BitVec.lt_def, kernelPage_toNat (by omega)] at hend'
  have hcount : w.toNat / 4096 + (e + 1 - w.toNat / 4096) = e + 1 := by omega
  have hpages : ∀ x < 2 ^ 19, kernelPage x ≤ vAddrEnd ↔
      x < w.toNat / 4096 + (e + 1 - w.toNat / 4096) := by
    intro x hx
    rw [hcount, BitVec.le_def, kernelPage_toNat hx]
    omega
  obtain ⟨l', M', hrun, h', hM'⟩ := h.mapKernelPagesLoop hpool (c := e + 1 - w.toNat / 4096) hM
    (by omega) hpages (by rw [hcount]; exact hroom) loopFuel (by unfold loopFuel; omega)
  rw [hcount] at h' hM'
  refine ⟨l', M', ?_, h', hM'⟩
  unfold SBUnix.mapAllKernelPages
  rw [pageAlign_kernel hw, pageAlign_low]
  exact hrun

/-- A PML4 of which only slot 510 is filled in is the only table. -/
theorem bootTables_lone {m : Mem} (hroom : descPages n < n₀)
    (hent : ∀ j, descPages n ≤ j → j < n₀ → ∀ i, entries m (poolFrame b j) i =
      if j = descPages n ∧ i = selfSlot then (poolFrame b (descPages n)).addr ||| pageKernel
      else 0) :
    BootTables b n n₀ (poolFrame b (descPages n)) (descPages n + 1) ∅ (fun _ => none) m := by
  have hroot : ∀ i, entries m (poolFrame b (descPages n)) i =
      if i = selfSlot then (poolFrame b (descPages n)).addr ||| pageKernel else 0 := by
    intro i
    simpa using hent (descPages n) le_rfl hroom i
  have hself : target (entries m (poolFrame b (descPages n)) selfSlot) =
      some (poolFrame b (descPages n)) := by
    rw [hroot, if_pos rfl, target_or_flags _ entryFlags_pageKernel, frameOf_addr]
  have habs : ∀ i, i ≠ selfSlot → target (entries m (poolFrame b (descPages n)) i) = none := by
    intro i hi
    rw [hroot, if_neg hi, target_zero]
  have hlone : ∀ p x, p.head? ≠ some selfSlot →
      walk target (entries m) (poolFrame b (descPages n)) p = some x →
        p = [] ∧ x = poolFrame b (descPages n) := fun p x hp hx => walk_loneRoot habs hp hx
  have htab : ∀ g, IsPageTable {poolFrame b (descPages n)} m g → g = poolFrame b (descPages n) := by
    rintro g ⟨r, rfl, p, hp, hx⟩
    exact (hlone p g hp.head hx).2
  refine ⟨Forest.loneRoot hself habs, fun g hg => ?_, hroom, fun g hg i hi => ?_,
    fun j hj hjn i => ?_, fun p hp htp => ?_, fun q hq hh => ?_⟩
  · exact ⟨descPages n, le_rfl, Nat.lt_succ_self _, htab g hg⟩
  · obtain rfl := htab g hg
    rw [hroot] at hi ⊢
    split_ifs at hi ⊢
    · exact isValidPage_or_flags _ entryFlags_pageKernel
    · exact absurd hi (by decide)
  · rw [hent j (by omega) hjn, if_neg (by omega)]
  · refine ⟨fun hsome => ?_, fun hmem => absurd hmem (by simp)⟩
    obtain ⟨x, hx⟩ := Option.ne_none_iff_exists'.mp hsome
    exact absurd (hlone p x htp.head hx).1 hp
  · by_contra hsome
    obtain ⟨x, hx⟩ := Option.ne_none_iff_exists'.mp hsome
    rw [(hlone q x hh hx).1] at hq
    cases hq

/-- `create_kernel_pml4` takes the first frame behind the descriptors' pages. -/
theorem createKernelPml4_eq (hpool : Pool b n n₀ f) {m : Mem} (hlist : ListInv m b n f)
    (hzero : ∀ j, descPages n ≤ j → j < n₀ → ∀ i, entries m (poolFrame b j) i = 0)
    (hroom : descPages n < n₀) :
    ∃ l, createKernelPml4 ⟨m, cursor b n (descPages n), 0⟩ =
        .ok ((poolFrame b (descPages n)).addr, kernbase + (poolFrame b (descPages n)).addr, l) ∧
      Paging b n n₀ f (poolFrame b (descPages n)) (tablesOf ∅) (fun _ => none) l := by
  have hle := hpool.le
  have hlow := hpool.low
  have hcall := getNextFreePage_cursor (l := ⟨m, cursor b n (descPages n), 0⟩) hpool.room hlist
    (by omega) rfl
  have hsame := hpool.samePool_writeStatus m (k := descPages n) (by omega)
  obtain ⟨m₁, hm₁⟩ : ∃ m₁, m₁ = writeWord (writeStatus m b (descPages n))
      (entryAddr (poolFrame b (descPages n)) selfSlot)
      ((poolFrame b (descPages n)).addr ||| pageKernel) := ⟨_, rfl⟩
  have hent : ∀ j, descPages n ≤ j → j < n₀ → ∀ i, entries m₁ (poolFrame b j) i =
      if j = descPages n ∧ i = selfSlot then (poolFrame b (descPages n)).addr ||| pageKernel
      else 0 := by
    intro j hj hjn i
    have hiff : poolFrame b j = poolFrame b (descPages n) ↔ j = descPages n :=
      ⟨hpool.frame_inj hjn hroom, fun h => by rw [h]⟩
    rw [hm₁, entries_writeWord, setEntry, hsame j hj hjn, hzero j hj hjn]
    simp only [hiff]
  have hlist' : ListInv m₁ b n f := by
    rw [hm₁]
    exact (hlist.writeStatus _).writeEntry hpool hroom le_rfl selfSlot _
  refine ⟨⟨m₁, cursor b n (descPages n + 1), 0⟩, ?_, ⟨?_, hlist', ?_⟩⟩
  · unfold createKernelPml4
    rw [hcall, ok_bind, hpool.ofNat_frame hroom]
    dsimp only
    rw [show (510 : Word) = selfSlot.setWidth 64 from rfl,
      setTableEntry_eq (by rw [hpool.frame_toNat hroom]; omega), hm₁]
    rfl
  · rw [tablesOf, Finset.biUnion_empty, Finset.card_empty]
    exact bootTables_lone hroom hent
  · rw [tablesOf, Finset.biUnion_empty, Finset.card_empty]

end Range

end SBUnix
