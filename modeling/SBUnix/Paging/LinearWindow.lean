import SBUnix.Paging.TableTree

/-
  The tables through the addresses from `KERNBASE` on.

  `LinearTables G root fs m l` says that the boot memory holds the tables `m` and the free frames
  `fs`, all of them in `G`, and the list of these frames apart from `G`. A round of
  `map_all_kernel_pages` reads what `descend` reads (`LinearTables.mapKernelPage_eq`) and stores
  what `mapEntries` stores (`LinearTables.mapKernelPage`).
-/

namespace SBUnix

open ByteMem Radix

/-! ## The free list in memory -/

/-- The descriptors are 24 bytes each, and lie apart from each other and from the frames in `G`. -/
structure DescsApart (G : Set Frame) (nodes : List (Word × Word)) : Prop where
  inline : ∀ e ∈ nodes,
    bootPhys (8#64 + e.1) = bootPhys e.1 + 8 ∧ bootPhys (16#64 + e.1) = bootPhys e.1 + 16
  disjoint : ∀ e ∈ nodes, ∀ e' ∈ nodes, e.1 ≠ e'.1 →
    bootPhys e.1 + 24 ≤ bootPhys e'.1 ∨ bootPhys e'.1 + 24 ≤ bootPhys e.1
  frames : ∀ e ∈ nodes, ∀ g ∈ G,
    bootPhys e.1 + 24 ≤ g.toNat * 4096 ∨ g.toNat * 4096 + 4096 ≤ bootPhys e.1

/-- The list from `head` holds the frames `fs`, in order. -/
def MemFrames (G : Set Frame) (m : Mem) (head : Word) (fs : List Frame) : Prop :=
  ∃ nodes, BootChain m head nodes ∧ nodes.map Prod.snd = fs.map Frame.addr ∧
    DescsApart G nodes

section MemFrames

variable {G : Set Frame} {m m' : Mem} {head : Word} {fs : List Frame} {f g : Frame}
  {nodes : List (Word × Word)} {e : Word × Word}

theorem DescsApart.tail (h : DescsApart G (e :: nodes)) : DescsApart G nodes where
  inline x hx := h.inline x (List.mem_cons_of_mem e hx)
  disjoint x hx y hy := h.disjoint x (List.mem_cons_of_mem e hx) y (List.mem_cons_of_mem e hy)
  frames x hx := h.frames x (List.mem_cons_of_mem e hx)

/-- A store that spares the links and the frames of the descriptors keeps the list. -/
theorem BootChain.congr (hc : BootChain m head nodes) (ha : DescsApart G nodes)
    (hlink : ∀ e ∈ nodes, readWord m' (bootPhys e.1) = readWord m (bootPhys e.1))
    (hframe : ∀ e ∈ nodes, readWord m' (bootPhys e.1 + 16) = readWord m (bootPhys e.1 + 16)) :
    BootChain m' head nodes := by
  refine Linked.Chain.congr hc fun e he => ?_
  obtain ⟨-, h16⟩ := ha.inline e he
  rw [memNode, memNode, h16, hlink e he, hframe e he]

/-- A store into an entry of a frame in `G`. -/
theorem MemFrames.setEntry (h : MemFrames G m head fs) (hg : g ∈ G) (i : Idx) (w : Word) :
    MemFrames G (writeWord m (entryAddr g i) w) head fs := by
  obtain ⟨nodes, hc, hmap, ha⟩ := h
  have hi := i.isLt
  have hoff : ∀ e ∈ nodes, ∀ k ≤ 16, readWord (writeWord m (entryAddr g i) w) (bootPhys e.1 + k) =
      readWord m (bootPhys e.1 + k) := by
    intro e he k hk
    have hframe := ha.frames e he g hg
    refine readWord_writeWord_of_disjoint _ _ ?_
    unfold entryAddr
    omega
  exact ⟨nodes, BootChain.congr hc ha (fun e he => hoff e he 0 (by omega))
    fun e he => hoff e he 16 le_rfl, hmap, ha⟩

/-- `get_next_free_page` takes the first frame, and spares the frames in `G`. -/
theorem MemFrames.take {l : FreeList Mem} (h : MemFrames G l.descs l.freeListHead (f :: fs)) :
    ∃ l', getNextFreePage l = .ok (f.addr, l') ∧ MemFrames G l'.descs l'.freeListHead fs ∧
      ∀ g ∈ G, ∀ j, entries l'.descs g j = entries l.descs g j := by
  obtain ⟨nodes, hc, hmap, ha⟩ := h
  cases nodes with
  | nil => cases hmap
  | cons e nodes =>
    obtain ⟨he, hmap⟩ := List.cons.inj hmap
    obtain ⟨hhead, h0, next, hnode, hrest⟩ := hc
    obtain ⟨rfl, hframe⟩ := Prod.mk.inj (Option.some.inj hnode)
    have hpage : DescMem.page l.descs e.1 = some ⟨readWord l.descs (bootPhys e.1),
        readWord l.descs (bootPhys (8#64 + e.1)), e.2⟩ := by
      rw [← hframe]
      exact if_neg h0
    have hmem := List.mem_cons_self (a := e) (l := nodes)
    obtain ⟨h8, -⟩ := ha.inline e hmem
    refine ⟨⟨writeWord l.descs (bootPhys (8#64 + l.freeListHead)) allocated,
      readWord l.descs (bootPhys e.1), l.freeListHeadKmalloc⟩, ?_,
      ⟨nodes, ?_, hmap, ha.tail⟩, fun g hg j => ?_⟩
    · unfold getNextFreePage
      rw [hhead, if_neg h0, hpage, he]
      rfl
    · rw [hhead, h8]
      have hoff : ∀ x ∈ nodes, ∀ k, k = 0 ∨ k = 16 →
          readWord (writeWord l.descs (bootPhys e.1 + 8) allocated) (bootPhys x.1 + k) =
            readWord l.descs (bootPhys x.1 + k) := by
        intro x hx k hk
        refine readWord_writeWord_of_disjoint _ _ ?_
        by_cases hxe : e.1 = x.1
        · rw [hxe]
          omega
        · have := ha.disjoint e hmem x (List.mem_cons_of_mem e hx) hxe
          omega
      exact BootChain.congr hrest ha.tail (fun x hx => hoff x hx 0 (Or.inl rfl))
        fun x hx => hoff x hx 16 (Or.inr rfl)
    · have hj := j.isLt
      have hframe := ha.frames e hmem g hg
      unfold entries
      refine readWord_writeWord_of_disjoint _ _ ?_
      rw [hhead, h8]
      unfold entryAddr
      omega

end MemFrames

/-! ## The tables in the boot memory -/

/-- The boot memory holds the entries `m` in the frames of `G`, which are below 2 GiB and hold the
    tables of `root` and the frames `fs` of the free list. -/
structure LinearTables (G : Set Frame) (root : Frame) (fs : List Frame) (m : Entries)
    (l : FreeList Mem) : Prop where
  inside : ∀ g, IsTable target selfSlot 4 m {root} g ∨ g ∈ fs → g ∈ G
  low : ∀ g ∈ G, g.toNat < 2 ^ 19
  same : ∀ g ∈ G, ∀ j, entries l.descs g j = m g j
  list : MemFrames G l.descs l.freeListHead fs

section LinearTables

variable {G : Set Frame} {root f g t : Frame} {fs : List Frame} {m : Entries} {l : FreeList Mem}
  {p : List Idx} {i : Idx} {e v pAddr : Word} {n : Nat}

theorem LinearTables.table (h : LinearTables G root fs m l) (hp : TablePath selfSlot 4 p)
    (hw : walk target m root p = some t) : t ∈ G ∧ t.toNat < 2 ^ 19 := by
  have hG := h.inside t (Or.inl ⟨root, rfl, p, hp, hw⟩)
  exact ⟨hG, h.low t hG⟩

/-- A store into an entry. -/
theorem LinearTables.setTableEntry (h : LinearTables G root fs m l) (ht : t ∈ G)
    (htables : ∀ x, IsTable target selfSlot 4 (setEntry m t i e) {root} x →
      IsTable target selfSlot 4 m {root} x ∨ x ∈ G) :
    LinearTables G root fs (setEntry m t i e)
      (l.setTableEntry (kernbase + t.addr) (i.setWidth 64) e) := by
  rw [setTableEntry_eq (h.low t ht)]
  refine ⟨fun x hx => ?_, h.low, fun x hx j => ?_, h.list.setEntry ht i e⟩
  · obtain hx | hx := hx
    · exact (htables x hx).elim (fun hold => h.inside x (Or.inl hold)) id
    · exact h.inside x (Or.inr hx)
  · rw [entries_writeWord]
    unfold setEntry
    split_ifs
    · rfl
    · exact h.same x hx j

/-- Taking the next frame. -/
theorem LinearTables.take (h : LinearTables G root (g :: fs) m l) :
    ∃ l', getNextFreePage l = .ok (g.addr, l') ∧ LinearTables G root fs m l' := by
  obtain ⟨l', hnext, hlist, hkept⟩ := h.list.take
  refine ⟨l', hnext, fun x hx => h.inside x (hx.imp_right (List.mem_cons_of_mem g)), h.low,
    fun x hx j => ?_, hlist⟩
  rw [hkept x hx, h.same x hx]

/-! ## The branches of `map_all_kernel_pages` -/

/-- The branch with `n` tables missing, from the last table that is there. -/
def mapMissing (table vAddr pAddr : Word) (l : FreeList Mem) : Nat → Except Fault (FreeList Mem)
  | 0 => .ok (l.setTableEntry table (pteOffsetOf vAddr) (pAddr ||| pageKernel))
  | 1 => mapWithoutPte table vAddr pAddr l
  | 2 => mapWithoutPgd table vAddr pAddr l
  | _ => mapWithoutPdpe table vAddr pAddr l

/-- Each branch hangs one table and goes on with the next. -/
theorem mapMissing_succ (table vAddr pAddr : Word) (l : FreeList Mem) {n : Nat} (hn : n < 3) :
    mapMissing table vAddr pAddr l (n + 1) = (do
      let (base, l) ← newTable table ((idxAt vAddr (2 - n)).setWidth 64) l
      mapMissing (toVirtual base) vAddr pAddr l n) := by
  interval_cases n
  · show mapWithoutPte table vAddr pAddr l = _
    unfold mapWithoutPte
    rw [pgdOffsetOf_eq]
    rfl
  · show mapWithoutPgd table vAddr pAddr l = _
    unfold mapWithoutPgd
    rw [pdpeOffsetOf_eq]
    rfl
  · show mapWithoutPdpe table vAddr pAddr l = _
    unfold mapWithoutPdpe
    rw [pml4OffsetOf_eq]
    rfl

/-- A branch stores what `mapEntries` stores. -/
theorem LinearTables.mapMissing (h : LinearTables G root fs m l) (htree : TableTree root fs m)
    (hv : pml4Idx v ≠ selfSlot) (hn : n ≤ 3) (hlen : n ≤ fs.length)
    (hw : walk target m root ((path v).take (3 - n)) = some t) (pAddr : Word) :
    ∃ l', mapMissing (kernbase + t.addr) v pAddr l n = .ok l' ∧
      LinearTables G root (fs.drop n) (mapEntries pAddr v n fs t m) l' := by
  induction n generalizing l t fs m with
  | zero =>
    have hp := tablePath_take v hv (d := 3) (by omega)
    rw [SBUnix.mapMissing, pteOffsetOf_eq]
    exact ⟨_, rfl, h.setTableEntry (i := idxAt v 3) (h.table hp hw).1 fun x hx =>
      Or.inl ((htree.leaf hp (length_take_path v (by omega)) hw).2 x hx)⟩
  | succ n ih =>
    obtain ⟨g, fs, rfl⟩ := List.exists_cons_of_length_pos (by omega : 0 < fs.length)
    have hd : 3 - (n + 1) = 2 - n := by omega
    have hd' : 2 - n + 1 = 3 - n := by omega
    rw [hd] at hw
    have hgG := h.inside g (Or.inr List.mem_cons_self)
    obtain ⟨htG, htlow⟩ := h.table (tablePath_take v hv (by omega)) hw
    obtain ⟨htree₁, htables, hw₁, -⟩ := htree.link_path hv (by omega) hw
    rw [hd'] at hw₁
    obtain ⟨l₁, hnext, h₁⟩ := h.take
    have h₂ := h₁.setTableEntry (i := idxAt v (2 - n)) (e := g.addr ||| pageKernel) htG
      fun x hx => (htables x hx).imp_right fun hxg => by rwa [hxg]
    obtain ⟨l', hrun, h'⟩ := ih h₂ htree₁ (by omega) (by simpa using hlen) hw₁
    refine ⟨l', ?_, h'⟩
    have hnew : newTable (kernbase + t.addr) ((idxAt v (2 - n)).setWidth 64) l = .ok (g.addr,
        l₁.setTableEntry (kernbase + t.addr) ((idxAt v (2 - n)).setWidth 64)
          (g.addr ||| pageKernel)) := by
      unfold newTable
      rw [hnext]
      rfl
    rw [mapMissing_succ _ _ _ _ (by omega), hnew, ok_bind]
    dsimp only
    rw [toVirtual_addr (h.low g hgG)]
    exact hrun

/-- What a level of `map_all_kernel_pages` reads, and where the next table is. -/
theorem LinearTables.level {d : Nat} (h : LinearTables G root fs m l) (hv : pml4Idx v ≠ selfSlot)
    (hd : d < 3) (hw : walk target m root ((path v).take d) = some t) :
    tableEntry l.descs (kernbase + t.addr) ((idxAt v d).setWidth 64) = m t (idxAt v d) ∧
      (isValidPage (m t (idxAt v d)) = true →
        walk target m root ((path v).take (d + 1)) = some (frameOf (m t (idxAt v d))) ∧
        toVirtual (m t (idxAt v d)) = kernbase + (frameOf (m t (idxAt v d))).addr) := by
  obtain ⟨htG, htlow⟩ := h.table (tablePath_take v hv (by omega)) hw
  refine ⟨by rw [tableEntry_eq htlow, h.same t htG], fun hvalid => ?_⟩
  have hnext : walk target m root ((path v).take (d + 1)) = some (frameOf (m t (idxAt v d))) := by
    rw [take_succ_path v (by omega), walk_concat, hw, Option.bind_some, target,
      if_pos (present_of_isValidPage hvalid)]
  obtain ⟨-, hlow⟩ := h.table (tablePath_take v hv (by omega)) hnext
  exact ⟨hnext, toVirtual_eq hlow⟩

/-- A round goes down as `descend` does. -/
theorem LinearTables.mapKernelPage_eq (h : LinearTables G root fs m l) (hv : pml4Idx v ≠ selfSlot)
    (pAddr : Word) :
    mapKernelPage (kernbase + root.addr) v pAddr l =
      SBUnix.mapMissing (kernbase + (descend m v 3 root).2.addr) v pAddr l
        (descend m v 3 root).1 := by
  unfold mapKernelPage
  dsimp only
  rw [pml4OffsetOf_eq, pdpeOffsetOf_eq, pgdOffsetOf_eq, show pml4Idx v = idxAt v 0 from rfl,
    show pdpIdx v = idxAt v 1 from rfl, show pdIdx v = idxAt v 2 from rfl]
  obtain ⟨hread₀, hnext₀⟩ := h.level hv (d := 0) (by omega) (t := root) rfl
  rw [hread₀, descend]
  by_cases hv₀ : isValidPage (m root (idxAt v 0)) = true
  swap
  · rw [if_neg hv₀, if_neg hv₀]
    rfl
  obtain ⟨hw₁, hto₁⟩ := hnext₀ hv₀
  obtain ⟨hread₁, hnext₁⟩ := h.level hv (d := 1) (by omega) hw₁
  rw [if_pos hv₀, if_pos hv₀, hto₁, hread₁, descend]
  by_cases hv₁ : isValidPage (m (frameOf (m root (idxAt v 0))) (idxAt v 1)) = true
  swap
  · rw [if_neg hv₁, if_neg hv₁]
    rfl
  obtain ⟨hw₂, hto₂⟩ := hnext₁ hv₁
  obtain ⟨hread₂, hnext₂⟩ := h.level hv (d := 2) (by omega) hw₂
  rw [if_pos hv₁, if_pos hv₁, hto₂, hread₂, descend]
  by_cases hv₂ : isValidPage
      (m (frameOf (m (frameOf (m root (idxAt v 0))) (idxAt v 1))) (idxAt v 2)) = true
  · rw [if_pos hv₂, if_pos hv₂, (hnext₂ hv₂).2]
    rfl
  · rw [if_neg hv₂, if_neg hv₂]
    rfl

/-- A round stores what `mapEntries` stores. -/
theorem LinearTables.mapKernelPage (h : LinearTables G root fs m l) (htree : TableTree root fs m)
    (hv : pml4Idx v ≠ selfSlot) (hlen : (descend m v 3 root).1 ≤ fs.length) (pAddr : Word) :
    ∃ l', SBUnix.mapKernelPage (kernbase + root.addr) v pAddr l = .ok l' ∧
      LinearTables G root (fs.drop (descend m v 3 root).1)
        (mapEntries pAddr v (descend m v 3 root).1 fs (descend m v 3 root).2 m) l' := by
  rw [h.mapKernelPage_eq hv]
  exact h.mapMissing htree hv (descend_le m v 3 root) hlen
    (descend_spec (m := m) (v := v) (n := 3) le_rfl rfl).1 pAddr

end LinearTables

end SBUnix
