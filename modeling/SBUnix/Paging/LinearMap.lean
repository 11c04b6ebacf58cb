import SBUnix.Paging.LinearWindow
import SBUnix.Paging.AddressSpace

/-
  `map_all_kernel_pages` maps exactly the pages of its range.

  A round maps its page and keeps every other translation (`LinearTree.round`); its frames are
  the tables that were missing, so the count of missing tables of the whole range decides whether
  the list is long enough (`absentTables`). The loop is the rounds one after the other
  (`LinearTree.loop`), and `mapAllKernelPages_exact` is the result. It speaks of tables without
  read-only links: the code takes such a link for a missing table and replaces it
  (`not_mapAllKernelPages_exact`).
-/

namespace SBUnix

open ByteMem Radix

/-! ## Rounds -/

/-- Tables to map into: a tree without read-only links, in the boot memory. -/
structure LinearTree (G : Set Frame) (root : Frame) (fs : List Frame) (m : Entries)
    (l : FreeList Mem) : Prop where
  tables : LinearTables G root fs m l
  tree : TableTree root fs m
  links : LinksWritable root m

/-- The pages at `v`, `v + 4096` and so on, `k` of them, have the frames from `p` on, and no other
    page changed. -/
structure MapsRange (root : Frame) (v p : Word) (k : Nat) (m m' : Entries) : Prop where
  mapped : ∀ j < k, walk target m' root (path (pageAt v j)) = some (frameOf (pageAt p j))
  other : ∀ q : List Idx, q.length = 4 → q.head? ≠ some selfSlot →
    (∀ j < k, q ≠ path (pageAt v j)) → walk target m' root q = walk target m root q

section Loop

variable {G : Set Frame} {root : Frame} {fs : List Frame} {m : Entries} {l : FreeList Mem}
  {v p vEnd : Word} {S : Finset (List Idx)}

/-- A round maps its page, with the tables of `S` that are missing as a bound for the frames. -/
theorem LinearTree.round (h : LinearTree G root fs m l) (hv : pml4Idx v ≠ selfSlot)
    (hS : ∀ q ∈ S, TablePath selfSlot 4 q) (hvS : tablePaths v ⊆ S)
    (hlen : (absentTables m root S).card ≤ fs.length) (p : Word) :
    ∃ l' fs' m', mapKernelPage (kernbase + root.addr) v p l = .ok l' ∧
      LinearTree G root fs' m' l' ∧ MapsPage root (path v) (frameOf p) m m' ∧
      (absentTables m' root S).card ≤ fs'.length := by
  obtain ⟨n, hn⟩ : ∃ n, n = (descend m v 3 root).1 := ⟨_, rfl⟩
  have hle : n ≤ 3 := hn ▸ descend_le m v 3 root
  have hw : walk target m root ((path v).take (3 - (descend m v 3 root).1)) =
      some (descend m v 3 root).2 := (descend_spec le_rfl rfl).1
  have habs := h.links.descend_absent hv
  rw [← hn] at hw habs
  -- the frames that the round needs are among the missing tables
  have hroom : n ≤ fs.length := (le_card_absentTables hle hw habs hvS).trans hlen
  obtain ⟨htree, hlinks, hmaps, hcard⟩ := h.tree.mapEntries h.links hv hle hroom hw habs hS hvS p
  obtain ⟨l', hrun, htables⟩ := h.tables.mapKernelPage h.tree hv (by omega) p
  rw [← hn] at htables
  refine ⟨l', _, _, hrun, ⟨htables, htree, hlinks⟩, hmaps, ?_⟩
  rw [List.length_drop]
  omega

theorem MapsRange.zero (root : Frame) (v p : Word) (m : Entries) : MapsRange root v p 0 m m where
  mapped j hj := absurd hj (Nat.not_lt_zero j)
  other _ _ _ _ := rfl

/-- One page, and then the pages behind it. -/
theorem MapsPage.range {k : Nat} {m₁ m₂ : Entries} (h : MapsPage root (path v) (frameOf p) m m₁)
    (hrest : MapsRange root (pageSize + v) (pageSize + p) k m₁ m₂) (hv : pml4Idx v ≠ selfSlot)
    (hdiff : ∀ j < k, path v ≠ path (pageAt v (j + 1))) : MapsRange root v p (k + 1) m m₂ where
  mapped j hj := by
    cases j with
    | zero =>
      rw [pageAt_zero, pageAt_zero, hrest.other _ (path_length v) (path_head_ne hv), h.mapped]
      intro j hj
      rw [pageAt_succ]
      exact hdiff j hj
    | succ j =>
      have hmapped := hrest.mapped j (by omega)
      rwa [pageAt_succ, pageAt_succ] at hmapped
  other q hq hh hne := by
    have hfirst := hne 0 (Nat.succ_pos k)
    rw [pageAt_zero] at hfirst
    rw [hrest.other q hq hh, h.other q hq hh hfirst]
    intro j hj
    rw [pageAt_succ]
    exact hne (j + 1) (by omega)

/-- The loop makes a round for each of the `k` pages up to its end. -/
theorem LinearTree.loop {k fuel : Nat} (h : LinearTree G root fs m l) (hfuel : k < fuel)
    (hend : vEnd.toNat + 4096 < 2 ^ 64) (hlast : vEnd.toNat < v.toNat + 4096 * k)
    (hfirst : v.toNat + 4096 * k ≤ vEnd.toNat + 4096)
    (hslot : ∀ j < k, pml4Idx (pageAt v j) ≠ selfSlot)
    (hdiff : ∀ i < k, ∀ j < k, path (pageAt v i) = path (pageAt v j) → i = j)
    (hS : ∀ q ∈ S, TablePath selfSlot 4 q) (hvS : ∀ j < k, tablePaths (pageAt v j) ⊆ S)
    (hlen : (absentTables m root S).card ≤ fs.length) (p : Word) :
    ∃ l' fs' m', mapKernelPagesLoop (kernbase + root.addr) vEnd fuel v p l = .ok l' ∧
      LinearTree G root fs' m' l' ∧ MapsRange root v p k m m' := by
  induction k generalizing fuel v p fs m l with
  | zero =>
    obtain ⟨fuel, rfl⟩ := Nat.exists_eq_succ_of_ne_zero (by omega : fuel ≠ 0)
    refine ⟨l, fs, m, ?_, h, MapsRange.zero root v p m⟩
    rw [mapKernelPagesLoop, if_neg]
    rw [BitVec.le_def]
    omega
  | succ k ih =>
    obtain ⟨fuel, rfl⟩ := Nat.exists_eq_succ_of_ne_zero (by omega : fuel ≠ 0)
    have hnext : (pageSize + v).toNat = 4096 + v.toNat := by
      rw [BitVec.toNat_add, show pageSize.toNat = 4096 from rfl]
      omega
    have hv := hslot 0 (Nat.succ_pos k)
    have hvS₀ := hvS 0 (Nat.succ_pos k)
    rw [pageAt_zero] at hv hvS₀
    obtain ⟨l₁, fs₁, m₁, hround, h₁, hmaps, hlen₁⟩ := h.round hv hS hvS₀ hlen p
    have hdiff₁ : ∀ i < k, ∀ j < k,
        path (pageAt (pageSize + v) i) = path (pageAt (pageSize + v) j) → i = j := by
      intro i hi j hj heq
      rw [pageAt_succ, pageAt_succ] at heq
      exact Nat.succ_injective (hdiff (i + 1) (by omega) (j + 1) (by omega) heq)
    obtain ⟨l', fs', m', hrun, h', hrange⟩ := ih h₁ (Nat.lt_of_succ_lt_succ hfuel) (by omega) (by omega)
      (fun j hj => by rw [pageAt_succ]; exact hslot (j + 1) (by omega)) hdiff₁
      (fun j hj => by rw [pageAt_succ]; exact hvS (j + 1) (by omega)) hlen₁ (pageSize + p)
    refine ⟨l', fs', m', ?_, h', hmaps.range hrange hv fun j hj heq => ?_⟩
    · rw [mapKernelPagesLoop, if_pos (BitVec.le_def.mpr (by omega)), hround, ok_bind, hrun]
    · have hzero := hdiff 0 (Nat.succ_pos k) (j + 1) (by omega) (by rwa [pageAt_zero])
      omega

end Loop

/-! ## The pages of a range -/

/-- The number of pages from `vStart`, rounded down, to `vEnd`. -/
def rangePages (vStart vEnd : Word) : Nat := (vEnd.toNat - (pageAlign vStart).toNat) / 4096 + 1

/-- The paths of the tables that a range needs. -/
def rangeTables (vStart vEnd : Word) : Finset (List Idx) :=
  (Finset.range (rangePages vStart vEnd)).biUnion fun k =>
    tablePaths (pageAt (pageAlign vStart) k)

section Range

variable {vStart vEnd : Word} {i j k : Nat}

theorem lt_rangePages (hle : vStart ≤ vEnd) :
    k < rangePages vStart vEnd ↔ (pageAlign vStart).toNat + 4096 * k ≤ vEnd.toNat := by
  have halign := pageAlign_toNat vStart
  have hle' := BitVec.le_def.mp hle
  unfold rangePages
  omega

theorem pageAt_range (hle : vStart ≤ vEnd) (hk : k < rangePages vStart vEnd) :
    (pageAt (pageAlign vStart) k).toNat = (pageAlign vStart).toNat + 4096 * k := by
  have hend := vEnd.isLt
  rw [lt_rangePages hle] at hk
  exact pageAt_toNat (by omega)

theorem rangePage_slot (hle : vStart ≤ vEnd)
    (hslot : ∀ w, vStart ≤ w → w ≤ vEnd → pml4Idx w ≠ selfSlot)
    (hk : k < rangePages vStart vEnd) : pml4Idx (pageAt (pageAlign vStart) k) ≠ selfSlot := by
  have halign := pageAlign_toNat vStart
  have hpage := pageAt_range hle hk
  rw [lt_rangePages hle] at hk
  cases k with
  | zero =>
    have hsame : pml4Idx (pageAt (pageAlign vStart) 0) = pml4Idx vStart := by
      rw [← BitVec.toNat_inj, pml4Idx_toNat, pml4Idx_toNat]
      omega
    rw [hsame]
    exact hslot vStart (BitVec.le_refl vStart) hle
  | succ k => exact hslot _ (BitVec.le_def.mpr (by omega)) (BitVec.le_def.mpr (by omega))

/-- A range of 2^48 bytes meets slot 510. -/
theorem exists_selfSlot {a : Nat} (ha : a % 4096 = 0) {b : Nat} (hb : a + 2 ^ 48 ≤ b)
    (hlt : b < 2 ^ 64) : ∃ w : Word, pml4Idx w = selfSlot ∧ a ≤ w.toNat ∧ w.toNat ≤ b ∧
      (w.toNat = a ∨ a + 4096 ≤ w.toNat) := by
  obtain ⟨x, hx⟩ : ∃ x, x = a / 2 ^ 48 * 2 ^ 48 + 510 * 2 ^ 39 := ⟨_, rfl⟩
  have hidx : ∀ y, y < 2 ^ 64 → y / 2 ^ 39 % 512 = 510 → pml4Idx (BitVec.ofNat 64 y) = selfSlot := by
    intro y hy hmod
    rw [← BitVec.toNat_inj, pml4Idx_toNat, BitVec.toNat_ofNat, Nat.mod_eq_of_lt hy, hmod]
    rfl
  by_cases hax : a ≤ x
  · refine ⟨BitVec.ofNat 64 x, hidx x (by omega) (by omega), ?_⟩
    rw [BitVec.toNat_ofNat, Nat.mod_eq_of_lt (by omega)]
    omega
  · refine ⟨BitVec.ofNat 64 (x + 2 ^ 48), hidx _ (by omega) (by omega), ?_⟩
    rw [BitVec.toNat_ofNat, Nat.mod_eq_of_lt (by omega)]
    omega

/-- Without slot 510 the pages of a range have different paths. -/
theorem rangePage_inj (hle : vStart ≤ vEnd)
    (hslot : ∀ w, vStart ≤ w → w ≤ vEnd → pml4Idx w ≠ selfSlot)
    (hi : i < rangePages vStart vEnd) (hj : j < rangePages vStart vEnd)
    (heq : path (pageAt (pageAlign vStart) i) = path (pageAt (pageAlign vStart) j)) : i = j := by
  have halign := pageAlign_toNat vStart
  have hend := vEnd.isLt
  rw [path_eq_iff, pageAt_range hle hi, pageAt_range hle hj] at heq
  rw [lt_rangePages hle] at hi hj
  by_contra hne
  obtain ⟨w, hw, hge, hlt, hcase⟩ := exists_selfSlot (a := (pageAlign vStart).toNat) (by omega)
    (by omega : (pageAlign vStart).toNat + 2 ^ 48 ≤ vEnd.toNat) hend
  obtain hzero | hge' := hcase
  · have hsame : pml4Idx vStart = pml4Idx w := by
      rw [← BitVec.toNat_inj, pml4Idx_toNat, pml4Idx_toNat]
      omega
    exact hslot vStart (BitVec.le_refl vStart) hle (hsame.trans hw)
  · exact hslot w (BitVec.le_def.mpr (by omega)) (BitVec.le_def.mpr hlt) hw

theorem rangeTables_tablePath (hle : vStart ≤ vEnd)
    (hslot : ∀ w, vStart ≤ w → w ≤ vEnd → pml4Idx w ≠ selfSlot) :
    ∀ q ∈ rangeTables vStart vEnd, TablePath selfSlot 4 q := by
  intro q hq
  obtain ⟨k, hk, hq⟩ := Finset.mem_biUnion.mp hq
  exact tablePaths_tablePath (rangePage_slot hle hslot (Finset.mem_range.mp hk)) q hq

end Range

/-! ## `map_all_kernel_pages` -/

/-- A kernel PML4 in the boot memory: its tables form a tree, and the list holds the frames `fs`,
    which are distinct, zero-filled and no tables; tables and frames lie below 2 GiB, apart from the
    descriptors. -/
structure LinearSpace (root : Frame) (fs : List Frame) (l : FreeList Mem) : Prop where
  tree : TableTree root fs (entries l.descs)
  low : ∀ g, IsPageTable {root} l.descs g ∨ g ∈ fs → g.toNat < 2 ^ 19
  list : MemFrames {g | IsPageTable {root} l.descs g ∨ g ∈ fs} l.descs l.freeListHead fs

theorem LinearSpace.linearTables {root : Frame} {fs : List Frame} {l : FreeList Mem}
    (h : LinearSpace root fs l) :
    LinearTables {g | IsPageTable {root} l.descs g ∨ g ∈ fs} root fs (entries l.descs) l :=
  ⟨fun _ hg => hg, h.low, fun _ _ _ => rfl, h.list⟩

theorem LinearTables.walk_eq {G : Set Frame} {root : Frame} {fs : List Frame} {m : Entries}
    {l : FreeList Mem} (h : LinearTables G root fs m l) {q : List Idx} (hq : MapPath selfSlot 4 q) :
    walk target (entries l.descs) root q = walk target m root q :=
  walk_congr_tables (fun g hg j => h.same g (h.inside g (Or.inl hg)) j) rfl hq

/-- Where every page of `[vStart, vEnd]` is mapped to the frames from `pStart` on, and the
    translation of no other page outside slot 510 is changed. -/
def MapsExactly (root : Frame) (vStart vEnd pStart : Word) (m m' : Mem) : Prop :=
  (∀ k, (pageAlign vStart).toNat + 4096 * k ≤ vEnd.toNat →
    translate m' root (pageAt (pageAlign vStart) k) =
      some (pageAt (pageAlign pStart) k).toNat) ∧
  ∀ w, pml4Idx w ≠ selfSlot →
    (∀ k, (pageAlign vStart).toNat + 4096 * k ≤ vEnd.toNat →
      path w ≠ path (pageAt (pageAlign vStart) k)) →
    translate m' root w = translate m root w

/-- With a frame for each table that is missing, `map_all_kernel_pages` ends and maps its range
    exactly. -/
theorem mapAllKernelPages_exact (root : Frame) (fs : List Frame) (l : FreeList Mem)
    (h : LinearSpace root fs l) (hlinks : LinksWritable root (entries l.descs))
    (vStart vEnd pStart : Word) (hle : vStart ≤ vEnd) (hlast : vEnd.toNat < 2 ^ 64 - 4096)
    (hslot : ∀ w, vStart ≤ w → w ≤ vEnd → pml4Idx w ≠ selfSlot)
    (henough : (absentTables (entries l.descs) root (rangeTables vStart vEnd)).card ≤ fs.length) :
    ∃ l', mapAllKernelPages vStart vEnd pStart (kernbase + root.addr) l = .ok l' ∧
      MapsExactly root vStart vEnd pStart l.descs l'.descs := by
  have halign := pageAlign_toNat vStart
  have hpalign := pageAlign_toNat pStart
  have hle' := BitVec.le_def.mp hle
  have hcount : rangePages vStart vEnd = (vEnd.toNat - (pageAlign vStart).toNat) / 4096 + 1 := rfl
  have hfuel : rangePages vStart vEnd < loopFuel := by
    unfold loopFuel
    omega
  have hend : vEnd.toNat + 4096 < 2 ^ 64 := by omega
  obtain ⟨l', fs', m', hrun, h', hrange⟩ := LinearTree.loop (p := pageAlign pStart)
    (v := pageAlign vStart) ⟨h.linearTables, h.tree, hlinks⟩ hfuel hend (by omega) (by omega)
    (fun j hj => rangePage_slot hle hslot hj)
    (fun i hi j hj heq => rangePage_inj hle hslot hi hj heq)
    (rangeTables_tablePath hle hslot)
    (fun j hj => Finset.subset_biUnion_of_mem
      (fun k => tablePaths (pageAt (pageAlign vStart) k)) (Finset.mem_range.mpr hj)) henough
  refine ⟨l', hrun, fun k hk => ?_, fun w hw hne => ?_⟩
  · rw [← lt_rangePages hle] at hk
    have hslot' := rangePage_slot hle hslot hk
    have hwalk : translatePage l'.descs root (pageAt (pageAlign vStart) k) =
        some (frameOf (pageAt (pageAlign pStart) k)) := by
      unfold translatePage
      rw [h'.tables.walk_eq ⟨le_rfl, path_head_ne hslot'⟩]
      exact hrange.mapped k hk
    have hoff : (pageOff (pageAt (pageAlign vStart) k)).toNat = 0 := by
      rw [pageOff_toNat, pageAt_range hle hk]
      omega
    have hpage : (pageAt (pageAlign pStart) k).toNat % 4096 = 0 := by
      unfold pageAt
      rw [BitVec.toNat_ofNat]
      omega
    rw [translate_eq_some hwalk, frameOf_toNat, hoff]
    congr 1
    omega
  · refine translate_congr ?_
    unfold translatePage
    rw [h'.tables.walk_eq ⟨le_rfl, path_head_ne hw⟩]
    refine hrange.other _ (path_length w) (path_head_ne hw) fun k hk => ?_
    exact hne k ((lt_rangePages hle).mp hk)

/-- A range of one page is one round. -/
theorem mapAllKernelPages_self {v : Word} (hv : v.toNat < 2 ^ 64 - 4096) (p kernelPml4 : Word)
    (l : FreeList Mem) : mapAllKernelPages v v p kernelPml4 l =
      mapKernelPage kernelPml4 (pageAlign v) (pageAlign p) l := by
  have halign := pageAlign_toNat v
  have hnext : (pageSize + pageAlign v).toNat = 4096 + (pageAlign v).toNat := by
    rw [BitVec.toNat_add, show pageSize.toNat = 4096 from rfl]
    omega
  obtain ⟨fuel, hfuel⟩ : ∃ fuel, loopFuel = fuel + 1 + 1 := ⟨2 ^ 64 - 2, rfl⟩
  unfold mapAllKernelPages
  rw [hfuel, mapKernelPagesLoop, if_pos (BitVec.le_def.mpr (by omega))]
  cases mapKernelPage kernelPml4 (pageAlign v) (pageAlign p) l with
  | error e => rfl
  | ok l' =>
    rw [ok_bind, mapKernelPagesLoop, if_neg]
    rw [BitVec.le_def]
    omega

/-! ## Three free frames -/

/-- Three descriptors from 0x300018 on, for the frames 17 to 19. -/
def threeFramesMem : Mem :=
  writeWord (writeWord (writeWord (writeWord (writeWord (fun _ => 0)
    0x300028 (Frame.addr 17)) 0x300030 0x300018#64) 0x300040 (Frame.addr 18))
    0x300048 0x300030#64) 0x300058 (Frame.addr 19)

def threeNodes : List (Word × Word) :=
  [(0x300048#64, Frame.addr 19), (0x300030#64, Frame.addr 18), (0x300018#64, Frame.addr 17)]

theorem memNode_threeFramesMem {a : Word} {k : Nat} (hlow : bootPhys a = k)
    (h16 : bootPhys (16#64 + a) = k + 16) :
    memNode threeFramesMem a = some (readWord threeFramesMem k, readWord threeFramesMem (k + 16)) := by
  rw [memNode, hlow, h16]

theorem bootChain_threeFrames : BootChain threeFramesMem 0x300048#64 threeNodes := by
  have h₃ := memNode_threeFramesMem (a := 0x300048#64) (k := 0x300048) (by decide) (by decide)
  have h₂ := memNode_threeFramesMem (a := 0x300030#64) (k := 0x300030) (by decide) (by decide)
  have h₁ := memNode_threeFramesMem (a := 0x300018#64) (k := 0x300018) (by decide) (by decide)
  have hzero : readWord (fun _ => 0) 0x300018 = 0 := (readWord_eq_zero _ _).mpr fun _ _ => rfl
  refine ⟨rfl, by decide, 0x300030#64, ?_, rfl, by decide, 0x300018#64, ?_, rfl, by decide, 0, ?_,
    rfl⟩
  · rw [h₃]
    simp [threeFramesMem, readWord_writeWord_of_disjoint]
  · rw [h₂]
    simp [threeFramesMem, readWord_writeWord_of_disjoint]
  · rw [h₁]
    simp only [threeFramesMem, readWord_writeWord_of_disjoint, readWord_writeWord_same,
      Nat.reduceAdd, Nat.reduceLeDiff, or_true, hzero]

theorem mem_threeNodes {e : Word × Word} (he : e ∈ threeNodes) :
    e.1 = 0x300048#64 ∨ e.1 = 0x300030#64 ∨ e.1 = 0x300018#64 := by
  unfold threeNodes at he
  rw [List.mem_cons, List.mem_cons, List.mem_singleton] at he
  obtain rfl | rfl | rfl := he
  · exact Or.inl rfl
  · exact Or.inr (Or.inl rfl)
  · exact Or.inr (Or.inr rfl)

/-- The frames below the descriptors. -/
def lowFrames : Set Frame := {g | g.toNat < 0x300}

theorem memFrames_threeFrames :
    MemFrames lowFrames threeFramesMem 0x300048#64 [19, 18, 17] := by
  have h₃ : bootPhys 0x300048#64 = 0x300048 := by decide
  have h₂ : bootPhys 0x300030#64 = 0x300030 := by decide
  have h₁ : bootPhys 0x300018#64 = 0x300018 := by decide
  refine ⟨threeNodes, bootChain_threeFrames, rfl, ?_, ?_, ?_⟩
  · intro e he
    obtain h | h | h := mem_threeNodes he <;> rw [h] <;> decide
  · intro e he e' he' hne
    obtain h | h | h := mem_threeNodes he <;> obtain h' | h' | h' := mem_threeNodes he' <;>
      rw [h, h'] at hne ⊢ <;> simp only [h₁, h₂, h₃] <;> first | omega | exact absurd rfl hne
  · intro e he g hg
    have hlt : g.toNat < 0x300 := hg
    obtain h | h | h := mem_threeNodes he <;> rw [h] <;> omega

/-- Below the descriptors the memory is empty. -/
theorem entries_threeFramesMem {g : Frame} (hg : g ∈ lowFrames) (j : Idx) :
    entries threeFramesMem g j = 0 := by
  have hlt : g.toNat < 0x300 := hg
  have hj := j.isLt
  refine (readWord_eq_zero _ _).mpr fun k hk => ?_
  unfold threeFramesMem entryAddr
  rw [writeWord_of_lt, writeWord_of_lt, writeWord_of_lt, writeWord_of_lt, writeWord_of_lt] <;> omega

/-- Only the PML4 in frame 1, with the reference to itself. -/
def loneSpace : FreeList Mem where
  descs := writeWord threeFramesMem (entryAddr 1 selfSlot) (Frame.addr 1 ||| pageKernel)
  freeListHead := 0x300048#64
  freeListHeadKmalloc := 0

theorem entries_loneSpace {g : Frame} (hg : g ∈ lowFrames) (i : Idx) :
    entries loneSpace.descs g i =
      if g = 1 ∧ i = selfSlot then Frame.addr 1 ||| pageKernel else 0 := by
  unfold loneSpace
  rw [entries_writeWord, setEntry, entries_threeFramesMem hg]

theorem absent_loneSpace (j : Idx) (hj : j ≠ selfSlot) :
    target (entries loneSpace.descs 1 j) = none := by
  rw [entries_loneSpace (show (1 : Frame).toNat < 0x300 by decide), if_neg fun h => hj h.2,
    target_zero]

theorem isTable_loneSpace {g : Frame} (hg : IsTable target selfSlot 4 (entries loneSpace.descs) {1} g) :
    g = 1 := by
  obtain ⟨r, hr, p, hp, hw⟩ := hg
  obtain rfl := Set.mem_singleton_iff.mp hr
  exact (walk_loneRoot absent_loneSpace hp.head hw).2

/-- Any other low frames can extend it. -/
theorem tableTree_loneSpace {fs : List Frame} (hnodup : fs.Nodup)
    (hlow : ∀ f ∈ fs, f ∈ lowFrames ∧ f ≠ 1) : TableTree 1 fs (entries loneSpace.descs) where
  forest := by
    refine Forest.loneRoot ?_ absent_loneSpace
    rw [entries_loneSpace (show (1 : Frame).toNat < 0x300 by decide), if_pos ⟨rfl, rfl⟩,
      target_tableEntry]
  nodup := hnodup
  zero f hf j := by rw [entries_loneSpace (hlow f hf).1, if_neg fun h => (hlow f hf).2 h.1]
  unused f hf hg := (hlow f hf).2 (isTable_loneSpace hg)

theorem mem_lowFrames {f : Frame} (hf : f ∈ [(19 : Frame), 18, 17]) : f ∈ lowFrames ∧ f ≠ 1 := by
  rw [List.mem_cons, List.mem_cons, List.mem_singleton] at hf
  obtain rfl | rfl | rfl := hf <;> exact ⟨show _ < 0x300 by decide, by decide⟩

theorem memFrames_loneSpace :
    MemFrames lowFrames loneSpace.descs loneSpace.freeListHead [19, 18, 17] := by
  have hroot : (1 : Frame) ∈ lowFrames := show (1 : Frame).toNat < 0x300 by decide
  have hset := memFrames_threeFrames.setEntry hroot selfSlot (Frame.addr 1 ||| pageKernel)
  unfold loneSpace
  dsimp only
  exact hset

theorem linearTables_loneSpace :
    LinearTables lowFrames 1 [19, 18, 17] (entries loneSpace.descs) loneSpace := by
  refine ⟨fun g hg => ?_, fun g hg => ?_, fun _ _ _ => rfl, memFrames_loneSpace⟩
  · obtain hg | hg := hg
    · rw [isTable_loneSpace hg]
      exact show (1 : Frame).toNat < 0x300 by decide
    · exact (mem_lowFrames hg).1
  · have hlt : g.toNat < 0x300 := hg
    omega

theorem MemFrames.anti {G G' : Set Frame} {m : Mem} {head : Word} {fs : List Frame}
    (h : MemFrames G m head fs) (hG : ∀ g ∈ G', g ∈ G) : MemFrames G' m head fs := by
  obtain ⟨nodes, hc, hmap, ha⟩ := h
  exact ⟨nodes, hc, hmap, ha.inline, ha.disjoint, fun e he g hg => ha.frames e he g (hG g hg)⟩

theorem LinearTables.linearSpace {G : Set Frame} {root : Frame} {fs : List Frame}
    {l : FreeList Mem} (h : LinearTables G root fs (entries l.descs) l)
    (htree : TableTree root fs (entries l.descs)) : LinearSpace root fs l :=
  ⟨htree, fun g hg => h.low g (h.inside g hg), h.list.anti h.inside⟩

theorem linearSpace_loneSpace : LinearSpace 1 [19, 18, 17] loneSpace :=
  linearTables_loneSpace.linearSpace (tableTree_loneSpace (by decide) fun _ hf => mem_lowFrames hf)

theorem entries_setTableEntry {t : Frame} (ht : t.toNat < 2 ^ 19) (l : FreeList Mem) (i : Idx)
    (e : Word) : entries (l.setTableEntry (kernbase + t.addr) (i.setWidth 64) e).descs =
      setEntry (entries l.descs) t i e := by
  rw [setTableEntry_eq ht]
  exact entries_writeWord l.descs t i e

/-- A new table, from a frame that is not in the list. -/
theorem LinearTables.hang {G : Set Frame} {root g t : Frame} {fs fs' : List Frame}
    {l : FreeList Mem} {p : List Idx} {i : Idx} {e : Word}
    (h : LinearTables G root fs (entries l.descs) l)
    (htree : TableTree root (g :: fs') (entries l.descs)) (hg : g ∈ G) (hp : TablePath selfSlot 4 p)
    (hroot : p = [] → i ≠ selfSlot) (hw : walk target (entries l.descs) root p = some t)
    (he : target e = some g) {l' : FreeList Mem}
    (hl' : l' = l.setTableEntry (kernbase + t.addr) (i.setWidth 64) e) :
    LinearTables G root fs (entries l'.descs) l' ∧ TableTree root fs' (entries l'.descs) ∧
      walk target (entries l'.descs) root (p ++ [i]) = some g := by
  obtain ⟨htG, htlow⟩ := h.table hp hw
  obtain ⟨htree', htables, hw', -⟩ := htree.link hp hroot hw he
  rw [hl', entries_setTableEntry htlow]
  exact ⟨h.setTableEntry htG fun x hx => (htables x hx).imp_right fun hxg => by rwa [hxg],
    htree', hw'⟩

/-- `loneSpace` with the tables 4, 3 and 2 on the way to address 0, where frame 5 is mapped at
    0x1000. `link` is the PML4's entry for them. -/
def tablesSpace (link : Word) : FreeList Mem :=
  (((loneSpace.setTableEntry (kernbase + Frame.addr 1) ((0 : Idx).setWidth 64)
    link).setTableEntry (kernbase + Frame.addr 4) ((0 : Idx).setWidth 64)
    (Frame.addr 3 ||| pageKernel)).setTableEntry (kernbase + Frame.addr 3) ((0 : Idx).setWidth 64)
    (Frame.addr 2 ||| pageKernel)).setTableEntry (kernbase + Frame.addr 2) ((1 : Idx).setWidth 64)
    (Frame.addr 5 ||| pageKernel)

/-- The tables are there, and their last one is the table of the first 2 MiB. -/
theorem tablesSpace_tables {link : Word} (hlink : target link = some 4) :
    LinearTables lowFrames 1 [19, 18, 17] (entries (tablesSpace link).descs) (tablesSpace link) ∧
      TableTree 1 [19, 18, 17] (entries (tablesSpace link).descs) := by
  have hlow : ∀ f ∈ [(4 : Frame), 3, 2, 19, 18, 17], f ∈ lowFrames ∧ f ≠ 1 := by
    intro f hf
    fin_cases hf <;> exact ⟨show _ < 0x300 by decide, by decide⟩
  have htree : TableTree 1 [4, 3, 2, 19, 18, 17] (entries loneSpace.descs) :=
    tableTree_loneSpace (by decide) hlow
  obtain ⟨h₁, htree₁, hw₁⟩ := linearTables_loneSpace.hang htree (hlow 4 (by decide)).1 (p := [])
    (i := 0) (t := 1) (e := link) ⟨by decide, by decide⟩ (by decide) rfl hlink rfl
  obtain ⟨h₂, htree₂, hw₂⟩ := h₁.hang htree₁ (hlow 3 (by decide)).1 (i := 0)
    ⟨by decide, by decide⟩ (by decide) hw₁ (target_tableEntry 3) rfl
  obtain ⟨h₃, htree₃, hw₃⟩ := h₂.hang htree₂ (hlow 2 (by decide)).1 (i := 0)
    ⟨by decide, by decide⟩ (by decide) hw₂ (target_tableEntry 2) rfl
  have hp : TablePath selfSlot 4 ([] ++ [0] ++ [0] ++ [0]) := ⟨by decide, by decide⟩
  obtain ⟨htree₄, htables⟩ := htree₃.leaf (i := 1) (e := Frame.addr 5 ||| pageKernel) hp (by decide) hw₃
  obtain ⟨htG, htlow⟩ := h₃.table hp hw₃
  unfold tablesSpace
  rw [entries_setTableEntry htlow]
  exact ⟨h₃.setTableEntry htG fun x hx => Or.inl (htables x hx), htree₄⟩

theorem entries_tablesSpace (link : Word) : entries (tablesSpace link).descs =
    setEntry (setEntry (setEntry (setEntry (entries loneSpace.descs) 1 0 link)
      4 0 (Frame.addr 3 ||| pageKernel)) 3 0 (Frame.addr 2 ||| pageKernel)) 2 1
      (Frame.addr 5 ||| pageKernel) := by
  unfold tablesSpace
  rw [entries_setTableEntry (by decide), entries_setTableEntry (by decide),
    entries_setTableEntry (by decide), entries_setTableEntry (by decide)]

/-! ## A range over a table boundary -/

theorem linksWritable_tablesSpace :
    LinksWritable 1 (entries (tablesSpace (Frame.addr 4 ||| pageKernel)).descs) := by
  intro p t hp hw i hi
  have htlow := ((tablesSpace_tables (target_tableEntry 4)).1.table
    ⟨by have := hp.short; omega, hp.head⟩ hw).1
  rw [entries_tablesSpace] at hi ⊢
  unfold setEntry at hi ⊢
  rw [entries_loneSpace htlow] at hi ⊢
  split_ifs at hi ⊢ <;>
    first | exact isValidPage_or_flags _ entryFlags_pageKernel | cases hi

/-- Around 1 GiB five tables are used. The first two are there. -/
theorem absentTables_tablesSpace : (absentTables
    (entries (tablesSpace (Frame.addr 4 ||| pageKernel)).descs) 1
    (rangeTables 0x3ffff000#64 0x40001000#64)).card ≤ 3 := by
  have hrange : rangeTables 0x3ffff000#64 0x40001000#64 =
      {[0], [0, 0], [0, 0, 511], [0, 1], [0, 1, 0]} := by decide
  have hsub : absentTables (entries (tablesSpace (Frame.addr 4 ||| pageKernel)).descs) 1
      (rangeTables 0x3ffff000#64 0x40001000#64) ⊆ {[0, 0, 511], [0, 1], [0, 1, 0]} := by
    intro q hq
    obtain ⟨hq, hnone⟩ := Finset.mem_filter.mp hq
    rw [hrange, Finset.mem_insert, Finset.mem_insert] at hq
    obtain rfl | rfl | hq := hq
    · rw [entries_tablesSpace] at hnone
      simp [setEntry, target_tableEntry] at hnone
    · rw [entries_tablesSpace] at hnone
      simp [setEntry, target_tableEntry] at hnone
    · exact hq
  exact (Finset.card_le_card hsub).trans (by decide)

/-- Three pages around 1 GiB, with tables that are there and tables that are new. -/
theorem mapAllKernelPages_exact_gib :
    ∃ l', mapAllKernelPages 0x3ffff000#64 0x40001000#64 0x6000#64 (kernbase + Frame.addr 1)
        (tablesSpace (Frame.addr 4 ||| pageKernel)) = .ok l' ∧
      MapsExactly 1 0x3ffff000#64 0x40001000#64 0x6000#64
        (tablesSpace (Frame.addr 4 ||| pageKernel)).descs l'.descs := by
  obtain ⟨htables, htree⟩ := tablesSpace_tables (target_tableEntry 4)
  refine mapAllKernelPages_exact 1 [19, 18, 17] _ (htables.linearSpace htree)
    linksWritable_tablesSpace 0x3ffff000#64 0x40001000#64 0x6000#64 (by decide) (by decide)
    (fun w hge hle hslot => ?_) absentTables_tablesSpace
  have hidx := pml4Idx_toNat w
  rw [hslot, show selfSlot.toNat = 510 from rfl] at hidx
  have hle' : w.toNat ≤ 0x40001000 := hle
  omega

/-! ## A read-only link -/

/-- The PML4's entry for the tables of `tablesSpace` is read-only. -/
def readOnlySpace : FreeList Mem := tablesSpace (Frame.addr 4 ||| 1#64)

theorem readOnlySpace_tables :
    LinearTables lowFrames 1 [19, 18, 17] (entries readOnlySpace.descs) readOnlySpace ∧
      TableTree 1 [19, 18, 17] (entries readOnlySpace.descs) :=
  tablesSpace_tables (by decide)

theorem descend_readOnly : descend (entries readOnlySpace.descs) 0 3 1 = (3, 1) := by
  have hlink : entries readOnlySpace.descs 1 (idxAt 0 0) = Frame.addr 4 ||| 1#64 := by
    rw [readOnlySpace, entries_tablesSpace, show idxAt 0 0 = 0 by decide]
    simp [setEntry]
  rw [descend, if_neg]
  rw [hlink]
  decide

theorem translate_readOnly : translate readOnlySpace.descs 1 0x1000#64 = some 0x5000 := by
  have hwalk : translatePage readOnlySpace.descs 1 0x1000#64 = some 5 := by
    unfold translatePage
    rw [readOnlySpace, entries_tablesSpace, show path 0x1000#64 = [0, 0, 0, 1] by decide]
    simp [setEntry, target_tableEntry, show target (Frame.addr 4#52 ||| 1#64) = some 4#52 by decide]
  rw [translate_eq_some hwalk]
  rfl

/-- A read-only link is taken for a missing table: mapping address 0 takes the table that the page
    at 0x1000 goes through away. -/
theorem not_mapAllKernelPages_exact :
    ¬ ∀ (root : Frame) (fs : List Frame) (l : FreeList Mem), LinearSpace root fs l →
      ∀ vStart vEnd pStart : Word, vStart ≤ vEnd → vEnd.toNat < 2 ^ 64 - 4096 →
      (∀ w, vStart ≤ w → w ≤ vEnd → pml4Idx w ≠ selfSlot) →
      (absentTables (entries l.descs) root (rangeTables vStart vEnd)).card ≤ fs.length →
      ∃ l', mapAllKernelPages vStart vEnd pStart (kernbase + root.addr) l = .ok l' ∧
        MapsExactly root vStart vEnd pStart l.descs l'.descs := by
  intro hall
  obtain ⟨htables, htree⟩ := readOnlySpace_tables
  obtain ⟨l', hrun, -, hother⟩ := hall 1 [19, 18, 17] readOnlySpace (htables.linearSpace htree)
    0 0 0x6000#64 (by decide) (by decide)
    (fun w hge hle => by
      have heq : w = 0 := BitVec.le_antisymm hle hge
      rw [heq]
      decide)
    ((Finset.card_filter_le _ _).trans (by decide))
  rw [mapAllKernelPages_self (by decide)] at hrun
  obtain ⟨l₁, hround, htables'⟩ := htables.mapKernelPage htree (v := 0) (by decide)
    (by rw [descend_readOnly]; decide) 0x6000#64
  rw [show pageAlign 0 = 0 by decide, show pageAlign 0x6000#64 = 0x6000#64 by decide, hround] at hrun
  obtain rfl := Except.ok.inj hrun
  have hsame := hother 0x1000#64 (by decide) fun k hk => by
    have hk0 : k = 0 := by
      rw [show pageAlign 0 = 0 by decide] at hk
      simpa using hk
    rw [hk0]
    decide
  have hlost : translatePage l₁.descs 1 0x1000#64 = none := by
    unfold translatePage
    rw [htables'.walk_eq ⟨by decide, by decide⟩, descend_readOnly,
      show path 0x1000#64 = [0, 0, 0, 1] by decide]
    have hzero : target (entries readOnlySpace.descs 17#52 1#9) = none := by
      rw [htree.zero 17#52 (by decide), target_zero]
    simp [mapEntries, setEntry, target_tableEntry, idxAt, show pml4Idx 0#64 = 0#9 by decide,
      show pdpIdx 0#64 = 0#9 by decide, show pdIdx 0#64 = 0#9 by decide,
      show ptIdx 0#64 = 0#9 by decide, hzero]
  rw [translate_readOnly, translate_eq_none hlost] at hsame
  cases hsame

end SBUnix
