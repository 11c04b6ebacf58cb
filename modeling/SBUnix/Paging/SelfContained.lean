import SBUnix.Paging.Zeroed

/-
  Why the free list does not eat itself.

  The descriptors are written into the frames that the loops clear. A round moves the cleared frame
  on by at least a page and the descriptor by 24 bytes, so frame `k` of the list lies at
  `b + 4096 * k` or above (`listedFrames_ge`): the clearing stays ahead of the descriptors, and the
  frames behind the pages that `set_free_list_head` skips lie behind all of them.
-/

namespace SBUnix

open ByteMem

/-- At boot, `i` and `KERNBASE + i` name the same byte. -/
def SameByte (i : Nat) : Prop :=
  bootPhys (kernbase + BitVec.ofNat 64 i) = bootPhys (BitVec.ofNat 64 i)

instance (i : Nat) : Decidable (SameByte i) := inferInstanceAs (Decidable (_ = _))

/-- Usable regions with a whole page between them. -/
def Separated (regions : List Smap) : Prop :=
  regions.Pairwise fun r r' => r.limit + 4096 ≤ r'.base.toNat

/-- The first region that `append_free_list` accepts reaches at least a page past `b`. -/
def StartsWithPage (b : Nat) (regions : List Smap) : Prop :=
  ∃ before r after, regions = before ++ r :: after ∧ (∀ r' ∈ before, ¬ r'.Straddles b) ∧
    r.Straddles b ∧ b + 4096 ≤ r.limit

/-- The list of `frames` over the descriptors from `b` on, as it is in memory after all regions were
    appended and `set_free_list_head` returned `l`. -/
structure SelfContained (b : Nat) (frames : List Nat) (s : Boot)
    (l : FreeList Mem × Word × Word) : Prop where
  list : BootChain s.mem s.freeList ((List.range frames.length).map fun k =>
    (BitVec.ofNat 64 (b + 24 * k), BitVec.ofNat 64 (frames.getD k 0)))
  handed : ∃ nodes, BootChain l.1.descs l.1.freeListHead nodes ∧ nodes.length = l.2.2.toNat ∧
    ∀ node ∈ nodes, b + 24 * frames.length ≤ node.2.toNat

section Frames

variable {b lim : Nat} {regions : List Smap}

theorem up_add_page (a : Nat) : up (a + 4096) = up a + 4096 := by
  unfold up
  rw [Nat.add_right_comm, Nat.add_div_right _ (by decide), Nat.succ_mul]

/-- The frames of separated regions lie at least a page apart. -/
theorem flatMap_laterFrames_ge (hsep : Separated regions) (hlim : lim % 4096 = 0)
    (hafter : ∀ r ∈ regions, lim ≤ r.start) (k : Nat)
    (hk : k < (regions.flatMap Smap.laterFrames).length) :
    lim + 4096 * k ≤ (regions.flatMap Smap.laterFrames).getD k 0 := by
  induction regions generalizing lim k with
  | nil => exact absurd hk (by simp)
  | cons r rest ih =>
    obtain ⟨n, hn⟩ := r.exists_rounds
    have hlen := Smap.length_laterFrames hn
    have hstart := hafter r List.mem_cons_self
    rw [List.flatMap_cons] at hk ⊢
    by_cases hkn : k < n + 1
    · rw [List.getD_append _ _ _ _ (by omega), Smap.getD_laterFrames hn hkn]
      omega
    · have hnext : ∀ r' ∈ rest, r.stop + 4096 ≤ r'.start := by
        intro r' hr'
        have hgap := up_mono ((List.pairwise_cons.mp hsep).1 r' hr')
        rw [up_add_page] at hgap
        exact hgap
      have hstop : r.stop % 4096 = 0 := up_mod _
      have hrest := ih (List.pairwise_cons.mp hsep).2 (by omega) hnext (k - (n + 1))
        (by rw [List.length_append] at hk; omega)
      rw [List.getD_append_right _ _ _ _ (by omega), hlen]
      omega

/-- Frame `k` of the list lies at least `k` pages above `b`. -/
theorem listedFrames_ge (hb : b % 4096 = 0) (hsep : Separated regions) (k : Nat)
    (hk : k < (listedFrames b regions).length) :
    b + 4096 * k ≤ (listedFrames b regions).getD k 0 := by
  induction regions with
  | nil => exact absurd hk (by simp [listedFrames])
  | cons r rest ih =>
    obtain ⟨hr, hrest⟩ := List.pairwise_cons.mp hsep
    unfold listedFrames at hk ⊢
    split_ifs at hk ⊢ with hstr hnull
    · exact absurd hk (by simp)
    · have hstop : r.stop % 4096 = 0 := up_mod _
      have hle := hstr.2
      obtain ⟨n, hn⟩ : ∃ n, r.stop = b + 4096 * n := ⟨(r.stop - b) / 4096, by omega⟩
      rw [show (r.stop - b) / 4096 = n by omega] at hk ⊢
      by_cases hkn : k < n
      · rw [List.getD_append _ _ _ _ (by simpa using hkn)]
        simp [List.getD_eq_getElem?_getD, hkn]
      · have hnext : ∀ r' ∈ rest, r.stop ≤ r'.start := fun r' hr' =>
          up_mono ((Nat.le_add_right _ _).trans (hr r' hr'))
        have hlater := flatMap_laterFrames_ge hrest hstop hnext (k - n) (by
          rw [List.length_append, List.length_map, List.length_range] at hk
          omega)
        rw [List.getD_append_right _ _ _ _ (by simpa using hkn), List.length_map,
          List.length_range]
        omega
    · exact ih hrest hk

/-- The first accepted region lists its frames. -/
theorem StartsWithPage.listedFrames_ne_nil (hb0 : b ≠ 0) (hb : b % 4096 = 0)
    (h : StartsWithPage b regions) : listedFrames b regions ≠ [] := by
  obtain ⟨before, r, after, rfl, hbefore, hr, hpage⟩ := h
  have hstop := le_up r.limit
  have hmod : r.stop % 4096 = 0 := up_mod _
  unfold Smap.stop at hmod
  rw [listedFrames_append hbefore, listedFrames, if_pos hr, if_neg]
  · have hpos : 0 < (r.stop - b) / 4096 := by
      unfold Smap.stop
      omega
    intro hnil
    have hlen := congrArg List.length hnil
    rw [List.length_append, List.length_map, List.length_range, List.length_nil] at hlen
    omega
  · unfold Smap.stop
    omega

theorem aliasFrame_of_sameByte {i : Nat} (hi : i < 2 ^ 53) (h : SameByte i) : aliasFrame i = i := by
  have hlow : (BitVec.ofNat 64 i).toNat = i := ofNat_toNat_low (by omega)
  unfold SameByte at h
  rw [bootPhys_alias (by omega), bootPhys_low (by omega), hlow] at h
  unfold aliasFrame
  exact h

/-- The cleared frame stays ahead of the descriptors. -/
theorem intact_of_separated (hb : b % 4096 = 0) (hmap : MemoryMap regions)
    (hsep : Separated regions) (hsame : ∀ i ∈ listedFrames b regions, SameByte i) :
    Intact b (listedFrames b regions) := by
  intro k hk
  have hge := listedFrames_ge hb hsep k hk
  have hmem : (listedFrames b regions).getD k 0 ∈ listedFrames b regions := by
    rw [List.getD_eq_getElem _ _ hk]
    exact List.getElem_mem hk
  have halias := aliasFrame_of_sameByte (mem_listedFrames hb hmap hmem).2.2 (hsame _ hmem)
  unfold Apart
  rw [halias]
  omega

end Frames

/-- The list from a head on. -/
theorem ListInv.chain {m : Mem} {b n : Nat} {f : Nat → Nat} (hroom : Room b n)
    (h : ListInv m b n f) (j r : Nat) (hj : j + r = n) :
    BootChain m (cursor b n j)
      ((List.range' j r).map fun k => (descAt b k, BitVec.ofNat 64 (f k))) := by
  by_cases hr : r = 0
  · rw [hr, cursor_of_ge (by omega)]
    rfl
  · rw [cursor_of_lt (by omega)]
    exact h.holds.chain hroom (h.null (by omega)) j r hj hr

/-- The count that `set_free_list_head` leaves. -/
theorem setFreeListHead_total {s : Boot} {n : Nat} (hn : n < 2 ^ 59)
    (htotal : s.freeListTotalPages = BitVec.ofNat 64 n) {l : FreeList Mem × Word × Word}
    (hl : setFreeListHead s = .ok l) : l.2.2.toNat = n - descPages n := by
  obtain ⟨temp, -, hret⟩ := bind_eq_ok.mp hl
  cases hret
  have hle := descPages_le_self n
  show (s.freeListTotalPages - pagesReqd s.freeListTotalPages).toNat = _
  rw [htotal, BitVec.toNat_sub_of_le, pagesReqd_ofNat hn, ofNat_toNat_low (by omega)]
  rw [BitVec.le_def, pagesReqd_ofNat hn, ofNat_toNat_low (by omega)]
  exact hle

/-- The free list is whole, and what is handed out of it lies behind its descriptors: for every
    memory map whose usable regions are separated by a page and whose first accepted region reaches
    a page past `round_up(physfree)`, as long as a frame and its address from `KERNBASE` on are the
    same memory. The kernel lies below `physfree`, so that is not 0. -/
theorem freeList_selfContained (m : Mem) (physfree : Word) (map : List Smap)
    (hphysfree : roundUp physfree ≠ 0) (hmap : MemoryMap (map.filter Smap.IsUsable))
    (hsep : Separated (map.filter Smap.IsUsable))
    (hfirst : StartsWithPage (roundUp physfree).toNat (map.filter Smap.IsUsable))
    (hsame : ∀ i ∈ listedFrames (roundUp physfree).toNat (map.filter Smap.IsUsable), SameByte i) :
    ∃ s l, buildFreeList m physfree map = .ok s ∧ setFreeListHead s = .ok l ∧
      SelfContained (roundUp physfree).toNat
        (listedFrames (roundUp physfree).toNat (map.filter Smap.IsUsable)) s l := by
  have hb := roundUp_mod physfree
  have hb0 : (roundUp physfree).toNat ≠ 0 := (ne_zero_iff_toNat _).mp hphysfree
  have hint := intact_of_separated hb hmap hsep hsame
  have hf := frames_listedFrames hb hmap
  have hge := fun k => listedFrames_ge hb hsep k
  obtain ⟨hnil, -⟩ | ⟨hne, hroom, s, hbuild, hbuilt⟩ :=
    buildFreeList_intact m physfree map rfl hmap rfl hint
  · exact absurd hnil (hfirst.listedFrames_ne_nil hb0 hb)
  have hn := List.length_eq_zero_iff.not.mpr hne
  clear hsame hfirst hint hphysfree hb0 hb hne
  generalize (roundUp physfree).toNat = b at hn hroom hbuilt hf hge ⊢
  generalize listedFrames b (map.filter Smap.IsUsable) = L at hn hroom hbuilt hf hge ⊢
  have hroom' := hroom.mono (Nat.le_succ L.length)
  obtain ⟨hlist, l, hl, hhead⟩ := setFreeListHead_builtList hroom hn hbuilt
  have hbound := hroom.bound
  have htotal := setFreeListHead_total (by omega) hbuilt.total hl
  refine ⟨s, l, hbuild, hl, ?_, ?_⟩
  · have hchain := hlist.chain hroom' 0 L.length (Nat.zero_add _)
    rw [cursor_of_lt (by omega), ← hbuilt.freeList, ← List.range_eq_range'] at hchain
    exact hchain
  · have hle := descPages_le_self L.length
    have hchain := hlist.chain hroom' (descPages L.length) (L.length - descPages L.length)
      (by omega)
    rw [hhead]
    refine ⟨_, hchain, ?_, fun node hnode => ?_⟩
    · rw [List.length_map, List.length_range', htotal]
    · obtain ⟨k, hk, rfl⟩ := List.mem_map.mp hnode
      rw [List.mem_range'_1] at hk
      have hkn : k < L.length := by omega
      rw [hf.toNat hkn]
      have hgek := hge k hkn
      have hpages : descPages L.length ≤ k := hk.1
      unfold descPages at hpages
      omega

/-- Usable memory below and behind the kernel, a hole, and a second region behind it. -/
def holeMap : List Smap :=
  [⟨0, 0x9fc00, 1⟩, ⟨0x9fc00, 0x400, 2⟩, ⟨0x100000, 0x153000, 1⟩, ⟨0x260000, 0x2000, 1⟩]

theorem holeMap_filter : holeMap.filter Smap.IsUsable =
    [⟨0, 0x9fc00, 1⟩, ⟨0x100000, 0x153000, 1⟩, ⟨0x260000, 0x2000, 1⟩] := by decide

theorem holeMap_frames : listedFrames (roundUp 0x250000).toNat (holeMap.filter Smap.IsUsable) =
    [0x250000, 0x251000, 0x252000, 0x260000, 0x261000, 0x262000] := by
  rw [holeMap_filter]
  decide

theorem holeMap_memoryMap : MemoryMap (holeMap.filter Smap.IsUsable) := by
  rw [holeMap_filter]
  constructor <;> decide

/-- Two regions below 2 GiB. The second adds the frame behind it, too. -/
theorem freeList_selfContained_holeMap :
    ∃ s l, buildFreeList (fun _ => 0) 0x250000 holeMap = .ok s ∧ setFreeListHead s = .ok l ∧
      SelfContained 0x250000 [0x250000, 0x251000, 0x252000, 0x260000, 0x261000, 0x262000] s l := by
  have hself := freeList_selfContained (fun _ => 0) 0x250000 holeMap (by decide) holeMap_memoryMap
  rw [holeMap_frames] at hself
  refine hself ?_ ?_ (by decide)
  · rw [holeMap_filter]
    unfold Separated
    decide
  · rw [holeMap_filter]
    exact ⟨[⟨0, 0x9fc00, 1⟩], ⟨0x100000, 0x153000, 1⟩, [⟨0x260000, 0x2000, 1⟩], rfl, by decide,
      by decide, by decide⟩

end SBUnix
