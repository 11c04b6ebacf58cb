import SBUnix.Paging.BootSpace

/-
  What `start` leaves alone.

  The descriptors and the tables lie in frames of the first region, so `start` writes no byte outside
  it once the list is built (`startPaging_outside`): frames behind it are cleared, and not touched
  afterwards. No frame is listed twice where a page separates the regions
  (`listedFrames_ascending`).
-/

namespace SBUnix

open ByteMem Radix

/-- `m'` has the bytes below `b` and from `c` on as `m` has them. -/
def SameOutside (b c : Nat) (m m' : Mem) : Prop := ∀ x, x < b ∨ c ≤ x → m' x = m x

section Outside

variable {b c a : Nat} {m m' m₁ : Mem} {w : Word}

theorem SameOutside.refl (b c : Nat) (m : Mem) : SameOutside b c m m := fun _ _ => rfl

theorem SameOutside.trans (h : SameOutside b c m m₁) (h' : SameOutside b c m₁ m') :
    SameOutside b c m m' :=
  fun x hx => (h' x hx).trans (h x hx)

theorem sameOutside_writeWord (hb : b ≤ a) (hc : a + 8 ≤ c) :
    SameOutside b c m (writeWord m a w) := by
  intro x hx
  obtain hx | hx := hx
  · exact writeWord_of_lt m w (by omega)
  · exact writeWord_of_ge m w (by omega)

end Outside

/-! ## The tables -/

section Tables

variable {b n n₀ : Nat} {f : Nat → Nat} {root t : Frame} {T : Finset (List Idx)}
  {M : List Idx → Option Frame} {l l' : FreeList Mem} {p : List Idx} {i : Idx} {vAddr pAddr : Word}

/-- A frame of the pool lies in the pool. -/
theorem Pool.entryAddr_inside (hpool : Pool b n n₀ f) {j : Nat} (hj : j < n₀) (i : Idx) :
    b ≤ entryAddr (poolFrame b j) i ∧ entryAddr (poolFrame b j) i + 8 ≤ b + 4096 * n₀ := by
  have haddr := hpool.frame_addr hj
  have hi := i.isLt
  unfold entryAddr
  omega

theorem sameOutside_writeStatus {k : Nat} (hk : k < n)
    (hd : descPages n ≤ n₀) (m : Mem) : SameOutside b (b + 4096 * n₀) m (writeStatus m b k) := by
  unfold descPages at hd
  exact sameOutside_writeWord (by omega) (by omega)

theorem Paging.newTable_outside (hpool : Pool b n n₀ f) (h : Paging b n n₀ f root T M l)
    (hw : walk target (entries l.descs) root p = some t) (hp : TablePath selfSlot 4 p)
    (hroom : descPages n + 1 + T.card < n₀) {r : Word × FreeList Mem}
    (hok : SBUnix.newTable (kernbase + t.addr) (i.setWidth 64) l = .ok r) :
    SameOutside b (b + 4096 * n₀) l.descs r.2.descs := by
  have hle := hpool.le
  obtain ⟨ht, j, hj, -, rfl⟩ := h.table hpool hp hw
  obtain ⟨hlo, hhi⟩ := hpool.entryAddr_inside hj i
  unfold SBUnix.newTable at hok
  rw [getNextFreePage_cursor hpool.room h.list (by omega) h.head, ok_bind] at hok
  dsimp only at hok
  rw [setTableEntry_eq ht] at hok
  obtain rfl := Except.ok.inj hok
  exact (sameOutside_writeStatus (n := n) (by omega) (by omega) l.descs).trans
    (sameOutside_writeWord hlo hhi)

theorem Paging.setPte_outside (hpool : Pool b n n₀ f) (h : Paging b n n₀ f root T M l)
    (hw : walk target (entries l.descs) root p = some t) (hp : TablePath selfSlot 4 p) (e : Word) :
    SameOutside b (b + 4096 * n₀) l.descs
      (l.setTableEntry (kernbase + t.addr) (i.setWidth 64) e).descs := by
  obtain ⟨ht, j, hj, -, rfl⟩ := h.table hpool hp hw
  obtain ⟨hlo, hhi⟩ := hpool.entryAddr_inside hj i
  rw [setTableEntry_eq ht]
  exact sameOutside_writeWord hlo hhi

theorem Paging.mapWithoutPte_outside (hpool : Pool b n n₀ f) (h : Paging b n n₀ f root T M l)
    (hv : pml4Idx vAddr ≠ selfSlot)
    (hw : walk target (entries l.descs) root [pml4Idx vAddr, pdpIdx vAddr] = some t)
    (hT : [pml4Idx vAddr, pdpIdx vAddr, pdIdx vAddr] ∉ T)
    (hroom : descPages n + 1 + T.card < n₀)
    (hok : SBUnix.mapWithoutPte (kernbase + t.addr) vAddr pAddr l = .ok l') :
    SameOutside b (b + 4096 * n₀) l.descs l'.descs := by
  obtain ⟨g, l₁, hnew, hg, h₁, hw₁⟩ := h.newTable hpool (i := pdIdx vAddr) hw
    (tablePath_pd hv) hT hroom
  unfold SBUnix.mapWithoutPte at hok
  rw [pgdOffsetOf_eq, hnew, ok_bind, pteOffsetOf_eq] at hok
  dsimp only at hok
  rw [toVirtual_addr hg] at hok
  obtain rfl := Except.ok.inj hok
  exact (h.newTable_outside hpool hw (tablePath_pdp hv) hroom hnew).trans
    (h₁.setPte_outside hpool hw₁ (tablePath_pd hv) _)

theorem Paging.mapWithoutPgd_outside (hpool : Pool b n n₀ f) (h : Paging b n n₀ f root T M l)
    (hv : pml4Idx vAddr ≠ selfSlot)
    (hw : walk target (entries l.descs) root [pml4Idx vAddr] = some t)
    (hT : [pml4Idx vAddr, pdpIdx vAddr] ∉ T)
    (hroom : descPages n + 1 + T.card + 1 < n₀)
    (hok : SBUnix.mapWithoutPgd (kernbase + t.addr) vAddr pAddr l = .ok l') :
    SameOutside b (b + 4096 * n₀) l.descs l'.descs := by
  obtain ⟨g, l₁, hnew, hg, h₁, hw₁⟩ := h.newTable hpool (i := pdpIdx vAddr) hw
    (tablePath_pdp hv) hT (by omega)
  have hT₁ : [pml4Idx vAddr, pdpIdx vAddr, pdIdx vAddr] ∉
      insert [pml4Idx vAddr, pdpIdx vAddr] T := by
    have := h.notMem_append (i := pdIdx vAddr) (tablePath_pd hv) (by simp) hT
    simpa using this
  have hcard := Finset.card_insert_of_notMem hT
  unfold SBUnix.mapWithoutPgd at hok
  rw [pdpeOffsetOf_eq, hnew, ok_bind] at hok
  dsimp only at hok
  rw [toVirtual_addr hg] at hok
  refine (h.newTable_outside hpool hw (tablePath_pml4 hv) (by omega) hnew).trans
    (h₁.mapWithoutPte_outside hpool hv hw₁ hT₁ ?_ hok)
  show descPages n + 1 + (insert [pml4Idx vAddr, pdpIdx vAddr] T).card < n₀
  omega

theorem Paging.mapWithoutPdpe_outside (hpool : Pool b n n₀ f) (h : Paging b n n₀ f root T M l)
    (hv : pml4Idx vAddr ≠ selfSlot) (hT : [pml4Idx vAddr] ∉ T)
    (hroom : descPages n + 1 + T.card + 2 < n₀)
    (hok : SBUnix.mapWithoutPdpe (kernbase + root.addr) vAddr pAddr l = .ok l') :
    SameOutside b (b + 4096 * n₀) l.descs l'.descs := by
  obtain ⟨g, l₁, hnew, hg, h₁, hw₁⟩ := h.newTable hpool (p := []) (i := pml4Idx vAddr) rfl
    (tablePath_pml4 hv) hT (by omega)
  have hT₁ : [pml4Idx vAddr, pdpIdx vAddr] ∉ insert [pml4Idx vAddr] T := by
    have := h.notMem_append (i := pdpIdx vAddr) (tablePath_pdp hv) (by simp) hT
    simpa using this
  have hcard := Finset.card_insert_of_notMem hT
  unfold SBUnix.mapWithoutPdpe at hok
  rw [pml4OffsetOf_eq, hnew, ok_bind] at hok
  dsimp only at hok
  rw [toVirtual_addr hg] at hok
  refine (h.newTable_outside hpool (p := []) rfl ⟨by simp, by simp⟩ (by omega) hnew).trans
    (h₁.mapWithoutPgd_outside hpool hv hw₁ hT₁ ?_ hok)
  show descPages n + 1 + (insert [pml4Idx vAddr] T).card + 1 < n₀
  omega

/-- A round stores in the pool. -/
theorem Paging.mapKernelPage_outside (hpool : Pool b n n₀ f) (h : Paging b n n₀ f root T M l)
    (hv : pml4Idx vAddr ≠ selfSlot)
    (hroom : descPages n + 1 + (T ∪ tablePaths vAddr).card ≤ n₀)
    (hok : SBUnix.mapKernelPage (kernbase + root.addr) vAddr pAddr l = .ok l') :
    SameOutside b (b + 4096 * n₀) l.descs l'.descs := by
  cases h.roundCase hpool hv pAddr with
  | withPte t hw htables hrun =>
    obtain rfl := Except.ok.inj (hrun.symm.trans hok)
    exact h.setPte_outside hpool hw (tablePath_pd hv) _
  | withoutPte t hw hT htables hcard hrun =>
    exact h.mapWithoutPte_outside hpool hv hw hT (by omega) (hrun.symm.trans hok)
  | withoutPgd t hw hT htables hcard hrun =>
    exact h.mapWithoutPgd_outside hpool hv hw hT (by omega) (hrun.symm.trans hok)
  | withoutPdpe hT hcard hrun =>
    exact h.mapWithoutPdpe_outside hpool hv hT (by omega) (hrun.symm.trans hok)

end Tables

section Range

variable {b n n₀ a e : Nat} {f : Nat → Nat} {root : Frame} {S : Finset Nat}
  {M : List Idx → Option Frame} {l l' : FreeList Mem} {vAddrEnd : Word} {m : Mem}

theorem Paging.mapKernelPagesLoop_outside (hpool : Pool b n n₀ f) {c : Nat}
    (h : Paging b n n₀ f root (tablesOf S) M l) (hlow : a + c < 2 ^ 19)
    (hend : ∀ x < 2 ^ 19, kernelPage x ≤ vAddrEnd ↔ x < a + c)
    (hroom : descPages n + 1 + (tablesOf (S ∪ Finset.Ico a (a + c))).card ≤ n₀) (fuel : Nat)
    (hok : SBUnix.mapKernelPagesLoop (kernbase + root.addr) vAddrEnd fuel (kernelPage a)
      (BitVec.ofNat 64 (4096 * a)) l = .ok l') :
    SameOutside b (b + 4096 * n₀) l.descs l'.descs := by
  induction c generalizing a S M l fuel with
  | zero =>
    cases fuel with
    | zero => cases hok
    | succ fuel =>
      rw [SBUnix.mapKernelPagesLoop, if_neg ((hend a (by omega)).not.mpr (by omega))] at hok
      obtain rfl := Except.ok.inj hok
      exact .refl _ _ _
  | succ c ih =>
    cases fuel with
    | zero => cases hok
    | succ fuel =>
      have ha : a < 2 ^ 19 := by omega
      have hself := pml4Idx_kernel (kernbase_le_kernelPage ha)
      have hcard := card_tablesOf_insert_le S a c
      obtain ⟨l₁, hrun, h₁⟩ := h.mapKernelPage hpool hself (by omega) (BitVec.ofNat 64 (4096 * a))
      rw [tablesOf_insert] at h₁
      rw [SBUnix.mapKernelPagesLoop, if_pos ((hend a ha).mpr (by omega)), hrun, ok_bind,
        kernelPage_succ, lowPage_succ] at hok
      exact (h.mapKernelPage_outside hpool hself (by omega) hrun).trans
        (ih h₁ (a := a + 1) (by omega) (fun x hx => by rw [hend x hx]; omega)
          (by rw [insert_union_Ico]; exact hroom) fuel hok)

theorem Paging.mapAllKernelPages_outside (hpool : Pool b n n₀ f)
    (h : Paging b n n₀ f root (tablesOf S) M l) {w : Word}
    (hw : w.toNat < 2 ^ 31) (hwe : w.toNat / 4096 ≤ e) (he : e + 1 < 2 ^ 19)
    (hend : kernelPage e ≤ vAddrEnd ∧ vAddrEnd < kernelPage (e + 1))
    (hroom : descPages n + 1 +
      (tablesOf (S ∪ Finset.Ico (w.toNat / 4096) (e + 1))).card ≤ n₀)
    (hok : SBUnix.mapAllKernelPages (kernbase + w) vAddrEnd w (kernbase + root.addr) l = .ok l') :
    SameOutside b (b + 4096 * n₀) l.descs l'.descs := by
  obtain ⟨hend, hend'⟩ := hend
  rw [BitVec.le_def, kernelPage_toNat (by omega)] at hend
  rw [BitVec.lt_def, kernelPage_toNat (by omega)] at hend'
  have hcount : w.toNat / 4096 + (e + 1 - w.toNat / 4096) = e + 1 := by omega
  unfold SBUnix.mapAllKernelPages at hok
  rw [pageAlign_kernel hw, pageAlign_low] at hok
  refine h.mapKernelPagesLoop_outside hpool (c := e + 1 - w.toNat / 4096) (by omega)
    (fun x hx => ?_) (by rw [hcount]; exact hroom) loopFuel hok
  rw [hcount, BitVec.le_def, kernelPage_toNat hx]
  omega

theorem createKernelPml4_outside (hpool : Pool b n n₀ f) (hlist : ListInv m b n f)
    (hroom : descPages n < n₀) {r : Word × Word × FreeList Mem}
    (hok : createKernelPml4 ⟨m, cursor b n (descPages n), 0⟩ = .ok r) :
    SameOutside b (b + 4096 * n₀) m r.2.2.descs := by
  have hle := hpool.le
  have hlow := hpool.low
  obtain ⟨hlo, hhi⟩ := hpool.entryAddr_inside hroom selfSlot
  have hcall := getNextFreePage_cursor (l := ⟨m, cursor b n (descPages n), 0⟩) hpool.room hlist
    (by omega) rfl
  unfold createKernelPml4 at hok
  rw [hcall, ok_bind, hpool.ofNat_frame hroom] at hok
  dsimp only at hok
  rw [show (510 : Word) = selfSlot.setWidth 64 from rfl,
    setTableEntry_eq (by rw [hpool.frame_toNat hroom]; omega)] at hok
  obtain rfl := Except.ok.inj hok
  exact (sameOutside_writeStatus (n := n) (by omega) (by omega) m).trans
    (sameOutside_writeWord hlo hhi)

/-- `start` writes no byte outside the first region. -/
theorem startPaging_outside {physbase physfree len : Word} {sp : Paged} (hpool : Pool b n n₀ f)
    (hlist : ListInv m b n f)
    (hzero : ∀ j, descPages n ≤ j → j < n₀ → ∀ i, entries m (poolFrame b j) i = 0)
    (hphys : physfree.toNat = b) (hbase : physbase < physfree) (hlen : len.toNat = descPages n)
    (htop : b + 4096 * (descPages n + 200) < 2 ^ 31)
    (hroom : descPages n + startFrames physbase.toNat b (descPages n) ≤ n₀)
    (hok : startPaging physbase physfree len ⟨m, cursor b n (descPages n), 0⟩ = .ok sp) :
    SameOutside b (b + 4096 * n₀) m sp.list.descs := by
  have hb := hpool.room.aligned
  have hlt : physbase.toNat < b := hphys ▸ BitVec.lt_def.mp hbase
  unfold startFrames at hroom
  have hcard := card_firstCall_le physbase.toNat b (descPages n)
  obtain ⟨l, hpml4, h⟩ := createKernelPml4_eq hpool hlist hzero (by omega)
  have hend := kernelEnd_eq hphys hb hlen htop
  have hbounds := kernelPage_bounds (e := b / 4096 + descPages n + 10) (by omega)
  obtain ⟨l₁, M₁, hrun₁, h₁, hM₁⟩ := h.mapAllKernelPages hpool .empty (w := physbase)
    (by omega) (by omega) (by omega) hbounds (by omega)
  unfold startPaging at hok
  rw [hpml4, ok_bind] at hok
  dsimp only at hok
  rw [hend, hrun₁, ok_bind, show kernbase + 0xb8000#64 + pageSize = kernelPage 0xb9 from rfl] at hok
  obtain ⟨l₂, hrun₂, hok⟩ := bind_eq_ok.mp hok
  obtain rfl := Except.ok.inj hok
  have houtside := createKernelPml4_outside hpool hlist (by omega) hpml4
  have houtside₁ := h.mapAllKernelPages_outside hpool (w := physbase) (by omega) (by omega)
    (by omega) hbounds (by omega) hrun₁
  refine (houtside.trans houtside₁).trans (h₁.mapAllKernelPages_outside hpool (w := 0xb8000#64)
    (e := 0xb9) (by decide) (by decide) (by decide) ⟨BitVec.le_refl _, by decide⟩ ?_ hrun₂)
  show descPages n + 1 + (tablesOf (_ ∪ Finset.Ico 0xb8 (0xb9 + 1))).card ≤ n₀
  rw [← startPages_eq]
  omega

end Range

/-! ## The frames behind the tables -/

section Order

variable {b : Nat} {regions : List Smap} {r : Smap} {p : Nat}

theorem Smap.laterFrames_ascending (r : Smap) : r.laterFrames.Pairwise (· < ·) := by
  unfold Smap.laterFrames
  rw [List.pairwise_map]
  exact List.pairwise_lt_range.imp fun h => by omega

theorem Smap.laterFrames_le (hp : p ∈ r.laterFrames) : r.start ≤ p ∧ p ≤ r.stop := by
  obtain ⟨j, hj, rfl⟩ := List.mem_map.mp hp
  have hle := r.start_le_stop
  have := List.mem_range.mp hj
  omega

theorem flatMap_laterFrames_ascending (hsep : Separated regions) :
    (regions.flatMap Smap.laterFrames).Pairwise (· < ·) := by
  rw [List.pairwise_flatMap]
  refine ⟨fun r _ => r.laterFrames_ascending, hsep.imp fun {r r'} hrr' p hp q hq => ?_⟩
  have hgap := up_mono hrr'
  rw [up_add_page] at hgap
  have hp' := (Smap.laterFrames_le hp).2
  have hq' := (Smap.laterFrames_le hq).1
  unfold Smap.stop at hp'
  unfold Smap.start at hq'
  omega

/-- Regions that a page separates list no frame twice. -/
theorem listedFrames_ascending (hsep : Separated regions) :
    (listedFrames b regions).Pairwise (· < ·) := by
  induction regions with
  | nil => exact .nil
  | cons r rest ih =>
    obtain ⟨hr, hrest⟩ := List.pairwise_cons.mp hsep
    unfold listedFrames
    split_ifs with hstr hnull
    · exact .nil
    · rw [List.pairwise_append]
      refine ⟨?_, flatMap_laterFrames_ascending hrest, fun p hp q hq => ?_⟩
      · rw [List.pairwise_map]
        exact List.pairwise_lt_range.imp fun h => by omega
      · obtain ⟨j, hj, rfl⟩ := List.mem_map.mp hp
        obtain ⟨r', hr', hq⟩ := List.mem_flatMap.mp hq
        have hgap := up_mono (hr r' hr')
        have hq' := (Smap.laterFrames_le hq).1
        have hj' := List.mem_range.mp hj
        rw [up_add_page] at hgap
        unfold Smap.start at hq'
        unfold Smap.stop at hj'
        omega
    · exact ih hrest

/-- The frames that were zero behind the descriptors are zero when the list is built. -/
theorem BuildInv.bytes_eq_zero {n : Nat} {f : Nat → Nat} {m m₀ : Mem} (h : BuildInv m₀ m b n n f)
    (hf : Frames b n f) (hge : ∀ k < n, b + 4096 * k ≤ f k)
    (hzero : ∀ k, descPages n ≤ k → k < n → ∀ x < 4096, m₀ (f k + x) = 0) (k : Nat)
    (hk : descPages n ≤ k) (hkn : k < n) (x : Nat) (hx : x < 4096) : m (f k + x) = 0 := by
  have hbehind : b + 24 * n ≤ f k := by
    have := hge k hkn
    unfold descPages at hk
    omega
  by_cases hx' : x < 512
  · exact h.cleared k hkn hbehind x hx'
  · rw [h.kept (f k) (hf.aligned k hkn) hbehind x (by omega) hx]
    exact hzero k hk hkn x hx

end Order

end SBUnix
