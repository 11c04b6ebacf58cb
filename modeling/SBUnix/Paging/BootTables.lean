import SBUnix.Paging.FreshPage
import SBUnix.Paging.KernelMap
import SBUnix.Paging.SelfContained

/-
  The kernel's page tables while `start` writes them.

  All tables lie in frames of the first region, taken in order: `poolFrame b j` is frame `j` behind
  `b`. `BootTables b n n₀ root k T M m` says that in the memory `m` the tables of `root` are a
  forest in the frames below `k`, one at every path of `T`, that they translate the page at path
  `q` to `M q`, and that the frames from `k` on are zero. `BootTables.link` and `BootTables.map`
  are the two stores of `map_all_kernel_pages`.
-/

namespace SBUnix

open ByteMem Radix

/-- Frame `j` from address `b` on. -/
def poolFrame (b j : Nat) : Frame := BitVec.ofNat 52 (b / 4096 + j)

/-- The frames of the first region: `n₀` pages from `b` on, for a list of `n` frames. -/
structure Pool (b n n₀ : Nat) (f : Nat → Nat) : Prop where
  room : Room b n
  le : n₀ ≤ n
  low : b + 4096 * n₀ ≤ 2 ^ 31
  frames : ∀ j < n₀, f j = b + 4096 * j

/-- The tables of `root` in the frames below `k`, at the paths of `T`, with the pages of `M`. -/
structure BootTables (b n n₀ : Nat) (root : Frame) (k : Nat) (T : Finset (List Idx))
    (M : List Idx → Option Frame) (m : Mem) : Prop where
  forest : Forest target selfSlot ∅ 4 (entries m) {root}
  tables : ∀ g, IsPageTable {root} m g → ∃ j, descPages n ≤ j ∧ j < k ∧ g = poolFrame b j
  bound : k ≤ n₀
  valid : ∀ g, IsPageTable {root} m g → ∀ j, present (entries m g j) = true →
    isValidPage (entries m g j) = true
  zero : ∀ j, k ≤ j → j < n₀ → ∀ i, entries m (poolFrame b j) i = 0
  paths : ∀ p, p ≠ [] → TablePath selfSlot 4 p →
    (walk target (entries m) root p ≠ none ↔ p ∈ T)
  pages : ∀ q : List Idx, q.length = 4 → q.head? ≠ some selfSlot →
    walk target (entries m) root q = M q

section Pool

variable {b n n₀ j k : Nat} {f : Nat → Nat}

theorem Pool.frame_toNat (hp : Pool b n n₀ f) (hj : j < n₀) :
    (poolFrame b j).toNat = b / 4096 + j := by
  have hlow := hp.low
  unfold poolFrame
  rw [BitVec.toNat_ofNat]
  omega

theorem Pool.frame_addr (hp : Pool b n n₀ f) (hj : j < n₀) :
    (poolFrame b j).toNat * 4096 = b + 4096 * j := by
  have hb := hp.room.aligned
  rw [hp.frame_toNat hj]
  omega

theorem Pool.frame_inj (hp : Pool b n n₀ f) (hj : j < n₀) (hk : k < n₀)
    (h : poolFrame b j = poolFrame b k) : j = k := by
  have := congrArg BitVec.toNat h
  rw [hp.frame_toNat hj, hp.frame_toNat hk] at this
  omega

/-- The entries of a frame behind the descriptors' pages lie behind the descriptors. -/
theorem Pool.entryAddr_ge (hp : Pool b n n₀ f) (hj : j < n₀) (hd : descPages n ≤ j) (i : Idx) :
    b + 24 * n ≤ entryAddr (poolFrame b j) i := by
  have haddr := hp.frame_addr hj
  unfold descPages at hd
  unfold entryAddr
  omega

/-- The address that the free list has for the frame. -/
theorem Pool.ofNat_frame (hp : Pool b n n₀ f) (hj : j < n₀) :
    BitVec.ofNat 64 (f j) = (poolFrame b j).addr := by
  have hlow := hp.low
  apply BitVec.eq_of_toNat_eq
  rw [Frame.addr_toNat, hp.frame_addr hj, hp.frames j hj, ofNat_toNat_low (by omega)]

end Pool

section Tables

variable {b n n₀ k : Nat} {f : Nat → Nat} {root : Frame} {T : Finset (List Idx)}
  {M : List Idx → Option Frame} {m m' : Mem} {p : List Idx} {i : Idx} {t : Frame}

theorem isPageTable_of_walk (hp : TablePath selfSlot 4 p)
    (hw : walk target (entries m) root p = some t) : IsPageTable {root} m t :=
  ⟨root, rfl, p, hp, hw⟩

/-- `m'` has the frames behind the descriptors' pages as `m` has them. -/
def SamePool (b n n₀ : Nat) (m m' : Mem) : Prop :=
  ∀ j, descPages n ≤ j → j < n₀ → ∀ i, entries m' (poolFrame b j) i = entries m (poolFrame b j) i

theorem BootTables.entries_eq (h : BootTables b n n₀ root k T M m) (hm : SamePool b n n₀ m m')
    (g : Frame) (hg : IsPageTable {root} m g) (i : Idx) : entries m' g i = entries m g i := by
  obtain ⟨j, hj, hjk, rfl⟩ := h.tables g hg
  exact hm j hj (hjk.trans_le h.bound) i

theorem BootTables.walk_eq (h : BootTables b n n₀ root k T M m) (hm : SamePool b n n₀ m m')
    {q : List Idx} (hq : MapPath selfSlot 4 q) :
    walk target (entries m') root q = walk target (entries m) root q :=
  walk_congr_tables (h.entries_eq hm) rfl hq

/-- A store that spares the frames behind the descriptors spares the tables. -/
theorem BootTables.congr (h : BootTables b n n₀ root k T M m) (hm : SamePool b n n₀ m m')
    (hdk : descPages n ≤ k) : BootTables b n n₀ root k T M m' := by
  have htables := h.entries_eq hm
  have hsame : ∀ g, IsPageTable {root} m' g ↔ IsPageTable {root} m g :=
    fun g => isTable_congr_tables htables g
  refine ⟨h.forest.congr_tables (by decide) htables, fun g hg => h.tables g ((hsame g).mp hg),
    h.bound, fun g hg j => ?_, fun j hj hjn i => ?_, fun p hp htp => ?_, fun q hq hh => ?_⟩
  · rw [htables g ((hsame g).mp hg)]
    exact h.valid g ((hsame g).mp hg) j
  · rw [hm j (by omega) hjn]
    exact h.zero j hj hjn i
  · rw [h.walk_eq hm htp.mapPath]
    exact h.paths p hp htp
  · rw [h.walk_eq hm ⟨hq.le, hh⟩]
    exact h.pages q hq hh

/-- An absent slot leads to no table. -/
theorem BootTables.absent (h : BootTables b n n₀ root k T M m)
    (hw : walk target (entries m) root p = some t) (hp : TablePath selfSlot 4 (p ++ [i]))
    (hT : p ++ [i] ∉ T) : target (entries m t i) = none := by
  have hnone := (h.paths (p ++ [i]) (by simp) hp).not.mpr hT
  rw [not_not, walk_concat, hw, Option.bind_some] at hnone
  exact hnone

/-- The free frames are no tables. -/
theorem BootTables.frame_ne (hpool : Pool b n n₀ f) (h : BootTables b n n₀ root k T M m) {j : Nat}
    (hj : k ≤ j) (hjn : j < n₀) {g : Frame} (hg : IsPageTable {root} m g) : poolFrame b j ≠ g := by
  obtain ⟨j', -, hj', rfl⟩ := h.tables g hg
  intro he
  have := hpool.frame_inj hjn (by omega) he
  omega

/-- Hang frame `k` into an absent slot above the last level. -/
theorem BootTables.link (hpool : Pool b n n₀ f) (h : BootTables b n n₀ root k T M m)
    (hk : k < n₀) (hdk : descPages n ≤ k) (hw : walk target (entries m) root p = some t)
    (hp : TablePath selfSlot 4 (p ++ [i])) (hT : p ++ [i] ∉ T) :
    BootTables b n n₀ root (k + 1) (insert (p ++ [i]) T) M
        (writeWord m (entryAddr t i) ((poolFrame b k).addr ||| pageKernel)) ∧
      walk target (entries (writeWord m (entryAddr t i) ((poolFrame b k).addr ||| pageKernel))) root
        (p ++ [i]) = some (poolFrame b k) := by
  have hptab : TablePath selfSlot 4 p := hp.mapPath.tablePath_prefix
  have ht := isPageTable_of_walk hptab hw
  have habs := h.absent hw hp hT
  have hte : target ((poolFrame b k).addr ||| pageKernel) = some (poolFrame b k) := by
    rw [target_or_flags _ entryFlags_pageKernel, frameOf_addr]
  have hblank : Blank target (entries m) (poolFrame b k) := by
    intro j
    rw [h.zero k le_rfl hk j, target_zero]
  have hnew : ¬ IsPageTable {root} m (poolFrame b k) :=
    fun hg => h.frame_ne hpool le_rfl hk hg rfl
  have hroot : p = [] → i ≠ selfSlot ∧ i ∉ (∅ : Set Idx) := by
    rintro rfl
    exact ⟨fun hi => hp.head (by simp [hi]), by simp⟩
  have hs : Storable target selfSlot ∅ 4 (entries m) {root} p i
      ((poolFrame b k).addr ||| pageKernel) := ⟨hroot, fun _ => ⟨_, hte, hblank, hnew⟩⟩
  have hwalk := fun q => h.forest.walk_link (i := i) rfl hptab hw habs hte hblank hnew (q := q)
  have hold := fun g => h.forest.isTable_setEntry (x := g) rfl hptab hw hs
  have hforest := h.forest.setEntry rfl hptab hw hs
  rw [← entries_writeWord] at hwalk hold hforest
  have htab : ∀ g, IsPageTable {root}
      (writeWord m (entryAddr t i) ((poolFrame b k).addr ||| pageKernel)) g →
      IsPageTable {root} m g ∨ g = poolFrame b k := by
    intro g hg
    obtain hg | ⟨he, -⟩ := hold g hg
    · exact Or.inl hg
    · exact Or.inr (Option.some.inj (he.symm.trans hte))
  refine ⟨⟨hforest, fun g hg => ?_, hk, fun g hg j hj => ?_, fun j hj hjn i' => ?_,
    fun q hq htq => ?_, fun q hq hh => ?_⟩, ?_⟩
  · obtain hg | rfl := htab g hg
    · obtain ⟨j, hj, hjk, rfl⟩ := h.tables g hg
      exact ⟨j, hj, by omega, rfl⟩
    · exact ⟨k, hdk, Nat.lt_succ_self k, rfl⟩
  · rw [entries_writeWord, setEntry] at hj ⊢
    split_ifs at hj ⊢ with hti
    · exact isValidPage_or_flags _ entryFlags_pageKernel
    · obtain hg | rfl := htab g hg
      · exact h.valid g hg j hj
      · have hnone := hblank j
        rw [target_eq_none_iff, hj] at hnone
        cases hnone
  · rw [entries_writeWord, setEntry_of_frame_ne _ _ _ _ (h.frame_ne hpool (by omega) hjn ht)]
    exact h.zero j (by omega) hjn i'
  · rw [hwalk q htq.mapPath, Finset.mem_insert]
    split_ifs with heq
    · simp [heq]
    · rw [h.paths q hq htq, or_iff_right heq]
  · have hne : q ≠ p ++ [i] := by
      intro heq
      have := hp.short
      rw [← heq, hq] at this
      exact absurd this (Nat.lt_irrefl 4)
    rw [hwalk q ⟨hq.le, hh⟩, if_neg hne]
    exact h.pages q hq hh
  · rw [hwalk _ hp.mapPath, if_pos rfl]

/-- Fill a slot of the last level. -/
theorem BootTables.map (h : BootTables b n n₀ root k T M m) {e : Word}
    (he : isValidPage e = true) (hlen : p.length = 3) (hp : TablePath selfSlot 4 p)
    (hw : walk target (entries m) root p = some t)
    (hpool : Pool b n n₀ f) :
    BootTables b n n₀ root k T (Function.update M (p ++ [i]) (some (frameOf e)))
      (writeWord m (entryAddr t i) e) := by
  have ht := isPageTable_of_walk hp hw
  have hte : target e = some (frameOf e) := if_pos (present_of_isValidPage he)
  have hs : Storable target selfSlot ∅ 4 (entries m) {root} p i e :=
    ⟨fun h0 => absurd (h0 ▸ hlen) (by decide), fun hlt => absurd hlt (by omega)⟩
  have hwalk := fun q => h.forest.walk_leaf (i := i) (e := e) rfl hp (by omega) hw (q := q)
  have hold := fun g => h.forest.isTable_setEntry (x := g) rfl hp hw hs
  have hforest := h.forest.setEntry rfl hp hw hs
  rw [← entries_writeWord] at hwalk hold hforest
  have htab : ∀ g, IsPageTable {root} (writeWord m (entryAddr t i) e) g →
      IsPageTable {root} m g := by
    intro g hg
    obtain hg | ⟨-, hlt⟩ := hold g hg
    · exact hg
    · omega
  refine ⟨hforest, fun g hg => h.tables g (htab g hg), h.bound, fun g hg j hj => ?_,
    fun j hj hjn i' => ?_, fun q hq htq => ?_, fun q hq hh => ?_⟩
  · rw [entries_writeWord, setEntry] at hj ⊢
    split_ifs at hj ⊢ with hti
    · exact he
    · exact h.valid g (htab g hg) j hj
  · rw [entries_writeWord, setEntry_of_frame_ne _ _ _ _ (h.frame_ne hpool hj hjn ht)]
    exact h.zero j hj hjn i'
  · have hne : q ≠ p ++ [i] := by
      intro heq
      have := htq.short
      rw [heq, List.length_append, hlen] at this
      exact absurd this (Nat.lt_irrefl 4)
    rw [hwalk q htq.mapPath, if_neg hne]
    exact h.paths q hq htq
  · rw [hwalk q ⟨hq.le, hh⟩, hte]
    by_cases heq : q = p ++ [i]
    · rw [if_pos heq, heq, Function.update_self]
    · rw [if_neg heq, Function.update_of_ne heq]
      exact h.pages q hq hh

end Tables

end SBUnix
