import SBUnix.Paging.BootMap

/-
  Mapping a page, on the table entries alone.

  `page_walk` reaches the tables through the recursive window and `map_all_kernel_pages` through
  the addresses from `KERNBASE` on, but both read and store the same entries. `descend` is what they
  read: it goes down while the entry of the page is valid, and stops with the number of tables
  missing. `mapEntries` is what they store. A `TableTree` stays one (`TableTree.link`,
  `TableTree.leaf`), and when no link is read-only the stores change the translation of the one page
  only (`TableTree.mapEntries`).
-/

namespace SBUnix

open Radix

/-- The table entries, by frame and slot. -/
abbrev Entries := Frame → Idx → Word

/-- The tables of the PML4 `root` form a tree, and `fs` are frames to extend it with: distinct,
    zero-filled, and no tables. -/
structure TableTree (root : Frame) (fs : List Frame) (m : Entries) : Prop where
  forest : Forest target selfSlot ∅ 4 m {root}
  nodup : fs.Nodup
  zero : ∀ f ∈ fs, ∀ j, m f j = 0
  unused : ∀ f ∈ fs, ¬ IsTable target selfSlot 4 m {root} f

/-- Every present entry above the last level is valid. -/
def LinksWritable (root : Frame) (m : Entries) : Prop :=
  ∀ p t, TablePath selfSlot 3 p → walk target m root p = some t →
    ∀ i, present (m t i) = true → isValidPage (m t i) = true

/-! ## Storing an entry -/

section Store

variable {root f g t : Frame} {fs : List Frame} {m : Entries} {p : List Idx} {i : Idx} {e : Word}

theorem TableTree.blank (h : TableTree root (g :: fs) m) : Blank target m g := by
  intro j
  rw [h.zero g List.mem_cons_self j, target_zero]

theorem TableTree.storable_link (h : TableTree root (g :: fs) m) (hroot : p = [] → i ≠ selfSlot)
    (he : target e = some g) : Storable target selfSlot ∅ 4 m {root} p i e :=
  ⟨fun hnil => ⟨hroot hnil, by simp⟩, fun _ => ⟨g, he, h.blank, h.unused g List.mem_cons_self⟩⟩

/-- The next frame as a table, in any slot. -/
theorem TableTree.link (h : TableTree root (g :: fs) m) (hp : TablePath selfSlot 4 p)
    (hroot : p = [] → i ≠ selfSlot) (hw : walk target m root p = some t) (he : target e = some g) :
    TableTree root fs (setEntry m t i e) ∧
      (∀ x, IsTable target selfSlot 4 (setEntry m t i e) {root} x →
        IsTable target selfSlot 4 m {root} x ∨ x = g) ∧
      walk target (setEntry m t i e) root (p ++ [i]) = some g ∧
      ∀ j, setEntry m t i e g j = 0 := by
  have hroot' : root ∈ ({root} : Set Frame) := rfl
  have hs := h.storable_link hroot he
  have hnew := h.unused g List.mem_cons_self
  have ht : IsTable target selfSlot 4 m {root} t := ⟨root, rfl, p, hp, hw⟩
  have htables : ∀ x, IsTable target selfSlot 4 (setEntry m t i e) {root} x →
      IsTable target selfSlot 4 m {root} x ∨ x = g := by
    intro x hx
    refine (h.forest.isTable_setEntry hroot' hp hw hs hx).imp_right fun hx => ?_
    rw [he, Option.some.injEq] at hx
    exact hx.1.symm
  have hzero : ∀ x ∈ g :: fs, ∀ j, setEntry m t i e x j = 0 := by
    intro x hx j
    rw [setEntry_of_frame_ne, h.zero x hx j]
    intro hxt
    exact h.unused x hx (hxt ▸ ht)
  refine ⟨⟨h.forest.setEntry hroot' hp hw hs, (List.nodup_cons.mp h.nodup).2,
    fun x hx => hzero x (List.mem_cons_of_mem g hx), fun x hx hxt => ?_⟩, htables, ?_,
    hzero g List.mem_cons_self⟩
  · obtain hold | rfl := htables x hxt
    · exact h.unused x (List.mem_cons_of_mem g hx) hold
    · exact (List.nodup_cons.mp h.nodup).1 hx
  · rw [h.forest.walk_setEntry_link hroot' hp hw he h.blank hnew hroot' (Or.inl rfl), if_pos rfl]

theorem storable_leaf (hlen : p.length = 3) : Storable target selfSlot ∅ 4 m {root} p i e := by
  refine ⟨fun hnil => ?_, fun hlt => by omega⟩
  rw [hnil] at hlen
  cases hlen

/-- Any entry, in any last-level slot. -/
theorem TableTree.leaf (h : TableTree root fs m) (hp : TablePath selfSlot 4 p)
    (hlen : p.length = 3) (hw : walk target m root p = some t) :
    TableTree root fs (setEntry m t i e) ∧
      ∀ x, IsTable target selfSlot 4 (setEntry m t i e) {root} x →
        IsTable target selfSlot 4 m {root} x := by
  have hroot : root ∈ ({root} : Set Frame) := rfl
  have hs : Storable target selfSlot ∅ 4 m {root} p i e := storable_leaf hlen
  have htables : ∀ x, IsTable target selfSlot 4 (setEntry m t i e) {root} x →
      IsTable target selfSlot 4 m {root} x := by
    intro x hx
    obtain hold | ⟨-, hlt⟩ := h.forest.isTable_setEntry hroot hp hw hs hx
    · exact hold
    · omega
  refine ⟨⟨h.forest.setEntry hroot hp hw hs, h.nodup, fun x hx j => ?_,
    fun x hx hxt => h.unused x hx (htables x hxt)⟩, htables⟩
  rw [setEntry_of_frame_ne, h.zero x hx j]
  intro hxt
  exact h.unused x hx (hxt ▸ ⟨root, rfl, p, hp, hw⟩)

/-- A valid entry keeps the links writable. -/
theorem LinksWritable.setEntry (h : LinksWritable root m) (hv : isValidPage e = true)
    (htables : ∀ q x, TablePath selfSlot 3 q → walk target (setEntry m t i e) root q = some x →
      walk target m root q = some x ∨ ∀ j, Radix.setEntry m t i e x j = 0) :
    LinksWritable root (setEntry m t i e) := by
  intro q x hq hx j hj
  by_cases hti : x = t ∧ j = i
  · rw [Radix.setEntry, if_pos hti]
    exact hv
  · obtain hold | hzero := htables q x hq hx
    · rw [Radix.setEntry, if_neg hti] at hj ⊢
      exact h q x hq hold j hj
    · rw [hzero j] at hj
      cases hj

end Store

/-! ## Reading the way to a page -/

/-- The number of tables missing on the way to `v` from the table `t`, which `n` levels separate
    from the last, and the table above them. -/
def descend (m : Entries) (v : Word) : Nat → Frame → Nat × Frame
  | 0, t => (0, t)
  | n + 1, t =>
    if isValidPage (m t (idxAt v (2 - n))) then descend m v n (frameOf (m t (idxAt v (2 - n))))
    else (n + 1, t)

section Descend

variable {root t : Frame} {m m' : Entries} {v : Word} {n : Nat}

theorem descend_le (m : Entries) (v : Word) (n : Nat) (t : Frame) : (descend m v n t).1 ≤ n := by
  induction n generalizing t with
  | zero => exact le_rfl
  | succ n ih =>
    unfold descend
    split_ifs
    · exact (ih _).trans (Nat.le_succ n)
    · exact le_rfl

/-- Where `descend` stops there is a table, and the entry read there is not valid. -/
theorem descend_spec (hn : n ≤ 3) (hw : walk target m root ((path v).take (3 - n)) = some t) :
    walk target m root ((path v).take (3 - (descend m v n t).1)) = some (descend m v n t).2 ∧
      ((descend m v n t).1 ≠ 0 →
        isValidPage (m (descend m v n t).2 (idxAt v (3 - (descend m v n t).1))) = false) := by
  induction n generalizing t with
  | zero => exact ⟨hw, fun h0 => absurd rfl h0⟩
  | succ n ih =>
    have hd : 3 - (n + 1) = 2 - n := by omega
    have hd' : 2 - n + 1 = 3 - n := by omega
    rw [descend]
    split_ifs with hv
    · refine ih (by omega) ?_
      rw [hd] at hw
      rw [← hd', take_succ_path v (by omega), walk_concat, hw, Option.bind_some, target,
        if_pos (present_of_isValidPage hv)]
    · rw [hd] at hw ⊢
      exact ⟨hw, fun _ => Bool.eq_false_iff.mpr hv⟩

/-- The entry where `descend` stops is absent when no link is read-only. -/
theorem LinksWritable.descend_absent (h : LinksWritable root m) (hv : pml4Idx v ≠ selfSlot)
    (hn : (descend m v 3 root).1 ≠ 0) :
    target (m (descend m v 3 root).2 (idxAt v (3 - (descend m v 3 root).1))) = none := by
  obtain ⟨hw, hinvalid⟩ := descend_spec (m := m) (v := v) (n := 3) le_rfl rfl
  have hpath : TablePath selfSlot 3 ((path v).take (3 - (descend m v 3 root).1)) := by
    refine ⟨?_, (tablePath_take v hv (by omega)).head⟩
    rw [length_take_path v (by omega)]
    omega
  rw [target_eq_none_iff, Bool.eq_false_iff]
  intro hpres
  have hvalid := h _ _ hpath hw _ hpres
  rw [hinvalid hn] at hvalid
  cases hvalid

end Descend

/-! ## Storing the entries of a page -/

/-- The stores that map `v` to `pAddr` from the table `t` on, with `n` tables missing and `fs` the
    frames to take. -/
def mapEntries (pAddr v : Word) : Nat → List Frame → Frame → Entries → Entries
  | 0, _, t, m => setEntry m t (idxAt v 3) (pAddr ||| pageKernel)
  | _ + 1, [], _, m => m
  | n + 1, g :: fs, t, m =>
    mapEntries pAddr v n fs g (setEntry m t (idxAt v (2 - n)) (g.addr ||| pageKernel))

/-- The paths in `S` that no table is at. -/
def absentTables (m : Entries) (root : Frame) (S : Finset (List Idx)) : Finset (List Idx) :=
  S.filter fun p => walk target m root p = none

/-- Only the page at path `q₀` changes, and the tables that were there stay. -/
structure MapsPage (root : Frame) (q₀ : List Idx) (g : Frame) (m m' : Entries) : Prop where
  mapped : walk target m' root q₀ = some g
  other : ∀ q : List Idx, q.length = 4 → q.head? ≠ some selfSlot → q ≠ q₀ →
    walk target m' root q = walk target m root q

section MapEntries

variable {root t : Frame} {fs : List Frame} {m : Entries} {v pAddr : Word} {n : Nat}

theorem idxAt_ne_selfSlot (hv : pml4Idx v ≠ selfSlot) {d : Nat} (hd : d ≤ 4)
    (hnil : (path v).take d = []) : idxAt v d ≠ selfSlot := by
  have hlen := length_take_path v hd
  rw [hnil, List.length_nil] at hlen
  rw [← hlen]
  exact hv

theorem target_tableEntry (g : Frame) : target (g.addr ||| pageKernel) = some g := by
  rw [target_or_flags _ entryFlags_pageKernel, frameOf_addr]

/-- A step of `mapEntries` above the last level. -/
theorem TableTree.link_path {g : Frame} (h : TableTree root (g :: fs) m)
    (hv : pml4Idx v ≠ selfSlot) {d : Nat} (hd : d < 3)
    (hw : walk target m root ((path v).take d) = some t) :
    TableTree root fs (setEntry m t (idxAt v d) (g.addr ||| pageKernel)) ∧
      (∀ x, IsTable target selfSlot 4 (setEntry m t (idxAt v d) (g.addr ||| pageKernel)) {root} x →
        IsTable target selfSlot 4 m {root} x ∨ x = g) ∧
      walk target (setEntry m t (idxAt v d) (g.addr ||| pageKernel)) root ((path v).take (d + 1)) =
        some g ∧
      ∀ j, setEntry m t (idxAt v d) (g.addr ||| pageKernel) g j = 0 := by
  rw [take_succ_path v (by omega)]
  exact h.link (tablePath_take v hv (by omega)) (idxAt_ne_selfSlot hv (by omega)) hw
    (target_tableEntry g)

/-- What that step does to a walk when the slot was absent. -/
theorem TableTree.walk_link_path {g : Frame} (h : TableTree root (g :: fs) m)
    (hv : pml4Idx v ≠ selfSlot) {d : Nat} (hd : d < 3)
    (hw : walk target m root ((path v).take d) = some t)
    (habs : target (m t (idxAt v d)) = none) {q : List Idx} (hq : MapPath selfSlot 4 q) :
    walk target (setEntry m t (idxAt v d) (g.addr ||| pageKernel)) root q =
      if q = (path v).take (d + 1) then some g else walk target m root q := by
  rw [take_succ_path v (by omega)]
  exact h.forest.walk_link rfl (tablePath_take v hv (by omega)) hw habs (target_tableEntry g) h.blank
    (h.unused g List.mem_cons_self) hq

theorem absentTables_insert {m' : Entries} {S : Finset (List Idx)} {p : List Idx} {g : Frame}
    (hS : ∀ q ∈ S, MapPath selfSlot 4 q) (hp : p ∈ S) (hnone : walk target m root p = none)
    (hm : ∀ q, MapPath selfSlot 4 q →
      walk target m' root q = if q = p then some g else walk target m root q) :
    absentTables m' root S = (absentTables m root S).erase p ∧
      (absentTables m' root S).card + 1 = (absentTables m root S).card := by
  have hmem : p ∈ absentTables m root S := Finset.mem_filter.mpr ⟨hp, hnone⟩
  have herase : absentTables m' root S = (absentTables m root S).erase p := by
    ext q
    unfold absentTables
    rw [Finset.mem_erase, Finset.mem_filter, Finset.mem_filter]
    constructor
    · rintro ⟨hq, hnone'⟩
      rw [hm q (hS q hq)] at hnone'
      split_ifs at hnone' with hqp
      exact ⟨hqp, hq, hnone'⟩
    · rintro ⟨hqp, hq, hnone'⟩
      refine ⟨hq, ?_⟩
      rw [hm q (hS q hq), if_neg hqp, hnone']
  rw [herase]
  exact ⟨rfl, Finset.card_erase_add_one hmem⟩

theorem take_path_mem_tablePaths (v : Word) {d : Nat} (hd : d < 3) :
    (path v).take (d + 1) ∈ tablePaths v := by
  interval_cases d <;> simp [tablePaths, path]

theorem tablePaths_tablePath (hv : pml4Idx v ≠ selfSlot) :
    ∀ q ∈ tablePaths v, TablePath selfSlot 4 q := by
  intro q hq
  unfold tablePaths at hq
  rw [Finset.mem_insert, Finset.mem_insert, Finset.mem_singleton] at hq
  obtain rfl | rfl | rfl := hq
  · exact tablePath_take v hv (d := 1) (by omega)
  · exact tablePath_take v hv (d := 2) (by omega)
  · exact tablePath_take v hv (d := 3) (by omega)

/-- A table that is missing on the way to a page of `S` is missing in `S`. -/
theorem le_card_absentTables (hn : n ≤ 3)
    (hw : walk target m root ((path v).take (3 - n)) = some t)
    (habs : n ≠ 0 → target (m t (idxAt v (3 - n))) = none) {S : Finset (List Idx)}
    (hvS : tablePaths v ⊆ S) : n ≤ (absentTables m root S).card := by
  have hnone : ∀ d < n, walk target m root ((path v).take (3 - d)) = none := by
    intro d hd
    have hfirst : walk target m root ((path v).take (3 - n + 1)) = none := by
      rw [take_succ_path v (by omega), walk_concat, hw, Option.bind_some, habs (by omega)]
    have hsplit : (path v).take (3 - d) =
        (path v).take (3 - n + 1) ++ ((path v).take (3 - d)).drop (3 - n + 1) := by
      have htake := List.take_take (l := path v) (i := 3 - n + 1) (j := 3 - d)
      rw [min_eq_left (by omega)] at htake
      rw [← htake, List.take_append_drop]
    rw [hsplit, walk_append, hfirst, Option.bind_none]
  have hcard := Finset.card_le_card_of_injOn (s := Finset.range n) (t := absentTables m root S)
    (fun d => (path v).take (3 - d)) ?_ ?_
  · rwa [Finset.card_range] at hcard
  · intro d hd
    have hd' := Finset.mem_range.mp (Finset.mem_coe.mp hd)
    refine Finset.mem_filter.mpr ⟨hvS ?_, hnone d hd'⟩
    have hmem := take_path_mem_tablePaths v (d := 2 - d) (by omega)
    rwa [show 2 - d + 1 = 3 - d by omega] at hmem
  · intro d hd d' hd' heq
    have hd₁ := Finset.mem_range.mp (Finset.mem_coe.mp hd)
    have hd₂ := Finset.mem_range.mp (Finset.mem_coe.mp hd')
    have hlen := congrArg List.length heq
    dsimp only at hlen
    rw [length_take_path v (by omega), length_take_path v (by omega)] at hlen
    omega

/-- The last store maps the page. -/
theorem TableTree.mapLeaf (h : TableTree root fs m) (hl : LinksWritable root m)
    (hv : pml4Idx v ≠ selfSlot) (hw : walk target m root ((path v).take 3) = some t)
    (pAddr : Word) :
    TableTree root fs (setEntry m t (idxAt v 3) (pAddr ||| pageKernel)) ∧
      LinksWritable root (setEntry m t (idxAt v 3) (pAddr ||| pageKernel)) ∧
      ∀ q, MapPath selfSlot 4 q →
        walk target (setEntry m t (idxAt v 3) (pAddr ||| pageKernel)) root q =
          if q = path v then some (frameOf pAddr) else walk target m root q := by
  have hp := tablePath_take v hv (d := 3) (by omega)
  have hlen := length_take_path v (d := 3) (by omega)
  have hwalk : ∀ q, MapPath selfSlot 4 q →
      walk target (setEntry m t (idxAt v 3) (pAddr ||| pageKernel)) root q =
        if q = path v then some (frameOf pAddr) else walk target m root q := by
    intro q hq
    rw [h.forest.walk_leaf rfl hp (by omega) hw hq, ← take_succ_path v (by omega),
      target_or_flags _ entryFlags_pageKernel]
    rfl
  refine ⟨(h.leaf hp hlen hw).1,
    hl.setEntry (isValidPage_or_flags _ entryFlags_pageKernel) fun q x hq hx => Or.inl ?_, hwalk⟩
  rwa [hwalk q ⟨by have := hq.short; omega, hq.head⟩, if_neg] at hx
  rintro rfl
  exact absurd hq.short (by simp)

/-- The stores map the page and nothing else, and every frame taken is a table that was missing. -/
theorem TableTree.mapEntries (h : TableTree root fs m) (hl : LinksWritable root m)
    (hv : pml4Idx v ≠ selfSlot) (hn : n ≤ 3) (hlen : n ≤ fs.length)
    (hw : walk target m root ((path v).take (3 - n)) = some t)
    (habs : n ≠ 0 → target (m t (idxAt v (3 - n))) = none) {S : Finset (List Idx)}
    (hS : ∀ q ∈ S, TablePath selfSlot 4 q) (hvS : tablePaths v ⊆ S) (pAddr : Word) :
    TableTree root (fs.drop n) (mapEntries pAddr v n fs t m) ∧
      LinksWritable root (SBUnix.mapEntries pAddr v n fs t m) ∧
      MapsPage root (path v) (frameOf pAddr) m (SBUnix.mapEntries pAddr v n fs t m) ∧
      (absentTables (SBUnix.mapEntries pAddr v n fs t m) root S).card + n =
        (absentTables m root S).card := by
  induction n generalizing fs t m with
  | zero =>
    obtain ⟨htree, hlinks, hwalk⟩ := h.mapLeaf hl hv hw pAddr
    refine ⟨htree, hlinks, ⟨?_, fun q hq hh hne => ?_⟩, ?_⟩
    · exact (hwalk (path v) ⟨le_rfl, path_head_ne hv⟩).trans (if_pos rfl)
    · exact (hwalk q ⟨hq.le, hh⟩).trans (if_neg hne)
    · refine congrArg Finset.card (Finset.filter_congr fun q hq => ?_)
      rw [SBUnix.mapEntries, hwalk q (hS q hq).mapPath, if_neg]
      rintro rfl
      exact absurd (hS _ hq).short (by simp)
  | succ n ih =>
    obtain ⟨g, fs, rfl⟩ := List.exists_cons_of_length_pos (by omega : 0 < fs.length)
    have hd : 3 - (n + 1) = 2 - n := by omega
    have hd' : 2 - n + 1 = 3 - n := by omega
    rw [hd] at hw habs
    have hnone := habs (Nat.succ_ne_zero n)
    obtain ⟨h₁, -, hw₁, hzero⟩ := h.link_path hv (by omega) hw
    have hwalk : ∀ q, MapPath selfSlot 4 q → _ := fun q hq =>
      h.walk_link_path hv (by omega) hw hnone hq
    have hl₁ : LinksWritable root (setEntry m t (idxAt v (2 - n)) (g.addr ||| pageKernel)) := by
      refine hl.setEntry (isValidPage_or_flags _ entryFlags_pageKernel) fun q x hq hx => ?_
      rw [hwalk q ⟨by have := hq.short; omega, hq.head⟩] at hx
      split_ifs at hx with hqp
      · obtain rfl := Option.some.inj hx
        exact Or.inr hzero
      · exact Or.inl hx
    have hpath : walk target m root ((path v).take (2 - n + 1)) = none := by
      rw [take_succ_path v (by omega), walk_concat, hw, Option.bind_some, hnone]
    obtain ⟨-, hcard⟩ := absentTables_insert (fun q hq => (hS q hq).mapPath)
      (hvS (take_path_mem_tablePaths v (by omega))) hpath hwalk
    rw [hd'] at hw₁
    obtain ⟨htree, hlinks, hmaps, hcard'⟩ := ih h₁ hl₁ (by omega) (by simpa using hlen) hw₁
      fun _ => by rw [hzero, target_zero]
    refine ⟨htree, hlinks, ⟨hmaps.mapped, fun q hq hh hne => ?_⟩, ?_⟩
    · refine (hmaps.other q hq hh hne).trans ?_
      rw [hwalk q ⟨hq.le, hh⟩, if_neg]
      rintro rfl
      rw [length_take_path v (by omega)] at hq
      omega
    · rw [SBUnix.mapEntries]
      omega

end MapEntries

end SBUnix
