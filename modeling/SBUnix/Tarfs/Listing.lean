import SBUnix.Tarfs.Tree

/-
  What `tar_ls` counts.

  An entry's `parent` is the index of the first entry with the path that was looked up, or the -1 of
  the root or the -2 of an entry without one. So for a name in the table the loop counts the entries
  whose parent has that name. For another name `tar_get_index` returns -1, which is the parent of
  the root: 1 is returned, or the slot behind a full `vfs` is read (`lsExact_iff`).
-/

namespace SBUnix.Vfs

open ByteMem

/-- Entry `i` lies in a directory entry `name`. -/
def IsChild (s : State) (name : List Byte) (i : Nat) : Prop :=
  ∃ j < s.vfsPointer, (s.vfs j).name = name ∧ (s.vfs i).parent = j

instance (s : State) (name : List Byte) (i : Nat) : Decidable (IsChild s name i) :=
  inferInstanceAs (Decidable (∃ j < s.vfsPointer, _ ∧ _))

/-- The number of the entries whose parent directory is the entry `name`. -/
def childCount (s : State) (name : List Byte) : Nat :=
  (List.range s.vfsPointer).countP (IsChild s name ·)

/-- `tar_ls` returns the number of children of an entry, and 0 without the entry. -/
structure LsExact (s : State) (name : List Byte) : Prop where
  children : tarLs s name = .ok (childCount s name)
  absent : (∀ i < s.vfsPointer, (s.vfs i).name ≠ name) → tarLs s name = .ok 0

section Loop

variable {s : State} {es : List Tarfs} {name : List Byte}

/-- The loop counts the rest of the table. -/
theorem lsLoop_eq (h : Table s es) (hes : es.length ≤ 2048) (parent_index : Int) (n i count : Nat)
    (hn : i + n = es.length) :
    lsLoop s parent_index (n + 1) i count =
      .ok (count + (es.drop i).countP (·.parent = parent_index)) := by
  induction n generalizing i count with
  | zero =>
    have hdrop : es.drop i = [] := List.drop_eq_nil_of_le (by omega)
    rw [lsLoop, if_neg (by rw [h.pointer]; omega), hdrop]
    rfl
  | succ n ih =>
    have hi : i < es.length := by omega
    rw [lsLoop, if_pos (by rw [h.pointer]; exact hi), slot_eq (by omega), ok_bind, h.entry i hi,
      ih (i + 1) _ (by omega), List.drop_eq_getElem_cons hi, List.countP_cons]
    congr 1
    by_cases hpar : es[i].parent = parent_index
    · simp only [hpar, if_true, decide_true]
      omega
    · simp only [hpar, if_false, decide_false, Bool.false_eq_true]
      omega

theorem tarLs_eq (h : Table s es) (hes : es.length ≤ 2048) {k : Int}
    (hk : tarGetIndex s name = .ok k) : tarLs s name = .ok (es.countP (·.parent = k)) := by
  unfold tarLs
  rw [hk, ok_bind, h.pointer, lsLoop_eq h hes k es.length 0 0 (Nat.zero_add _), Nat.zero_add,
    List.drop_zero]

/-- A name that is not in the table. -/
theorem tarGetIndex_absent (h : Table s es) (hes : es.length ≤ 2048)
    (hj : indexOf es name = none) :
    tarGetIndex s name = if es.length < 2048 then .ok (-1) else .error .slotOutOfRange := by
  unfold tarGetIndex
  rw [lookupLoop_eq h hes, hj]
  dsimp only
  split_ifs with hlt
  · rw [slot_eq hlt]
    show (if es.length < s.vfsPointer then _ else _) = _
    rw [if_neg (by rw [h.pointer]; omega)]
    rfl
  · rw [slot_full (by omega)]
    rfl

theorem indexOf_name_ne (hj : indexOf es name = none) (i : Nat) (hi : i < es.length) :
    es[i].name ≠ name := by
  unfold indexOf at hj
  rw [List.findIdx?_eq_none_iff] at hj
  exact of_decide_eq_false (hj _ (List.getElem_mem hi))

theorem indexOf_name {j : Nat} (hj : indexOf es name = some j) (hlt : j < es.length) :
    es[j].name = name := by
  obtain ⟨_, hname, -⟩ := List.findIdx?_eq_some_iff_getElem.mp hj
  simpa using hname

/-- The entries of a table, by index. -/
theorem countP_table (h : Table s es) (p : Tarfs → Bool) :
    (List.range s.vfsPointer).countP (fun i => p (s.vfs i)) = es.countP p := by
  have hmap : (List.range s.vfsPointer).map s.vfs = es := by
    rw [h.pointer]
    refine List.ext_getElem (by simp) fun i _ hi => ?_
    rw [List.getElem_map, List.getElem_range, h.entry i hi]
  rw [← hmap, List.countP_map]
  rfl

/-- A name that is not in the table has no children. -/
theorem childCount_absent (h : ∀ i < s.vfsPointer, (s.vfs i).name ≠ name) :
    childCount s name = 0 := by
  unfold childCount
  rw [List.countP_eq_zero]
  rintro i - hchild
  obtain ⟨j, hj, hname, -⟩ := of_decide_eq_true hchild
  exact h j hj hname

end Loop

/-! ## Parents -/

/-- A parent is the first entry with its name; only the root has the parent -1. -/
structure Parents (es : List Tarfs) : Prop where
  root : ∃ hlt : 0 < es.length, es[0].parent = -1
  other : ∀ i (hi : i < es.length), es[i].parent < 0 ∨
    ∃ j : Nat, ∃ hj : j < es.length, es[i].parent = j ∧ indexOf es es[j].name = some j

section Parents

variable {m : Memory} {start stop : Word} {members : List Member} {s : State} {es : List Tarfs}
  {name : List Byte}

theorem parentOf_cases (es : List Tarfs) (file_name : List Byte) (k : Nat) :
    parentOf es file_name k < 0 ∨
      ∃ j : Nat, parentOf es file_name k = j ∧ indexOf es (parentName file_name k) = some j := by
  unfold parentOf
  cases hj : indexOf es (parentName file_name k) with
  | none => exact Or.inl (by decide)
  | some j => exact Or.inr ⟨j, rfl, rfl⟩

/-- What is found in the front of a table is found in the table. -/
theorem indexOf_prefix {rest : List Tarfs} {j : Nat} (hj : indexOf es name = some j) :
    indexOf (es ++ rest) name = some j := by
  unfold indexOf at *
  rw [List.findIdx?_append, hj]
  rfl

/-- The table that `tarfs_init` builds. -/
theorem table_parents (start : Word) (members : List Member) :
    Parents (Archive.table start members) := by
  have hroots : ∃ rest, Archive.table start members = rootEntries ++ rest := by
    obtain ⟨rest, hrest, -, -⟩ := tableFrom_shows start 0 rootEntries members
    exact ⟨rest, hrest⟩
  obtain ⟨rest, hrest⟩ := hroots
  have hfirst : ∀ i (hi : i < 2) (hi' : i < (Archive.table start members).length),
      (Archive.table start members)[i] = rootEntries[i] := by
    intro i hi hi'
    rw [List.getElem_of_eq hrest, List.getElem_append_left hi]
  have hlen := length_table start members
  refine ⟨⟨by omega, by rw [hfirst 0 (by decide)]; rfl⟩, fun i hi => ?_⟩
  by_cases h0 : i = 0
  · obtain rfl := h0
    rw [hfirst 0 (by decide)]
    exact Or.inl (by decide)
  by_cases h1 : i = 1
  · obtain rfl := h1
    have h0 : 0 < (Archive.table start members).length := by omega
    refine Or.inr ⟨0, h0, by rw [hfirst 1 (by decide)]; rfl, ?_⟩
    rw [hfirst 0 (by decide), hrest]
    exact indexOf_prefix (by decide)
  · obtain ⟨before, x, after, rfl, -, -, hget⟩ :=
      tableFrom_entry start 0 rootEntries members i (show 2 ≤ i by omega) hi
    obtain ⟨new, hnew, -, -⟩ := tableFrom_shows start (totalSpan before)
      (tableFrom start 0 rootEntries before) (x :: after)
    have hprefix : Archive.table start (before ++ x :: after) =
        tableFrom start 0 rootEntries before ++ new := by
      unfold Archive.table
      rw [tableFrom_append, Nat.zero_add, hnew]
    have hparent : (Archive.table start (before ++ x :: after))[i].parent =
        parentOf (tableFrom start 0 rootEntries before) x.path x.sliceCount :=
      congrArg Tarfs.parent hget
    rw [hparent]
    obtain hneg | ⟨j, hj, hindex⟩ := parentOf_cases (tableFrom start 0 rootEntries before) x.path
      x.sliceCount
    · exact Or.inl hneg
    · have hlt := indexOf_lt hindex
      have hwhole : indexOf (Archive.table start (before ++ x :: after))
          (parentName x.path x.sliceCount) = some j := hprefix ▸ indexOf_prefix hindex
      have hlt' := indexOf_lt hwhole
      exact Or.inr ⟨j, hlt', hj, by rw [indexOf_name hwhole hlt', hwhole]⟩

/-- The table that `tarfs_init` returned. -/
theorem tarfsInit_table {vfs : Nat → Tarfs} (ha : Archive m start stop members)
    (hs : tarfsInit m start stop vfs = .ok s) :
    Table s (Archive.table start members) ∧ (Archive.table start members).length ≤ 2048 := by
  have hcount : (members.filter (·.Listed)).length ≤ 2046 := by
    by_contra hmany
    rw [tarfsInit_full ha vfs (Nat.not_le.mp hmany)] at hs
    cases hs
  obtain ⟨s', hs', htable⟩ := tarfsInit_eq ha vfs hcount
  obtain rfl : s' = s := Except.ok.inj (hs'.symm.trans hs)
  exact ⟨htable, by rw [length_table]; omega⟩

/-- The children of the first entry with a name. -/
theorem childCount_found (h : Table s es) (hp : Parents es) {j : Nat}
    (hj : indexOf es name = some j) : childCount s name = es.countP (·.parent = (j : Int)) := by
  have hlt := indexOf_lt hj
  rw [← countP_table h]
  unfold childCount
  refine List.countP_congr fun i hi => ?_
  have hi' : i < es.length := h.pointer ▸ List.mem_range.mp hi
  rw [decide_eq_true_iff, decide_eq_true_iff]
  constructor
  · rintro ⟨k, hk, hname, hparent⟩
    rw [h.pointer] at hk
    rw [h.entry k hk] at hname
    rw [h.entry i hi'] at hparent ⊢
    obtain hneg | ⟨k', hk', hparent', hindex⟩ := hp.other i hi'
    · omega
    · obtain rfl : k = k' := by omega
      rw [hname, hj] at hindex
      rw [hparent, Option.some.inj hindex]
  · intro hparent
    refine ⟨j, h.pointer ▸ hlt, ?_, hparent⟩
    rw [h.entry j hlt, indexOf_name hj hlt]

/-- On a table `tar_ls` is right exactly for the names in it. -/
theorem lsExact_table (h : Table s es) (hes : es.length ≤ 2048) (hp : Parents es) :
    LsExact s name ↔ ∃ i < s.vfsPointer, (s.vfs i).name = name := by
  cases hj : indexOf es name with
  | some j =>
    have hlt := indexOf_lt hj
    have hmem : ∃ i < s.vfsPointer, (s.vfs i).name = name :=
      ⟨j, h.pointer ▸ hlt, by rw [h.entry j hlt, indexOf_name hj hlt]⟩
    refine ⟨fun _ => hmem, fun _ => ⟨?_, fun hnone => ?_⟩⟩
    · rw [childCount_found h hp hj]
      exact tarLs_eq h hes (tarGetIndex_found h hes hj)
    · obtain ⟨i, hi, hname⟩ := hmem
      exact absurd hname (hnone i hi)
  | none =>
    have hnone : ∀ i < s.vfsPointer, (s.vfs i).name ≠ name := by
      intro i hi
      rw [h.pointer] at hi
      rw [h.entry i hi]
      exact indexOf_name_ne hj i hi
    constructor
    · intro hexact
      have hzero := hexact.absent hnone
      have hindex := tarGetIndex_absent h hes hj
      obtain ⟨hpos, hroot⟩ := hp.root
      split_ifs at hindex
      · -- the root is counted
        rw [tarLs_eq h hes hindex] at hzero
        have hcount := Except.ok.inj hzero
        rw [List.countP_eq_zero] at hcount
        exact absurd (decide_eq_true hroot) (hcount _ (List.getElem_mem hpos))
      · unfold tarLs at hzero
        rw [hindex] at hzero
        cases hzero
    · rintro ⟨i, hi, hname⟩
      exact absurd hname (hnone i hi)

/-- In a tree the children of an entry are the entries with its path and one component more. -/
theorem childCount_tree (h : Table s (Archive.table start members))
    (hv : ∀ x ∈ members, x.Valid) (htree : IsTree members)
    (hname : ∃ i < s.vfsPointer, (s.vfs i).name = name) :
    childCount s name =
      (List.range s.vfsPointer).countP fun i => parentPath (s.vfs i).name = name := by
  have hlen := length_table start members
  have hnonempty : name ≠ [] := by
    obtain ⟨i, hi, rfl⟩ := hname
    rw [h.pointer] at hi
    have hmem : (s.vfs i).name ∈ (Archive.table start members).map (·.name) := by
      rw [h.entry i hi]
      exact List.mem_map_of_mem (List.getElem_mem hi)
    unfold Archive.table at hmem
    rw [map_name_tableFrom, List.mem_append] at hmem
    obtain hroot | hpath := hmem
    · exact fun h0 => absurd (h0 ▸ hroot) (by decide)
    · obtain ⟨x, -, hx⟩ := List.mem_map.mp hpath
      rw [← hx]
      exact List.cons_ne_nil _ _
  have hroots : ∀ i (hi : i < 2), s.vfs i = rootEntries[i] := by
    intro i hi
    obtain ⟨hi', hsame⟩ := table_prefix start [] members (j := i) hi
    exact (h.entry i hi').trans hsame
  refine List.countP_congr fun i hi => ?_
  have hi' := List.mem_range.mp hi
  rw [decide_eq_true_iff, decide_eq_true_iff]
  by_cases h2 : 2 ≤ i
  · rw [h.pointer] at hi'
    obtain ⟨j, hj, hparent, hpath⟩ := table_parent hv htree i h2 hi'
    have hj' : j < (Archive.table start members).length := by omega
    rw [← h.entry i hi', ← h.entry j hj'] at hpath
    rw [← h.entry i hi'] at hparent
    constructor
    · rintro ⟨k, -, hk, hpar⟩
      obtain rfl : k = j := by omega
      rw [← hpath, hk]
    · exact fun heq => ⟨j, h.pointer ▸ hj', hpath.trans heq, hparent⟩
  · obtain rfl | rfl : i = 0 ∨ i = 1 := by omega
    · rw [hroots 0 (by decide)]
      refine ⟨fun hchild => ?_, fun heq => absurd heq.symm hnonempty⟩
      obtain ⟨j, -, -, hpar⟩ := hchild
      rw [hroots 0 (by decide)] at hpar
      have hneg : (-1 : Int) = j := hpar
      omega
    · rw [hroots 1 (by decide)]
      constructor
      · rintro ⟨j, -, hj, hpar⟩
        rw [hroots 1 (by decide)] at hpar
        have hzero : (0 : Int) = j := hpar
        obtain rfl : j = 0 := by omega
        rw [hroots 0 (by decide)] at hj
        exact hj
      · intro heq
        refine ⟨0, by omega, ?_, by rw [hroots 1 (by decide)]; rfl⟩
        rw [hroots 0 (by decide)]
        exact heq

end Parents

/-- For a table that `tarfs_init` built, `tar_ls` is right exactly for the names in it, and in a
    tree the children of an entry are the entries with its path and one component more. -/
theorem lsExact_iff (m : Memory) (start stop : Word) (members : List Member) (vfs : Nat → Tarfs)
    (s : State) (name : List Byte) (ha : Archive m start stop members)
    (hs : tarfsInit m start stop vfs = .ok s) :
    (LsExact s name ↔ ∃ i < s.vfsPointer, (s.vfs i).name = name) ∧
      (IsTree members → (∃ i < s.vfsPointer, (s.vfs i).name = name) → childCount s name =
        (List.range s.vfsPointer).countP fun i => parentPath (s.vfs i).name = name) := by
  obtain ⟨htable, hlen⟩ := tarfsInit_table ha hs
  exact ⟨lsExact_table htable hlen (table_parents start members),
    fun htree hname => childCount_tree htable ha.valid htree hname⟩

/-- The directory `bin` and the file in it. -/
theorem lsExact_sample :
    ∃ s, tarfsInit (image 0x1000 sampleMembers) 0x1000 0x3000 (fun _ => rootEntries[0]) = .ok s ∧
      LsExact s rootDirectoryName := by
  obtain ⟨s, hs, htable⟩ := tarfsInit_eq sample_archive (fun _ => rootEntries[0]) (by decide)
  refine ⟨s, hs, (lsExact_iff _ _ _ _ _ s rootDirectoryName sample_archive hs).1.mpr ?_⟩
  refine ⟨1, by rw [htable.pointer]; decide, ?_⟩
  rw [htable.entry 1 (by decide)]
  decide

/-- There is no entry `none`, and 1 is returned. -/
theorem not_lsExact :
    ∃ s, tarfsInit (image 0x1000 sampleMembers) 0x1000 0x3000 (fun _ => rootEntries[0]) = .ok s ∧
      ¬ LsExact s (str "none") := by
  obtain ⟨s, hs, htable⟩ := tarfsInit_eq sample_archive (fun _ => rootEntries[0]) (by decide)
  refine ⟨s, hs, fun hexact => ?_⟩
  obtain ⟨i, hi, hname⟩ := (lsExact_table htable (by decide) (table_parents _ _)).mp hexact
  rw [htable.pointer] at hi
  rw [htable.entry i hi] at hname
  have hnone : ∀ e ∈ Archive.table 0x1000 sampleMembers, e.name ≠ str "none" := by decide
  exact hnone _ (List.getElem_mem hi) hname

end SBUnix.Vfs
