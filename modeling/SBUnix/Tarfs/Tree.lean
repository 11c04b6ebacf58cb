import SBUnix.Tarfs.Contents

/-
  The table as the directory tree.

  `get_parent_index` counts slashes from the end, one for a file and two for a directory, and keeps
  everything up to the last one counted: that is the path without its last component
  (`parentName_file`, `parentName_directory`). When every directory comes before its members, that
  path is already in the table.
-/

namespace SBUnix.Vfs

open ByteMem

abbrev slash : Byte := chr '/'

/-- A component of a path. -/
def IsComponent (c : List Byte) : Prop := c ≠ [] ∧ slash ∉ c

/-- The components with a slash behind each. -/
def joinDirs : List (List Byte) → List Byte
  | [] => []
  | c :: cs => c ++ slash :: joinDirs cs

/-- The member is a file or a directory `last` in the directory `dirs`. -/
structure IsEntry (x : Member) (dirs : List (List Byte)) (last : List Byte) : Prop where
  components : ∀ c ∈ dirs, IsComponent c
  component : IsComponent last
  named : (x.typeflag = chr '0' ∧ x.name = joinDirs dirs ++ last) ∨
    (x.typeflag = chr '5' ∧ x.name = joinDirs dirs ++ last ++ [slash])

/-- Every member is a file or a directory with a path of its own, and its directory is the root of
    the archive or an earlier member. -/
structure IsTree (members : List Member) : Prop where
  distinct : (members.map (·.name)).Nodup
  parent : ∀ before x after, members = before ++ x :: after →
    ∃ dirs last, IsEntry x dirs last ∧ (dirs = [] ∨ ∃ y ∈ before, y.name = joinDirs dirs)

/-- A path without its last component: without a slash at the end, and then up to the last slash. -/
def parentPath (name : List Byte) : List Byte :=
  let body := if name.getLast? = some slash then name.dropLast else name
  (body.reverse.dropWhile (· ≠ slash)).reverse

/-- Following `parent` from slot `i` leads to slot 0. -/
inductive ReachesRoot (s : State) : Nat → Prop
  | root : ReachesRoot s 0
  | up {i j : Nat} : (s.vfs i).parent = j → ReachesRoot s j → ReachesRoot s i

/-- The table is the directory tree. -/
structure TreeTable (s : State) : Prop where
  root : (s.vfs 0).parent = -1
  rootfs : (s.vfs 1).name = rootDirectoryName
  parent : ∀ i, 2 ≤ i → i < s.vfsPointer → ∃ j < i, (s.vfs i).parent = j ∧
    (s.vfs j).name = parentPath (s.vfs i).name ∧
    ∀ k < s.vfsPointer, (s.vfs k).name = parentPath (s.vfs i).name → k = j
  reaches : ∀ i < s.vfsPointer, ReachesRoot s i

section Paths

variable {a last : List Byte}

theorem sliceLoop_zero (file_name : List Byte) (n : Nat) : sliceLoop file_name n 0 = n := by
  cases n <;> rfl

theorem sliceLoop_hit {file_name : List Byte} {n : Nat} (h : file_name.getD n 0 = slash) (k : Nat) :
    sliceLoop file_name (n + 1) (k + 1) = sliceLoop file_name n k := by
  rw [sliceLoop, if_neg (Nat.succ_ne_zero k), if_pos h, Nat.add_sub_cancel]

theorem sliceLoop_skip (file_name : List Byte) (n : Nat) {j : Nat}
    (h : ∀ i < j, file_name.getD (n + i) 0 ≠ slash) (k : Nat) :
    sliceLoop file_name (n + j) (k + 1) = sliceLoop file_name n (k + 1) := by
  induction j with
  | zero => rfl
  | succ j ih =>
    rw [← Nat.add_assoc, sliceLoop, if_neg (Nat.succ_ne_zero k), if_neg (h j (Nat.lt_succ_self j))]
    exact ih fun i hi => h i (by omega)

theorem getD_append_slash (a b : List Byte) : (a ++ slash :: b).getD a.length 0 = slash := by
  rw [List.getD_append_right _ _ _ _ (Nat.le_refl _), Nat.sub_self]
  rfl

theorem getD_component (a b : List Byte) (hlast : slash ∉ last) {i : Nat} (hi : i < last.length) :
    (a ++ slash :: (last ++ b)).getD (a.length + 1 + i) 0 ≠ slash := by
  rw [List.getD_append_right _ _ _ _ (by omega), show a.length + 1 + i - a.length = i + 1 by omega,
    List.getD_cons_succ, List.getD_append _ _ _ _ hi, List.getD_eq_getElem _ _ hi]
  exact fun h => hlast (h ▸ List.getElem_mem hi)

theorem take_append_slash (a b : List Byte) :
    (a ++ slash :: b).take (a.length + 1) = a ++ [slash] := by
  rw [List.take_append, List.take_of_length_le (by omega), Nat.add_sub_cancel_left]
  rfl

/-- One slash from the end: the directory of a file. -/
theorem parentName_file (a : List Byte) (hlast : slash ∉ last) :
    parentName (a ++ slash :: last) 1 = a ++ [slash] := by
  have hlen : (a ++ slash :: last).length = a.length + 1 + last.length := by
    rw [List.length_append, List.length_cons]
    omega
  have hskip := sliceLoop_skip (a ++ slash :: last) (a.length + 1)
    (j := last.length) (fun i hi => by
      have := getD_component a [] hlast hi
      rwa [List.append_nil] at this) 0
  unfold parentName
  rw [hlen, hskip, sliceLoop_hit (getD_append_slash a last), sliceLoop_zero, take_append_slash]

/-- Two slashes from the end: the directory of a directory. -/
theorem parentName_directory (a : List Byte) (hlast : slash ∉ last) :
    parentName (a ++ slash :: (last ++ [slash])) 2 = a ++ [slash] := by
  have hlen : (a ++ slash :: (last ++ [slash])).length = a.length + 1 + last.length + 1 := by
    rw [List.length_append, List.length_cons, List.length_append, List.length_singleton]
    omega
  have hend : (a ++ slash :: (last ++ [slash])).getD (a.length + 1 + last.length) 0 = slash := by
    have h := getD_append_slash (a ++ slash :: last) []
    rw [List.append_assoc, List.cons_append, List.length_append, List.length_cons] at h
    rw [Nat.add_assoc, Nat.add_comm 1]
    exact h
  have hskip := sliceLoop_skip (a ++ slash :: (last ++ [slash])) (a.length + 1)
    (j := last.length) (fun i hi => getD_component a [slash] hlast hi) 0
  unfold parentName
  rw [hlen, sliceLoop_hit hend, hskip, sliceLoop_hit (getD_append_slash a _), sliceLoop_zero,
    take_append_slash]

theorem dropWhile_component (a : List Byte) (hlast : slash ∉ last) :
    ((a ++ slash :: last).reverse.dropWhile (· ≠ slash)).reverse = a ++ [slash] := by
  rw [List.reverse_append, List.reverse_cons, List.append_assoc, List.dropWhile_append_of_pos]
  · simp
  · intro c hc
    have : c ≠ slash := fun h => hlast (h ▸ List.mem_reverse.mp hc)
    simpa using this

theorem parentPath_file (a : List Byte) (hne : last ≠ []) (hlast : slash ∉ last) :
    parentPath (a ++ slash :: last) = a ++ [slash] := by
  have hend : (a ++ slash :: last).getLast? ≠ some slash := by
    rw [List.getLast?_append_of_ne_nil _ (List.cons_ne_nil _ _), List.getLast?_cons,
      List.getLast?_eq_some_getLast hne]
    intro h
    exact hlast (Option.some.inj h ▸ List.getLast_mem hne)
  unfold parentPath
  dsimp only
  rw [if_neg hend, dropWhile_component a hlast]

theorem parentPath_directory (a : List Byte) (hlast : slash ∉ last) :
    parentPath (a ++ slash :: (last ++ [slash])) = a ++ [slash] := by
  have heq : a ++ slash :: (last ++ [slash]) = a ++ slash :: last ++ [slash] := by simp
  unfold parentPath
  dsimp only
  rw [heq, if_pos List.getLast?_concat, List.dropLast_concat, dropWhile_component a hlast]

/-- A path of directories ends with a slash. -/
theorem exists_append_slash (a : List Byte) (dirs : List (List Byte)) :
    ∃ b, a ++ [slash] ++ joinDirs dirs = b ++ [slash] := by
  induction dirs generalizing a with
  | nil => exact ⟨a, List.append_nil _⟩
  | cons c cs ih =>
    obtain ⟨b, hb⟩ := ih (a ++ [slash] ++ c)
    refine ⟨b, ?_⟩
    rw [← hb, joinDirs]
    simp

/-- The parent that `get_parent_index` looks up is the path without its last component, and that is
    the directory of the member. -/
theorem IsEntry.parentName {x : Member} {dirs : List (List Byte)} (h : IsEntry x dirs last) :
    parentName x.path x.sliceCount = rootDirectoryName ++ joinDirs dirs ∧
      parentPath x.path = rootDirectoryName ++ joinDirs dirs := by
  obtain ⟨b, hb⟩ := exists_append_slash (str "/rootfs") dirs
  have hroot : rootDirectoryName ++ joinDirs dirs = b ++ [slash] := hb
  obtain ⟨hne, hslash⟩ := h.component
  unfold Member.path Member.sliceCount
  rw [hroot]
  obtain ⟨htype, hname⟩ | ⟨htype, hname⟩ := h.named
  · have hpath : rootDirectoryName ++ x.name = b ++ slash :: last := by
      rw [hname, ← List.append_assoc, hroot, List.append_assoc]
      rfl
    rw [hpath, if_pos htype]
    exact ⟨parentName_file b hslash, parentPath_file b hne hslash⟩
  · have hpath : rootDirectoryName ++ x.name = b ++ slash :: (last ++ [slash]) := by
      rw [hname, List.append_assoc, ← List.append_assoc rootDirectoryName, hroot, List.append_assoc]
      rfl
    have hfile : x.typeflag ≠ chr '0' := by
      rw [htype]
      decide
    rw [hpath, if_neg hfile]
    exact ⟨parentName_directory b hslash, parentPath_directory b hslash⟩

end Paths

section Table

variable {m : Memory} {start stop : Word} {members : List Member} {es : List Tarfs}

/-- Each new entry is that of a listed member, put behind the entries of those before it. -/
theorem tableFrom_entry (start : Word) (h : Nat) (es : List Tarfs) (xs : List Member) (i : Nat)
    (hi : es.length ≤ i) (hlt : i < (tableFrom start h es xs).length) :
    ∃ before x after, xs = before ++ x :: after ∧ x.Listed ∧
      i = (tableFrom start h es before).length ∧ (tableFrom start h es xs)[i] =
        entryOf start (h + totalSpan before) (tableFrom start h es before) x := by
  induction xs generalizing h es with
  | nil => exact absurd hlt (Nat.not_lt.mpr hi)
  | cons x xs ih =>
    by_cases hfirst : x.Listed ∧ i = es.length
    · obtain ⟨hl, rfl⟩ := hfirst
      refine ⟨[], x, xs, rfl, hl, rfl, ?_⟩
      obtain ⟨rest, hrest, -, -⟩ := tableFrom_shows start (h + x.span)
        (es ++ [entryOf start h es x]) xs
      have htable : tableFrom start h es (x :: xs) = es ++ entryOf start h es x :: rest := by
        rw [tableFrom, if_pos hl, hrest, List.append_assoc]
        rfl
      rw [List.getElem_of_eq htable, List.getElem_append_right (Nat.le_refl _)]
      simp [tableFrom, totalSpan]
    · have hi' : (if x.Listed then es ++ [entryOf start h es x] else es).length ≤ i := by
        split_ifs with hl
        · have : i ≠ es.length := fun h => hfirst ⟨hl, h⟩
          rw [List.length_append, List.length_singleton]
          omega
        · exact hi
      have hlt' := hlt
      rw [tableFrom] at hlt'
      obtain ⟨before, y, after, rfl, hl, hlen, hget⟩ := ih (h + x.span) _ hi' hlt'
      refine ⟨x :: before, y, after, rfl, hl, ?_, ?_⟩
      · rw [tableFrom, hlen]
      · have hcons : tableFrom start h es (x :: (before ++ y :: after)) =
            tableFrom start (h + x.span) (if x.Listed then es ++ [entryOf start h es x] else es)
              (before ++ y :: after) := by rw [tableFrom]
        rw [totalSpan_cons, ← Nat.add_assoc, List.getElem_of_eq hcons, hget, tableFrom]

/-- The names in the table of a tree are different. -/
theorem nodup_names (start : Word) (hv : ∀ x ∈ members, x.Valid)
    (hnames : (members.map (·.name)).Nodup) :
    ((Archive.table start members).map (·.name)).Nodup := by
  unfold Archive.table
  rw [map_name_tableFrom, List.nodup_append]
  refine ⟨by decide, ?_, ?_⟩
  · refine List.Nodup.map_on (fun x hx y hy hxy => ?_) (hnames.of_map _ |>.filter _)
    exact List.inj_on_of_nodup_map hnames (List.mem_of_mem_filter hx) (List.mem_of_mem_filter hy)
      (path_injective hxy)
  · intro a ha b hb hab
    obtain ⟨x, hx, rfl⟩ := List.mem_map.mp hb
    exact (hv x (List.mem_of_mem_filter hx)).path_ne_root (hab ▸ ha)

/-- A name is in the table once. -/
theorem index_eq_of_name (hnodup : (es.map (·.name)).Nodup) {i j : Nat} (hi : i < es.length)
    (hj : j < es.length) (h : es[i].name = es[j].name) : i = j := by
  have hi' : i < (es.map (·.name)).length := by rwa [List.length_map]
  have hj' : j < (es.map (·.name)).length := by rwa [List.length_map]
  have hsame : (es.map (·.name))[i] = (es.map (·.name))[j] := by
    rw [List.getElem_map, List.getElem_map, h]
  exact (List.Nodup.getElem_inj_iff hnodup).mp hsame

/-- A parent that is in the table is found there. -/
theorem parentOf_eq {file_name : List Byte} {k j : Nat} (hj : j < es.length)
    (hname : es[j].name = parentName file_name k) (hnodup : (es.map (·.name)).Nodup) :
    parentOf es file_name k = j := by
  have hindex : indexOf es (parentName file_name k) = some j := by
    unfold indexOf
    rw [List.findIdx?_eq_some_iff_getElem]
    refine ⟨hj, by simpa using hname, fun i hij => ?_⟩
    rw [decide_eq_true_eq]
    intro hi
    have := index_eq_of_name hnodup (hij.trans hj) hj (hi.trans hname.symm)
    omega
  unfold parentOf
  rw [hindex]

/-- The directory of a member of a tree is in the table before it. -/
theorem IsTree.exists_parent {before after : List Member} {x : Member}
    (h : IsTree (before ++ x :: after)) (start : Word) :
    ∃ dirs last, IsEntry x dirs last ∧
      ∃ j, ∃ hj : j < (tableFrom start 0 rootEntries before).length,
        (tableFrom start 0 rootEntries before)[j].name = rootDirectoryName ++ joinDirs dirs := by
  obtain ⟨dirs, last, hentry, hparent⟩ := h.parent before x after rfl
  refine ⟨dirs, last, hentry, ?_⟩
  have hmem : rootDirectoryName ++ joinDirs dirs ∈
      (tableFrom start 0 rootEntries before).map (·.name) := by
    rw [map_name_tableFrom]
    obtain rfl | ⟨y, hy, hname⟩ := hparent
    · exact List.mem_append_left _ (by decide)
    · refine List.mem_append_right _ (List.mem_map.mpr ⟨y, ?_, ?_⟩)
      · refine List.mem_filter.mpr ⟨hy, ?_⟩
        obtain ⟨before', after', rfl⟩ := List.append_of_mem hy
        obtain ⟨_, _, hy', -⟩ := h.parent before' y (after' ++ x :: after) (by simp)
        obtain ⟨h0, -⟩ | ⟨h5, -⟩ := hy'.named
        · exact decide_eq_true (Or.inl h0)
        · exact decide_eq_true (Or.inr h5)
      · unfold Member.path
        rw [hname]
  obtain ⟨e, he, hename⟩ := List.mem_map.mp hmem
  obtain ⟨j, hj, rfl⟩ := List.getElem_of_mem he
  exact ⟨j, hj, hename⟩

/-- The table after some of the members is the front of the whole table. -/
theorem table_prefix (start : Word) (before after : List Member) {j : Nat}
    (hj : j < (tableFrom start 0 rootEntries before).length) :
    ∃ hj' : j < (Archive.table start (before ++ after)).length,
      (Archive.table start (before ++ after))[j] = (tableFrom start 0 rootEntries before)[j] := by
  obtain ⟨rest, hrest, -, -⟩ := tableFrom_shows start (totalSpan before)
    (tableFrom start 0 rootEntries before) after
  have htable : Archive.table start (before ++ after) =
      tableFrom start 0 rootEntries before ++ rest := by
    unfold Archive.table
    rw [tableFrom_append, Nat.zero_add, hrest]
  have hlt : j < (Archive.table start (before ++ after)).length := by
    rw [htable, List.length_append]
    omega
  exact ⟨hlt, by rw [List.getElem_of_eq htable, List.getElem_append_left hj]⟩

/-- The parent of an entry behind the roots. -/
theorem table_parent (hv : ∀ x ∈ members, x.Valid) (htree : IsTree members) (i : Nat) (hi : 2 ≤ i)
    (hlt : i < (Archive.table start members).length) :
    ∃ j, ∃ hj : j < i, (Archive.table start members)[i].parent = j ∧
      (Archive.table start members)[j].name =
        parentPath (Archive.table start members)[i].name := by
  obtain ⟨before, x, after, rfl, hl, hlen, hget⟩ :=
    tableFrom_entry start 0 rootEntries members i hi hlt
  have hnodup : ((tableFrom start 0 rootEntries before).map (·.name)).Nodup := by
    refine nodup_names start (fun y hy => hv y (List.mem_append_left _ hy)) ?_
    have := htree.distinct
    rw [List.map_append] at this
    exact this.of_append_left
  obtain ⟨dirs, last, hentry, j, hj, hname⟩ := htree.exists_parent start
  obtain ⟨hparent, hpath⟩ := hentry.parentName
  obtain ⟨hj', hsame⟩ := table_prefix start before (x :: after) hj
  refine ⟨j, by omega, ?_, ?_⟩
  · show (tableFrom start 0 rootEntries (before ++ x :: after))[i].parent = _
    rw [hget]
    exact parentOf_eq hj (hname.trans hparent.symm) hnodup
  · have hnameᵢ : (tableFrom start 0 rootEntries (before ++ x :: after))[i].name = x.path := by
      rw [hget]
      rfl
    rw [hsame, hname]
    show _ = parentPath (tableFrom start 0 rootEntries (before ++ x :: after))[i].name
    rw [hnameᵢ, hpath]

/-- Every member of a tree is taken into the table. -/
theorem IsTree.filter_listed (h : IsTree members) : members.filter (·.Listed) = members := by
  rw [List.filter_eq_self]
  intro x hx
  obtain ⟨before, after, rfl⟩ := List.append_of_mem hx
  obtain ⟨_, _, hentry, -⟩ := h.parent before x after rfl
  exact decide_eq_true (hentry.named.imp And.left And.left)

/-- The table of a tree is the directory tree. -/
theorem IsTree.treeTable {s : State} (htree : IsTree members) (hv : ∀ x ∈ members, x.Valid)
    (htable : Table s (Archive.table start members)) : TreeTable s := by
  have hlen := length_table start members
  have hroot : ∀ i (hi : i < 2), (s.vfs i) = rootEntries[i] := by
    intro i hi
    obtain ⟨hi', hsame⟩ := table_prefix start [] members (j := i) hi
    exact (htable.entry i hi').trans hsame
  have hparent : ∀ i, 2 ≤ i → i < s.vfsPointer → ∃ j < i, (s.vfs i).parent = j ∧
      (s.vfs j).name = parentPath (s.vfs i).name ∧
      ∀ k < s.vfsPointer, (s.vfs k).name = parentPath (s.vfs i).name → k = j := by
    intro i hi hlt
    rw [htable.pointer] at hlt ⊢
    obtain ⟨j, hj, hpar, hname⟩ := table_parent hv htree i hi hlt
    have hnodup := nodup_names start hv htree.distinct
    have hj' : j < (Archive.table start members).length := by omega
    rw [htable.entry i hlt]
    refine ⟨j, hj, hpar, (congrArg (·.name) (htable.entry j hj')).trans hname,
      fun k hk hkname => ?_⟩
    rw [htable.entry k hk, ← hname] at hkname
    exact index_eq_of_name hnodup hk hj' hkname
  refine ⟨?_, ?_, hparent, fun i hi => ?_⟩
  · rw [hroot 0 (by decide)]
    rfl
  · rw [hroot 1 (by decide)]
    rfl
  · induction i using Nat.strong_induction_on with
    | _ i ih =>
      by_cases h2 : 2 ≤ i
      · obtain ⟨j, hj, hpar, -⟩ := hparent i h2 hi
        exact .up hpar (ih j hj (by omega))
      · by_cases h0 : i = 0
        · exact h0 ▸ .root
        · obtain rfl : i = 1 := by omega
          refine .up (j := 0) ?_ .root
          rw [hroot 1 (by decide)]
          rfl

end Table

/-- After `tarfs_init` over an archive of a directory tree, slot `2 + k` is that of member `k`, every
    entry's `parent` is the one entry with the path without the last component, and the parents
    lead to slot 0. -/
theorem tarfsInit_tree (m : Memory) (start stop : Word) (members : List Member) (vfs : Nat → Tarfs)
    (ha : Archive m start stop members) (hcount : members.length ≤ 2046)
    (htree : IsTree members) :
    ∃ s, tarfsInit m start stop vfs = .ok s ∧ s.vfsPointer = 2 + members.length ∧
      (∀ k (hk : k < members.length), Shows (s.vfs (2 + k)) (2 + k) members[k]) ∧
      TreeTable s := by
  have hfilter := htree.filter_listed
  obtain ⟨s, hs, htable⟩ := tarfsInit_eq ha vfs (by rwa [hfilter])
  have hshows := htable.shows
  simp only [hfilter] at hshows
  exact ⟨s, hs, hshows.1, hshows.2, htree.treeTable ha.valid htable⟩

theorem sampleMembers_tree : IsTree sampleMembers := by
  refine ⟨by decide, fun before x after h => ?_⟩
  obtain rfl | ⟨b, before, rfl⟩ : before = [] ∨ ∃ b rest, before = b :: rest := by
    cases before <;> simp
  · obtain ⟨rfl, rfl⟩ := List.cons.inj h
    exact ⟨[], str "bin", ⟨by simp, ⟨by decide, by decide⟩, Or.inr ⟨rfl, rfl⟩⟩, Or.inl rfl⟩
  · obtain ⟨rfl, hrest⟩ := List.cons.inj h
    obtain rfl | ⟨b, before, rfl⟩ : before = [] ∨ ∃ b rest, before = b :: rest := by
      cases before <;> simp
    · obtain ⟨rfl, rfl⟩ := List.cons.inj hrest
      refine ⟨[str "bin"], str "ls", ⟨?_, ⟨by decide, by decide⟩, Or.inl ⟨rfl, rfl⟩⟩,
        Or.inr ⟨_, List.mem_singleton_self _, rfl⟩⟩
      intro c hc
      obtain rfl := List.mem_singleton.mp hc
      exact ⟨by decide, by decide⟩
    · have hnil := (List.cons.inj hrest).2
      simp at hnil

theorem tarfsInit_tree_sample :
    ∃ s, tarfsInit (image 0x1000 sampleMembers) 0x1000 0x3000 (fun _ => rootEntries[0]) = .ok s ∧
      s.vfsPointer = 2 + sampleMembers.length ∧
      (∀ k (hk : k < sampleMembers.length), Shows (s.vfs (2 + k)) (2 + k) sampleMembers[k]) ∧
      TreeTable s :=
  tarfsInit_tree _ _ _ sampleMembers _ sample_archive (by decide) sampleMembers_tree

end SBUnix.Vfs
