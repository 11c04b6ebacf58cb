import SBUnix.Tarfs.Init

/-
  What the table says about the members.

  Names, sizes, types and indices are those of the members (`tarfsInit_decodes`). The address of a
  file is `p + file_size`, which skips the size and not the header, and the offset is stored after
  it was moved on to the next header; so no file's location is right (`contentLocated_iff`).
-/

namespace SBUnix.Vfs

open ByteMem

/-- Entry `i` shows the member `x`. -/
structure Shows (e : Tarfs) (i : Nat) (x : Member) : Prop where
  name : e.name = rootDirectoryName ++ x.name
  size : e.size = BitVec.ofNat 64 x.content.length
  type : e.type = x.typeflag.signExtend 32
  index : e.index = i

/-- The member `x` has its header at position `h`. -/
def MemberAt (members : List Member) (h : Nat) (x : Member) : Prop :=
  ∃ before after, members = before ++ x :: after ∧ h = totalSpan before

/-- After `tarfs_init`, the lookup of a file gives the address of its content, and its entry the
    position of the content. -/
def ContentLocated (m : Memory) (start stop : Word) (members : List Member) : Prop :=
  ∀ vfs, ∃ s, tarfsInit m start stop vfs = .ok s ∧
    ∀ h x, MemberAt members h x → x.typeflag = chr '0' →
      tarLookup s x.path = .ok (start + BitVec.ofNat 64 (h + 512)) ∧
        ∃ i : Nat, tarGetIndex s x.path = .ok i ∧ (s.vfs i).offset = BitVec.ofNat 32 (h + 512)

section Table

variable {start : Word} {es : List Tarfs}

/-- The table grows by one entry for each listed member, which shows it. -/
theorem tableFrom_shows (start : Word) (h : Nat) (es : List Tarfs) (xs : List Member) :
    ∃ new, tableFrom start h es xs = es ++ new ∧ new.length = (xs.filter (·.Listed)).length ∧
      ∀ k (hk : k < new.length) (hk' : k < (xs.filter (·.Listed)).length),
        Shows new[k] (es.length + k) (xs.filter (·.Listed))[k] := by
  induction xs generalizing h es with
  | nil => exact ⟨[], (List.append_nil es).symm, rfl, fun k hk => absurd hk (Nat.not_lt_zero k)⟩
  | cons x xs ih =>
    rw [tableFrom]
    by_cases hl : x.Listed
    · rw [if_pos hl, List.filter_cons_of_pos (by simpa using hl)]
      obtain ⟨new, heq, hlen, hshows⟩ := ih (h + x.span) (es ++ [entryOf start h es x])
      refine ⟨entryOf start h es x :: new, ?_, ?_, ?_⟩
      · rw [heq, List.append_assoc]
        rfl
      · rw [List.length_cons, hlen, List.length_cons]
      · intro k hk hk'
        cases k with
        | zero => exact ⟨rfl, rfl, rfl, rfl⟩
        | succ k =>
          have hk₁ := Nat.lt_of_succ_lt_succ hk
          have hshow := hshows k hk₁ (Nat.lt_of_succ_lt_succ hk')
          rw [List.length_append, List.length_singleton, Nat.add_assoc, Nat.add_comm 1] at hshow
          exact hshow
    · rw [if_neg hl, List.filter_cons_of_neg (by simpa using hl)]
      exact ih (h + x.span) es

theorem tableFrom_append (h : Nat) (es : List Tarfs) (xs ys : List Member) :
    tableFrom start h es (xs ++ ys) =
      tableFrom start (h + totalSpan xs) (tableFrom start h es xs) ys := by
  induction xs generalizing h es with
  | nil => rfl
  | cons x xs ih => rw [List.cons_append, tableFrom, ih, tableFrom, totalSpan_cons, Nat.add_assoc]

theorem map_name_tableFrom (h : Nat) (es : List Tarfs) (xs : List Member) :
    (tableFrom start h es xs).map (·.name) =
      es.map (·.name) ++ (xs.filter (·.Listed)).map Member.path := by
  induction xs generalizing h es with
  | nil => simp [tableFrom]
  | cons x xs ih =>
    rw [tableFrom, ih]
    by_cases hl : x.Listed
    · rw [if_pos hl, List.filter_cons_of_pos (by simpa using hl), List.map_append, List.map_cons,
        List.append_assoc]
      rfl
    · rw [if_neg hl, List.filter_cons_of_neg (by simpa using hl)]

theorem path_injective {x y : Member} (h : x.path = y.path) : x.name = y.name :=
  List.append_cancel_left h

/-- A member's name is longer than those of the first two slots. -/
theorem Member.Valid.path_ne_root {x : Member} (hv : x.Valid) :
    x.path ∉ rootEntries.map (·.name) := by
  have hpos := List.length_pos_iff.mpr hv.nonempty
  have hlen : x.path.length = 8 + x.name.length := List.length_append
  intro hmem
  have hcase : x.path = str "/" ∨ x.path = str "/rootfs/" := by
    simpa [rootEntries] using hmem
  obtain heq | heq := hcase
  · have := congrArg List.length heq
    rw [hlen, show (str "/").length = 1 from rfl] at this
    omega
  · have := congrArg List.length heq
    rw [hlen, show (str "/rootfs/").length = 8 from rfl] at this
    omega

/-- The search finds an entry with a new name. -/
theorem indexOf_append {e : Tarfs} {es' : List Tarfs} (h : e.name ∉ es.map (·.name)) :
    indexOf (es ++ e :: es') e.name = some es.length := by
  unfold indexOf
  rw [List.findIdx?_eq_some_iff_getElem]
  refine ⟨by simp, by simp, fun j hj => ?_⟩
  rw [List.getElem_append_left hj, decide_eq_true_eq]
  intro hname
  exact h (hname ▸ List.mem_map_of_mem (List.getElem_mem hj))

/-- Where a listed member with a new name lies in the table. -/
theorem indexOf_table (start : Word) {before : List Member} (after : List Member) {x : Member}
    (hv : x.Valid) (hl : x.Listed) (hnew : x.name ∉ before.map (·.name)) :
    ∃ es rest, Archive.table start (before ++ x :: after) =
        es ++ entryOf start (totalSpan before) es x :: rest ∧
      es = tableFrom start 0 rootEntries before ∧
      indexOf (Archive.table start (before ++ x :: after)) x.path = some es.length := by
  obtain ⟨rest, hrest, -, -⟩ := tableFrom_shows start (totalSpan before + x.span)
    (tableFrom start 0 rootEntries before ++
      [entryOf start (totalSpan before) (tableFrom start 0 rootEntries before) x]) after
  have htable : Archive.table start (before ++ x :: after) =
      tableFrom start 0 rootEntries before ++
        entryOf start (totalSpan before) (tableFrom start 0 rootEntries before) x :: rest := by
    unfold Archive.table
    rw [tableFrom_append, Nat.zero_add, tableFrom, if_pos hl, hrest, List.append_assoc]
    rfl
  refine ⟨_, rest, htable, rfl, ?_⟩
  rw [htable]
  refine indexOf_append (e := entryOf start _ _ x) ?_
  rw [map_name_tableFrom]
  intro hmem
  obtain hroot | hpath := List.mem_append.mp hmem
  · exact hv.path_ne_root hroot
  · obtain ⟨y, hy, hyx⟩ := List.mem_map.mp hpath
    refine hnew ?_
    rw [← path_injective (show y.path = x.path from hyx)]
    exact List.mem_map_of_mem (List.mem_of_mem_filter hy)

/-- The table shows the listed members in order, behind the two roots. -/
theorem Table.shows {s : State} {start : Word} {members : List Member}
    (h : Table s (Archive.table start members)) :
    s.vfsPointer = 2 + (members.filter (·.Listed)).length ∧
      ∀ k (hk : k < (members.filter (·.Listed)).length),
        Shows (s.vfs (2 + k)) (2 + k) (members.filter (·.Listed))[k] := by
  obtain ⟨new, hnew, hlen, hshows⟩ := tableFrom_shows start 0 rootEntries members
  have hlength := length_table start members
  refine ⟨h.pointer.trans hlength, fun k hk => ?_⟩
  have hentry := h.entry (2 + k) (by omega)
  have hnewlt : k < new.length := by omega
  have htablelt : 2 + k < (Archive.table start members).length := by omega
  have hget : (Archive.table start members)[2 + k] = new[k] := by
    have happlt : 2 + k < (rootEntries ++ new).length := by
      rw [List.length_append]
      show 2 + k < 2 + new.length
      omega
    have happend : (rootEntries ++ new)[2 + k] = new[k] := by
      rw [List.getElem_append_right (Nat.le_add_right 2 k)]
      congr 1
      exact Nat.add_sub_cancel_left 2 k
    rw [← happend]
    exact List.getElem_of_eq hnew _
  rw [hentry, hget]
  exact hshows k (by omega) hk

end Table

section Claims

variable {m : Memory} {start stop : Word} {members : List Member}

/-- Decoding an archive gives the members back: after `tarfs_init` the table holds exactly the files
    and directories, in the order of the archive. -/
theorem tarfsInit_decodes (m : Memory) (start stop : Word) (members : List Member)
    (vfs : Nat → Tarfs) (ha : Archive m start stop members)
    (hcount : (members.filter (·.Listed)).length ≤ 2046) :
    ∃ s, tarfsInit m start stop vfs = .ok s ∧
      s.vfsPointer = 2 + (members.filter (·.Listed)).length ∧
      ∀ k (hk : k < (members.filter (·.Listed)).length),
        Shows (s.vfs (2 + k)) (2 + k) (members.filter (·.Listed))[k] := by
  obtain ⟨s, hs, htable⟩ := tarfsInit_eq ha vfs hcount
  exact ⟨s, hs, htable.shows⟩

/-- A directory with a file in it. -/
def sampleMembers : List Member :=
  [⟨str "bin/", chr '5', []⟩, ⟨str "bin/ls", chr '0', [0x7f, 0x45]⟩]

theorem sampleMembers_valid : ∀ x ∈ sampleMembers, x.Valid := by
  intro x hx
  simp only [sampleMembers, List.mem_cons, List.not_mem_nil, or_false] at hx
  obtain rfl | rfl := hx <;> exact ⟨by decide, by decide, by decide, by decide⟩

theorem sample_archive : Archive (image 0x1000 sampleMembers) 0x1000 0x3000 sampleMembers :=
  image_archive sampleMembers_valid (by decide) (by decide)

theorem tarfsInit_decodes_sample :
    ∃ s, tarfsInit (image 0x1000 sampleMembers) 0x1000 0x3000 (fun _ => rootEntries[0]) = .ok s ∧
      s.vfsPointer = 2 + (sampleMembers.filter (·.Listed)).length ∧
      ∀ k (hk : k < (sampleMembers.filter (·.Listed)).length),
        Shows (s.vfs (2 + k)) (2 + k) (sampleMembers.filter (·.Listed))[k] :=
  tarfsInit_decodes _ _ _ sampleMembers _ sample_archive (by decide)

/-- `tar_get_index` of a name in the table. -/
theorem tarGetIndex_found {s : State} {es : List Tarfs} {name : List Byte} (h : Table s es)
    (hes : es.length ≤ 2048) {j : Nat} (hj : indexOf es name = some j) :
    tarGetIndex s name = .ok (j : Int) := by
  have hlt := indexOf_lt hj
  unfold tarGetIndex
  rw [lookupLoop_eq h hes, hj, ok_bind, if_pos (by rw [h.pointer]; exact hlt)]
  rfl

/-- A file at position `h` is recorded at the address `start + h + size` and the offset
    `512 + h + span`. -/
theorem recorded_location {s : State} {h : Nat} {x : Member} (ha : Archive m start stop members)
    (hcount : (members.filter (·.Listed)).length ≤ 2046) (hnames : (members.map (·.name)).Nodup)
    (hs : Table s (Archive.table start members)) (hx : MemberAt members h x) (hl : x.Listed) :
    ∃ i : Nat, tarGetIndex s x.path = .ok i ∧
      tarLookup s x.path = .ok (start + BitVec.ofNat 64 (h + x.content.length)) ∧
      (s.vfs i).offset = BitVec.ofNat 32 (512 + h + x.span) := by
  obtain ⟨before, after, rfl, rfl⟩ := hx
  have hv := ha.valid x (List.mem_append_right _ List.mem_cons_self)
  have hnew : x.name ∉ before.map (·.name) := by
    rw [List.map_append, List.map_cons] at hnames
    intro hmem
    exact (List.nodup_append.mp hnames).2.2 _ hmem _ List.mem_cons_self rfl
  obtain ⟨es, rest, htable, -, hindex⟩ := indexOf_table start after hv hl hnew
  have hlen := length_table start (before ++ x :: after)
  have hes : (Archive.table start (before ++ x :: after)).length ≤ 2048 := by omega
  have hlt := indexOf_lt hindex
  have hentry : (Archive.table start (before ++ x :: after))[es.length] =
      entryOf start (totalSpan before) es x := by
    rw [List.getElem_of_eq htable, List.getElem_append_right (Nat.le_refl _)]
    simp
  refine ⟨es.length, tarGetIndex_found hs hes hindex, ?_, ?_⟩
  · rw [tarLookup_found hs hes hindex hlt, hentry]
    rfl
  · rw [hs.entry _ hlt, hentry]
    rfl

/-- The stored offset is never that of the content. -/
theorem offset_ne (h : Nat) {x : Member} (hsize : x.content.length < 2 ^ 31) :
    BitVec.ofNat 32 (512 + h + x.span) ≠ BitVec.ofNat 32 (h + 512) := by
  intro heq
  have hspan : BitVec.ofNat 32 x.span = 0 := by
    rw [Nat.add_comm 512 h, BitVec.ofNat_add] at heq
    exact left_eq_add.mp heq.symm
  have := congrArg BitVec.toNat hspan
  rw [BitVec.toNat_ofNat, show (0 : BitVec 32).toNat = 0 from rfl] at this
  unfold Member.span at this
  omega

/-- A file makes the recorded locations wrong. -/
theorem no_file_of_contentLocated (ha : Archive m start stop members)
    (hcount : (members.filter (·.Listed)).length ≤ 2046) (hnames : (members.map (·.name)).Nodup)
    (h : ContentLocated m start stop members) : ∀ x ∈ members, x.typeflag ≠ chr '0' := by
  intro x hx hfile
  obtain ⟨s₁, hs₁, htable⟩ := tarfsInit_eq ha (fun _ => rootEntries[0]) hcount
  obtain ⟨s, hs, hall⟩ := h fun _ => rootEntries[0]
  rw [hs₁] at hs
  cases hs
  obtain ⟨before, after, hsplit⟩ := List.append_of_mem hx
  have hat : MemberAt members (totalSpan before) x := ⟨before, after, hsplit, rfl⟩
  obtain ⟨i, hi, -, hoffset⟩ := recorded_location ha hcount hnames htable hat (Or.inl hfile)
  obtain ⟨-, j, hj, hj'⟩ := hall _ x hat hfile
  rw [hi] at hj
  have hij : i = j := by
    have := Except.ok.inj hj
    omega
  rw [← hij, hoffset] at hj'
  exact offset_ne _ (ha.size_lt x hx) hj'

/-- The recorded locations are right exactly for archives without files. -/
theorem contentLocated_iff (m : Memory) (start stop : Word) (members : List Member)
    (ha : Archive m start stop members) (hcount : (members.filter (·.Listed)).length ≤ 2046)
    (hnames : (members.map (·.name)).Nodup) :
    ContentLocated m start stop members ↔ ∀ x ∈ members, x.typeflag ≠ chr '0' := by
  refine ⟨no_file_of_contentLocated ha hcount hnames, fun hnone vfs => ?_⟩
  obtain ⟨s, hs, -⟩ := tarfsInit_eq ha vfs hcount
  refine ⟨s, hs, fun h x hx hfile => ?_⟩
  obtain ⟨before, after, rfl, -⟩ := hx
  exact absurd hfile (hnone x (List.mem_append_right _ List.mem_cons_self))

/-- A directory alone is recorded as it is. -/
theorem contentLocated_directory :
    ContentLocated (image 0x1000 (sampleMembers.take 1)) 0x1000 0x3000 (sampleMembers.take 1) := by
  have hv : ∀ x ∈ sampleMembers.take 1, x.Valid := fun x hx =>
    sampleMembers_valid x (List.mem_of_mem_take hx)
  refine (contentLocated_iff _ _ _ _ (image_archive hv (by decide) (by decide)) (by decide)
    (by decide)).mpr ?_
  decide

/-- With a file in it, the archive's locations are wrong. -/
theorem contentLocated_sample_false :
    Archive (image 0x1000 sampleMembers) 0x1000 0x3000 sampleMembers ∧
      ¬ ContentLocated (image 0x1000 sampleMembers) 0x1000 0x3000 sampleMembers := by
  refine ⟨sample_archive, fun h => ?_⟩
  have hnone := no_file_of_contentLocated sample_archive (by decide) (by decide) h
  exact absurd hnone (by decide)

end Claims

end SBUnix.Vfs
