import SBUnix.Tarfs.Contents

/-
  The slots of `vfs` that are used.

  The table has 2048 slots, two of them for the roots, and no function counts. A lookup of a name
  that is not in the table reads the slot behind the last entry, because it tests the name before
  the bound; with 2046 members that slot is none of `vfs`.
-/

namespace SBUnix.Vfs

open ByteMem

/-- The run does not index `vfs` out of range. -/
def InSlots {α : Type} (r : Except Fault α) : Prop := r ≠ .error .slotOutOfRange

/-- `tarfs_init`, and the functions that search for `filename` afterwards, stay in `vfs`. -/
def SlotsInRange (m : Memory) (start stop : Word) (filename : List Byte) : Prop :=
  ∀ vfs, InSlots (tarfsInit m start stop vfs) ∧
    ∀ s, tarfsInit m start stop vfs = .ok s →
      InSlots (tarLookup s filename) ∧ InSlots (tarGetIndex s filename) ∧
        ∀ slice_count, InSlots (getParentIndex s.vfs s.vfsPointer filename slice_count)

/-- The names in the table. -/
def tableNames (members : List Member) : List (List Byte) :=
  rootEntries.map (·.name) ++ (members.filter (·.Listed)).map Member.path

section Slots

variable {s : State} {es : List Tarfs} {name : List Byte}

theorem inSlots_ok {α : Type} (a : α) : InSlots (.ok a) := by
  intro herr
  cases herr

/-- The search for a parent stops at the last entry. -/
theorem inSlots_findParent (h : Table s es) (hes : es.length ≤ 2048) (fname : List Byte) :
    InSlots (strcpy fname >>= fun fname => findParent s.vfs fname s.vfsPointer 0) := by
  unfold strcpy
  split_ifs
  · rw [ok_bind, h.pointer, findParent_eq h hes es.length 0 (Nat.zero_add _)]
    exact inSlots_ok _
  · intro herr
    cases herr

theorem inSlots_getParentIndex (h : Table s es) (hes : es.length ≤ 2048) (slice_count : Nat) :
    InSlots (getParentIndex s.vfs s.vfsPointer name slice_count) := by
  unfold getParentIndex
  dsimp only
  split_ifs
  · exact inSlots_ok _
  · exact inSlots_findParent h hes _
  · exact inSlots_ok _
  · exact inSlots_findParent h hes _

theorem indexOf_eq_none (hname : name ∉ es.map (·.name)) : indexOf es name = none := by
  unfold indexOf
  rw [List.findIdx?_eq_none_iff]
  intro e he
  rw [decide_eq_false_iff_not]
  exact fun heq => hname (heq ▸ List.mem_map_of_mem he)

theorem exists_indexOf (hname : name ∈ es.map (·.name)) : ∃ j, indexOf es name = some j := by
  cases h : indexOf es name with
  | some j => exact ⟨j, rfl⟩
  | none =>
    unfold indexOf at h
    rw [List.findIdx?_eq_none_iff] at h
    obtain ⟨e, he, heq⟩ := List.mem_map.mp hname
    exact absurd heq (by simpa using h e he)

/-- The lookups read the slot behind the last entry when the name is not in the table. -/
theorem lookupLoop_full (h : Table s es) (hes : es.length = 2048)
    (hname : name ∉ es.map (·.name)) :
    lookupLoop s name (s.vfsPointer + 1) 0 = .error .slotOutOfRange := by
  rw [lookupLoop_eq h (by omega), indexOf_eq_none hname, slot_full (by omega)]
  rfl

theorem lookupLoop_ok (h : Table s es) (hes : es.length ≤ 2048)
    (hname : name ∈ es.map (·.name) ∨ es.length < 2048) :
    ∃ i, lookupLoop s name (s.vfsPointer + 1) 0 = .ok i ∧ i ≤ es.length := by
  by_cases hmem : name ∈ es.map (·.name)
  · obtain ⟨j, hj⟩ := exists_indexOf hmem
    refine ⟨j, ?_, (indexOf_lt hj).le⟩
    rw [lookupLoop_eq h hes, hj]
  · refine ⟨es.length, ?_, Nat.le_refl _⟩
    rw [lookupLoop_eq h hes, indexOf_eq_none hmem, slot_eq (hname.resolve_left hmem)]
    rfl

theorem inSlots_tarGetIndex (h : Table s es) (hes : es.length ≤ 2048)
    (hname : name ∈ es.map (·.name) ∨ es.length < 2048) : InSlots (tarGetIndex s name) := by
  obtain ⟨i, hi, -⟩ := lookupLoop_ok h hes hname
  unfold tarGetIndex
  rw [hi, ok_bind]
  split_ifs
  · exact inSlots_ok _
  · exact inSlots_ok _

theorem inSlots_tarLookup (h : Table s es) (hes : es.length ≤ 2048)
    (hname : name ∈ es.map (·.name) ∨ es.length < 2048) : InSlots (tarLookup s name) := by
  obtain ⟨i, hi, -⟩ := lookupLoop_ok h hes hname
  unfold tarLookup
  rw [hi, ok_bind]
  split_ifs with hlt
  · rw [h.pointer] at hlt
    rw [slot_eq (by omega), ok_bind]
    exact inSlots_ok _
  · exact inSlots_ok _

end Slots

section Claim

variable {m : Memory} {start stop : Word} {members : List Member} {filename : List Byte}

theorem map_name_table (start : Word) (members : List Member) :
    (Archive.table start members).map (·.name) = tableNames members :=
  map_name_tableFrom 0 rootEntries members

/-- Too many members, or a table without room behind its last entry. -/
theorem not_slotsInRange (ha : Archive m start stop members)
    (h : 2046 < (members.filter (·.Listed)).length ∨
      ((members.filter (·.Listed)).length = 2046 ∧ filename ∉ tableNames members)) :
    ¬ SlotsInRange m start stop filename := by
  intro hall
  obtain ⟨hinit, hafter⟩ := hall fun _ => rootEntries[0]
  obtain hmany | ⟨hfull, hname⟩ := h
  · exact hinit (tarfsInit_full ha _ hmany)
  · obtain ⟨s, hs, htable⟩ := tarfsInit_eq ha (fun _ => rootEntries[0]) (by omega)
    refine (hafter s hs).2.1 ?_
    have hlen := length_table start members
    unfold tarGetIndex
    rw [lookupLoop_full htable (by omega) (by rwa [map_name_table])]
    rfl

/-- `vfs` is indexed in range exactly for at most 2045 files and directories, or for 2046 when the
    name is in the table. -/
theorem slotsInRange_iff (m : Memory) (start stop : Word) (members : List Member)
    (filename : List Byte) (ha : Archive m start stop members) :
    SlotsInRange m start stop filename ↔ (members.filter (·.Listed)).length ≤ 2045 ∨
      ((members.filter (·.Listed)).length = 2046 ∧ filename ∈ tableNames members) := by
  constructor
  · intro hall
    by_contra hnot
    refine not_slotsInRange ha ?_ hall
    push Not at hnot
    by_cases hmany : 2046 < (members.filter (·.Listed)).length
    · exact Or.inl hmany
    · exact Or.inr ⟨by omega, hnot.2 (by omega)⟩
  · intro hcount vfs
    have hle : (members.filter (·.Listed)).length ≤ 2046 := by
      obtain h | h := hcount
      · omega
      · exact h.1.le
    obtain ⟨s, hs, htable⟩ := tarfsInit_eq ha vfs hle
    have hlen := length_table start members
    have hes : (Archive.table start members).length ≤ 2048 := by omega
    have hname : filename ∈ (Archive.table start members).map (·.name) ∨
        (Archive.table start members).length < 2048 := by
      obtain h | h := hcount
      · exact Or.inr (by omega)
      · exact Or.inl (by rw [map_name_table]; exact h.2)
    refine ⟨?_, fun s' hs' => ?_⟩
    · rw [hs]
      exact inSlots_ok _
    · rw [hs] at hs'
      cases hs'
      exact ⟨inSlots_tarLookup htable hes hname, inSlots_tarGetIndex htable hes hname,
        inSlots_getParentIndex htable hes⟩

/-- In a small archive every lookup stays in `vfs`. -/
theorem slotsInRange_sample :
    SlotsInRange (image 0x1000 sampleMembers) 0x1000 0x3000 (str "/rootfs/bin/sh") :=
  (slotsInRange_iff _ _ _ _ _ sample_archive).mpr (Or.inl (by decide))

/-- An empty file, its number written in three letters. -/
def numberedFile (i : Nat) : Member :=
  ⟨[BitVec.ofNat 8 (97 + i / 256 % 16), BitVec.ofNat 8 (97 + i / 16 % 16),
    BitVec.ofNat 8 (97 + i % 16)], chr '0', []⟩

theorem letter_ne_zero (d : Nat) : BitVec.ofNat 8 (97 + d % 16) ≠ 0 := by
  have hd : d % 16 < 16 := Nat.mod_lt d (by decide)
  generalize d % 16 = e at hd
  interval_cases e <;> decide

theorem numberedFile_valid (i : Nat) : (numberedFile i).Valid := by
  refine ⟨by simp [numberedFile], ?_, by simp [numberedFile], (by decide : chr '0' ≠ 0)⟩
  simp only [numberedFile, List.mem_cons, List.not_mem_nil, or_false, not_or]
  exact ⟨(letter_ne_zero _).symm, (letter_ne_zero _).symm, (letter_ne_zero _).symm⟩

/-- As many empty files. -/
def numberedFiles (n : Nat) : List Member := (List.range n).map numberedFile

theorem map_numberedFiles {α : Type} (f : Member → α) {c : α} (hf : ∀ i, f (numberedFile i) = c)
    (n : Nat) : (numberedFiles n).map f = List.replicate n c := by
  refine List.eq_replicate_iff.mpr ⟨by simp [numberedFiles], fun b hb => ?_⟩
  obtain ⟨x, hx, rfl⟩ := List.mem_map.mp hb
  obtain ⟨i, -, rfl⟩ := List.mem_map.mp hx
  exact hf i

theorem numberedFiles_archive {n : Nat} (hn : n ≤ 4096) :
    Archive (image 0x1000 (numberedFiles n)) 0x1000 0x1000000 (numberedFiles n) := by
  refine image_archive (fun x hx => ?_) ?_ ?_
  · obtain ⟨i, -, rfl⟩ := List.mem_map.mp hx
    exact numberedFile_valid i
  · rw [map_numberedFiles (·.content.length) (c := 0) fun _ => rfl, List.sum_replicate, smul_zero]
    decide
  · unfold totalSpan
    rw [map_numberedFiles Member.span (c := 512) fun i => by simp [numberedFile, Member.span],
      List.sum_replicate, smul_eq_mul]
    show 0x1000 + n * 512 + 512 ≤ 0x1000000
    omega

theorem filter_numberedFiles (n : Nat) : (numberedFiles n).filter (·.Listed) = numberedFiles n := by
  refine List.filter_eq_self.mpr fun x hx => ?_
  obtain ⟨i, -, rfl⟩ := List.mem_map.mp hx
  exact decide_eq_true (Or.inl rfl)

/-- With 2046 files, looking for another one reads the slot behind `vfs`. -/
theorem slotsInRange_full_false :
    Archive (image 0x1000 (numberedFiles 2046)) 0x1000 0x1000000 (numberedFiles 2046) ∧
      ¬ SlotsInRange (image 0x1000 (numberedFiles 2046)) 0x1000 0x1000000 (str "/rootfs/x") := by
  have ha := numberedFiles_archive (n := 2046) (by decide)
  refine ⟨ha, not_slotsInRange ha (Or.inr ⟨?_, fun hmem => ?_⟩)⟩
  · rw [filter_numberedFiles, numberedFiles, List.length_map, List.length_range]
  · -- the names have 1, 8 or 11 characters
    obtain hroot | hpath := List.mem_append.mp hmem
    · exact absurd hroot (by decide)
    · rw [filter_numberedFiles] at hpath
      obtain ⟨x, hx, heq⟩ := List.mem_map.mp hpath
      obtain ⟨i, -, rfl⟩ := List.mem_map.mp hx
      have hlen : (numberedFile i).path.length = 11 := rfl
      rw [heq] at hlen
      exact absurd hlen (by decide)

end Claim

end SBUnix.Vfs
