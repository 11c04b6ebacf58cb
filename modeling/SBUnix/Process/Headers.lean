import SBUnix.Process.Exec
import SBUnix.Process.Image
import SBUnix.Process.VmaList

/-
  The headers of a file in memory, as `sys/elf64.c` reads them.

  `validate_elf_header` compares four bytes (`FileAt.validateElfHeader`), `check_elf_loadable` looks
  for a `PT_LOAD` header (`FileAt.checkElfLoadable`).

  `check_elf_loadable` and `load_elf_vmas` are embedded twice: on the bytes in memory, with areas in
  a list, and in `Process/VmaList.lean` on a table of headers, with areas that are linked by their
  addresses. On a file in memory the two agree (`FileAt.checkElfLoadable_vma`,
  `LoadReady.loadElfVmas_vma`).
-/

namespace SBUnix

open ByteMem Linked

/-! ## The two checks -/

/-- The file starts with the magic number. -/
def Image.Magic (f : Image) : Prop :=
  f.byte 0 = 0x7f ∧ [f.byte 1, f.byte 2, f.byte 3] = Vfs.str "ELF"

instance (f : Image) : Decidable f.Magic := inferInstanceAs (Decidable (_ ∧ _))

/-- The loop of `strsubcmp` returns 0 for equal strings only. -/
theorem strsubcmpLoop_eq {s : Kernel} {q : Word} (str1 str2 : List Byte)
    (hlen : str1.length = str2.length)
    (h : ∀ k (hk : k < str2.length), s.loadByte (q + BitVec.ofNat 64 k) = .ok str2[k]) :
    ∃ r, strsubcmpLoop s str1 q = .ok r ∧ (r = 0 ↔ str2 = str1) := by
  induction str1 generalizing str2 q with
  | nil => exact ⟨0, rfl, by simp [List.length_eq_zero_iff.mp hlen.symm]⟩
  | cons c str1 ih =>
    obtain ⟨b, str2, rfl⟩ := List.exists_cons_of_length_eq_add_one hlen.symm
    have hfirst : s.loadByte q = .ok b := by
      have hzero := h 0 (by simp)
      rwa [BitVec.add_zero] at hzero
    rw [strsubcmpLoop, hfirst, ok_bind]
    split_ifs with hcb hgt
    · obtain ⟨r, hr, hiff⟩ := ih str2 (by simpa using hlen) fun k hk => by
        rw [add_one_add_ofNat]
        exact h (k + 1) (by simpa using hk)
      exact ⟨r, hr, by simp [hiff, hcb]⟩
    · exact ⟨1, rfl, by simp [Ne.symm hcb]⟩
    · exact ⟨-1, rfl, by simp [Ne.symm hcb]⟩

section FileAt

variable {roots : Set Frame} {fs : List Frame} {p : Word} {f : Image} {s : Kernel}

theorem FileAt.loadByte (h : FileAt roots fs s.root p f s) {k : Nat} (hk : k < f.length) :
    s.loadByte (p + BitVec.ofNat 64 k) = .ok (f.byte k) :=
  Kernel.loadByte_of_byteAt (h.byte k hk)

/-- A string that ends in the file can be read. -/
theorem FileAt.loadString (h : FileAt roots fs s.root p f s) {n o fuel : Nat}
    (hn : o + n < f.length) (hnul : f.byte (o + n) = 0) (hfuel : n < fuel) :
    ∃ name, s.loadString fuel (p + BitVec.ofNat 64 o) = .ok name := by
  induction n generalizing o fuel with
  | zero =>
    obtain ⟨fuel, rfl⟩ := Nat.exists_eq_succ_of_ne_zero (Nat.ne_of_gt hfuel)
    rw [Nat.add_zero] at hn hnul
    refine ⟨[], ?_⟩
    rw [Kernel.loadString, h.loadByte hn, ok_bind, if_pos hnul]
    rfl
  | succ n ih =>
    obtain ⟨fuel, rfl⟩ := Nat.exists_eq_succ_of_ne_zero (show fuel ≠ 0 by omega)
    rw [Kernel.loadString, h.loadByte (by omega), ok_bind]
    split_ifs
    · exact ⟨[], rfl⟩
    · obtain ⟨rest, hrest⟩ := ih (o := o + 1) (by omega)
        (by rwa [show o + 1 + n = o + (n + 1) by omega]) (show n < fuel by omega)
      rw [← add_ofNat_add_ofNat] at hrest
      exact ⟨f.byte o :: rest, by rw [show (1 : Word) = BitVec.ofNat 64 1 from rfl, hrest]; rfl⟩

/-- The first check. The identification is printed as a string, so a NUL has to follow. -/
theorem FileAt.validateElfHeader (h : FileAt roots fs s.root p f s) (hin : f.HeadersInside)
    {n : Nat} (hn : n < f.length) (hnul : f.byte n = 0) (hfuel : n < Vfs.loopFuel) :
    SBUnix.validateElfHeader p s = .ok (decide f.Magic) := by
  have hheader := hin.header
  obtain ⟨name, hname⟩ := h.loadString (o := 0) (n := n) (by rwa [Nat.zero_add])
    (by rwa [Nat.zero_add]) hfuel
  have hfirst := h.loadByte (k := 0) (by omega)
  rw [BitVec.add_zero] at hname hfirst
  unfold SBUnix.validateElfHeader
  rw [hname, ok_bind, hfirst, ok_bind]
  split_ifs with h7f
  · obtain ⟨r, hr, hiff⟩ := strsubcmpLoop_eq (s := s) (q := p + BitVec.ofNat 64 1) (Vfs.str "ELF")
      [f.byte 1, f.byte 2, f.byte 3] rfl fun k hk => by
        have hk' : k < 3 := hk
        rw [add_ofNat_add_ofNat, h.loadByte (by omega)]
        match k, hk' with
        | 0, _ => rfl
        | 1, _ => rfl
        | 2, _ => rfl
    have hcompare : strsubcmp (Vfs.str "ELF") p 1 4 s = .ok r := hr
    rw [hcompare, ok_bind, h.phnum hin]
    by_cases hmagic : r = 0
    · rw [if_pos hmagic, decide_eq_true (show f.Magic from ⟨h7f, hiff.mp hmagic⟩)]
      rfl
    · rw [if_neg hmagic, decide_eq_false (fun hm : f.Magic => hmagic (hiff.mpr hm.2))]
      rfl
  · rw [decide_eq_false (fun hm : f.Magic => h7f hm.1)]
    rfl

/-- The loop over the headers, `n` of them from `i` on. -/
theorem FileAt.loadableLoop (h : FileAt roots fs s.root p f s) (hin : f.HeadersInside)
    {n i fuel : Nat} (hn : i + n = f.phnum) (hfuel : n < fuel) :
    SBUnix.loadableLoop p s fuel i = .ok (decide (f.segmentsFrom i n ≠ [])) := by
  induction n generalizing i fuel with
  | zero =>
    obtain ⟨fuel, rfl⟩ := Nat.exists_eq_succ_of_ne_zero (Nat.ne_of_gt hfuel)
    rw [SBUnix.loadableLoop, h.phnum hin, ok_bind, if_neg (show ¬ i < f.phnum by omega)]
    rfl
  | succ n ih =>
    obtain ⟨fuel, rfl⟩ := Nat.exists_eq_succ_of_ne_zero (show fuel ≠ 0 by omega)
    have hinside : f.phdr i + 56 ≤ f.length := by
      have htable := hin.table
      unfold Image.phdr
      omega
    have htype := h.loadBytes (o := f.phdr i) (n := 4) (by omega)
    -- the fields that are printed
    have hprint : ∀ d : Nat, d + 8 ≤ 56 →
        s.loadBytes (p + BitVec.ofNat 64 (f.phdr i) + BitVec.ofNat 64 d) 8 =
          .ok (f.field (f.phdr i + d) 8) := by
      intro d hd
      rw [add_ofNat_add_ofNat]
      exact h.loadBytes (by omega)
    rw [SBUnix.loadableLoop, h.phnum hin, ok_bind, if_pos (show i < f.phnum by omega),
      h.phdrAddr hin, ok_bind, htype, ok_bind]
    by_cases hload : f.field (f.phdr i) 4 = 1
    · have h16 := hprint 16 (by omega)
      have h24 := hprint 24 (by omega)
      have h40 := hprint 40 (by omega)
      have h32 := hprint 32 (by omega)
      rw [if_pos hload, show (16 : Word) = BitVec.ofNat 64 16 from rfl, h16, ok_bind,
        show (24 : Word) = BitVec.ofNat 64 24 from rfl, h24, ok_bind,
        show (40 : Word) = BitVec.ofNat 64 40 from rfl, h40, ok_bind,
        show (32 : Word) = BitVec.ofNat 64 32 from rfl, h32, ok_bind,
        Image.segmentsFrom_some (if_pos hload) n]
      rfl
    · rw [if_neg hload, Image.segmentsFrom_none (if_neg hload) n]
      exact ih (by omega) (by omega)

/-- The second check: is there a segment? -/
theorem FileAt.checkElfLoadable (h : FileAt roots fs s.root p f s) (hin : f.HeadersInside) :
    SBUnix.checkElfLoadable p s = .ok (decide (f.segments ≠ [])) :=
  h.loadableLoop hin (Nat.zero_add f.phnum) (f.field_lt 56 2)

end FileAt

/-! ## The header table -/

/-- The program header at `off`. -/
def Image.elf64Phdr (f : Image) (off : Nat) : Vma.Elf64Phdr :=
  ⟨BitVec.ofNat 32 (f.field off 4), BitVec.ofNat 64 (f.field (off + 8) 8),
    BitVec.ofNat 64 (f.field (off + 16) 8), BitVec.ofNat 64 (f.field (off + 40) 8)⟩

/-- The header of the file. -/
def Image.elf64Ehdr (f : Image) : Vma.Elf64Ehdr :=
  ⟨BitVec.ofNat 16 f.phnum, BitVec.ofNat 64 (f.field 24 8), fun i => f.elf64Phdr (f.phdr i)⟩

namespace Image

theorem ePhnum_elf64Ehdr (f : Image) : f.elf64Ehdr.ePhnum.toNat = f.phnum := by
  have hlt : f.phnum < 256 ^ 2 := f.field_lt 56 2
  show (BitVec.ofNat 16 f.phnum).toNat = _
  rw [BitVec.toNat_ofNat]
  omega

theorem pType_elf64Ehdr (f : Image) (i : Nat) :
    (f.elf64Ehdr.phdr i).pType = Vma.ptLoad ↔ f.field (f.phdr i) 4 = 1 := by
  have hlt : f.field (f.phdr i) 4 < 256 ^ 4 := f.field_lt _ 4
  rw [← BitVec.toNat_inj]
  show (BitVec.ofNat 32 (f.field (f.phdr i) 4)).toNat = 1 ↔ _
  rw [BitVec.toNat_ofNat]
  omega

theorem loadableFrom_elf64Ehdr (f : Image) (i n : Nat) :
    (Vma.loadableFrom f.elf64Ehdr i n).map Vma.fileVma = (f.segmentsFrom i n).map Segment.area := by
  induction n generalizing i with
  | zero => rfl
  | succ n ih =>
    rw [Vma.loadableFrom_succ]
    by_cases hload : f.field (f.phdr i) 4 = 1
    · rw [if_pos ((f.pType_elf64Ehdr i).mpr hload), segmentsFrom_some (if_pos hload) n,
        List.map_cons, List.map_cons, ih]
      rfl
    · rw [if_neg (mt (f.pType_elf64Ehdr i).mp hload), segmentsFrom_none (if_neg hload) n, ih]

/-- The areas of the table are those of the segments. -/
theorem loadable_elf64Ehdr (f : Image) :
    (Vma.loadable f.elf64Ehdr).map Vma.fileVma = f.segments.map Segment.area := by
  rw [Vma.loadable_eq, ePhnum_elf64Ehdr, loadableFrom_elf64Ehdr]
  rfl

end Image

/-- An area with the offset that is used: that of a file. -/
def VmAreaStruct.used (a : VmAreaStruct) : VmAreaStruct :=
  if a.vmType = .file then a else { a with vmOffset := 0 }

section Agree

variable {roots : Set Frame} {fs : List Frame} {p : Word} {f : Image} {s : Kernel}

theorem FileAt.checkElfLoadable_vma (h : FileAt roots fs s.root p f s) (hin : f.HeadersInside) :
    SBUnix.checkElfLoadable p s = .ok (decide (Vma.checkElfLoadable f.elf64Ehdr = 1)) := by
  have hareas := f.loadable_elf64Ehdr
  rw [h.checkElfLoadable hin]
  unfold Vma.checkElfLoadable
  rw [Vma.loadableLoop_eq, ← Vma.loadable_eq]
  cases hl : Vma.loadable f.elf64Ehdr with
  | nil =>
    rw [hl] at hareas
    rw [List.map_eq_nil_iff.mp hareas.symm]
    rfl
  | cons phdr rest =>
    rw [hl] at hareas
    have hsome : f.segments ≠ [] := by
      rintro hnil
      rw [hnil] at hareas
      cases hareas
    rw [decide_eq_true hsome]
    rfl

/-- `load_elf_vmas` returns one `mm_struct` in both embeddings: the areas behind the links are the
    areas of the list, but for the offsets of the stack and the heap, which nothing stores. -/
theorem LoadReady.loadElfVmas_vma (h : LoadReady roots fs s) (hf : FileAt roots fs s.root p f s)
    (hin : f.HeadersInside) (hlen : 24 + 8 * f.segments.length ≤ fs.length)
    (hwrap : s.topVirtualAddress.toNat + 4096 * (6 + 2 * f.segments.length) < 2 ^ 64)
    (fresh : Nat → Word) (heap : Vma.Heap)
    (hfresh : Vma.Fresh fresh heap.calls (f.segments.length + 3)) :
    ∃ head s' areas, SBUnix.loadElfVmas p s = .ok (head, s') ∧
      Chain (Vma.loadElfVmas fresh p f.elf64Ehdr heap).2.node 0
        ((Vma.loadElfVmas fresh p f.elf64Ehdr heap).2.mm
          (Vma.loadElfVmas fresh p f.elf64Ehdr heap).1).mmap areas ∧
      areas.map (·.2.used) = head.mmap.map VmAreaStruct.used ∧
      ((Vma.loadElfVmas fresh p f.elf64Ehdr heap).2.mm
          (Vma.loadElfVmas fresh p f.elf64Ehdr heap).1).eEntry = head.eEntry ∧
      ((Vma.loadElfVmas fresh p f.elf64Ehdr heap).2.mm
          (Vma.loadElfVmas fresh p f.elf64Ehdr heap).1).elfHead = head.elfHead := by
  have hareas := f.loadable_elf64Ehdr
  have hcount : (Vma.loadable f.elf64Ehdr).length = f.segments.length := by
    simpa using congrArg List.length hareas
  obtain ⟨fs', s', hrun, -⟩ := h.loadElfVmas hf hin hlen hwrap
  obtain ⟨areas, o, o', hchain, hsnd, hentry, hhead, -⟩ :=
    Vma.loadElfVmas_list fresh p f.elf64Ehdr heap (hcount ▸ hfresh)
  refine ⟨_, s', areas, hrun, hchain, ?_, hentry, hhead⟩
  have hused := congrArg (List.map VmAreaStruct.used) hsnd
  rw [List.map_map, hareas, List.map_append] at hused
  refine hused.trans ?_
  show _ = (elfAreas _).map VmAreaStruct.used
  unfold elfAreas
  rw [List.map_append]
  rfl

end Agree

end SBUnix
