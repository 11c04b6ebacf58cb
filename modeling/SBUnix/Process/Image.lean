import SBUnix.Process.Create

/-
  Loading a file that lies in memory.

  `Image` is an ELF file as its bytes, and `Segment` a `PT_LOAD` header of it. `FileAt` says that the
  kernel half has the file at an address; it stays through every step of loading, so the functions of
  `sys/elf64.c` read the fields of the file. `LoadReady.loadElfVmas` is `load_elf_vmas`: one area for
  each segment, then the stack and the heap.
-/

namespace SBUnix

open ByteMem Radix

/-! ## A file -/

/-- An ELF file. -/
structure Image where
  byte : Nat → Byte
  length : Nat

/-- A `PT_LOAD` header. -/
structure Segment where
  vaddr : Nat
  offset : Nat
  filesz : Nat
  memsz : Nat
  deriving DecidableEq, Repr

namespace Image

/-- The little-endian number of `n` bytes at `off`. -/
def field (f : Image) : Nat → Nat → Nat
  | _, 0 => 0
  | off, n + 1 => (f.byte off).toNat + 256 * f.field (off + 1) n

def phoff (f : Image) : Nat := f.field 32 8

def phnum (f : Image) : Nat := f.field 56 2

/-- The offset of program header `i`. -/
def phdr (f : Image) (i : Nat) : Nat := f.phoff + 56 * i

/-- Program header `i`, if it is of type `PT_LOAD`. -/
def segmentAt (f : Image) (i : Nat) : Option Segment :=
  if f.field (f.phdr i) 4 = 1 then
    some ⟨f.field (f.phdr i + 16) 8, f.field (f.phdr i + 8) 8, f.field (f.phdr i + 32) 8,
      f.field (f.phdr i + 40) 8⟩
  else none

/-- The segments of `n` headers from `i` on. -/
def segmentsFrom (f : Image) (i n : Nat) : List Segment := (List.range' i n).filterMap f.segmentAt

def segments (f : Image) : List Segment := f.segmentsFrom 0 f.phnum

/-- The header and the program headers lie in the file. -/
structure HeadersInside (f : Image) : Prop where
  header : 64 ≤ f.length
  table : f.phoff + 56 * f.phnum ≤ f.length

theorem field_lt (f : Image) (off n : Nat) : f.field off n < 256 ^ n := by
  induction n generalizing off with
  | zero => exact Nat.one_pos
  | succ n ih =>
    have hbyte := (f.byte off).isLt
    have hrest := ih (off + 1)
    rw [field, Nat.pow_succ]
    omega

end Image

/-- The area of a segment. -/
def Segment.area (seg : Segment) : VmAreaStruct :=
  ⟨BitVec.ofNat 64 seg.vaddr, BitVec.ofNat 64 seg.vaddr + BitVec.ofNat 64 seg.memsz,
    BitVec.ofNat 64 seg.offset, .file⟩

/-! ## A file in memory -/

/-- In the address space of `r` the file lies at `p`, in data frames of the kernel half. -/
structure FileAt (roots : Set Frame) (fs : List Frame) (r : Frame) (p : Word) (f : Image)
    (s : Kernel) : Prop where
  data : ∀ k < f.length, KernelData roots fs s r (p + BitVec.ofNat 64 k)
  byte : ∀ k < f.length, byteAt s.mem r (p + BitVec.ofNat 64 k) = some (f.byte k)

section FileAt

variable {roots roots' : Set Frame} {fs fs' : List Frame} {r r' : Frame} {p : Word} {f : Image}
  {s s' : Kernel} {o n i : Nat}

/-- Data of the kernel half that is mapped stays mapped. -/
theorem KernelData.of_keeps {v : Word} (h : KernelData roots fs s r v) (hr : r ∈ roots)
    (hkeeps : Keeps roots roots' fs fs' s s') (hb : byteAt s.mem r v ≠ none) :
    KernelData roots' fs' s' r v ∧ byteAt s'.mem r v = byteAt s.mem r v := by
  obtain ⟨g, hg⟩ := Option.ne_none_iff_exists'.mp (mt byteAt_eq_none.mpr hb)
  exact h.keeps hr hkeeps ((hkeeps.kept r hr v g h.slot_ne hg).trans hg.symm)

theorem FileAt.keeps (h : FileAt roots fs r p f s) (hr : r ∈ roots)
    (hkeeps : Keeps roots roots' fs fs' s s') : FileAt roots' fs' r p f s' := by
  have hmapped : ∀ k < f.length, byteAt s.mem r (p + BitVec.ofNat 64 k) ≠ none := by
    intro k hk
    rw [h.byte k hk]
    simp
  refine ⟨fun k hk => ((h.data k hk).of_keeps hr hkeeps (hmapped k hk)).1, fun k hk => ?_⟩
  rw [((h.data k hk).of_keeps hr hkeeps (hmapped k hk)).2, h.byte k hk]

theorem add_ofNat_add_ofNat (p : Word) (j k : Nat) :
    p + BitVec.ofNat 64 j + BitVec.ofNat 64 k = p + BitVec.ofNat 64 (j + k) := by
  rw [BitVec.ofNat_add, BitVec.add_assoc]

/-- A number of the file is read as it is. -/
theorem FileAt.loadBytes (h : FileAt roots fs s.root p f s) (hn : o + n ≤ f.length) :
    s.loadBytes (p + BitVec.ofNat 64 o) n = .ok (f.field o n) := by
  induction n generalizing o with
  | zero => rfl
  | succ n ih =>
    have hrest := ih (o := o + 1) (by omega)
    rw [← add_ofNat_add_ofNat] at hrest
    rw [Kernel.loadBytes, Kernel.loadByte_of_byteAt (h.byte o (by omega)), ok_bind]
    exact congrArg (· >>= _) hrest

theorem FileAt.phnum (h : FileAt roots fs s.root p f s) (hin : f.HeadersInside) :
    s.loadBytes (p + 56) 2 = .ok f.phnum :=
  h.loadBytes (o := 56) (n := 2) (by have := hin.header; omega)

theorem FileAt.phdrAddr (h : FileAt roots fs s.root p f s) (hin : f.HeadersInside) (i : Nat) :
    phdrAddr p i s = .ok (p + BitVec.ofNat 64 (f.phdr i)) := by
  have hphoff := h.loadBytes (o := 32) (n := 8) (by have := hin.header; omega)
  unfold SBUnix.phdrAddr
  rw [show p + 32 = p + BitVec.ofNat 64 32 from rfl, hphoff, ok_bind]
  exact congrArg Except.ok (add_ofNat_add_ofNat p _ _)

/-- The header of a segment, as the loop over the headers reads it. -/
theorem FileAt.fileArea (h : FileAt roots fs s.root p f s) (hi : f.phdr i + 56 ≤ f.length) :
    fileArea (p + BitVec.ofNat 64 (f.phdr i)) s = .ok (Segment.area
      ⟨f.field (f.phdr i + 16) 8, f.field (f.phdr i + 8) 8, f.field (f.phdr i + 32) 8,
        f.field (f.phdr i + 40) 8⟩) := by
  have hread : ∀ d, d + 8 ≤ 56 → s.loadBytes (p + BitVec.ofNat 64 (f.phdr i) + BitVec.ofNat 64 d) 8 =
      .ok (f.field (f.phdr i + d) 8) := by
    intro d hd
    rw [add_ofNat_add_ofNat]
    exact h.loadBytes (by omega)
  have hvaddr := hread 16 (by omega)
  have hmemsz := hread 40 (by omega)
  have hoffset := hread 8 (by omega)
  unfold SBUnix.fileArea
  rw [show (16 : Word) = BitVec.ofNat 64 16 from rfl, show (40 : Word) = BitVec.ofNat 64 40 from rfl,
    show (8 : Word) = BitVec.ofNat 64 8 from rfl, hvaddr, ok_bind, hmemsz, ok_bind, hoffset]
  rfl

end FileAt

/-! ## `load_elf_vmas` -/

namespace Image

theorem segmentsFrom_zero (f : Image) (i : Nat) : f.segmentsFrom i 0 = [] := rfl

theorem segmentsFrom_some {f : Image} {i : Nat} {seg : Segment} (h : f.segmentAt i = some seg)
    (n : Nat) : f.segmentsFrom i (n + 1) = seg :: f.segmentsFrom (i + 1) n := by
  unfold segmentsFrom
  rw [List.range'_succ, List.filterMap_cons, h]

theorem segmentsFrom_none {f : Image} {i : Nat} (h : f.segmentAt i = none) (n : Nat) :
    f.segmentsFrom i (n + 1) = f.segmentsFrom (i + 1) n := by
  unfold segmentsFrom
  rw [List.range'_succ, List.filterMap_cons, h]

end Image

section Load

variable {roots : Set Frame} {fs : List Frame} {p : Word} {f : Image} {s : Kernel}

theorem LoadStep.holds {roots₁ : Set Frame} {fs₁ : List Frame} {s₁ : Kernel} {d c : Nat}
    (h : LoadStep roots roots₁ d c fs fs₁ s s₁) (hs : LoadReady roots fs s)
    (hf : FileAt roots fs s.root p f s) : FileAt roots₁ fs₁ s₁.root p f s₁ := by
  have hroot : s₁.root = s.root := by rw [Kernel.root, h.cr3, Kernel.root]
  rw [hroot]
  exact hf.keeps hs.owned.loaded h.keeps

/-- A struct of one page, which gets two. -/
theorem LoadReady.kmallocTwo (h : LoadReady roots fs s) {size : Word}
    (hsize : (1 + noOfPages size).toNat = 2) (hlen : 8 ≤ fs.length)
    (hwrap : s.topVirtualAddress.toNat + 4096 * 2 < 2 ^ 64) :
    ∃ fs' s', SBUnix.kmallocStruct size s = .ok s' ∧ LoadStep roots roots 2 8 fs fs' s s' :=
  h.kmallocStruct hsize (by omega) hwrap

theorem sizeofVma_pages : (1 + noOfPages sizeofVmAreaStruct).toNat = 2 := by decide

theorem sizeofMm_pages : (1 + noOfPages sizeofMmStruct).toNat = 2 := by decide

/-- The loop over the headers: an area for each segment. -/
theorem LoadReady.vmasLoop {n i fuel : Nat} (h : LoadReady roots fs s)
    (hf : FileAt roots fs s.root p f s) (hin : f.HeadersInside) (hn : i + n = f.phnum)
    (hfuel : n < fuel) (vmas : List VmAreaStruct)
    (hlen : 8 * (f.segmentsFrom i n).length ≤ fs.length)
    (hwrap : s.topVirtualAddress.toNat + 4096 * (2 * (f.segmentsFrom i n).length) < 2 ^ 64) :
    ∃ fs' s', SBUnix.vmasLoop p fuel i vmas s =
        .ok (vmas ++ (f.segmentsFrom i n).map Segment.area, s') ∧
      LoadStep roots roots (2 * (f.segmentsFrom i n).length) (8 * (f.segmentsFrom i n).length)
        fs fs' s s' := by
  induction n generalizing i fuel vmas fs s with
  | zero =>
    obtain ⟨fuel, rfl⟩ := Nat.exists_eq_succ_of_ne_zero (Nat.ne_of_gt hfuel)
    refine ⟨fs, s, ?_, LoadStep.refl h⟩
    rw [SBUnix.vmasLoop, hf.phnum hin, ok_bind, if_neg (show ¬ i < f.phnum by omega),
      Image.segmentsFrom_zero, List.map_nil, List.append_nil]
    rfl
  | succ n ih =>
    obtain ⟨fuel, rfl⟩ := Nat.exists_eq_succ_of_ne_zero (show fuel ≠ 0 by omega)
    have hinside : f.phdr i + 56 ≤ f.length := by
      have htable := hin.table
      unfold Image.phdr
      omega
    have htype := hf.loadBytes (o := f.phdr i) (n := 4) (by omega)
    rw [SBUnix.vmasLoop, hf.phnum hin, ok_bind, if_pos (show i < f.phnum by omega),
      hf.phdrAddr hin, ok_bind, htype, ok_bind]
    by_cases hload : f.field (f.phdr i) 4 = 1
    · have hseg := Image.segmentsFrom_some (if_pos hload) n
      have hcount : (f.segmentsFrom i (n + 1)).length =
          1 + (f.segmentsFrom (i + 1) n).length := by
        rw [hseg, List.length_cons, Nat.add_comm]
      obtain ⟨fs₁, s₁, hrun₁, hstep₁⟩ := h.kmallocTwo sizeofVma_pages (by omega) (by omega)
      have hf₁ := hstep₁.holds h hf
      have hfew := hstep₁.few
      have htop := hstep₁.top
      obtain ⟨fs₂, s₂, hrun₂, hstep₂⟩ := ih hstep₁.ready hf₁ (i := i + 1) (by omega)
        (show n < fuel by omega)
        (vmas ++ [Segment.area ⟨f.field (f.phdr i + 16) 8, f.field (f.phdr i + 8) 8,
          f.field (f.phdr i + 32) 8, f.field (f.phdr i + 40) 8⟩]) (by omega) (by omega)
      refine ⟨fs₂, s₂, ?_, ?_⟩
      · rw [if_pos hload, hrun₁, ok_bind, hf₁.fileArea hinside, ok_bind, hrun₂, hseg,
          List.append_assoc]
        rfl
      · have hstep := hstep₁.trans hstep₂
        rwa [show 2 + 2 * (f.segmentsFrom (i + 1) n).length =
            2 * (f.segmentsFrom i (n + 1)).length by omega,
          show 8 + 8 * (f.segmentsFrom (i + 1) n).length =
            8 * (f.segmentsFrom i (n + 1)).length by omega] at hstep
    · have hseg := Image.segmentsFrom_none (if_neg hload) n
      rw [hseg] at hlen hwrap ⊢
      rw [if_neg hload]
      exact ih h hf (by omega) (by omega) vmas hlen hwrap


/-- `load_elf_vmas` of a file: its segments, the stack and the heap. -/
theorem LoadReady.loadElfVmas (h : LoadReady roots fs s) (hf : FileAt roots fs s.root p f s)
    (hin : f.HeadersInside) (hlen : 24 + 8 * f.segments.length ≤ fs.length)
    (hwrap : s.topVirtualAddress.toNat + 4096 * (6 + 2 * f.segments.length) < 2 ^ 64) :
    ∃ fs' s', SBUnix.loadElfVmas p s =
        .ok (⟨elfAreas (f.segments.map Segment.area), p, BitVec.ofNat 64 (f.field 24 8)⟩, s') ∧
      LoadStep roots roots (6 + 2 * f.segments.length) (24 + 8 * f.segments.length)
        fs fs' s s' := by
  obtain ⟨fs₁, s₁, hrun₁, hstep₁⟩ := h.kmallocTwo sizeofMm_pages (by omega) (by omega)
  have hf₁ := hstep₁.holds h hf
  have hfew₁ := hstep₁.few
  have htop₁ := hstep₁.top
  have hphnum : f.phnum < 2 ^ 16 := f.field_lt 56 2
  obtain ⟨fs₂, s₂, hrun₂, hstep₂⟩ := hstep₁.ready.vmasLoop hf₁ hin (Nat.zero_add f.phnum) hphnum []
    (by
      show 8 * f.segments.length ≤ _
      omega)
    (by
      show s₁.topVirtualAddress.toNat + 4096 * (2 * f.segments.length) < _
      omega)
  have hf₂ := hstep₂.holds hstep₁.ready hf₁
  change LoadStep roots roots (2 * f.segments.length) (8 * f.segments.length) fs₁ fs₂ s₁ s₂ at hstep₂
  have hfew₂ := hstep₂.few
  have htop₂ := hstep₂.top
  obtain ⟨fs₃, s₃, hrun₃, hstep₃⟩ := hstep₂.ready.kmallocTwo sizeofVma_pages (by omega) (by omega)
  have hf₃ := hstep₃.holds hstep₂.ready hf₂
  have hfew₃ := hstep₃.few
  have htop₃ := hstep₃.top
  obtain ⟨fs₄, s₄, hrun₄, hstep₄⟩ := hstep₃.ready.kmallocTwo sizeofVma_pages (by omega) (by omega)
  have hf₄ := hstep₄.holds hstep₃.ready hf₃
  have hentry := hf₄.loadBytes (o := 24) (n := 8) (by have := hin.header; omega)
  refine ⟨fs₄, s₄, ?_, ?_⟩
  · unfold SBUnix.loadElfVmas
    rw [hrun₁, ok_bind, hrun₂, ok_bind]
    dsimp only
    rw [hrun₃, ok_bind, hrun₄, ok_bind, show p + 24 = p + BitVec.ofNat 64 24 from rfl, hentry]
    rfl
  · have hstep := ((hstep₁.trans hstep₂).trans hstep₃).trans hstep₄
    rwa [show 2 + 2 * f.segments.length + 2 + 2 = 6 + 2 * f.segments.length by omega,
      show 8 + 8 * f.segments.length + 8 + 8 = 24 + 8 * f.segments.length by omega] at hstep

end Load

end SBUnix
