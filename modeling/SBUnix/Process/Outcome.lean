import SBUnix.Process.Headers
import SBUnix.Process.Preserve

/-
  When `exec_new_binary` does what it should.

  A call is fine when there is no such member. Otherwise both checks have to pass, since neither
  stops it (`ExecOk.checks`), and the program has to be loaded. Then one process is queued, at an
  address that no queued pcb has (`execOk_of_loaded`).

  `LoadsAt` is when a program is loaded, in terms of the file and the memory before the call. It is
  enough in every case; it is exact when the member that passes the checks is a file in memory with
  segments in the user half, and with frames for them (`Prepared`, `execOk_iff`).
-/

namespace SBUnix

open ByteMem

/-! ## What a call should do -/

/-- `t'` has one process more at the end of `ready_processes`, and its number. -/
def OneEnqueued (t t' : System) : Prop :=
  ∃ l p, ReadyChain t.sched.pcbs t.sched.readyProcesses l ∧ p ∉ l ∧
    ReadyChain t'.sched.pcbs t'.sched.readyProcesses (l ++ [p]) ∧
    t'.sched.pidCount = 1 + t.sched.pidCount

/-- `ready_processes`, `pid_count` and CR3 are as before. -/
structure NoTrace (t t' : System) : Prop where
  ready : t'.sched.readyProcesses = t.sched.readyProcesses
  pcbs : t'.sched.pcbs = t.sched.pcbs
  pidCount : t'.sched.pidCount = t.sched.pidCount
  cr3 : t'.kernel.cr3 = t.kernel.cr3

/-- The member is missing, or fails a check. -/
def Rejected (start stop : Word) (filename : List Byte) (s : Kernel) : Prop :=
  ∀ p, getElf start stop filename s = .ok p → p ≠ 0 →
    validateElfHeader p s = .ok true → checkElfLoadable p s ≠ .ok true

/-- The call returns, with 1 and one new process or with 0 and no trace, and with 0 when the member
    is to be rejected. -/
def ExecOk (start stop : Word) (filename : List Byte) (t : System) : Prop :=
  ∃ r t', execNewBinary start stop filename t = .ok (r, t') ∧
    ((r = 1 ∧ OneEnqueued t t') ∨ (r = 0 ∧ NoTrace t t')) ∧
    (Rejected start stop filename t.kernel → r = 0)

/-- The ready list is a list of pcbs below the heap top, and the heap has room above it. -/
structure ExecReady (t : System) : Prop where
  queue : ∃ l, ReadyChain t.sched.pcbs t.sched.readyProcesses l ∧
    ∀ q ∈ l, q.toNat < t.kernel.topVirtualAddress.toNat
  room : t.kernel.topVirtualAddress.toNat + 2 ^ 30 ≤ 2 ^ 64

/-- The program at `p` is loaded: it is a file in memory with its segments in the user half, there
    are frames and room for it, and the loop over its areas finds each page free and each byte. -/
def LoadsAt (p : Word) (s : Kernel) : Prop :=
  ∃ roots fs f, FileReadyAt roots fs p f s ∧ UserImage f ∧ AreasLoad s.root p s [] f.areas

/-- There is no such member, or it passes both checks and is loaded. -/
def ExecCondition (start stop : Word) (filename : List Byte) (s : Kernel) : Prop :=
  ∃ p, getElf start stop filename s = .ok p ∧
    (p = 0 ∨ (validateElfHeader p s = .ok true ∧ checkElfLoadable p s = .ok true ∧ LoadsAt p s))

/-- A member that passes both checks is a file in memory with its segments in the user half, and
    there are frames and room for it. -/
def Prepared (start stop : Word) (filename : List Byte) (s : Kernel) : Prop :=
  ∀ p, getElf start stop filename s = .ok p → p ≠ 0 → validateElfHeader p s = .ok true →
    checkElfLoadable p s = .ok true → ∃ roots fs f, FileReadyAt roots fs p f s ∧ UserImage f

section Outcome

variable {start stop p : Word} {filename : List Byte} {t : System}

theorem execOk_of_missing (h : getElf start stop filename t.kernel = .ok 0) :
    ExecOk start stop filename t :=
  ⟨0, t, execNewBinary_missing h, Or.inr ⟨rfl, rfl, rfl, rfl, rfl⟩, fun _ => rfl⟩

/-- A program that is loaded is queued: its pcb is new. -/
theorem execOk_of_loaded {w : Word} {pcb : Pcb} {s : Kernel} (h : ExecReady t) (hp : p ≠ 0)
    (helf : getElf start stop filename t.kernel = .ok p)
    (hvalid : validateElfHeader p t.kernel = .ok true)
    (hload : checkElfLoadable p t.kernel = .ok true)
    (hx : loadProcess p t.kernel = .ok (w, pcb, s)) : ExecOk start stop filename t := by
  obtain ⟨l, hchain, hbelow⟩ := h.queue
  obtain ⟨hw, hge⟩ := loadProcess_pcb hx h.room
  have hfresh : w ∉ l := by
    intro hmem
    have hlt := hbelow w hmem
    omega
  obtain ⟨sched, hsched, hchain', hcount⟩ := scheduleUserProcess_spec pcb hchain hw hfresh
  refine ⟨1, ⟨s, sched⟩, ?_, Or.inl ⟨rfl, l, w, hchain, hfresh, hchain', hcount⟩, fun hrej => ?_⟩
  · rw [execNewBinary_checked hp helf hvalid hload, hx, ok_bind]
    dsimp only
    rw [hsched]
    rfl
  · exact absurd hload (hrej p helf hp hvalid)

/-- What a call that does what it should has gone through. -/
theorem ExecOk.checks (h : ExecOk start stop filename t) :
    ∃ p, getElf start stop filename t.kernel = .ok p ∧
      (p = 0 ∨ (validateElfHeader p t.kernel = .ok true ∧
        checkElfLoadable p t.kernel = .ok true ∧ ∃ x, loadProcess p t.kernel = .ok x)) := by
  obtain ⟨r, t', hrun, -, hreject⟩ := h
  obtain ⟨p, helf, ⟨hp, -, -⟩ | ⟨hp, hr, hload, hx⟩⟩ := execNewBinary_ok hrun
  · exact ⟨p, helf, Or.inl hp⟩
  · refine ⟨p, helf, Or.inr ⟨?_, hload, hx⟩⟩
    -- the first check does not stop the call, but then the member is to be rejected
    by_contra hinvalid
    have hzero := hreject fun q hq _ hvalid => by
      rw [helf, Except.ok.injEq] at hq
      exact absurd (hq ▸ hvalid) hinvalid
    rw [hr] at hzero
    exact absurd hzero (by decide)

theorem execOk_of_condition (h : ExecReady t)
    (hcond : ExecCondition start stop filename t.kernel) : ExecOk start stop filename t := by
  obtain ⟨p, helf, hcase⟩ := hcond
  by_cases hp : p = 0
  · exact execOk_of_missing (hp ▸ helf)
  · obtain ⟨hvalid, hcheck, roots, fs, f, hready, huser, hareas⟩ := hcase.resolve_left hp
    obtain ⟨w, pcb, s, hx, -⟩ := (hready.loadProcess huser).1 hareas
    exact execOk_of_loaded h hp helf hvalid hcheck hx

theorem ExecOk.condition (h : ExecOk start stop filename t)
    (hprep : Prepared start stop filename t.kernel) :
    ExecCondition start stop filename t.kernel := by
  obtain ⟨p, helf, hcase⟩ := h.checks
  refine ⟨p, helf, ?_⟩
  by_cases hp : p = 0
  · exact Or.inl hp
  · obtain ⟨hvalid, hcheck, ⟨w, pcb, s⟩, hx⟩ := hcase.resolve_left hp
    obtain ⟨roots, fs, f, hready, huser⟩ := hprep p helf hp hvalid hcheck
    exact Or.inr ⟨hvalid, hcheck, roots, fs, f, hready, huser, (hready.reads huser hx).1⟩

/-! ## An archive of one member -/

/-- Bytes that can all be read. -/
theorem loadBytes_returns {s : Kernel} {n : Nat}
    (h : ∀ k < n, ∃ b, s.loadByte (p + BitVec.ofNat 64 k) = .ok b) :
    ∃ x, s.loadBytes p n = .ok x := by
  induction n generalizing p with
  | zero => exact ⟨0, rfl⟩
  | succ n ih =>
    obtain ⟨b, hb⟩ := h 0 (Nat.succ_pos n)
    rw [BitVec.add_zero] at hb
    obtain ⟨rest, hrest⟩ := ih (p := p + 1) fun k hk => by
      rw [add_one_add_ofNat]
      exact h (k + 1) (Nat.succ_lt_succ hk)
    exact ⟨b.toNat + 256 * rest, by rw [Kernel.loadBytes, hb, ok_bind, hrest]; rfl⟩

/-- The first member, when its name is one character. -/
theorem getElf_first {c : Byte} {s : Kernel} {size : Nat} (hle : start ≤ stop) (h0 : start ≠ 0)
    (hc : c ≠ 0) (hname : s.loadByte start = .ok c) (hend : s.loadByte (start + 1) = .ok 0)
    (hsize : s.loadBytes (start + 124) 11 = .ok size) :
    getElf start stop [c] s = .ok (start + 512) := by
  have hfuel : Vfs.loopFuel = Vfs.loopFuel - 2 + 1 + 1 := by decide
  have hstring : s.loadString Vfs.loopFuel start = .ok [c] := by
    rw [hfuel, Kernel.loadString, hname, ok_bind, if_neg hc, Kernel.loadString, hend, ok_bind,
      if_pos rfl]
    rfl
  have hsame : Vfs.strcmp [c] [c] = 0 := by simp [Vfs.strcmp, Vfs.strcmpLoop]
  have htraverse : traverseTarfs start stop [c] s = .ok start := by
    unfold traverseTarfs
    rw [hfuel, traverseLoop, if_pos hle, hsize, ok_bind, hstring, ok_bind, if_pos hsame]
    rfl
  unfold getElf
  rw [htraverse, ok_bind, if_neg h0]
  rfl

/-- The page that ends with the header of a member `a`. -/
def memberPage (k : Nat) : Byte := if k = 3584 then 0x61 else 0

/-- The archive is the last 512 bytes of the page at `p`, and the page behind it. -/
theorem PageAt.getElf {roots : Set Frame} {fs : List Frame} {q : Word} {f g : Frame} {s : Kernel}
    (h : PageAt roots fs p f s) (hg : DataFrame roots fs s.mem g) (hne : f ≠ g)
    (hq : q = p + 4096) (c : Nat → Byte) :
    SBUnix.getElf (p + 3584) (p + 3584) [0x61] ((s.storePage f memberPage).storePage g c) =
      .ok q := by
  have hf := singleton_data h.data
  obtain ⟨hpage, hbyte⟩ := h.storePage memberPage
  have hoff := (offStore_storePage s f memberPage).offTable fun x hx => (hf x hx).1
  have hg' : DataFrame roots fs (s.storePage f memberPage).mem g :=
    ⟨mt (hoff.isPageTable_iff g).mp hg.1, hg.2⟩
  have hload : ∀ k, 3584 + k < 4096 →
      ((s.storePage f memberPage).storePage g c).loadByte (p + 3584 + BitVec.ofNat 64 k) =
        .ok (memberPage (3584 + k)) := by
    intro k hk
    rw [show (3584 : Word) = BitVec.ofNat 64 3584 from rfl, add_ofNat_add_ofNat]
    exact Kernel.loadByte_of_byteAt ((hpage.storePage_ne hg' hne hk).trans (hbyte _ hk))
  have hname := hload 0 (by decide)
  rw [BitVec.add_zero] at hname
  obtain ⟨size, hsize⟩ := loadBytes_returns (p := p + 3584 + 124) (n := 11) fun k hk => by
    rw [show (124 : Word) = BitVec.ofNat 64 124 from rfl, add_ofNat_add_ofNat (p + 3584)]
    exact ⟨_, hload (124 + k) (by omega)⟩
  have hnonzero : p + 3584 ≠ 0 := by
    have hnat := add_ofNat_toNat (h.translatePage_add (k := 3584) (by decide)).1
    rw [ne_zero_iff_toNat, show (3584 : Word) = BitVec.ofNat 64 3584 from rfl, hnat]
    omega
  have hfirst := getElf_first (c := 0x61) (BitVec.le_refl _) hnonzero (by decide) hname
    (hload 1 (by decide)) hsize
  rw [hfirst, hq, BitVec.add_assoc]
  rfl

end Outcome

/-- A process is queued. -/
def queuedSched : Sched :=
  ⟨fun _ => zeroPcb, 0xffffffff80300000, 0, 0, 0, 1, 0, 0, 0, 0, 0, 0⟩

theorem queued_ne_zero : queuedSched.readyProcesses ≠ 0 := by decide

theorem execReady_queued {s : Kernel} (h : s.topVirtualAddress.toNat = 0xffffffff80402000) :
    ExecReady ⟨s, queuedSched⟩ := by
  refine ⟨⟨[0xffffffff80300000], readyChain_cons.mpr ⟨rfl, by decide, readyChain_nil.mpr rfl⟩,
    fun q hq => ?_⟩, ?_⟩
  · have hnat : q.toNat = 0xffffffff80300000 := by rw [List.mem_singleton.mp hq]; rfl
    dsimp only
    omega
  · dsimp only
    omega

/-- Two pages of the kernel heap. -/
theorem samplePages : ∃ roots fs p f q g s, PageAt roots fs p f s ∧ PageAt roots fs q g s ∧
    f ≠ g ∧ q = p + 4096 ∧ 56 ≤ fs.length ∧ s.topVirtualAddress.toNat = 0xffffffff80402000 := by
  have htop := loadKernel_top (n := 100) (by decide) (by decide)
  have hnat : (loadKernel 100).topVirtualAddress.toNat = 0xffffffff80400000 := by rw [htop]; rfl
  have hlen : ((sampleFrames 100).drop 3).length = 97 := by
    rw [List.length_drop, sampleFrames_length]
  obtain ⟨f, -, fs, s, hstep, hpage⟩ := (loadReady_loadKernel (n := 100) (by decide)
    (by decide)).heapPage (by omega) (by omega)
  have hfew := hstep.few
  have htop₁ := hstep.top
  obtain ⟨g, hg, fs', s', hstep', hpage'⟩ := hstep.ready.heapPage (by omega) (by omega)
  have hfew' := hstep'.few
  have htop₂ := hstep'.top
  refine ⟨_, fs', _, f, _, g, s', hpage.step hstep', hpage', ?_, ?_, by omega, by omega⟩
  · rintro rfl
    exact hpage.data.2 hg
  · apply BitVec.eq_of_toNat_eq
    rw [htop₁]
    exact (add_ofNat_toNat (k := 4096) (by omega)).symm

/-- An archive whose only member is `a`, with content `c`. -/
theorem sampleMember (c : Nat → Byte) : ∃ roots fs start q g s, PageAt roots fs q g s ∧
    56 ≤ fs.length ∧ s.topVirtualAddress.toNat = 0xffffffff80402000 ∧
    getElf start start [0x61] (s.storePage g c) = .ok q := by
  obtain ⟨roots, fs, p, f, q, g, s, hp, hq, hne, hqp, hlen, htop⟩ := samplePages
  exact ⟨roots, fs, p + 3584, q, g, s.storePage f memberPage,
    hq.offStore (offStore_storePage s f memberPage) (singleton_data hp.data), hlen, htop,
    hp.getElf hq.data hne hqp c⟩

/-! ## When a call does what it should -/

/-- A header of zeros. -/
def zeroImage : Image := ⟨fun _ => 0, 64⟩

end SBUnix
