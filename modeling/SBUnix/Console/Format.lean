import SBUnix.Console.Pieces

/-
  How far a format is read.

  A `%` takes the character behind it along, and the loops of `kprintf` and `printf` go on behind
  both of them, even when the second one is the NUL. So they stay inside the format exactly when the
  number of `%` at its end is even (`scanInside_iff`). Both loops are a `Scanner`, whose positions
  are those of `Scans`.
-/

namespace SBUnix.Console

open ByteMem

/-- The first NUL of the format is at `n`. -/
structure EndsAt (fmt : Nat → Byte) (n : Nat) : Prop where
  nul : fmt n = 0
  before : ∀ i < n, fmt i ≠ 0

/-- A round at `pos` reads `*fmt`, and the character behind a `%`. -/
def ReadsUpTo (fmt : Nat → Byte) (n pos : Nat) : Prop :=
  pos ≤ n ∧ (fmt pos = chr '%' → pos + 1 ≤ n)

/-- The number of `%` right before `n`. -/
def trailing (fmt : Nat → Byte) : Nat → Nat
  | 0 => 0
  | n + 1 => if fmt n = chr '%' then trailing fmt n + 1 else 0

/-! ## Positions -/

/-- The positions that a loop over the format comes to. -/
inductive Scans (fmt : Nat → Byte) : Nat → Prop
  | start : Scans fmt 0
  | next {pos : Nat} : Scans fmt pos → fmt pos ≠ 0 → Scans fmt (pos + readChars (fmt pos))

section Scans

variable {fmt : Nat → Byte} {n pos : Nat}

theorem trailing_percent (h : fmt n = chr '%') : trailing fmt (n + 1) = trailing fmt n + 1 :=
  if_pos h

theorem trailing_other (h : fmt n ≠ chr '%') : trailing fmt (n + 1) = 0 := if_neg h

theorem Scans.percent (h : Scans fmt pos) (hpct : fmt pos = chr '%') : Scans fmt (pos + 2) := by
  have hnext := h.next (by rw [hpct]; decide)
  rwa [readChars, if_pos hpct] at hnext

theorem Scans.other (h : Scans fmt pos) (hpct : fmt pos ≠ chr '%') (h0 : fmt pos ≠ 0) :
    Scans fmt (pos + 1) := by
  have hnext := h.next h0
  rwa [readChars, if_neg hpct] at hnext

/-- A character of the format starts a round, or belongs to the `%` before it. -/
theorem scans_or (h : ∀ i < n, fmt i ≠ 0) :
    (Even (trailing fmt n) ∧ Scans fmt n) ∨
      (¬ Even (trailing fmt n) ∧ ∃ k, n = k + 1 ∧ fmt k = chr '%' ∧ Scans fmt k) := by
  induction n with
  | zero => exact Or.inl ⟨Even.zero, .start⟩
  | succ n ih =>
    have h0 := h n (Nat.lt_succ_self n)
    obtain ⟨heven, hscan⟩ | ⟨hodd, k, rfl, hk, hscan⟩ := ih fun i hi => h i (by omega)
    · by_cases hpct : fmt n = chr '%'
      · rw [trailing_percent hpct]
        refine Or.inr ⟨?_, n, rfl, hpct, hscan⟩
        rw [Nat.even_add_one]
        exact not_not.mpr heven
      · rw [trailing_other hpct]
        exact Or.inl ⟨Even.zero, hscan.other hpct h0⟩
    · by_cases hpct : fmt (k + 1) = chr '%'
      · rw [trailing_percent hpct]
        exact Or.inl ⟨Nat.even_add_one.mpr hodd, hscan.percent hk⟩
      · rw [trailing_other hpct]
        exact Or.inl ⟨Even.zero, hscan.percent hk⟩

/-- With an even number of `%` at the end, every round starts inside the format. -/
theorem Scans.inside (h : EndsAt fmt n) (heven : Even (trailing fmt n)) (hs : Scans fmt pos) :
    pos ≤ n ∧ Even (trailing fmt pos) := by
  induction hs with
  | start => exact ⟨Nat.zero_le n, Even.zero⟩
  | @next pos _ h0 ih =>
    obtain ⟨hle, hpos⟩ := ih
    have hlt : pos < n := by
      refine lt_of_le_of_ne hle ?_
      rintro rfl
      exact h0 h.nul
    by_cases hpct : fmt pos = chr '%'
    · have hodd : ¬ Even (trailing fmt (pos + 1)) := by
        rw [trailing_percent hpct, Nat.even_add_one]
        exact not_not.mpr hpos
      have hlt' : pos + 1 < n := by
        refine lt_of_le_of_ne hlt ?_
        rintro rfl
        exact hodd heven
      rw [readChars, if_pos hpct]
      refine ⟨hlt', ?_⟩
      by_cases hpct' : fmt (pos + 1) = chr '%'
      · rw [trailing_percent hpct']
        exact Nat.even_add_one.mpr hodd
      · rw [trailing_other hpct']
        exact Even.zero
    · rw [readChars, if_neg hpct, trailing_other hpct]
      exact ⟨hlt, Even.zero⟩

end Scans

/-! ## Loops over a format -/

/-- A loop over a format, with its next position. -/
structure Scanner (σ : Type) where
  fmt : σ → Nat → Byte
  pos : σ → Nat
  round : σ → σ
  fmt_round : ∀ t, fmt (round t) = fmt t
  pos_round : ∀ t, pos (round t) = pos t + readChars (fmt t (pos t))

namespace Scanner

variable {σ : Type} (L : Scanner σ) {s t : σ} {fmt : Nat → Byte} {n p : Nat}

/-- The states at the start of a round: the loop goes on until it reads a NUL. -/
inductive Reaches (s : σ) : σ → Prop
  | start : Reaches s s
  | round {t : σ} : Reaches s t → L.fmt t (L.pos t) ≠ 0 → Reaches s (L.round t)

/-- From `s` on the loop reads nothing behind `n`, and stops there. -/
def Inside (n : Nat) (s : σ) : Prop :=
  (∀ t, L.Reaches s t → ReadsUpTo (L.fmt s) n (L.pos t)) ∧ ∃ t, L.Reaches s t ∧ L.pos t = n

variable {L}

theorem Reaches.scans (h : L.Reaches s t) (h0 : L.pos s = 0) :
    L.fmt t = L.fmt s ∧ Scans (L.fmt s) (L.pos t) := by
  induction h with
  | start => exact ⟨rfl, h0 ▸ .start⟩
  | round _ hne ih =>
    obtain ⟨hfmt, hscan⟩ := ih
    rw [L.fmt_round, L.pos_round, hfmt]
    rw [hfmt] at hne
    exact ⟨rfl, hscan.next hne⟩

theorem reached_of_scans (h : Scans (L.fmt s) p) (h0 : L.pos s = 0) :
    ∃ t, L.Reaches s t ∧ L.pos t = p := by
  induction h with
  | start => exact ⟨s, .start, h0⟩
  | next _ hne ih =>
    obtain ⟨t, ht, rfl⟩ := ih
    have hfmt := (ht.scans h0).1
    refine ⟨L.round t, ht.round (by rwa [hfmt]), ?_⟩
    rw [L.pos_round, hfmt]

/-- A loop that starts at the start of the format. -/
theorem inside_iff (h : EndsAt (L.fmt s) n) (h0 : L.pos s = 0) :
    L.Inside n s ↔ Even (trailing (L.fmt s) n) := by
  constructor
  · intro hin
    obtain ⟨heven, -⟩ | ⟨-, k, rfl, hk, hscan⟩ := scans_or h.before
    · exact heven
    · -- the last `%` takes the NUL along
      obtain ⟨t, ht, hpos⟩ := reached_of_scans (hscan.percent hk) h0
      have hle := (hin.1 t ht).1
      omega
  · intro heven
    refine ⟨fun t ht => ?_, ?_⟩
    · obtain ⟨hle, -⟩ := (ht.scans h0).2.inside h heven
      refine ⟨hle, fun hpct => Nat.succ_le_of_lt (lt_of_le_of_ne hle fun heq => ?_)⟩
      rw [heq, h.nul] at hpct
      exact absurd hpct (by decide)
    · obtain ⟨-, hscan⟩ | ⟨hodd, -⟩ := scans_or h.before
      · exact reached_of_scans hscan h0
      · exact absurd heven hodd

end Scanner

/-! ## `kprintf` and `printf` -/

/-- The loop of `kprintf`. -/
def kprintfScanner : Scanner (Call × Screen) where
  fmt t := t.1.fmt
  pos t := t.1.pos
  round t := iterate t.1 t.2
  fmt_round t := by rw [iterate_eq]
  pos_round t := by
    rw [iterate_eq]
    rfl

/-- The loop of `printf`. -/
def printfScanner : Scanner Libc.Printf where
  fmt := Libc.Printf.fmt
  pos := Libc.Printf.pos
  round := Libc.iterate
  fmt_round f := by rw [Libc.iterate_eq]
  pos_round f := by
    rw [Libc.iterate_eq]
    rfl

/-- Neither loop reads the format behind its NUL at `n`, whatever the arguments and the screen, and
    both stop there. -/
def ScanInside (fmt : Nat → Byte) (n : Nat) : Prop :=
  (∀ args s, kprintfScanner.Inside n (⟨fmt, args, 0, 0, s.videoCardPosition⟩, s)) ∧
    ∀ args, printfScanner.Inside n ⟨fmt, args, 0, 0, 0, fun _ => none⟩

/-- The loops stay inside the format exactly when the number of `%` at its end is even. -/
theorem scanInside_iff (fmt : Nat → Byte) (n : Nat) (h : EndsAt fmt n) :
    ScanInside fmt n ↔ Even (trailing fmt n) := by
  constructor
  · rintro ⟨-, hprintf⟩
    exact (Scanner.inside_iff h rfl).mp (hprintf fun _ => ⟨[], 0⟩)
  · exact fun heven => ⟨fun args s => (Scanner.inside_iff h rfl).mpr heven,
      fun args => (Scanner.inside_iff h rfl).mpr heven⟩

/-- `"%%"`. -/
def twoPercents (i : Nat) : Byte := if i < 2 then chr '%' else 0

theorem endsAt_twoPercents : EndsAt twoPercents 2 := ⟨rfl, by decide⟩

theorem scanInside_twoPercents : ScanInside twoPercents 2 :=
  (scanInside_iff twoPercents 2 endsAt_twoPercents).mpr (by decide)

/-- `"%"`. -/
def onePercent (i : Nat) : Byte := if i = 0 then chr '%' else 0

theorem not_scanInside : ¬ ∀ (fmt : Nat → Byte) (n : Nat), EndsAt fmt n → ScanInside fmt n := by
  intro hall
  have hend : EndsAt onePercent 1 := ⟨rfl, by decide⟩
  obtain ⟨-, hprintf⟩ := hall onePercent 1 hend
  have heven := (Scanner.inside_iff (L := printfScanner)
    (s := ⟨onePercent, fun _ => ⟨[], 0⟩, 0, 0, 0, fun _ => none⟩) hend rfl).mp (hprintf _)
  exact absurd heven (by decide)

end SBUnix.Console
