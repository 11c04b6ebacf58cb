import SBUnix.Console.Pieces

/-
  Whether `printf` shows what `kprintf` shows.

  Through system call 1 the whole text is one piece of a second format, so nothing in it is a
  newline any more and nothing scrolls in it. For a text without newlines and NULs the two calls
  leave the same screen exactly when `kprintf` has nothing to scroll in the middle of it and leaves
  no digit behind it (`agrees_iff`); with a newline or a NUL there is always a console on which they
  differ.
-/

namespace SBUnix.Console

open ByteMem Libc

/-! ## The console between two calls -/

/-- The console between two calls. -/
structure AtRest (s : Screen) : Prop where
  even : s.videoCardPosition % 2 = 0
  nonneg : 0 ≤ s.videoCardPosition
  scroll : s.scrollForNextCall = true ↔ videoCardEnd ≤ s.videoCardPosition

/-- The same cursor, and the same characters on the screen. -/
def SameScreen (s s' : Screen) : Prop :=
  s.videoCardPosition = s'.videoCardPosition ∧
    ∀ x, 0 ≤ x → x < videoCardEnd → x % 2 = 0 → s.mem x = s'.mem x

/-- Both calls return, and leave the same screen. -/
def Agrees (fmt : Nat → Byte) (args : Nat → Arg) (s : Screen) : Prop :=
  ∃ fuel s₁ s₂, kprintf fuel fmt args s = some s₁ ∧ printf fuel fmt args s = some s₂ ∧
    SameScreen s₁ s₂

/-- Every piece but the last ends on the screen. -/
def LinesFit (video : Int) : List Piece → Prop
  | [] => True
  | p :: ps =>
    (ps ≠ [] → video + 2 * p.width < videoCardEnd) ∧ LinesFit (video + 2 * p.width) ps

/-- `kprintf` has nothing to scroll in the middle of the text, `printf` has nothing to scroll for an
    empty format, and a digit left behind the text is on the screen already. -/
structure Undisturbed (ps : List Piece) (s : Screen) : Prop where
  empty : ps = [] → s.scrollForNextCall = false
  fits : LinesFit (scrollFor s.videoCardPosition s).1 ps
  rest : ∀ c, leftover ps = some c →
    (scrollFor s.videoCardPosition s).1 + 2 * textWidth ps < videoCardEnd →
    (scrollFor s.videoCardPosition s).2.mem
      ((scrollFor s.videoCardPosition s).1 + 2 * textWidth ps) = c

/-! ## One round -/

section Round

variable {video base : Int} {s s₀ : Screen} {p : Piece} {n : Nat} {b : Buffer}

theorem showPiece_advance (h : p ≠ .newline) : (showPiece video s p).1 = video + 2 * p.width := by
  cases p with
  | newline => exact absurd rfl h
  | char c => rfl
  | string str => exact (putString_spec video s str).2
  | int num => exact congrArg (video + ·) (printInt_spec video num s).2
  | hex num => exact congrArg (video + ·) (printHex_spec video num s).2
  | pointer num =>
    have hadv := (printPointer_spec (video + 4) num
      ((s.putCell video (chr '0')).putCell (video + 2) (chr 'x'))).2
    unfold hexWidth at hadv
    simp only [showPiece, Piece.width, hadv]
    omega
  | nothing => exact (Int.add_zero video).symm

/-- A piece leaves the globals alone. -/
theorem showPiece_globals (video : Int) (s : Screen) (p : Piece) :
    (showPiece video s p).2.videoCardPosition = s.videoCardPosition ∧
      (showPiece video s p).2.scrollForNextCall = s.scrollForNextCall := by
  cases p with
  | newline | nothing => exact ⟨rfl, rfl⟩
  | char c => exact ⟨rfl, rfl⟩
  | string str =>
    have hw := (putString_spec video s str).1
    exact ⟨hw.position, hw.scroll⟩
  | int num =>
    have hw := (printInt_spec video num s).1
    exact ⟨hw.position, hw.scroll⟩
  | hex num =>
    have hw := (printHex_spec video num s).1
    exact ⟨hw.position, hw.scroll⟩
  | pointer num =>
    have hw := (printPointer_spec (video + 4) num
      ((s.putCell video (chr '0')).putCell (video + 2) (chr 'x'))).1
    exact ⟨hw.position, hw.scroll⟩

/-- No scroll is due after `scrollFor`. -/
theorem scrollFor_flag (video : Int) (s : Screen) :
    (scrollFor video s).2.scrollForNextCall = false := by
  unfold scrollFor
  split_ifs with h
  · rfl
  · exact Bool.eq_false_iff.mpr h

theorem scrollFor_of_not (h : s.scrollForNextCall = false) : scrollFor video s = (video, s) := by
  unfold scrollFor
  rw [h]
  rfl

theorem scrollFor_le (video : Int) (s : Screen) : (scrollFor video s).1 ≤ video := by
  unfold scrollFor
  split_ifs <;> dsimp only <;> omega

theorem markScroll_mem (video : Int) (s : Screen) : (markScroll video s).mem = s.mem := by
  unfold markScroll
  split_ifs <;> rfl

/-- The mark after a piece. -/
theorem markScroll_iff (h : s.scrollForNextCall = false) :
    (markScroll video s).scrollForNextCall = true ↔ videoCardEnd ≤ video :=
  markScroll_scroll fun htrue => absurd (h.symm.trans htrue) (by decide)

/-- The scroll of the first round can be done before the call. -/
theorem showPieces_scrollFor {ps : List Piece} (h : ps ≠ []) : showPieces video s ps =
    showPieces (scrollFor video s).1 (scrollFor video s).2 ps := by
  cases ps with
  | nil => exact absurd rfl h
  | cons p ps =>
    rw [showPieces, showPieces, scrollFor_of_not (scrollFor_flag video s)]

end Round

/-! ## The buffer on the screen -/

/-- The characters of the buffer are on the screen from `base` on, over what `s₀` shows. -/
structure Shows (base : Int) (s₀ : Screen) (b : Buffer) (s : Screen) : Prop where
  cell : ∀ i : Nat, s.mem (base + 2 * i) = (b i).getD (s₀.mem (base + 2 * i))
  before : ∀ x < base, s.mem x = s₀.mem x

section Shows

variable {base : Int} {s₀ s : Screen} {b : Buffer}

theorem Shows.refl (base : Int) (s : Screen) : Shows base s (fun _ => none) s :=
  ⟨fun _ => rfl, fun _ _ => rfl⟩

theorem Shows.put (h : Shows base s₀ b s) (n : Nat) (c : Byte) :
    Shows base s₀ (b.put n c) (s.putCell (base + 2 * n) c) := by
  have hmem : ∀ x, (s.putCell (base + 2 * n) c).mem x =
      if x = base + 2 * n + 1 then 0 else if x = base + 2 * n then c else s.mem x := fun x => rfl
  refine ⟨fun i => ?_, fun x hx => ?_⟩
  · rw [hmem, if_neg (by omega)]
    by_cases hi : i = n
    · rw [hi, if_pos rfl, b.put_same]
      rfl
    · rw [if_neg (by omega), b.put_of_ne c hi, h.cell]
  · rw [hmem, if_neg (by omega), if_neg (by omega), h.before x hx]

theorem Shows.printPointer (h : Shows base s₀ b s) (n num : Nat) :
    Shows base s₀ (Libc.printPointer n num b).1 (Console.printPointer (base + 2 * n) num s).1 := by
  induction num using Nat.strong_induction_on with
  | _ num ih =>
    have hadv := (printPointer_spec (base + 2 * n) (num / 16) s).2
    rw [Libc.printPointer, Console.printPointer]
    by_cases h0 : num = 0
    · rw [if_pos h0, if_pos h0]
      exact h
    · rw [if_neg h0, if_neg h0]
      dsimp only
      rw [hadv, (printPointer_stored n (num / 16) b).1, hexWidth, Int.add_assoc, ← Int.mul_add,
        ← Int.natCast_add]
      exact (ih (num / 16) (Nat.div_lt_self (by omega) (by decide))).put _ _

theorem Shows.printHex (h : Shows base s₀ b s) (n : Nat) (num : Int) :
    Shows base s₀ (Libc.printHex n num b).1 (Console.printHex (base + 2 * n) num s).1 := by
  induction hm : num.natAbs using Nat.strong_induction_on generalizing num with
  | _ m ih =>
    have hadv := (printHex_spec (base + 2 * n) (num.tdiv 16) s).2
    rw [Libc.printHex, Console.printHex]
    by_cases h0 : num = 0
    · rw [if_pos h0, if_pos h0]
      exact h
    · have hdiv : (num.tdiv 16).natAbs = m / 16 := by
        rw [Int.natAbs_tdiv, hm]
        rfl
      rw [if_neg h0, if_neg h0]
      dsimp only
      rw [hadv, (printHex_stored n (num.tdiv 16) b).1, hexWidth, Int.add_assoc, ← Int.mul_add,
        ← Int.natCast_add]
      exact (ih (m / 16) (Nat.div_lt_self (by omega) (by decide)) _ hdiv).put _ _

theorem Shows.printInt (h : Shows base s₀ b s) (n : Nat) (num : Int) :
    Shows base s₀ (Libc.printInt n num b).1 (Console.printInt (base + 2 * n) num s).1 := by
  induction hm : num.natAbs using Nat.strong_induction_on generalizing n num b s with
  | _ m ih =>
    rw [Libc.printInt, Console.printInt]
    by_cases h0 : num = 0
    · rw [if_pos h0, if_pos h0]
      exact h.put n 48
    have hdiv : ((unsignedInt num).tdiv 10).natAbs = m / 10 := by
      rw [Int.natAbs_tdiv, natAbs_unsignedInt, hm]
      rfl
    have hrec := fun {b s} (h : Shows base s₀ b s) n =>
      ih (m / 10) (Nat.div_lt_self (by omega) (by decide)) h n _ hdiv
    rw [if_neg h0, if_neg h0]
    dsimp only
    generalize (unsignedInt num).tdiv 10 = q at hrec
    by_cases hneg : num < 0
    · have hsub := hrec (h.put n 45) (n + 1)
      rw [show base + 2 * ((n + 1 : Nat) : Int) = base + 2 * n + 2 by omega] at hsub
      simp only [if_pos hneg]
      rw [(printInt_spec (base + 2 * n + 2) q _).2, (printInt_stored (n + 1) q _).1, intAdvance,
        show base + 2 * (n : Int) + 2 = base + 2 * ((n + 1 : Nat) : Int) by omega, Int.add_assoc,
        ← Int.mul_add, ← Int.natCast_add]
      rw [show base + 2 * (n : Int) + 2 = base + 2 * ((n + 1 : Nat) : Int) by omega] at hsub
      exact hsub.put _ _
    · simp only [if_neg hneg]
      rw [(printInt_spec (base + 2 * n) q s).2, (printInt_stored n q b).1, intAdvance,
        Int.add_assoc, ← Int.mul_add, ← Int.natCast_add]
      exact (hrec h n).put _ _

theorem Shows.putString (h : Shows base s₀ b s) (n : Nat) (str : List Byte) :
    Shows base s₀ (Libc.putString n b str).1 (Console.putString (base + 2 * n) s str).1 := by
  induction str generalizing n b s with
  | nil => exact h
  | cons c str ih =>
    have hrest := ih (h.put n c) (n + 1)
    rwa [show base + 2 * ((n + 1 : Nat) : Int) = base + 2 * n + 2 by omega] at hrest

/-- A piece that is stored in the buffer and shown on the screen. -/
theorem Shows.piece (h : Shows base s₀ b s) (n : Nat) {p : Piece} (hp : p ≠ .newline) :
    Shows base s₀ (storePiece n b p).2 (showPiece (base + 2 * n) s p).2 := by
  cases p with
  | newline => exact absurd rfl hp
  | char c => exact h.put n c
  | string str => exact h.putString n str
  | int num => exact h.printInt n num
  | hex num => exact h.printHex n num
  | pointer num =>
    have hzerox := (h.put n (chr '0')).put (n + 1) (chr 'x')
    have hrest := hzerox.printPointer (n + 2) num
    rwa [show base + 2 * ((n + 1 : Nat) : Int) = base + 2 * n + 2 by omega,
      show base + 2 * ((n + 2 : Nat) : Int) = base + 2 * n + 4 by omega] at hrest
  | nothing => exact h

end Shows

/-! ## The cursor -/

section Cursor

variable {ps : List Piece}

/-- `kprintf` never ends behind the text: every scroll moves the cursor up. -/
theorem showPieces_position_le (h : .newline ∉ ps) (video : Int) (s : Screen) :
    (showPieces video s ps).videoCardPosition ≤ video + 2 * textWidth ps := by
  induction ps generalizing video s with
  | nil =>
    rw [showPieces, markScroll_position, textWidth_nil]
    dsimp only
    omega
  | cons p ps ih =>
    have hp : p ≠ .newline := fun he => h (he ▸ List.mem_cons_self)
    have hle := scrollFor_le video s
    rw [showPieces, textWidth_cons, showPiece_advance hp]
    refine (ih (fun he => h (List.mem_cons_of_mem p he)) _ _).trans ?_
    omega

/-- With a scroll to do it ends a line or more before. -/
theorem showPieces_position_scroll (h : .newline ∉ ps) (hne : ps ≠ []) (video : Int) {s : Screen}
    (hflag : s.scrollForNextCall = true) :
    (showPieces video s ps).videoCardPosition + 160 ≤ video + 2 * textWidth ps := by
  rw [showPieces_scrollFor hne]
  have hle := showPieces_position_le h (scrollFor video s).1 (scrollFor video s).2
  have hscroll : (scrollFor video s).1 = video - 160 := by
    unfold scrollFor
    rw [if_pos hflag]
  omega

/-- So it does when a piece before the last reaches the end of the screen. -/
theorem showPieces_position_lt (h : .newline ∉ ps) {video : Int} {s : Screen}
    (hflag : s.scrollForNextCall = false) (hfit : ¬ LinesFit video ps) :
    (showPieces video s ps).videoCardPosition < video + 2 * textWidth ps := by
  induction ps generalizing video s with
  | nil => exact absurd trivial hfit
  | cons p ps ih =>
    have hp : p ≠ .newline := fun he => h (he ▸ List.mem_cons_self)
    have hps : Piece.newline ∉ ps := fun he => h (List.mem_cons_of_mem p he)
    rw [showPieces, textWidth_cons, scrollFor_of_not hflag]
    dsimp only
    have hflag' := (showPiece_globals video s p).2.trans hflag
    generalize ht : (showPiece video s p).2 = t at hflag'
    rw [showPiece_advance hp]
    by_cases hend : videoCardEnd ≤ video + 2 * p.width
    · have hne : ps ≠ [] := by
        rintro rfl
        exact hfit ⟨fun hc => absurd rfl hc, trivial⟩
      have hle := showPieces_position_scroll hps hne (video + 2 * p.width)
        ((markScroll_iff hflag').mpr hend)
      omega
    · have hrest : ¬ LinesFit (video + 2 * p.width) ps := fun hr =>
        hfit ⟨fun _ => Int.not_le.mp hend, hr⟩
      have hlt := ih hps (Bool.eq_false_iff.mpr fun ht => hend ((markScroll_iff hflag').mp ht)) hrest
      omega

/-- Without a scroll in the middle the pieces are shown as they are stored. -/
theorem Shows.pieces (h : .newline ∉ ps) {base : Int} {s₀ s : Screen} {b : Buffer} (n : Nat)
    (hs : Shows base s₀ b s) (hflag : ps ≠ [] → s.scrollForNextCall = false)
    (hfit : LinesFit (base + 2 * n) ps) :
    (showPieces (base + 2 * n) s ps).videoCardPosition = base + 2 * (n + textWidth ps : Nat) ∧
      Shows base s₀ (storePieces n b ps).2 (showPieces (base + 2 * n) s ps) := by
  induction ps generalizing n b s with
  | nil =>
    rw [showPieces, markScroll_position]
    refine ⟨rfl, ?_, ?_⟩
    · rw [markScroll_mem]
      exact hs.cell
    · rw [markScroll_mem]
      exact hs.before
  | cons p ps ih =>
    have hp : p ≠ .newline := fun he => h (he ▸ List.mem_cons_self)
    have hflag₀ := hflag (List.cons_ne_nil p ps)
    have hflag₁ := (showPiece_globals (base + 2 * n) s p).2.trans hflag₀
    have hpiece := hs.piece n hp
    rw [showPieces, storePieces, textWidth_cons, scrollFor_of_not hflag₀]
    dsimp only
    generalize (showPiece (base + 2 * n) s p).2 = t at hpiece hflag₁
    obtain ⟨hnext, hrest⟩ := hfit
    rw [show base + 2 * (n : Int) + 2 * p.width = base + 2 * (n + p.width : Nat) by omega]
      at hnext hrest
    rw [showPiece_advance hp, (storePiece_stored n b p).1,
      show base + 2 * (n : Int) + 2 * p.width = base + 2 * (n + p.width : Nat) by omega,
      ← Nat.add_assoc]
    refine ih (fun he => h (List.mem_cons_of_mem p he)) (n + p.width) ?_ (fun hne => ?_) hrest
    · refine ⟨?_, ?_⟩
      · rw [markScroll_mem]
        exact hpiece.cell
      · rw [markScroll_mem]
        exact hpiece.before
    · refine Bool.eq_false_iff.mpr fun htrue => ?_
      have hend := (markScroll_iff hflag₁).mp htrue
      have hlt := hnext hne
      omega

/-- A text that ends on the screen fits. -/
theorem linesFit_of_lt {video : Int} (h : video + 2 * textWidth ps < videoCardEnd) :
    LinesFit video ps := by
  induction ps generalizing video with
  | nil => trivial
  | cons p ps ih =>
    rw [textWidth_cons] at h
    exact ⟨fun _ => by omega, ih (by omega)⟩

end Cursor

/-! ## Newlines -/

theorem copyLines_position (n : Nat) (p : Int) (s : Screen) :
    (copyLines n p s).videoCardPosition = s.videoCardPosition := by
  induction n generalizing p s with
  | zero => rfl
  | succ n ih => exact ih (p + 1) _

theorem blankLine_position (n : Nat) (p : Int) (s : Screen) :
    (blankLine n p s).videoCardPosition = s.videoCardPosition := by
  induction n generalizing p s with
  | zero => rfl
  | succ n ih =>
    rw [blankLine]
    split_ifs
    · rfl
    · exact ih (p + 2) _

theorem scroll_position (s : Screen) : (scroll s).videoCardPosition = s.videoCardPosition :=
  (blankLine_position _ _ _).trans (copyLines_position _ _ _)

/-- The cursor during a call. -/
structure InCall (video : Int) (s : Screen) : Prop where
  nonneg : 0 ≤ video
  behind : s.videoCardPosition ≤ video
  scroll : s.scrollForNextCall = true → videoCardEnd ≤ video

section Newline

variable {video : Int} {s : Screen}

theorem InCall.scrollFor (h : InCall video s) :
    InCall (scrollFor video s).1 (scrollFor video s).2 := by
  have hflag := scrollFor_flag video s
  refine ⟨?_, ?_, fun htrue => absurd (hflag.symm.trans htrue) (by decide)⟩
  · unfold Console.scrollFor
    split_ifs with hs
    · have hend := h.scroll hs
      unfold videoCardEnd at hend
      dsimp only
      omega
    · exact h.nonneg
  · have hbehind := h.behind
    unfold Console.scrollFor
    split_ifs with hs
    · dsimp only
      rw [scroll_position]
      omega
    · exact hbehind

/-- A newline leads to the start of the next line, whichever way it is computed. -/
theorem showPiece_newline_eq (h : InCall video s) :
    (showPiece video s .newline).1 = 160 * (video / 160 + 1) := by
  have hn := h.nonneg
  have hb := h.behind
  have hline : s.videoCardPosition.tmod 160 = 0 → s.videoCardPosition % 160 = 0 := fun h0 =>
    Int.emod_eq_zero_of_dvd (Int.dvd_of_tmod_eq_zero h0)
  unfold showPiece
  dsimp only
  rw [Int.tmod_eq_emod_of_nonneg hn, Int.tmod_eq_emod_of_nonneg (show 0 ≤ video - _ by omega)]
  split_ifs with h0
  · omega
  · have := hline (not_not.mp h0)
    omega

theorem showPiece_newline (h : InCall video s) :
    (showPiece video s .newline).1 % 160 = 0 ∧ video ≤ (showPiece video s .newline).1 := by
  rw [showPiece_newline_eq h]
  omega

theorem InCall.round (h : InCall video s) (p : Piece) :
    InCall (showPiece (Console.scrollFor video s).1 (Console.scrollFor video s).2 p).1
      (markScroll (showPiece (Console.scrollFor video s).1 (Console.scrollFor video s).2 p).1
        (showPiece (Console.scrollFor video s).1 (Console.scrollFor video s).2 p).2) := by
  have hflag := scrollFor_flag video s
  have h' := h.scrollFor
  generalize Console.scrollFor video s = r at hflag h'
  have hle : r.1 ≤ (showPiece r.1 r.2 p).1 := by
    by_cases hp : p = .newline
    · rw [hp]
      exact (showPiece_newline h').2
    · rw [showPiece_advance hp]
      omega
  obtain ⟨hposition, hsame⟩ := showPiece_globals r.1 r.2 p
  have hn := h'.nonneg
  have hb := h'.behind
  refine ⟨by omega, ?_, (markScroll_iff (hsame.trans hflag)).mp⟩
  rw [markScroll_position, hposition]
  omega

/-- In lines the cursor is where the text ends: a scroll is a whole line. -/
theorem showPieces_position_mod {ps : List Piece} (h : .newline ∉ ps) (video : Int) (s : Screen) :
    (showPieces video s ps).videoCardPosition % 160 = (video + 2 * textWidth ps) % 160 := by
  induction ps generalizing video s with
  | nil =>
    rw [showPieces, markScroll_position, textWidth_nil]
    dsimp only
    omega
  | cons p ps ih =>
    have hp : p ≠ .newline := fun he => h (he ▸ List.mem_cons_self)
    have hscroll : (Console.scrollFor video s).1 % 160 = video % 160 := by
      unfold Console.scrollFor
      split_ifs <;> dsimp only
      omega
    rw [showPieces, textWidth_cons, showPiece_advance hp,
      ih (fun he => h (List.mem_cons_of_mem p he))]
    omega

/-- With a newline the column at the end does not depend on the one at the beginning. -/
theorem showPieces_position_newline {ps : List Piece} (h : .newline ∈ ps) :
    ∃ col, ∀ video s, InCall video s → (showPieces video s ps).videoCardPosition % 160 = col := by
  induction ps with
  | nil => cases h
  | cons p ps ih =>
    by_cases hps : Piece.newline ∈ ps
    · obtain ⟨col, hcol⟩ := ih hps
      exact ⟨col, fun video s hs => hcol _ _ (hs.round p)⟩
    · obtain rfl | hmem := List.mem_cons.mp h
      · refine ⟨2 * textWidth ps % 160, fun video s hs => ?_⟩
        have hline := (showPiece_newline hs.scrollFor).1
        rw [showPieces, showPieces_position_mod hps]
        omega
      · exact absurd hmem hps

end Newline

/-! ## The text of `printf` -/

/-- The text that `printf` gives to the system call: what is stored, up to a NUL. -/
structure PrintedText (ps : List Piece) (text : List Byte) : Prop where
  le : text.length ≤ textWidth ps
  get : ∀ j < text.length, (storePieces 0 (fun _ => none) ps).2 j = text[j]?
  full : (∀ p ∈ ps, p.Plain) → text.length = textWidth ps
  short : (∃ p ∈ ps, p ≠ .newline ∧ ¬ p.Plain) → text.length < textWidth ps

section Text

variable {fmt : Nat → Byte} {args : Nat → Arg} {ps : List Piece}

/-- A text of fewer than 2000 characters, and its NUL, stay in the buffer. -/
theorem buffer_inside (h : textWidth ps < bufferSize) (i : Nat) (hi : bufferSize ≤ i) :
    ((storePieces 0 (fun _ => none) ps).2.put (textWidth ps) 0) i = none := by
  have hstored := (storePieces_stored 0 (fun _ => none) ps).2
  rw [Buffer.put_of_ne _ _ (by omega), hstored.behind i (by omega)]

theorem syscallPrint_eq (text : List Byte) (s : Screen) :
    syscallPrint text s = some (showPieces s.videoCardPosition s [.string text]) := by
  have hreads : Reads stringFormat (fun _ => ⟨text, 0⟩) 0 0 [.string text] :=
    .cons (by decide) (.nil rfl)
  unfold syscallPrint kprintf
  exact (kprintfLoop_eq hreads 2 _ s).trans (if_pos Nat.one_lt_two)

theorem printf_eq (h : Reads fmt args 0 0 ps) (hlen : textWidth ps < bufferSize) :
    ∃ text, PrintedText ps text ∧ ∀ fuel s, printf fuel fmt args s =
      if ps.length < fuel then some (showPieces s.videoCardPosition s [.string text]) else none := by
  obtain ⟨hend, hstored⟩ := storePieces_stored 0 (fun _ => none) ps
  rw [Nat.zero_add] at hend
  generalize hb : (storePieces 0 (fun _ => none) ps).2 = b at hstored
  have hfill : ∀ i < textWidth ps, ∃ c, b.put (textWidth ps) 0 i = some c := by
    intro i hi
    obtain ⟨c, hc, -⟩ := hstored.text i (Nat.zero_le i) (by omega)
    exact ⟨c, by rw [b.put_of_ne 0 hi.ne, hc]⟩
  obtain ⟨text, htext, hle, hget, hiff⟩ := bufferString_spec hfill (b.put_same _ 0)
    (Nat.zero_le _) (show textWidth ps < 0 + bufferSize by omega)
  rw [Nat.zero_add] at hle hiff
  refine ⟨text, ⟨hle, fun j hj => ?_, fun hplain => ?_, fun hbad => ?_⟩, fun fuel s => ?_⟩
  · rw [hb, ← hget j hj, Nat.zero_add, b.put_of_ne 0 (by omega)]
  · refine hiff.mp fun j _ hj hzero => ?_
    obtain ⟨c, hc, hne⟩ := hstored.text j (Nat.zero_le j) (by omega)
    rw [b.put_of_ne 0 hj.ne, hc] at hzero
    exact hne hplain (Option.some.inj hzero)
  · obtain ⟨i, -, hi, hzero⟩ := storePieces_zero hbad 0 (fun _ => none)
    rw [hb] at hzero
    refine lt_of_le_of_ne hle fun heq => hiff.mpr heq i (Nat.zero_le i) (by omega) ?_
    rw [b.put_of_ne 0 (by omega), hzero]
  · obtain ⟨pos, arg, hloop⟩ := printfLoop_eq h fuel 0 fun _ => none
    unfold printf
    rw [hloop, hb, hend]
    split_ifs
    · simp only [Option.bind_eq_bind, Option.bind_some, htext]
      exact syscallPrint_eq text s
    · rfl

theorem agrees_iff_pieces (h : Reads fmt args 0 0 ps) (hlen : textWidth ps < bufferSize) :
    ∃ text, PrintedText ps text ∧ ∀ s, Agrees fmt args s ↔
      SameScreen (showPieces s.videoCardPosition s ps)
        (showPieces s.videoCardPosition s [.string text]) := by
  obtain ⟨text, htext, hprintf⟩ := printf_eq h hlen
  refine ⟨text, htext, fun s => ⟨?_, fun hsame => ?_⟩⟩
  · rintro ⟨fuel, s₁, s₂, h₁, h₂, hsame⟩
    unfold kprintf at h₁
    rw [kprintfLoop_eq h] at h₁
    rw [hprintf] at h₂
    split_ifs at h₁ h₂
    obtain rfl := Option.some.inj h₁
    obtain rfl := Option.some.inj h₂
    exact hsame
  · refine ⟨ps.length + 1, _, _, ?_, ?_, hsame⟩
    · unfold kprintf
      rw [kprintfLoop_eq h, if_pos (Nat.lt_succ_self _)]
    · rw [hprintf, if_pos (Nat.lt_succ_self _)]

end Text

/-! ## When the two agree -/

section Agree

variable {ps : List Piece} {text : List Byte} {s : Screen}

/-- What the second format leaves of a text that is shown whole. -/
theorem shows_text (base : Int) {s₀ : Screen} (hflag : s₀.scrollForNextCall = false)
    (text : List Byte) :
    (showPieces base s₀ [.string text]).videoCardPosition = base + 2 * text.length ∧
      Shows base s₀ (fun i => text[i]?) (showPieces base s₀ [.string text]) := by
  have hnl : Piece.newline ∉ [Piece.string text] := by simp
  have hpieces := Shows.pieces hnl 0 (.refl base s₀) (fun _ => hflag)
    ⟨fun hne => absurd rfl hne, trivial⟩
  rw [Int.natCast_zero, Int.mul_zero, Int.add_zero] at hpieces
  obtain ⟨hposition, hshows⟩ := hpieces
  have hbuffer : (storePieces 0 (fun _ => none) [.string text]).2 = fun i => text[i]? := by
    funext i
    show (Libc.putString 0 (fun _ => none) text).1 i = text[i]?
    rw [(putString_eq 0 _ text).2, if_pos (Nat.zero_le i), Nat.sub_zero, Option.or_none]
  rw [hbuffer] at hshows
  refine ⟨?_, hshows⟩
  rw [hposition, Nat.zero_add]
  rfl

/-- For an empty format only a scroll that is due makes a difference. -/
theorem sameScreen_nil : SameScreen (showPieces s.videoCardPosition s [])
    (showPieces s.videoCardPosition s [.string []]) ↔ s.scrollForNextCall = false := by
  constructor
  · rintro ⟨hposition, -⟩
    rw [showPieces_scrollFor (List.cons_ne_nil _ _),
      (shows_text _ (scrollFor_flag s.videoCardPosition s) []).1, showPieces, markScroll_position]
      at hposition
    refine Bool.eq_false_iff.mpr fun hflag => ?_
    unfold scrollFor at hposition
    rw [if_pos hflag] at hposition
    dsimp only [List.length_nil] at hposition
    omega
  · intro hflag
    simp only [showPieces, showPiece, Console.putString, scrollFor_of_not hflag]
    exact ⟨by rw [markScroll_position, markScroll_position],
      fun x _ _ _ => by rw [markScroll_mem, markScroll_mem]⟩

/-- A text without newlines and NULs. -/
theorem sameScreen_iff (hs : AtRest s) (hplain : ∀ p ∈ ps, p.Plain) (ht : PrintedText ps text) :
    SameScreen (showPieces s.videoCardPosition s ps)
      (showPieces s.videoCardPosition s [.string text]) ↔ Undisturbed ps s := by
  have hlen := ht.full hplain
  by_cases hne : ps = []
  · rw [hne] at hlen ⊢
    obtain rfl := List.eq_nil_of_length_eq_zero hlen
    rw [sameScreen_nil]
    exact ⟨fun h => ⟨fun _ => h, trivial, fun c hc => by cases hc⟩, fun h => h.empty rfl⟩
  have hnl : Piece.newline ∉ ps := fun h => hplain _ h
  have hflag := scrollFor_flag s.videoCardPosition s
  have heven : (scrollFor s.videoCardPosition s).1 % 2 = 0 ∧
      0 ≤ (scrollFor s.videoCardPosition s).1 := by
    have h0 := hs.even
    have h1 := hs.nonneg
    unfold scrollFor
    split_ifs with hscroll
    · have hend := hs.scroll.mp hscroll
      unfold videoCardEnd at hend
      dsimp only
      omega
    · exact ⟨h0, h1⟩
  rw [showPieces_scrollFor hne, showPieces_scrollFor (List.cons_ne_nil (.string text) [])]
  obtain ⟨hposition, htext⟩ := shows_text (scrollFor s.videoCardPosition s).1 hflag text
  have hfits : Undisturbed ps s ↔ LinesFit (scrollFor s.videoCardPosition s).1 ps ∧
      ∀ c, leftover ps = some c →
        (scrollFor s.videoCardPosition s).1 + 2 * textWidth ps < videoCardEnd →
        (scrollFor s.videoCardPosition s).2.mem
          ((scrollFor s.videoCardPosition s).1 + 2 * textWidth ps) = c :=
    ⟨fun h => ⟨h.fits, h.rest⟩, fun h => ⟨fun h0 => absurd h0 hne, h.1, h.2⟩⟩
  rw [hfits]
  generalize scrollFor s.videoCardPosition s = r at *
  obtain ⟨base, s₀⟩ := r
  dsimp only at *
  by_cases hfit : LinesFit base ps
  swap
  · have hlt := showPieces_position_lt hnl hflag hfit
    refine ⟨fun h => ?_, fun h => absurd h.1 hfit⟩
    have hcursor := h.1
    rw [hposition, hlen] at hcursor
    omega
  have hpieces := Shows.pieces hnl 0 (.refl base s₀) (fun _ => hflag) (by simpa using hfit)
  rw [Int.natCast_zero, Int.mul_zero, Int.add_zero, Nat.zero_add] at hpieces
  obtain ⟨hposition', hshown⟩ := hpieces
  obtain ⟨hend, hstored⟩ := storePieces_stored 0 (fun _ => none) ps
  have hrest := hstored.rest
  rw [Nat.zero_add, Option.or_none] at hrest
  have htail : text[textWidth ps]? = none := List.getElem?_eq_none hlen.le
  constructor
  · rintro ⟨-, hmem⟩
    refine ⟨hfit, fun c hc hlt => ?_⟩
    have hcell := hmem (base + 2 * textWidth ps) (by omega) hlt (by omega)
    rw [hshown.cell, htext.cell, htail, hrest, hc] at hcell
    exact hcell.symm
  · rintro ⟨-, hleft⟩
    refine ⟨by rw [hposition, hposition', hlen], fun x _ hx heven' => ?_⟩
    by_cases hbefore : x < base
    · rw [hshown.before x hbefore, htext.before x hbefore]
    obtain ⟨i, rfl⟩ : ∃ i : Nat, x = base + 2 * i := ⟨((x - base) / 2).toNat, by omega⟩
    rw [hshown.cell, htext.cell]
    obtain hlt | rfl | hgt := Nat.lt_trichotomy i (textWidth ps)
    · rw [ht.get i (by omega)]
    · rw [hrest, htail]
      cases hc : leftover ps with
      | none => rfl
      | some c => exact (hleft c hc hx).symm
    · rw [hstored.behind i (by omega), List.getElem?_eq_none (by omega)]

/-- A console at the start of the screen, or two characters on, on which a text with a newline or a
    NUL comes out differently. -/
theorem not_sameScreen (hlen : textWidth ps < bufferSize) (hbad : ¬ ∀ p ∈ ps, p.Plain)
    (ht : PrintedText ps text) : ¬ ∀ s, AtRest s → SameScreen (showPieces s.videoCardPosition s ps)
      (showPieces s.videoCardPosition s [.string text]) := by
  intro hall
  have hrest : ∀ k : Nat, k ≤ 1 → AtRest ⟨fun _ => 0, [], 2 * k, false⟩ := by
    intro k hk
    refine ⟨by dsimp only; omega, by dsimp only; omega, ?_⟩
    refine ⟨fun htrue => absurd htrue Bool.false_ne_true, fun hend => ?_⟩
    unfold videoCardEnd at hend
    dsimp only at hend
    omega
  have hcursor : ∀ k : Nat, k ≤ 1 →
      (showPieces (2 * k) ⟨fun _ => 0, [], 2 * k, false⟩ ps).videoCardPosition =
        2 * k + 2 * text.length := fun k hk =>
    (hall _ (hrest k hk)).1.trans (shows_text _ rfl text).1
  by_cases hnl : Piece.newline ∈ ps
  · -- the column at the end would have to follow the one at the beginning
    obtain ⟨col, hcol⟩ := showPieces_position_newline hnl
    have hin : ∀ k : Nat, k ≤ 1 → InCall (2 * k) ⟨fun _ => 0, [], 2 * k, false⟩ := fun k hk =>
      ⟨by omega, le_rfl, fun htrue => absurd htrue Bool.false_ne_true⟩
    have h₀ := hcol _ _ (hin 0 (by omega))
    have h₁ := hcol _ _ (hin 1 le_rfl)
    rw [hcursor 0 (by omega)] at h₀
    rw [hcursor 1 le_rfl] at h₁
    omega
  · have hshort := ht.short (by
      by_contra hnone
      refine hbad fun p hp => ?_
      by_contra hp'
      exact hnone ⟨p, hp, fun he => hnl (he ▸ hp), hp'⟩)
    have hfit : LinesFit (0 + 2 * ((0 : Nat) : Int)) ps := linesFit_of_lt (by
      unfold bufferSize at hlen
      unfold videoCardEnd
      omega)
    have hpieces := (Shows.pieces hnl 0 (.refl 0 ⟨fun _ => 0, [], 0, false⟩) (fun _ => rfl) hfit).1
    have hsame := hcursor 0 (by omega)
    simp only [Int.natCast_zero, Int.mul_zero, Int.add_zero, Nat.zero_add] at hpieces hsame
    omega

/-- For a text without newlines and NULs the two calls agree on a console exactly when nothing
    disturbs it there; and they agree on every console exactly when there is no newline and no NUL
    in the text and nothing disturbs it on any console. -/
theorem agrees_iff (fmt : Nat → Byte) (args : Nat → Arg) (ps : List Piece)
    (h : Reads fmt args 0 0 ps) (hlen : textWidth ps < bufferSize) :
    ((∀ p ∈ ps, p.Plain) → ∀ s, AtRest s → (Agrees fmt args s ↔ Undisturbed ps s)) ∧
      ((∀ s, AtRest s → Agrees fmt args s) ↔
        (∀ p ∈ ps, p.Plain) ∧ ∀ s, AtRest s → Undisturbed ps s) := by
  obtain ⟨text, ht, hiff⟩ := agrees_iff_pieces h hlen
  have hplain : (∀ p ∈ ps, p.Plain) → ∀ s, AtRest s → (Agrees fmt args s ↔ Undisturbed ps s) :=
    fun hp s hs => (hiff s).trans (sameScreen_iff hs hp ht)
  refine ⟨hplain, fun hall => ?_, fun hcond s hs => (hplain hcond.1 s hs).mpr (hcond.2 s hs)⟩
  have hp : ∀ p ∈ ps, p.Plain := by
    by_contra hbad
    exact not_sameScreen hlen hbad ht fun s hs => (hiff s).mp (hall s hs)
  exact ⟨hp, fun s hs => (hplain hp s hs).mp (hall s hs)⟩

end Agree

theorem atRest_boot (mem : Int → Byte) : AtRest (boot mem).screen :=
  ⟨rfl, le_rfl, (good_boot mem).scroll⟩

/-- One letter, on an empty console. -/
theorem agrees_letterA : Agrees letterA (fun _ => ⟨[], 0⟩) (boot fun _ => 0).screen := by
  have hreads : Reads letterA (fun _ => ⟨[], 0⟩) 0 0 [.char (chr 'A')] :=
    .cons (by decide) (.nil rfl)
  have hplain : ∀ p ∈ [Piece.char (chr 'A')], p.Plain := by
    intro p hp
    obtain rfl := List.mem_singleton.mp hp
    exact (by decide : chr 'A' ≠ 0)
  have hundisturbed : Undisturbed [.char (chr 'A')] (boot fun _ => 0).screen := by
    refine ⟨fun h => absurd h (List.cons_ne_nil _ _), ⟨fun h => absurd rfl h, trivial⟩, ?_⟩
    intro c hc
    cases hc
  exact ((agrees_iff letterA (fun _ => ⟨[], 0⟩) _ hreads (by decide)).1 hplain _
    (atRest_boot _)).mpr hundisturbed

/-- The format `"\n"`. -/
def newlineFormat (i : Nat) : Byte := if i = 0 then chr '\n' else 0

/-- `kprintf` goes to the next line, and `printf` prints a character. -/
theorem not_agrees : ¬ ∀ (fmt : Nat → Byte) (args : Nat → Arg) (ps : List Piece) (s : Screen),
    Reads fmt args 0 0 ps → textWidth ps < bufferSize → AtRest s → Agrees fmt args s := by
  intro hall
  have hreads : Reads newlineFormat (fun _ => ⟨[], 0⟩) 0 0 [.newline] :=
    .cons (by decide) (.nil rfl)
  obtain ⟨text, ht, hiff⟩ := agrees_iff_pieces hreads (by decide)
  have hsame := (hiff (boot fun _ => 0).screen).mp
    (hall _ _ _ _ hreads (by decide) (atRest_boot _))
  have hle := ht.le
  have hline : (showPieces 0 (boot fun _ => 0).screen [.newline]).videoCardPosition = 160 := rfl
  have hcursor := hline.symm.trans (hsame.1.trans (shows_text 0 rfl text).1)
  simp only [textWidth_cons, textWidth_nil, Piece.width] at hle
  omega

/-! ## Consoles that are reached -/

/-- Where the cursor is in a run. -/
structure Aligned (s : State) : Prop where
  good : Good s
  behind : s.screen.videoCardPosition ≤ s.cursor
  position : s.screen.videoCardPosition % 2 = 0
  cursor : s.cursor % 2 = 0

theorem showPiece_even {video : Int} {s : Screen} (h : InCall video s) (heven : video % 2 = 0)
    (p : Piece) : (showPiece video s p).1 % 2 = 0 := by
  by_cases hp : p = .newline
  · have hline := (showPiece_newline h).1
    rw [hp]
    omega
  · rw [showPiece_advance hp]
    omega

/-- A step keeps the cursor at or behind the position that the call started at. -/
theorem behind_step {s s' : State} {e : Event} (hgood : Good s)
    (hbehind : s.screen.videoCardPosition ≤ s.cursor) (hstep : step s e = some s') :
    s'.screen.videoCardPosition ≤ s'.cursor := by
  obtain ⟨screen, call⟩ := s
  cases e with
  | initScreen =>
    cases call with
    | some c => cases hstep
    | none =>
      obtain rfl := Option.some.inj hstep
      exact le_rfl
  | kprintf fmt args =>
    cases call with
    | some c => cases hstep
    | none =>
      obtain rfl := Option.some.inj hstep
      exact le_rfl
  | iterate =>
    cases call with
    | none => cases hstep
    | some c =>
      simp only [Console.step] at hstep
      split_ifs at hstep
      obtain rfl := Option.some.inj hstep
      have hin : InCall c.video screen := ⟨hgood.cursor, hbehind, hgood.scroll.mp⟩
      rw [iterate_eq]
      exact (hin.round (Piece.of c.cur c.conv c.param)).behind
  | ret =>
    cases call with
    | none => cases hstep
    | some c =>
      simp only [Console.step] at hstep
      split_ifs at hstep
      obtain rfl := Option.some.inj hstep
      exact le_rfl

theorem Aligned.step {s s' : State} {e : Event} (h : Aligned s) (hstep : step s e = some s') :
    Aligned s' := by
  have hgood := (step_spec h.good hstep).1
  have hbehind := behind_step h.good h.behind hstep
  obtain ⟨screen, call⟩ := s
  cases e with
  | initScreen =>
    cases call with
    | some c => cases hstep
    | none =>
      obtain rfl := Option.some.inj hstep
      have hposition := (initScreen_globals screen).1
      exact ⟨hgood, hbehind, (congrArg (· % 2) hposition).trans h.position,
        (congrArg (· % 2) hposition).trans h.position⟩
  | kprintf fmt args =>
    cases call with
    | some c => cases hstep
    | none =>
      obtain rfl := Option.some.inj hstep
      exact ⟨hgood, hbehind, h.position, h.position⟩
  | iterate =>
    cases call with
    | none => cases hstep
    | some c =>
      simp only [Console.step] at hstep
      split_ifs at hstep
      obtain rfl := Option.some.inj hstep
      have hin : InCall c.video screen := ⟨h.good.cursor, h.behind, h.good.scroll.mp⟩
      have hscroll : (scrollFor c.video screen).1 % 2 = 0 ∧
          (scrollFor c.video screen).2.videoCardPosition % 2 = 0 := by
        have hvideo : c.video % 2 = 0 := h.cursor
        have hposition : screen.videoCardPosition % 2 = 0 := h.position
        unfold scrollFor
        split_ifs
        · dsimp only
          rw [scroll_position]
          omega
        · exact ⟨hvideo, hposition⟩
      have hglobals := (showPiece_globals (scrollFor c.video screen).1
        (scrollFor c.video screen).2 (Piece.of c.cur c.conv c.param)).1
      rw [iterate_eq] at hgood hbehind ⊢
      refine ⟨hgood, hbehind, ?_, showPiece_even hin.scrollFor hscroll.1 _⟩
      dsimp only
      rw [markScroll_position, hglobals]
      exact hscroll.2
  | ret =>
    cases call with
    | none => cases hstep
    | some c =>
      simp only [Console.step] at hstep
      split_ifs at hstep
      obtain rfl := Option.some.inj hstep
      have hposition : (markScroll c.video
          { screen with videoCardPosition := c.video }).videoCardPosition = c.video :=
        markScroll_position _ _
      refine ⟨hgood, hbehind, ?_, ?_⟩
      · exact (congrArg (· % 2) hposition).trans h.cursor
      · exact (congrArg (· % 2) hposition).trans h.cursor

/-- Every console that is reached between two calls. -/
theorem atRest_of_run {mem : Int → Byte} {es : List Event} {s : State} (h : Run (boot mem) es s)
    (hcall : s.call = none) : AtRest s.screen := by
  have hboot : Aligned (boot mem) := ⟨good_boot mem, le_rfl, rfl, rfl⟩
  have haligned := h.invariant (fun _ _ _ hi hs => Aligned.step hi hs) hboot
  have hcursor : s.cursor = s.screen.videoCardPosition := by
    unfold State.cursor
    rw [hcall]
  have hgood := haligned.good
  exact ⟨haligned.position, hcursor ▸ hgood.cursor, hcursor ▸ hgood.scroll⟩

end SBUnix.Console
