import SBUnix.Console.Agree

/-
  Text in several calls.

  `kprintf` computes a newline from where its call started, and scrolls one round late, also from
  one call to the next. Neither shows: as long as the cursor is not before the start of the call, a
  newline leads to the next line however it is computed (`showPiece_newline_eq`), and the mark for
  the next scroll says where the cursor is. So two calls leave what one call with both texts leaves
  (`kprintf_split`).
-/

namespace SBUnix.Console

open ByteMem

/-- A string as a format. -/
def text (str : List Byte) (i : Nat) : Byte := (str[i]?).getD 0

/-- No NUL and no `%`. -/
def PlainText (str : List Byte) : Prop := ∀ b ∈ str, b ≠ 0 ∧ b ≠ chr '%'

/-- The same video memory, cursor and scroll to do. -/
structure SameConsole (s s' : Screen) : Prop where
  mem : s.mem = s'.mem
  position : s.videoCardPosition = s'.videoCardPosition
  scroll : s.scrollForNextCall = s'.scrollForNextCall

/-! ## Characters -/

/-- What is printed for a character. -/
def Piece.ofChar (b : Byte) : Piece := if b = chr '\n' then .newline else .char b

theorem PlainText.cons {b : Byte} {str : List Byte} (h : PlainText (b :: str)) :
    (b ≠ 0 ∧ b ≠ chr '%') ∧ PlainText str :=
  ⟨h b List.mem_cons_self, fun c hc => h c (List.mem_cons_of_mem b hc)⟩

theorem PlainText.append {a b : List Byte} (ha : PlainText a) (hb : PlainText b) :
    PlainText (a ++ b) := by
  intro c hc
  obtain hc | hc := List.mem_append.mp hc
  · exact ha c hc
  · exact hb c hc

/-- A character behind the ones that were read. -/
theorem text_append_cons (before : List Byte) (b : Byte) (str : List Byte) :
    text (before ++ b :: str) before.length = b := by
  unfold text
  rw [List.getElem?_append_right le_rfl, Nat.sub_self]
  rfl

theorem reads_rest (before : List Byte) {str : List Byte} (h : PlainText str) (args : Nat → Arg)
    (arg : Nat) : Reads (text (before ++ str)) args before.length arg (str.map Piece.ofChar) := by
  induction str generalizing before with
  | nil =>
    refine .nil ?_
    rw [List.append_nil]
    unfold text
    rw [List.getElem?_eq_none le_rfl]
    rfl
  | cons b str ih =>
    obtain ⟨⟨h0, hpct⟩, hstr⟩ := h.cons
    have hb := text_append_cons before b str
    have hrest := ih (before ++ [b]) hstr
    rw [List.append_assoc, List.singleton_append, List.length_append, List.length_singleton]
      at hrest
    have hpiece : Piece.ofChar b = Piece.of (text (before ++ b :: str) before.length)
        (text (before ++ b :: str) (before.length + 1)) (args arg) := by
      rw [hb, Piece.of, if_neg hpct]
      rfl
    rw [List.map_cons, hpiece]
    refine .cons (by rwa [hb]) ?_
    rw [hb, readChars, readArgs, if_neg hpct, if_neg hpct]
    exact hrest

/-- A plain text prints its characters. -/
theorem reads_text {str : List Byte} (h : PlainText str) (args : Nat → Arg) :
    Reads (text str) args 0 0 (str.map Piece.ofChar) := reads_rest [] h args 0

/-! ## What a round depends on -/

theorem copyLines_mem {s s' : Screen} (h : s.mem = s'.mem) (n : Nat) (p : Int) :
    (copyLines n p s).mem = (copyLines n p s').mem := by
  induction n generalizing p s s' with
  | zero => exact h
  | succ n ih =>
    refine ih ?_ (p + 1)
    unfold Screen.put
    rw [h]

theorem blankLine_mem {s s' : Screen} (h : s.mem = s'.mem) (n : Nat) (p : Int) :
    (blankLine n p s).mem = (blankLine n p s').mem := by
  induction n generalizing p s s' with
  | zero => exact h
  | succ n ih =>
    rw [blankLine, blankLine]
    split_ifs
    · exact h
    · refine ih ?_ (p + 2)
      unfold Screen.put
      rw [h]

theorem scroll_mem {s s' : Screen} (h : s.mem = s'.mem) : (scroll s).mem = (scroll s').mem := by
  unfold scroll
  exact blankLine_mem (copyLines_mem h _ _) _ _

section Round

variable {video : Int} {s s' : Screen}

/-- A scroll is done alike wherever the call started. -/
theorem scrollFor_congr (video : Int) (hmem : s.mem = s'.mem)
    (hscroll : s.scrollForNextCall = s'.scrollForNextCall) :
    (scrollFor video s).1 = (scrollFor video s').1 ∧
      (scrollFor video s).2.mem = (scrollFor video s').2.mem := by
  unfold scrollFor
  rw [hscroll]
  split_ifs
  · dsimp only
    exact ⟨rfl, scroll_mem hmem⟩
  · exact ⟨rfl, hmem⟩

/-- So is a character, and a newline. -/
theorem showPiece_congr (h : InCall video s) (h' : InCall video s') (hmem : s.mem = s'.mem)
    (b : Byte) :
    (showPiece video s (.ofChar b)).1 = (showPiece video s' (.ofChar b)).1 ∧
      (showPiece video s (.ofChar b)).2.mem = (showPiece video s' (.ofChar b)).2.mem := by
  unfold Piece.ofChar
  split_ifs
  · rw [showPiece_newline_eq h, showPiece_newline_eq h']
    exact ⟨rfl, hmem⟩
  · refine ⟨rfl, ?_⟩
    show (s.putCell video b).mem = (s'.putCell video b).mem
    unfold Screen.putCell Screen.put
    rw [hmem]

theorem markScroll_congr (video : Int) (hmem : s.mem = s'.mem)
    (hscroll : s.scrollForNextCall = s'.scrollForNextCall) :
    (markScroll video s).mem = (markScroll video s').mem ∧
      (markScroll video s).scrollForNextCall = (markScroll video s').scrollForNextCall := by
  unfold markScroll
  split_ifs
  · exact ⟨hmem, rfl⟩
  · exact ⟨hmem, hscroll⟩

/-- The rest of a text does not depend on where its call started. -/
theorem showPieces_congr (str : List Byte) (h : InCall video s) (h' : InCall video s')
    (hmem : s.mem = s'.mem) (hscroll : s.scrollForNextCall = s'.scrollForNextCall) :
    SameConsole (showPieces video s (str.map Piece.ofChar))
      (showPieces video s' (str.map Piece.ofChar)) := by
  induction str generalizing video s s' with
  | nil =>
    obtain ⟨hmem', hscroll'⟩ := markScroll_congr video
      (show ({ s with videoCardPosition := video } : Screen).mem =
        ({ s' with videoCardPosition := video } : Screen).mem from hmem) hscroll
    refine ⟨hmem', ?_, hscroll'⟩
    show (markScroll video _).videoCardPosition = (markScroll video _).videoCardPosition
    rw [markScroll_position, markScroll_position]
  | cons b str ih =>
    obtain ⟨hvideo, hmem₁⟩ := scrollFor_congr video hmem hscroll
    have hround := h.round (.ofChar b)
    have hround' := h'.round (.ofChar b)
    have hin := h.scrollFor
    have hin' := h'.scrollFor
    have hflag := scrollFor_flag video s
    have hflag' := scrollFor_flag video s'
    rw [List.map_cons, showPieces, showPieces]
    rw [hvideo] at hround hin ⊢
    obtain ⟨hnext, hmem₂⟩ := showPiece_congr hin hin' hmem₁ b
    have hflag₂ := (showPiece_globals (scrollFor video s').1 (scrollFor video s).2 (.ofChar b)).2
    have hflag₂' := (showPiece_globals (scrollFor video s').1 (scrollFor video s').2 (.ofChar b)).2
    rw [hnext] at hround ⊢
    obtain ⟨hmem₃, hscroll₃⟩ := markScroll_congr
      (showPiece (scrollFor video s').1 (scrollFor video s').2 (.ofChar b)).1 hmem₂
      (by rw [hflag₂, hflag₂', hflag, hflag'])
    exact ih hround hround' hmem₃ hscroll₃

/-- A call that goes on with `b` behind `a`, and a call with `b` after the one with `a`. -/
theorem showPieces_append (a b : List Byte) (h : InCall video s)
    (hscroll : s.scrollForNextCall = true ↔ videoCardEnd ≤ video) :
    SameConsole
      (showPieces (showPieces video s (a.map Piece.ofChar)).videoCardPosition
        (showPieces video s (a.map Piece.ofChar)) (b.map Piece.ofChar))
      (showPieces video s ((a ++ b).map Piece.ofChar)) := by
  induction a generalizing video s with
  | nil =>
    have hposition : (showPieces video s []).videoCardPosition = video := markScroll_position _ _
    have hmark : (showPieces video s []).scrollForNextCall = true ↔ videoCardEnd ≤ video :=
      markScroll_scroll (s := { s with videoCardPosition := video }) hscroll.mp
    have hflag := Bool.eq_iff_iff.mpr (hmark.trans hscroll.symm)
    rw [List.map_nil, List.nil_append, hposition]
    exact showPieces_congr b ⟨h.nonneg, hposition.le, hmark.mp⟩ h (markScroll_mem _ _) hflag
  | cons c a ih =>
    rw [List.cons_append, List.map_cons, List.map_cons, showPieces, showPieces]
    refine ih (h.round (.ofChar c)) (markScroll_iff ?_)
    rw [(showPiece_globals _ _ _).2]
    exact scrollFor_flag video s

end Round

/-! ## Calls -/

/-- A plain text is printed in one round for each character. -/
theorem kprintf_text {str : List Byte} (h : PlainText str) (args : Nat → Arg) {fuel : Nat}
    (hfuel : str.length < fuel) (s : Screen) :
    kprintf fuel (text str) args s =
      some (showPieces s.videoCardPosition s (str.map Piece.ofChar)) := by
  unfold kprintf
  rw [kprintfLoop_eq (reads_text h args), List.length_map, if_pos hfuel]

/-- A newline leads to the start of the line below, in every call that is made from now on. -/
theorem iterate_newline {s : Screen} (h : Good ⟨s, none⟩) {es : List Event} {t : State} {c : Call}
    (hrun : Run ⟨s, none⟩ es t) (hcall : t.call = some c) (hcur : c.cur = chr '\n') :
    (iterate c t.screen).1.video = 160 * ((deferredScroll c t.screen).1.video / 160 + 1) := by
  have hall : Good t ∧ t.screen.videoCardPosition ≤ t.cursor :=
    hrun.invariant (I := fun t => Good t ∧ t.screen.videoCardPosition ≤ t.cursor)
      (fun _ _ _ hi hs => ⟨(step_spec hi.1 hs).1, behind_step hi.1 hi.2 hs⟩) ⟨h, le_rfl⟩
  obtain ⟨hgood, hbehind⟩ := hall
  have hcursor : t.cursor = c.video := by
    unfold State.cursor
    rw [hcall]
  have hin : InCall c.video t.screen :=
    ⟨hcursor ▸ hgood.cursor, hcursor ▸ hbehind, fun ht => hcursor ▸ hgood.scroll.mp ht⟩
  have hpiece : Piece.of c.cur c.conv c.param = .newline := by
    rw [hcur]
    rfl
  have hscroll : (deferredScroll c t.screen).1.video = (scrollFor c.video t.screen).1 := by
    unfold deferredScroll scrollFor
    split_ifs <;> rfl
  rw [iterate_eq, hscroll, hpiece]
  exact showPiece_newline_eq hin.scrollFor

/-- On every console two calls leave what one call with the two texts leaves, and every newline
    moves the cursor to the start of the next line. -/
theorem kprintf_split (s : Screen) (h : Good ⟨s, none⟩) :
    (∀ a b, PlainText a → PlainText b → ∀ args args₁ args₂ fuel, a.length + b.length < fuel →
      ∃ s₁ s₂ s', kprintf fuel (text a) args₁ s = some s₁ ∧
        kprintf fuel (text b) args₂ s₁ = some s₂ ∧
        kprintf fuel (text (a ++ b)) args s = some s' ∧ SameConsole s₂ s') ∧
    ∀ es t c, Run ⟨s, none⟩ es t → t.call = some c → c.cur = chr '\n' →
      (iterate c t.screen).1.video = 160 * ((deferredScroll c t.screen).1.video / 160 + 1) := by
  refine ⟨fun a b ha hb args args₁ args₂ fuel hfuel => ?_, fun es t c => iterate_newline h⟩
  refine ⟨_, _, _, kprintf_text ha args₁ (by omega) s, kprintf_text hb args₂ (by omega) _,
    kprintf_text (ha.append hb) args (by rwa [List.length_append]) s, ?_⟩
  exact showPieces_append a b ⟨h.cursor, le_rfl, h.scroll.mp⟩ h.scroll

/-- A letter and a newline, on an empty console. -/
theorem kprintf_split_boot :
    (∃ s₁ s₂ s', kprintf 3 (text [chr 'A']) (fun _ => ⟨[], 0⟩) (boot fun _ => 0).screen = some s₁ ∧
      kprintf 3 (text [chr '\n']) (fun _ => ⟨[], 0⟩) s₁ = some s₂ ∧
      kprintf 3 (text [chr 'A', chr '\n']) (fun _ => ⟨[], 0⟩) (boot fun _ => 0).screen = some s' ∧
      SameConsole s₂ s') ∧
    (iterate ⟨text [chr '\n'], fun _ => ⟨[], 0⟩, 0, 0, 0⟩ (boot fun _ => 0).screen).1.video = 160 := by
  have hsplit := kprintf_split (boot fun _ => 0).screen (good_boot fun _ => 0)
  refine ⟨hsplit.1 [chr 'A'] [chr '\n'] ?_ ?_ _ _ _ 3 (by decide), ?_⟩
  · intro b hb
    obtain rfl := List.mem_singleton.mp hb
    decide
  · intro b hb
    obtain rfl := List.mem_singleton.mp hb
    decide
  · exact hsplit.2 [.kprintf (text [chr '\n']) fun _ => ⟨[], 0⟩]
      ⟨(boot fun _ => 0).screen, some ⟨text [chr '\n'], fun _ => ⟨[], 0⟩, 0, 0, 0⟩⟩ _ (.single rfl)
      rfl rfl

end SBUnix.Console
