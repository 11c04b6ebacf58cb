import SBUnix.Console.Model

/-
  Where the console writes.

  The round that finds a scroll to do writes at `videoCardEnd`: the loop for the last line tests
  `p > videoCardEnd`. `initScreen` takes 4000 steps of two bytes for a screen of 4000 bytes. A
  conversion writes all its characters wherever it starts. So the console stays on the screen
  exactly as long as `initScreen` is not called and nothing is printed that does not fit before the
  end of the screen (`inScreen_iff`).
-/

namespace SBUnix.Console

open ByteMem

/-- Every offset written so far lies on the screen. -/
def InScreen (s : Screen) : Prop := ∀ p ∈ s.written, 0 ≤ p ∧ p < videoCardEnd

/-- The bytes that a number of `digits` characters takes. -/
def hexWidth (num : Nat) : Int := 2 * ((Nat.digits 16 num).length : Int)

/-- The bytes that `printInt` writes: the digits, at least one, and the sign. -/
def intWidth (num : Int) : Int :=
  2 * (max 1 (Nat.digits 10 num.natAbs).length : Nat) + if num < 0 then 2 else 0

/-- The bytes that the next round writes, apart from a scroll. -/
def itemWidth (c : Call) : Int :=
  if c.cur = chr '%' then
    if c.conv = chr 's' then 2 * (c.param.str.length : Int)
    else if c.conv = chr 'c' then 2
    else if c.conv = chr 'd' then intWidth c.param.int
    else if c.conv = chr 'x' then hexWidth c.param.int.natAbs
    else if c.conv = chr 'p' then 4 + hexWidth c.param.word.toNat
    else 0
  else if c.cur = chr '\n' then 0
  else 2

/-- The screen is not cleared, and what a round prints fits before the end of a screen that need
    not be scrolled. -/
def Fits (s : State) : Event → Prop
  | .initScreen => False
  | .iterate => ∀ c, s.call = some c →
      s.screen.scrollForNextCall = false ∧ c.video + itemWidth c ≤ videoCardEnd
  | _ => True

/-- Every step of a run fits. -/
def AllFit : State → List Event → Prop
  | _, [] => True
  | s, e :: es => Fits s e ∧ ∀ s', step s e = some s' → AllFit s' es

/-! ## What the printing functions write -/

/-- The stores from `s` to `s'` lie in the `w` bytes from `v` on, the last one of them included. -/
structure Wrote (s s' : Screen) (v w : Int) : Prop where
  nonneg : 0 ≤ w
  position : s'.videoCardPosition = s.videoCardPosition
  scroll : s'.scrollForNextCall = s.scrollForNextCall
  log : ∃ new, s'.written = new ++ s.written ∧ (∀ p ∈ new, v ≤ p ∧ p < v + w) ∧
    (0 < w → v + w - 1 ∈ new)

section Wrote

variable {s s₁ s₂ : Screen} {v v₁ v₂ w w₁ w₂ : Int}

theorem Wrote.refl (s : Screen) (v : Int) : Wrote s s v 0 :=
  ⟨le_rfl, rfl, rfl, [], rfl, by simp, by simp⟩

/-- Two groups of stores, one of which reaches the end of the range. -/
theorem Wrote.trans (h₁ : Wrote s s₁ v₁ w₁) (h₂ : Wrote s₁ s₂ v₂ w₂) (hv₁ : v ≤ v₁) (hv₂ : v ≤ v₂)
    (hw : 0 ≤ w) (hw₁ : v₁ + w₁ ≤ v + w) (hw₂ : v₂ + w₂ ≤ v + w)
    (hend : 0 < w → (0 < w₁ ∧ v₁ + w₁ = v + w) ∨ (0 < w₂ ∧ v₂ + w₂ = v + w)) :
    Wrote s s₂ v w := by
  obtain ⟨new₁, hlog₁, hin₁, hlast₁⟩ := h₁.log
  obtain ⟨new₂, hlog₂, hin₂, hlast₂⟩ := h₂.log
  refine ⟨hw, h₂.position.trans h₁.position, h₂.scroll.trans h₁.scroll, new₂ ++ new₁, ?_, ?_, ?_⟩
  · rw [hlog₂, hlog₁, List.append_assoc]
  · intro p hp
    obtain hp | hp := List.mem_append.mp hp
    · have := hin₂ p hp
      omega
    · have := hin₁ p hp
      omega
  · intro hw
    obtain ⟨hpos, heq⟩ | ⟨hpos, heq⟩ := hend hw
    · rw [← heq]
      exact List.mem_append_right _ (hlast₁ hpos)
    · rw [← heq]
      exact List.mem_append_left _ (hlast₂ hpos)

/-- Stores one behind the other. -/
theorem Wrote.append (h₁ : Wrote s s₁ v w₁) (h₂ : Wrote s₁ s₂ (v + w₁) w₂) :
    Wrote s s₂ v (w₁ + w₂) := by
  have hw₁ := h₁.nonneg
  have hw₂ := h₂.nonneg
  exact h₁.trans h₂ le_rfl (by omega) (by omega) (by omega) (by omega) (by omega)

theorem wrote_putCell (s : Screen) (v : Int) (b : Byte) : Wrote s (s.putCell v b) v 2 := by
  refine ⟨by decide, rfl, rfl, [v + 1, v], rfl, ?_, ?_⟩
  · intro p hp
    simp only [List.mem_cons, List.not_mem_nil, or_false] at hp
    omega
  · intro _
    rw [show v + 2 - 1 = v + 1 by omega]
    exact List.mem_cons_self

/-- The characters stay on the screen exactly when the range does. -/
theorem Wrote.stays_iff (h : Wrote s s₁ v w) (hv : 0 ≤ v) (hw : w = 0 → v < videoCardEnd) :
    InScreen s₁ ↔ InScreen s ∧ v + w ≤ videoCardEnd := by
  obtain ⟨new, hlog, hin, hlast⟩ := h.log
  unfold InScreen
  rw [hlog]
  constructor
  · intro hall
    refine ⟨fun p hp => hall p (List.mem_append_right _ hp), ?_⟩
    have hnn := h.nonneg
    by_cases h0 : w = 0
    · have := hw h0
      omega
    · have := (hall _ (List.mem_append_left _ (hlast (by omega)))).2
      omega
  · intro hall p hp
    obtain hp | hp := List.mem_append.mp hp
    · have := hin p hp
      omega
    · exact hall.1 p hp

end Wrote

theorem hexWidth_zero : hexWidth 0 = 0 := by
  simp [hexWidth]

theorem hexWidth_pos {num : Nat} (h : num ≠ 0) : hexWidth num = 2 + hexWidth (num / 16) := by
  unfold hexWidth
  rw [Nat.digits_def' (by decide) (Nat.pos_of_ne_zero h), List.length_cons]
  omega

theorem printPointer_spec (video : Int) (num : Nat) (s : Screen) :
    Wrote s (printPointer video num s).1 video (hexWidth num) ∧
      (printPointer video num s).2 = hexWidth num := by
  induction num using Nat.strong_induction_on with
  | _ num ih =>
    rw [printPointer]
    split_ifs with h
    · rw [h, hexWidth_zero]
      exact ⟨.refl s video, rfl⟩
    · obtain ⟨hw, hr⟩ := ih (num / 16) (Nat.div_lt_self (by omega) (by decide))
      dsimp only
      rw [hr, hexWidth_pos h]
      refine ⟨?_, rfl⟩
      rw [Int.add_comm 2]
      exact hw.append (wrote_putCell _ _ _)

theorem printHex_spec (video num : Int) (s : Screen) :
    Wrote s (printHex video num s).1 video (hexWidth num.natAbs) ∧
      (printHex video num s).2 = hexWidth num.natAbs := by
  induction hn : num.natAbs using Nat.strong_induction_on generalizing num with
  | _ n ih =>
    rw [printHex]
    by_cases h : num = 0
    · rw [if_pos h, ← hn, h, Int.natAbs_zero, hexWidth_zero]
      exact ⟨.refl s video, rfl⟩
    · have hdiv : (num.tdiv 16).natAbs = n / 16 := by
        rw [Int.natAbs_tdiv, hn]
        rfl
      obtain ⟨hw, hr⟩ := ih (n / 16) (Nat.div_lt_self (by omega) (by decide)) _ hdiv
      rw [if_neg h]
      dsimp only
      rw [hr, hexWidth_pos (show n ≠ 0 by omega)]
      refine ⟨?_, rfl⟩
      rw [Int.add_comm 2]
      exact hw.append (wrote_putCell _ _ _)

/-- What `printInt` returns: the sign is not counted. -/
def intAdvance (num : Int) : Int := 2 * ((Nat.digits 10 num.natAbs).length : Int)

theorem intAdvance_pos {num : Int} (h : num ≠ 0) :
    intAdvance num = 2 + intAdvance ((unsignedInt num).tdiv 10) := by
  have hdiv : ((unsignedInt num).tdiv 10).natAbs = num.natAbs / 10 := by
    rw [Int.natAbs_tdiv, natAbs_unsignedInt]
    rfl
  unfold intAdvance
  rw [hdiv, Nat.digits_def' (by decide) (by omega), List.length_cons]
  omega

theorem intWidth_eq (num : Int) :
    intWidth num = max 2 (intAdvance num) + if num < 0 then 2 else 0 := by
  unfold intWidth intAdvance
  omega

/-- The quotient is negative only for the least `int`, and has two digits then. -/
theorem tdiv_unsignedInt (num : Int) : 0 ≤ (unsignedInt num).tdiv 10 ∨
    (num < 0 ∧ 2 ≤ intAdvance ((unsignedInt num).tdiv 10)) := by
  unfold unsignedInt negInt
  split_ifs with hneg hmin
  · refine Or.inr ⟨hneg, ?_⟩
    rw [hmin]
    unfold intAdvance
    rw [Nat.digits_def' (by decide) (by decide), List.length_cons]
    omega
  · exact Or.inl (Int.tdiv_nonneg (by omega) (by decide))
  · exact Or.inl (Int.tdiv_nonneg (by omega) (by decide))

theorem printInt_spec (video num : Int) (s : Screen) :
    Wrote s (printInt video num s).1 video (intWidth num) ∧
      (printInt video num s).2 = intAdvance num := by
  induction hn : num.natAbs using Nat.strong_induction_on generalizing num video s with
  | _ n ih =>
    rw [printInt]
    by_cases h : num = 0
    · rw [if_pos h, h]
      exact ⟨wrote_putCell s video 48, by simp [intAdvance]⟩
    have hdiv : ((unsignedInt num).tdiv 10).natAbs = n / 10 := by
      rw [Int.natAbs_tdiv, natAbs_unsignedInt, hn]
      rfl
    have hrec := fun video s =>
      ih (n / 10) (Nat.div_lt_self (by omega) (by decide)) video _ s hdiv
    have hsign := tdiv_unsignedInt num
    have hnn : 0 ≤ intAdvance ((unsignedInt num).tdiv 10) := by
      unfold intAdvance
      omega
    have hquot := intWidth_eq ((unsignedInt num).tdiv 10)
    rw [if_neg h, intWidth_eq, intAdvance_pos h]
    dsimp only
    generalize (unsignedInt num).tdiv 10 = q at hrec hsign hnn hquot ⊢
    by_cases hneg : num < 0
    · obtain ⟨hw, hr⟩ := hrec (video + 2) (s.putCell video 45)
      simp only [if_pos hneg, hr, and_true]
      have hminus := (wrote_putCell s video 45).append hw
      refine hminus.trans (wrote_putCell _ _ _) le_rfl (by omega) (by omega) ?_ (by omega)
        (by omega)
      split_ifs at hquot <;> omega
    · obtain ⟨hw, hr⟩ := hrec video s
      simp only [if_neg hneg, hr, and_true]
      refine hw.trans (wrote_putCell _ _ _) le_rfl (by omega) (by omega) ?_ (by omega) (by omega)
      split_ifs at hquot <;> omega

theorem putString_spec (video : Int) (s : Screen) (str : List Byte) :
    Wrote s (putString video s str).1 video (2 * (str.length : Int)) ∧
      (putString video s str).2 = video + 2 * (str.length : Int) := by
  induction str generalizing video s with
  | nil => exact ⟨.refl s video, by simp [putString]⟩
  | cons b str ih =>
    obtain ⟨hw, hr⟩ := ih (video + 2) (s.putCell video b)
    rw [putString, hr, List.length_cons]
    refine ⟨?_, by omega⟩
    rw [show 2 * ((str.length + 1 : Nat) : Int) = 2 + 2 * (str.length : Int) by omega]
    exact (wrote_putCell s video b).append hw

theorem convert_spec (c : Call) (s : Screen) (h : c.cur = chr '%') :
    Wrote s (convert c s).2 c.video (itemWidth c) ∧ c.video ≤ (convert c s).1.video := by
  unfold convert itemWidth
  rw [if_pos h]
  dsimp only
  split_ifs
  · obtain ⟨hw, hr⟩ := putString_spec c.video s c.param.str
    exact ⟨hw, by dsimp only; omega⟩
  · exact ⟨wrote_putCell _ _ _, by dsimp only; omega⟩
  · obtain ⟨hw, hr⟩ := printInt_spec c.video c.param.int s
    refine ⟨hw, ?_⟩
    unfold intAdvance at hr
    dsimp only
    omega
  · obtain ⟨hw, hr⟩ := printHex_spec c.video c.param.int s
    refine ⟨hw, ?_⟩
    have := hw.nonneg
    dsimp only
    omega
  · obtain ⟨hw, hr⟩ := printPointer_spec (c.video + 4) c.param.word.toNat
      ((s.putCell c.video (chr '0')).putCell (c.video + 2) (chr 'x'))
    have hzerox := (wrote_putCell s c.video (chr '0')).append
      (wrote_putCell (s.putCell c.video (chr '0')) (c.video + 2) (chr 'x'))
    refine ⟨hzerox.append hw, ?_⟩
    have := hw.nonneg
    dsimp only
    omega
  · exact ⟨.refl s _, le_rfl⟩

/-- A round writes its characters from `video` on, and `video` does not go back. -/
theorem item_spec (c : Call) (s : Screen) :
    Wrote s (item c s).2 c.video (itemWidth c) ∧ c.video ≤ (item c s).1.video := by
  unfold item
  split_ifs with hpct hnl
  · exact convert_spec c s hpct
  · unfold itemWidth
    rw [if_neg hpct, if_pos hnl]
    refine ⟨.refl s _, ?_⟩
    have h₁ := Int.tmod_lt_of_pos c.video (show (0 : Int) < 160 by decide)
    have h₂ := Int.tmod_lt_of_pos (c.video - s.videoCardPosition) (show (0 : Int) < 160 by decide)
    unfold newline
    dsimp only
    split_ifs <;> omega
  · unfold itemWidth
    rw [if_neg hpct, if_neg hnl]
    exact ⟨wrote_putCell _ _ _, by dsimp only; omega⟩

/-! ## The loops over the whole screen -/

theorem written_put (s : Screen) (p : Int) (b : Byte) : s.written <:+ (s.put p b).written :=
  List.suffix_cons p s.written

theorem written_blankLine (n : Nat) (p : Int) (s : Screen) :
    s.written <:+ (blankLine n p s).written := by
  induction n generalizing p s with
  | zero => exact List.suffix_refl _
  | succ n ih =>
    rw [blankLine]
    split_ifs
    · exact List.suffix_refl _
    · exact (written_put s p _).trans (ih (p + 2) _)

theorem written_blankCells (n : Nat) (p : Int) (s : Screen) :
    s.written <:+ (blankCells n p s).written := by
  induction n generalizing p s with
  | zero => exact List.suffix_refl _
  | succ n ih => exact (written_put s p _).trans (ih (p + 2) _)

/-- The loop for the last line goes on at `videoCardEnd`. -/
theorem end_mem_blankLine {n k : Nat} (hk : k < n) {p : Int} (hp : p + 2 * k = videoCardEnd)
    (s : Screen) : videoCardEnd ∈ (blankLine n p s).written := by
  induction n generalizing k p s with
  | zero => exact absurd hk (Nat.not_lt_zero k)
  | succ n ih =>
    rw [blankLine, if_neg (by omega)]
    cases k with
    | zero =>
      obtain rfl : p = videoCardEnd := by omega
      exact (written_blankLine n _ _).subset List.mem_cons_self
    | succ k => exact ih (k := k) (by omega) (by omega) _

theorem mem_blankCells {n k : Nat} (hk : k < n) (p : Int) (s : Screen) :
    p + 2 * k ∈ (blankCells n p s).written := by
  induction n generalizing k p s with
  | zero => exact absurd hk (Nat.not_lt_zero k)
  | succ n ih =>
    cases k with
    | zero =>
      rw [show p + 2 * ((0 : Nat) : Int) = p by omega]
      exact (written_blankCells n _ _).subset List.mem_cons_self
    | succ k =>
      rw [show p + 2 * ((k + 1 : Nat) : Int) = p + 2 + 2 * k by omega]
      exact ih (k := k) (by omega) _ _

/-- Every scroll writes one byte behind the screen. -/
theorem not_inScreen_scroll (s : Screen) : ¬ InScreen (scroll s) := by
  intro h
  have hend : videoCardEnd ∈ (scroll s).written :=
    end_mem_blankLine (n := 160) (k := 80) (by decide) (by decide) _
  exact absurd (h _ hend).2 (lt_irrefl _)

/-- `initScreen` clears two screens. -/
theorem not_inScreen_initScreen (s : Screen) : ¬ InScreen (initScreen s) := by
  intro h
  have hmem := mem_blankCells (n := 4000) (k := 2000) (by decide) 0 s
  exact absurd (h _ hmem).2 (by decide)

/-! ## Runs -/

/-- Where the next character goes. -/
def State.cursor (s : State) : Int :=
  match s.call with
  | none => s.screen.videoCardPosition
  | some c => c.video

/-- The cursor is not above the screen, and a scroll is due exactly when it is below. -/
structure Good (s : State) : Prop where
  cursor : 0 ≤ s.cursor
  scroll : s.screen.scrollForNextCall = true ↔ videoCardEnd ≤ s.cursor

theorem markScroll_written (video : Int) (s : Screen) :
    (markScroll video s).written = s.written := by
  unfold markScroll
  split_ifs <;> rfl

theorem markScroll_position (video : Int) (s : Screen) :
    (markScroll video s).videoCardPosition = s.videoCardPosition := by
  unfold markScroll
  split_ifs <;> rfl

theorem markScroll_scroll {video : Int} {s : Screen}
    (h : s.scrollForNextCall = true → videoCardEnd ≤ video) :
    (markScroll video s).scrollForNextCall = true ↔ videoCardEnd ≤ video := by
  unfold markScroll
  split_ifs with hv
  · exact ⟨fun _ => hv, fun _ => rfl⟩
  · exact ⟨h, fun h' => absurd h' hv⟩

theorem initScreen_globals (s : Screen) :
    (initScreen s).videoCardPosition = s.videoCardPosition ∧
      (initScreen s).scrollForNextCall = s.scrollForNextCall := by
  have hloop : ∀ (n : Nat) (p : Int) (s : Screen),
      (blankCells n p s).videoCardPosition = s.videoCardPosition ∧
        (blankCells n p s).scrollForNextCall = s.scrollForNextCall := by
    intro n
    induction n with
    | zero => exact fun p s => ⟨rfl, rfl⟩
    | succ n ih => exact fun p s => ih (p + 2) (s.put p (chr ' '))
  exact hloop 4000 0 s

theorem InScreen.of_suffix {s s' : Screen} (h : InScreen s') (hs : s.written <:+ s'.written) :
    InScreen s := fun p hp => h p (hs.subset hp)

theorem written_item (c : Call) (s : Screen) : s.written <:+ (item c s).2.written := by
  obtain ⟨new, hlog, -, -⟩ := (item_spec c s).1.log
  exact ⟨new, hlog.symm⟩

/-- A round keeps the cursor and the flag in step, and stays on the screen exactly when it fits. -/
theorem iterate_spec {s : State} {c : Call} (h : Good s) (hc : s.call = some c) :
    Good ⟨(iterate c s.screen).2, some (iterate c s.screen).1⟩ ∧
      (InScreen (iterate c s.screen).2 ↔ InScreen s.screen ∧ Fits s .iterate) := by
  have hcursor : 0 ≤ c.video := by
    have := h.cursor
    unfold State.cursor at this
    rwa [hc] at this
  have hflag : s.screen.scrollForNextCall = true ↔ videoCardEnd ≤ c.video := by
    have := h.scroll
    unfold State.cursor at this
    rwa [hc] at this
  have hfits : Fits s .iterate ↔
      s.screen.scrollForNextCall = false ∧ c.video + itemWidth c ≤ videoCardEnd := by
    unfold Fits
    rw [hc]
    simp
  unfold iterate deferredScroll
  dsimp only
  by_cases hscroll : s.screen.scrollForNextCall = true
  · rw [if_pos hscroll]
    dsimp only
    generalize hd : ({ c with video := c.video - 160 } : Call) = d
    generalize ht : ({ scroll s.screen with
      videoCardPosition := (scroll s.screen).videoCardPosition - 160,
      scrollForNextCall := false } : Screen) = t
    obtain ⟨hw, hle⟩ := item_spec d t
    have hvideo : d.video = c.video - 160 := by rw [← hd]
    have hend := hflag.mp hscroll
    refine ⟨⟨?_, ?_⟩, ?_⟩
    · show 0 ≤ (item d t).1.video
      unfold videoCardEnd at hend
      omega
    · refine markScroll_scroll fun htrue => ?_
      rw [hw.scroll, ← ht] at htrue
      cases htrue
    · rw [hfits, hscroll]
      refine ⟨fun hin => ?_, fun hin => by simp at hin⟩
      have hin' : InScreen (item d t).2 := by
        unfold InScreen at hin ⊢
        rwa [markScroll_written] at hin
      have hback := hin'.of_suffix (written_item d t)
      rw [InScreen, ← ht] at hback
      exact (not_inScreen_scroll s.screen hback).elim
  · rw [if_neg hscroll]
    obtain ⟨hw, hle⟩ := item_spec c s.screen
    refine ⟨⟨?_, ?_⟩, ?_⟩
    · show 0 ≤ (item c s.screen).1.video
      omega
    · refine markScroll_scroll fun htrue => ?_
      rw [hw.scroll] at htrue
      exact absurd htrue hscroll
    · have hiff := hw.stays_iff hcursor fun _ => by
        by_contra hge
        exact hscroll (hflag.mpr (by omega))
      rw [hfits]
      unfold InScreen at hiff ⊢
      rw [markScroll_written, hiff]
      simp [hscroll]

/-- What a step does. -/
theorem step_spec {s s' : State} {e : Event} (h : Good s) (hstep : step s e = some s') :
    Good s' ∧ (InScreen s'.screen ↔ InScreen s.screen ∧ Fits s e) := by
  obtain ⟨screen, call⟩ := s
  cases e with
  | initScreen =>
    cases call with
    | some c => cases hstep
    | none =>
      obtain rfl := Option.some.inj hstep
      obtain ⟨hposition, hflag⟩ := initScreen_globals screen
      have hout := not_inScreen_initScreen screen
      refine ⟨⟨?_, ?_⟩, ⟨fun hin => ?_, fun hin => hin.2.elim⟩⟩
      · show 0 ≤ (initScreen screen).videoCardPosition
        rw [hposition]
        exact h.cursor
      · show (initScreen screen).scrollForNextCall = true ↔
          videoCardEnd ≤ (initScreen screen).videoCardPosition
        rw [hposition, hflag]
        exact h.scroll
      · dsimp only at hin
        exact absurd hin hout
  | kprintf fmt args =>
    cases call with
    | some c => cases hstep
    | none =>
      obtain rfl := Option.some.inj hstep
      exact ⟨⟨h.cursor, h.scroll⟩, by simp [Fits]⟩
  | iterate =>
    cases call with
    | none => cases hstep
    | some c =>
      simp only [step] at hstep
      split_ifs at hstep
      obtain rfl := Option.some.inj hstep
      exact iterate_spec h rfl
  | ret =>
    cases call with
    | none => cases hstep
    | some c =>
      simp only [step] at hstep
      split_ifs at hstep
      obtain rfl := Option.some.inj hstep
      refine ⟨⟨?_, ?_⟩, ?_⟩
      · show 0 ≤ (markScroll c.video { screen with videoCardPosition := c.video }).videoCardPosition
        rw [markScroll_position]
        exact h.cursor
      · show _ ↔ videoCardEnd ≤
          (markScroll c.video { screen with videoCardPosition := c.video }).videoCardPosition
        rw [markScroll_position]
        exact markScroll_scroll h.scroll.mp
      · unfold InScreen
        rw [markScroll_written]
        simp [Fits]

theorem run_spec {s s' : State} {es : List Event} (h : Run s es s') (hg : Good s) :
    InScreen s'.screen ↔ InScreen s.screen ∧ AllFit s es := by
  induction h with
  | nil s => simp [AllFit]
  | cons hstep _ ih =>
    obtain ⟨hg', hiff⟩ := step_spec hg hstep
    rw [ih hg', hiff, AllFit, hstep]
    simp [and_assoc]

theorem good_boot (mem : Int → Byte) : Good (boot mem) :=
  ⟨le_rfl, fun h => (by cases h), fun h => absurd (show videoCardEnd ≤ 0 from h) (by decide)⟩

/-- The console never wrote outside the screen exactly when every step so far fits: `initScreen` is
    not called, and whatever is printed finds no scroll to do and ends before `videoCardEnd`. -/
theorem inScreen_iff (mem : Int → Byte) (es : List Event) (s : State) (h : Run (boot mem) es s) :
    InScreen s.screen ↔ AllFit (boot mem) es := by
  rw [run_spec h (good_boot mem)]
  simp [InScreen, boot]

/-- A format of one letter. -/
def letterA (i : Nat) : Byte := if i = 0 then chr 'A' else 0

/-- Printing a letter on an empty screen. -/
theorem inScreen_letterA :
    ∃ s, Run (boot fun _ => 0) [.kprintf letterA fun _ => ⟨[], 0⟩, .iterate] s ∧
      InScreen s.screen := by
  have hrun : ∃ s, Run (boot fun _ => 0) [.kprintf letterA fun _ => ⟨[], 0⟩, .iterate] s :=
    ⟨_, .cons rfl (.cons rfl (.nil _))⟩
  obtain ⟨s, hrun⟩ := hrun
  refine ⟨s, hrun, (inScreen_iff (fun _ => 0) _ s hrun).mpr ⟨trivial, fun s hs => ?_⟩⟩
  cases hs
  refine ⟨fun c hc => ?_, fun _ _ => trivial⟩
  cases hc
  exact ⟨rfl, by decide⟩

/-- Clearing the screen writes behind it. -/
theorem not_inScreen_clear :
    ¬ ∀ (mem : Int → Byte) (es : List Event) (s : State), Run (boot mem) es s →
      InScreen s.screen := by
  intro h
  have hrun : Run (boot fun _ => 0) [.initScreen] ⟨initScreen (boot fun _ => 0).screen, none⟩ :=
    .single rfl
  have hin := h _ _ _ hrun
  dsimp only at hin
  exact not_inScreen_initScreen _ hin

end SBUnix.Console
