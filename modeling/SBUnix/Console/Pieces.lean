import SBUnix.Console.Printf

/-
  A format as the pieces that it prints.

  `kprintf` and `printf` are loops over the same format. `Reads` takes a format and its arguments
  apart into pieces, one for each round, and the two loops show the pieces on the screen and store
  them in the buffer (`kprintfLoop_eq`, `printfLoop_eq`). A number that is not positive leaves its
  last digit behind the text: `printInt` counts neither the sign nor the digit of 0.
-/

namespace SBUnix.Console

open ByteMem

/-! ## Pieces -/

/-- What one round prints. -/
inductive Piece where
  | newline
  | char (b : Byte)
  | string (str : List Byte)
  | int (num : Int)
  | hex (num : Int)
  | pointer (num : Nat)
  | nothing

/-- The piece of a character of the format, the character behind it, and the next argument. -/
def Piece.of (cur conv : Byte) (param : Arg) : Piece :=
  if cur = chr '%' then
    if conv = chr 's' then .string param.str
    else if conv = chr 'c' then .char (param.word.setWidth 8)
    else if conv = chr 'd' then .int param.int
    else if conv = chr 'x' then .hex param.int
    else if conv = chr 'p' then .pointer param.word.toNat
    else .nothing
  else if cur = chr '\n' then .newline
  else .char cur

/-- The characters of the format that a round reads. -/
def readChars (cur : Byte) : Nat := if cur = chr '%' then 2 else 1

/-- The arguments that a round reads. -/
def readArgs (cur conv : Byte) : Nat :=
  if cur = chr '%' then
    if conv = chr 's' ∨ conv = chr 'c' ∨ conv = chr 'd' ∨ conv = chr 'x' ∨ conv = chr 'p' then 1
    else 0
  else 0

/-- The pieces of a format, from a character and an argument on. -/
inductive Reads (fmt : Nat → Byte) (args : Nat → Arg) : Nat → Nat → List Piece → Prop
  | nil {pos arg : Nat} : fmt pos = 0 → Reads fmt args pos arg []
  | cons {pos arg : Nat} {ps : List Piece} : fmt pos ≠ 0 →
      Reads fmt args (pos + readChars (fmt pos)) (arg + readArgs (fmt pos) (fmt (pos + 1))) ps →
      Reads fmt args pos arg (Piece.of (fmt pos) (fmt (pos + 1)) (args arg) :: ps)

/-- The characters of its text. -/
def Piece.width : Piece → Nat
  | .newline => 1
  | .char _ => 1
  | .string str => str.length
  | .int num => (Nat.digits 10 num.natAbs).length
  | .hex num => (Nat.digits 16 num.natAbs).length
  | .pointer num => 2 + (Nat.digits 16 num).length
  | .nothing => 0

/-- The digit that is left behind the text. -/
def Piece.leftover : Piece → Option Byte
  | .int num => if num ≤ 0 then some (BitVec.ofInt 8 ((unsignedInt num).tmod 10 + 48)) else none
  | _ => none

/-- No newline, and no NUL. -/
def Piece.Plain : Piece → Prop
  | .newline => False
  | .char b => b ≠ 0
  | .string str => (0 : Byte) ∉ str
  | _ => True

/-- The length of the formatted text. -/
def textWidth (ps : List Piece) : Nat := (ps.map Piece.width).sum

@[simp] theorem textWidth_nil : textWidth [] = 0 := rfl

@[simp] theorem textWidth_cons (p : Piece) (ps : List Piece) :
    textWidth (p :: ps) = p.width + textWidth ps := by
  simp [textWidth]

/-- The digit that is left behind all of it: nothing was printed over it. -/
def leftover : List Piece → Option Byte
  | [] => none
  | p :: ps => if textWidth ps = 0 then (leftover ps).or p.leftover else leftover ps

/-! ## `kprintf` on pieces -/

/-- The scroll that is due before a round. -/
def scrollFor (video : Int) (s : Screen) : Int × Screen :=
  if s.scrollForNextCall then
    let s := scroll s
    (video - 160,
      { s with videoCardPosition := s.videoCardPosition - 160, scrollForNextCall := false })
  else (video, s)

/-- One piece on the screen, and the cursor behind it. -/
def showPiece (video : Int) (s : Screen) : Piece → Int × Screen
  | .newline =>
    (if s.videoCardPosition.tmod 160 ≠ 0 then video + (160 - video.tmod 160)
      else video + (160 - (video - s.videoCardPosition).tmod 160), s)
  | .char b => (video + 2, s.putCell video b)
  | .string str =>
    let r := putString video s str
    (r.2, r.1)
  | .int num =>
    let r := printInt video num s
    (video + r.2, r.1)
  | .hex num =>
    let r := printHex video num s
    (video + r.2, r.1)
  | .pointer num =>
    let r := printPointer (video + 4) num
      ((s.putCell video (chr '0')).putCell (video + 2) (chr 'x'))
    (video + 4 + r.2, r.1)
  | .nothing => (video, s)

def showPieces (video : Int) (s : Screen) : List Piece → Screen
  | [] => markScroll video { s with videoCardPosition := video }
  | p :: ps =>
    let r := scrollFor video s
    let r := showPiece r.1 r.2 p
    showPieces r.1 (markScroll r.1 r.2) ps

theorem item_eq (c : Call) (s : Screen) : item c s =
    ({ c with
        pos := c.pos + readChars c.cur
        arg := c.arg + readArgs c.cur c.conv
        video := (showPiece c.video s (Piece.of c.cur c.conv c.param)).1 },
      (showPiece c.video s (Piece.of c.cur c.conv c.param)).2) := by
  unfold item
  by_cases hpct : c.cur = chr '%'
  · rw [if_pos hpct]
    unfold convert Piece.of readChars readArgs
    simp only [if_pos hpct]
    split_ifs with hs hc hd hx hp <;> simp_all [showPiece]
  · unfold Piece.of readChars readArgs
    simp only [if_neg hpct]
    split_ifs <;> rfl

theorem iterate_eq (c : Call) (s : Screen) : iterate c s =
    let r := scrollFor c.video s
    let r := showPiece r.1 r.2 (Piece.of c.cur c.conv c.param)
    ({ c with
        pos := c.pos + readChars c.cur
        arg := c.arg + readArgs c.cur c.conv
        video := r.1 }, markScroll r.1 r.2) := by
  unfold iterate deferredScroll scrollFor
  split_ifs
  · dsimp only
    rw [item_eq]
    rfl
  · dsimp only
    rw [item_eq]

/-- The rounds of `kprintf` show the pieces. -/
theorem kprintfLoop_eq {fmt : Nat → Byte} {args : Nat → Arg} {pos arg : Nat} {ps : List Piece}
    (h : Reads fmt args pos arg ps) (fuel : Nat) (video : Int) (s : Screen) :
    kprintfLoop fuel ⟨fmt, args, pos, arg, video⟩ s =
      if ps.length < fuel then some (showPieces video s ps) else none := by
  induction h generalizing fuel video s with
  | @nil pos arg h0 =>
    cases fuel with
    | zero => rfl
    | succ fuel =>
      have hend : ¬ Call.cur ⟨fmt, args, pos, arg, video⟩ ≠ 0 := not_not.mpr h0
      rw [kprintfLoop, if_neg hend, List.length_nil, if_pos (Nat.succ_pos fuel)]
      rfl
  | @cons pos arg ps hne _ ih =>
    cases fuel with
    | zero => rfl
    | succ fuel =>
      have hcur : Call.cur ⟨fmt, args, pos, arg, video⟩ ≠ 0 := hne
      rw [kprintfLoop, if_pos hcur, iterate_eq]
      refine (ih fuel _ _).trans ?_
      simp only [List.length_cons, Nat.add_lt_add_iff_right]
      rfl

/-! ## `printf` on pieces -/

namespace Libc

/-- One piece in the buffer, and the end of its text. -/
def storePiece (current : Nat) (buffer : Buffer) : Piece → Nat × Buffer
  | .newline => (current + 1, buffer.put current (chr '\n'))
  | .char b => (current + 1, buffer.put current b)
  | .string str =>
    let r := putString current buffer str
    (r.2, r.1)
  | .int num =>
    let r := printInt current num buffer
    (current + r.2, r.1)
  | .hex num =>
    let r := printHex current num buffer
    (current + r.2, r.1)
  | .pointer num =>
    let r := printPointer (current + 2) num
      ((buffer.put current (chr '0')).put (current + 1) (chr 'x'))
    (current + 2 + r.2, r.1)
  | .nothing => (current, buffer)

def storePieces (current : Nat) (buffer : Buffer) : List Piece → Nat × Buffer
  | [] => (current, buffer)
  | p :: ps =>
    let r := storePiece current buffer p
    storePieces r.1 r.2 ps

theorem iterate_eq (f : Printf) : iterate f =
    { f with
      pos := f.pos + readChars f.cur
      arg := f.arg + readArgs f.cur f.conv
      current := (storePiece f.current f.buffer (Piece.of f.cur f.conv f.param)).1
      buffer := (storePiece f.current f.buffer (Piece.of f.cur f.conv f.param)).2 } := by
  unfold iterate
  by_cases hpct : f.cur = chr '%'
  · rw [if_pos hpct]
    unfold convert Piece.of readChars readArgs
    simp only [if_pos hpct]
    split_ifs with hs hc hd hx hp <;> simp_all [storePiece]
  · unfold Piece.of readChars readArgs
    simp only [if_neg hpct]
    split_ifs with hnl
    · rw [hnl]
      rfl
    · rfl

/-- The rounds of `printf` store the pieces. -/
theorem printfLoop_eq {fmt : Nat → Byte} {args : Nat → Arg} {pos arg : Nat} {ps : List Piece}
    (h : Reads fmt args pos arg ps) (fuel current : Nat) (buffer : Buffer) :
    ∃ pos' arg', printfLoop fuel ⟨fmt, args, pos, arg, current, buffer⟩ =
      if ps.length < fuel then
        some ⟨fmt, args, pos', arg', (storePieces current buffer ps).1,
          (storePieces current buffer ps).2⟩
      else none := by
  induction h generalizing fuel current buffer with
  | @nil pos arg h0 =>
    refine ⟨pos, arg, ?_⟩
    cases fuel with
    | zero => rfl
    | succ fuel =>
      have hend : ¬ Printf.cur ⟨fmt, args, pos, arg, current, buffer⟩ ≠ 0 := not_not.mpr h0
      rw [printfLoop, if_neg hend, List.length_nil, if_pos (Nat.succ_pos fuel)]
      rfl
  | @cons pos arg ps hne _ ih =>
    cases fuel with
    | zero => exact ⟨pos, arg, rfl⟩
    | succ fuel =>
      have hcur : Printf.cur ⟨fmt, args, pos, arg, current, buffer⟩ ≠ 0 := hne
      rw [printfLoop, if_pos hcur, iterate_eq]
      dsimp only
      simp only [List.length_cons, Nat.add_lt_add_iff_right]
      exact ih fuel _ _

/-! ### What is stored -/

/-- The text of `w` characters from `n` on, and a digit behind it or none. -/
structure Stored (n w : Nat) (rest : Option Byte) (plain : Prop) (b b' : Buffer) : Prop where
  kept : ∀ i < n, b' i = b i
  text : ∀ i, n ≤ i → i < n + w → ∃ c, b' i = some c ∧ (plain → c ≠ 0)
  rest : b' (n + w) = rest.or (b (n + w))
  behind : ∀ i, n + w < i → b' i = b i

section Stored

variable {n w w' : Nat} {rest rest' : Option Byte} {plain plain' : Prop} {b b₁ b₂ : Buffer}

theorem Buffer.put_same (b : Buffer) (i : Nat) (c : Byte) : b.put i c i = some c := if_pos rfl

theorem Buffer.put_of_ne (b : Buffer) {i j : Nat} (c : Byte) (h : j ≠ i) : b.put i c j = b j :=
  if_neg h

theorem Stored.refl (n : Nat) (b : Buffer) : Stored n 0 none True b b where
  kept _ _ := rfl
  text i h h' := by omega
  rest := rfl
  behind _ _ := rfl

theorem stored_put (n : Nat) (b : Buffer) (c : Byte) : Stored n 1 none (c ≠ 0) b (b.put n c) where
  kept i hi := b.put_of_ne c (by omega)
  text i h h' := by
    obtain rfl : i = n := by omega
    exact ⟨c, b.put_same i c, id⟩
  rest := b.put_of_ne c (by omega)
  behind i hi := b.put_of_ne c (by omega)

theorem Stored.trans (h : Stored n w rest plain b b₁) (h' : Stored (n + w) w' rest' plain' b₁ b₂) :
    Stored n (w + w') (if w' = 0 then rest'.or rest else rest') (plain ∧ plain') b b₂ where
  kept i hi := by rw [h'.kept i (by omega), h.kept i hi]
  text i hi hi' := by
    by_cases hlt : i < n + w
    · obtain ⟨c, hc, hplain⟩ := h.text i hi hlt
      exact ⟨c, by rw [h'.kept i hlt, hc], fun hp => hplain hp.1⟩
    · obtain ⟨c, hc, hplain⟩ := h'.text i (by omega) (by omega)
      exact ⟨c, hc, fun hp => hplain hp.2⟩
  rest := by
    rw [← Nat.add_assoc, h'.rest]
    split_ifs with h0
    · rw [h0, Nat.add_zero, h.rest, Option.or_assoc]
    · rw [h.behind _ (by omega)]
  behind i hi := by rw [h'.behind i (by omega), h.behind i (by omega)]

/-- The digit behind the text. -/
theorem Stored.over (h : Stored n w rest plain b b₁) (c : Byte) :
    Stored n w (some c) plain b (b₁.put (n + w) c) where
  kept i hi := by rw [b₁.put_of_ne c (by omega), h.kept i hi]
  text i hi hi' := by
    rw [b₁.put_of_ne c (by omega)]
    exact h.text i hi hi'
  rest := b₁.put_same _ c
  behind i hi := by rw [b₁.put_of_ne c (by omega), h.behind i hi]

theorem Stored.imp (h : Stored n w rest plain b b₁) (hp : plain' → plain) :
    Stored n w rest plain' b b₁ where
  kept := h.kept
  text i hi hi' := by
    obtain ⟨c, hc, hplain⟩ := h.text i hi hi'
    exact ⟨c, hc, fun h => hplain (hp h)⟩
  rest := h.rest
  behind := h.behind

end Stored

theorem ofInt_ne_zero {v : Int} (h : 0 < v) (h' : v < 256) : BitVec.ofInt 8 v ≠ 0 := by
  intro hzero
  have hnat := congrArg BitVec.toNat hzero
  rw [BitVec.toNat_ofInt] at hnat
  have hmod : v % 256 = v := Int.emod_eq_of_lt h.le h'
  simp at hnat
  omega

theorem hexChar_ne_zero {digit : Int} (h : -16 < digit) (h' : digit < 16) : hexChar digit ≠ 0 := by
  unfold hexChar
  split_ifs <;> exact ofInt_ne_zero (by omega) (by omega)

theorem decimalChar_ne_zero (num : Int) : BitVec.ofInt 8 (num.tmod 10 + 48) ≠ 0 := by
  have h := Int.lt_tmod_of_pos num (show (0 : Int) < 10 by decide)
  have h' := Int.tmod_lt_of_pos num (show (0 : Int) < 10 by decide)
  exact ofInt_ne_zero (by omega) (by omega)

theorem printPointer_stored (n num : Nat) (b : Buffer) :
    (printPointer n num b).2 = (Nat.digits 16 num).length ∧
      Stored n (Nat.digits 16 num).length none True b (printPointer n num b).1 := by
  induction num using Nat.strong_induction_on with
  | _ num ih =>
    rw [printPointer]
    split_ifs with h
    · rw [h]
      exact ⟨rfl, .refl n b⟩
    · obtain ⟨hadv, hsub⟩ := ih (num / 16) (Nat.div_lt_self (by omega) (by decide))
      have hchar : hexChar (num % 16 : Nat) ≠ 0 := hexChar_ne_zero (by omega) (by omega)
      rw [Nat.digits_def' (by decide) (Nat.pos_of_ne_zero h), List.length_cons]
      dsimp only
      rw [hadv]
      exact ⟨Nat.add_comm _ _, (hsub.trans (stored_put _ _ _)).imp fun _ => ⟨trivial, hchar⟩⟩

theorem printHex_stored (n : Nat) (num : Int) (b : Buffer) :
    (printHex n num b).2 = (Nat.digits 16 num.natAbs).length ∧
      Stored n (Nat.digits 16 num.natAbs).length none True b (printHex n num b).1 := by
  induction hn : num.natAbs using Nat.strong_induction_on generalizing num with
  | _ m ih =>
    rw [printHex]
    by_cases h : num = 0
    · obtain rfl : m = 0 := by omega
      rw [if_pos h]
      exact ⟨rfl, .refl n b⟩
    · have hdiv : (num.tdiv 16).natAbs = m / 16 := by
        rw [Int.natAbs_tdiv, hn]
        rfl
      obtain ⟨hadv, hsub⟩ := ih (m / 16) (Nat.div_lt_self (by omega) (by decide)) _ hdiv
      have hchar : hexChar (num.tmod 16) ≠ 0 :=
        hexChar_ne_zero (Int.lt_tmod_of_pos num (by decide)) (Int.tmod_lt_of_pos num (by decide))
      rw [if_neg h, Nat.digits_def' (by decide) (show 0 < m by omega), List.length_cons]
      dsimp only
      rw [hadv]
      exact ⟨Nat.add_comm _ _, (hsub.trans (stored_put _ _ _)).imp fun _ => ⟨trivial, hchar⟩⟩

theorem printInt_stored (n : Nat) (num : Int) (b : Buffer) :
    (printInt n num b).2 = (Nat.digits 10 num.natAbs).length ∧
      Stored n (Nat.digits 10 num.natAbs).length (Piece.int num).leftover True b
        (printInt n num b).1 := by
  induction hn : num.natAbs using Nat.strong_induction_on generalizing n num b with
  | _ m ih =>
    rw [printInt]
    by_cases h : num = 0
    · obtain rfl : m = 0 := by omega
      rw [if_pos h, h]
      exact ⟨rfl, (Stored.refl n b).over 48⟩
    have hdiv : ((unsignedInt num).tdiv 10).natAbs = m / 10 := by
      rw [Int.natAbs_tdiv, natAbs_unsignedInt, hn]
      rfl
    have hrec := fun n b => ih (m / 10) (Nat.div_lt_self (by omega) (by decide)) n _ b hdiv
    have hchar := decimalChar_ne_zero (unsignedInt num)
    rw [if_neg h, Nat.digits_def' (by decide) (show 0 < m by omega), List.length_cons]
    dsimp only
    by_cases hneg : num < 0
    · -- the sign moves the digits on by one, so the last one ends up behind the text
      obtain ⟨hadv, hsub⟩ := hrec (n + 1) (b.put n 45)
      simp only [if_pos hneg, hadv]
      have hrest : (Piece.int num).leftover =
          some (BitVec.ofInt 8 ((unsignedInt num).tmod 10 + 48)) := if_pos hneg.le
      rw [hrest, Nat.add_comm _ 1, Nat.add_assoc]
      exact ⟨rfl, (((stored_put n b 45).trans hsub).over _).imp fun _ => ⟨by decide, trivial⟩⟩
    · obtain ⟨hadv, hsub⟩ := hrec n b
      simp only [if_neg hneg, hadv]
      have hrest : (Piece.int num).leftover = none := if_neg (by omega)
      rw [hrest]
      exact ⟨Nat.add_comm _ _, (hsub.trans (stored_put _ _ _)).imp fun _ => ⟨trivial, hchar⟩⟩

theorem putString_eq (n : Nat) (b : Buffer) (str : List Byte) :
    (putString n b str).2 = n + str.length ∧
      ∀ i, (putString n b str).1 i = if n ≤ i then (str[i - n]?).or (b i) else b i := by
  induction str generalizing n b with
  | nil => exact ⟨rfl, fun i => by simp [putString]⟩
  | cons c str ih =>
    obtain ⟨hend, hstr⟩ := ih (n + 1) (b.put n c)
    rw [putString, List.length_cons]
    refine ⟨by omega, fun i => ?_⟩
    rw [hstr]
    obtain hlt | rfl | hgt := Nat.lt_trichotomy i n
    · rw [if_neg (by omega), if_neg (by omega), b.put_of_ne c (by omega)]
    · rw [if_neg (by omega), if_pos le_rfl, b.put_same, Nat.sub_self]
      rfl
    · rw [if_pos (by omega), if_pos hgt.le, b.put_of_ne c (by omega),
        show i - n = i - (n + 1) + 1 by omega, List.getElem?_cons_succ]

theorem putString_stored (n : Nat) (b : Buffer) (str : List Byte) :
    Stored n str.length none ((0 : Byte) ∉ str) b (putString n b str).1 := by
  have hstr := (putString_eq n b str).2
  refine ⟨fun i hi => ?_, fun i hi hi' => ?_, ?_, fun i hi => ?_⟩
  · rw [hstr, if_neg (by omega)]
  · have hlt : i - n < str.length := by omega
    refine ⟨str[i - n], ?_, fun h h0 => h (h0 ▸ List.getElem_mem hlt)⟩
    rw [hstr, if_pos hi, List.getElem?_eq_getElem hlt]
    rfl
  · rw [hstr, if_pos (Nat.le_add_right _ _), List.getElem?_eq_none (by omega)]
  · rw [hstr, if_pos (by omega), List.getElem?_eq_none (by omega)]
    rfl

/-- A piece stores its text, and its digit behind it. -/
theorem storePiece_stored (n : Nat) (b : Buffer) (p : Piece) :
    (storePiece n b p).1 = n + p.width ∧
      Stored n p.width p.leftover p.Plain b (storePiece n b p).2 := by
  cases p with
  | newline => exact ⟨rfl, (stored_put n b _).imp False.elim⟩
  | char c => exact ⟨rfl, stored_put n b c⟩
  | string str => exact ⟨(putString_eq n b str).1, putString_stored n b str⟩
  | int num =>
    obtain ⟨hadv, hsub⟩ := printInt_stored n num b
    exact ⟨congrArg (n + ·) hadv, hsub⟩
  | hex num =>
    obtain ⟨hadv, hsub⟩ := printHex_stored n num b
    exact ⟨congrArg (n + ·) hadv, hsub⟩
  | pointer num =>
    have hzero := stored_put n b (chr '0')
    have hzerox := hzero.trans (stored_put (n + 1) (b.put n (chr '0')) (chr 'x'))
    obtain ⟨hadv, hsub⟩ := printPointer_stored (n + 2) num
      ((b.put n (chr '0')).put (n + 1) (chr 'x'))
    rw [if_neg Nat.one_ne_zero] at hzerox
    have hall := hzerox.trans hsub
    rw [Option.or_none, ite_self] at hall
    refine ⟨?_, hall.imp fun _ => ⟨⟨by decide, by decide⟩, trivial⟩⟩
    show n + 2 + _ = n + (2 + _)
    rw [hadv, Nat.add_assoc]
  | nothing => exact ⟨rfl, .refl n b⟩

/-- The pieces store their text, and the digit that is left behind it. -/
theorem storePieces_stored (n : Nat) (b : Buffer) (ps : List Piece) :
    (storePieces n b ps).1 = n + textWidth ps ∧
      Stored n (textWidth ps) (leftover ps) (∀ p ∈ ps, p.Plain) b (storePieces n b ps).2 := by
  induction ps generalizing n b with
  | nil => exact ⟨rfl, (Stored.refl n b).imp fun _ => trivial⟩
  | cons p ps ih =>
    obtain ⟨hend, hstored⟩ := storePiece_stored n b p
    obtain ⟨hend', hstored'⟩ := ih (storePiece n b p).1 (storePiece n b p).2
    rw [hend] at hend' hstored'
    rw [storePieces, textWidth_cons, hend]
    refine ⟨by rw [hend', Nat.add_assoc], ?_⟩
    refine (hstored.trans hstored').imp fun h => ?_
    exact ⟨h p List.mem_cons_self, fun q hq => h q (List.mem_cons_of_mem p hq)⟩

/-- A NUL among the characters is stored in the text. -/
theorem storePieces_zero {ps : List Piece} (h : ∃ p ∈ ps, p ≠ .newline ∧ ¬ p.Plain) (n : Nat)
    (b : Buffer) : ∃ i, n ≤ i ∧ i < n + textWidth ps ∧ (storePieces n b ps).2 i = some 0 := by
  induction ps generalizing n b with
  | nil =>
    obtain ⟨p, hp, -⟩ := h
    cases hp
  | cons p ps ih =>
    obtain ⟨hend, -⟩ := storePiece_stored n b p
    rw [storePieces, textWidth_cons, hend]
    by_cases hp : p ≠ .newline ∧ ¬ p.Plain
    · have hzero : ∃ i, n ≤ i ∧ i < n + p.width ∧ (storePiece n b p).2 i = some 0 := by
        obtain ⟨hnl, hplain⟩ := hp
        cases p with
        | newline => exact absurd rfl hnl
        | char c =>
          obtain rfl : c = 0 := not_not.mp hplain
          exact ⟨n, le_rfl, Nat.lt_succ_self n, b.put_same n 0⟩
        | string str =>
          obtain ⟨k, hk, hget⟩ := List.getElem_of_mem (not_not.mp hplain)
          refine ⟨n + k, Nat.le_add_right n k, Nat.add_lt_add_left hk n, ?_⟩
          show (putString n b str).1 (n + k) = some 0
          rw [(putString_eq n b str).2, if_pos (Nat.le_add_right n k), Nat.add_sub_cancel_left,
            List.getElem?_eq_getElem hk, hget]
          rfl
        | int | hex | pointer | nothing => exact absurd trivial hplain
      obtain ⟨i, hi, hi', h0⟩ := hzero
      refine ⟨i, hi, by omega, ?_⟩
      rw [(storePieces_stored (n + p.width) _ ps).2.kept i hi', h0]
    · obtain ⟨q, hq, hbad⟩ := h
      obtain rfl | hq := List.mem_cons.mp hq
      · exact absurd hbad hp
      · obtain ⟨i, hi, hi', h0⟩ := ih ⟨q, hq, hbad⟩ (n + p.width) (storePiece n b p).2
        exact ⟨i, by omega, by omega, h0⟩

/-! ### The text that is printed -/

/-- A buffer that is filled up to a NUL at `n` holds a string, which ends there unless there is an
    earlier NUL. -/
theorem bufferString_spec {b : Buffer} {n : Nat} (hfill : ∀ i < n, ∃ c, b i = some c)
    (hend : b n = some 0) {fuel i : Nat} (hi : i ≤ n) (hfuel : n < i + fuel) :
    ∃ text, bufferString b fuel i = some text ∧ i + text.length ≤ n ∧
      (∀ j < text.length, b (i + j) = text[j]?) ∧
      ((∀ j, i ≤ j → j < n → b j ≠ some 0) ↔ i + text.length = n) := by
  induction fuel generalizing i with
  | zero => omega
  | succ fuel ih =>
    rw [bufferString]
    obtain rfl | hlt := hi.eq_or_lt
    · refine ⟨[], ?_, le_rfl, fun j hj => absurd hj (Nat.not_lt_zero j), ?_⟩
      · rw [hend]
        rfl
      · exact ⟨fun _ => rfl, fun _ j hj hj' => absurd hj' (Nat.not_lt.mpr hj)⟩
    · obtain ⟨c, hc⟩ := hfill i hlt
      by_cases h0 : c = 0
      · refine ⟨[], ?_, hi, fun j hj => absurd hj (Nat.not_lt_zero j), ?_⟩
        · rw [hc, h0]
          rfl
        · exact ⟨fun hall => absurd (h0 ▸ hc) (hall i le_rfl hlt), fun heq => absurd heq hlt.ne⟩
      · obtain ⟨text, htext, hle, hget, hiff⟩ := ih (i := i + 1) hlt (by omega)
        refine ⟨c :: text, ?_, ?_, ?_, ?_⟩
        · rw [hc, htext]
          exact if_neg h0
        · rw [List.length_cons]
          omega
        · intro j hj
          cases j with
          | zero => exact hc
          | succ j =>
            rw [List.getElem?_cons_succ, ← hget j (Nat.lt_of_succ_lt_succ hj)]
            congr 1
            omega
        · rw [List.length_cons, show i + (text.length + 1) = i + 1 + text.length by omega, ← hiff]
          refine ⟨fun hall j hj => hall j (by omega), fun hall j hj hj' => ?_⟩
          obtain rfl | hij := hj.eq_or_lt
          · rw [hc]
            exact fun heq => h0 (Option.some.inj heq)
          · exact hall j hij hj'

end Libc

end SBUnix.Console
