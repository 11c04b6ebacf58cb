import SBUnix.Console.Split

/-
  The numerals of `%d`, `%x` and `%p`.

  What a directive leaves on the output is compared with what `%s` leaves for the numeral, with the
  same text behind both. For a positive number the digits come out one behind the other. For 0
  nothing is counted, `printInt` does not count a sign, and `printHex` takes the digits of a
  negative number with C's `%`, which is below zero then.
-/

namespace SBUnix.Console

open ByteMem

/-! ## Numerals -/

/-- The digits of a number, the most significant one first. -/
def numeral (base n : Nat) : List Byte := (Nat.toDigits base n).map chr

/-- The decimal representation. -/
def decimal (n : Int) : List Byte := (if n < 0 then [chr '-'] else []) ++ numeral 10 n.natAbs

/-- The hexadecimal representation, in lower case. -/
def hexadecimal (n : Nat) : List Byte := numeral 16 n

/-- The value of a hexadecimal digit in lower case. -/
def hexValue (b : Byte) : Nat := if b.toNat < 97 then b.toNat - 48 else b.toNat - 87

/-- The value of a hexadecimal numeral. -/
def readHex (digits : List Byte) : Nat := digits.foldl (fun v b => 16 * v + hexValue b) 0

section Numeral

variable {base n : Nat}

theorem chr_digitChar (h : n < 16) : chr n.digitChar = hexChar n := by
  interval_cases n <;> decide

theorem hexValue_hexChar (h : n < 16) : hexValue (hexChar n) = n := by
  interval_cases n <;> decide

theorem numeral_of_lt (h : n < base) (hb : base ≤ 16) : numeral base n = [hexChar n] := by
  rw [numeral, Nat.toDigits_of_lt_base h, List.map_singleton, chr_digitChar (by omega)]

/-- The last digit comes off the end. -/
theorem numeral_of_le (h1 : 1 < base) (hb : base ≤ 16) (h : base ≤ n) :
    numeral base n = numeral base (n / base) ++ [hexChar (n % base : Nat)] := by
  have hlt := Nat.mod_lt n (show base > 0 by omega)
  rw [numeral, Nat.toDigits_of_base_le h1 h, List.map_append, List.map_singleton,
    chr_digitChar (by omega), numeral]

theorem length_numeral (h1 : 1 < base) (hb : base ≤ 16) (h : 0 < n) :
    (numeral base n).length = (Nat.digits base n).length := by
  induction n using Nat.strong_induction_on with
  | _ n ih =>
    rw [Nat.digits_def' h1 h, List.length_cons]
    by_cases hlt : n < base
    · rw [numeral_of_lt hlt hb, Nat.div_eq_of_lt hlt]
      simp
    · have hle := Nat.not_lt.mp hlt
      rw [numeral_of_le h1 hb hle, List.length_append, List.length_singleton,
        ih (n / base) (Nat.div_lt_self h h1) (Nat.div_pos hle (by omega))]

/-- A numeral starts with a digit. -/
theorem numeral_head (h1 : 1 < base) (hb : base ≤ 16) :
    ∃ d < 16, (numeral base n)[0]? = some (hexChar (d : Nat)) := by
  induction n using Nat.strong_induction_on with
  | _ n ih =>
    by_cases hlt : n < base
    · exact ⟨n, by omega, by rw [numeral_of_lt hlt hb]; rfl⟩
    · have hle := Nat.not_lt.mp hlt
      obtain ⟨d, hd, hhead⟩ := ih (n / base) (Nat.div_lt_self (by omega) h1)
      obtain ⟨hlen, -⟩ := List.getElem?_eq_some_iff.mp hhead
      exact ⟨d, hd, by rw [numeral_of_le h1 hb hle, List.getElem?_append_left hlen, hhead]⟩

/-- Reading the digits back gives the number. -/
theorem readHex_hexadecimal (n : Nat) : readHex (hexadecimal n) = n := by
  induction n using Nat.strong_induction_on with
  | _ n ih =>
    unfold hexadecimal at ih ⊢
    by_cases hlt : n < 16
    · rw [numeral_of_lt hlt le_rfl]
      show 16 * 0 + hexValue (hexChar n) = n
      rw [hexValue_hexChar hlt]
      omega
    · have hrec := ih (n / 16) (Nat.div_lt_self (by omega) (by decide))
      rw [numeral_of_le (by decide) le_rfl (by omega)]
      unfold readHex at hrec ⊢
      rw [List.foldl_append, hrec, List.foldl_cons, List.foldl_nil,
        hexValue_hexChar (Nat.mod_lt n (by decide))]
      omega

end Numeral

/-! ## Digits on the screen -/

theorem putCell_mem {s s' : Screen} (h : s.mem = s'.mem) (p : Int) (b : Byte) :
    (s.putCell p b).mem = (s'.putCell p b).mem := by
  unfold Screen.putCell Screen.put
  rw [h]

theorem putCell_putCell (s : Screen) (p : Int) (a b : Byte) :
    ((s.putCell p a).putCell p b).mem = (s.putCell p b).mem := by
  funext x
  simp only [Screen.putCell, Screen.put]
  split_ifs <;> rfl

theorem putString_append (video : Int) (s : Screen) (a b : List Byte) :
    putString video s (a ++ b) = putString (putString video s a).2 (putString video s a).1 b := by
  induction a generalizing video s with
  | nil => rfl
  | cons c a ih => exact ih (video + 2) (s.putCell video c)

/-- The string was printed, and its length is returned. -/
structure Printed (video : Int) (s : Screen) (str : List Byte) (r : Screen × Int) : Prop where
  mem : r.1.mem = (putString video s str).1.mem
  advance : r.2 = 2 * (str.length : Int)

section Printed

variable {video : Int} {s : Screen} {str : List Byte} {r : Screen × Int}

theorem Printed.nil (video : Int) (s : Screen) : Printed video s [] (s, 0) := ⟨rfl, rfl⟩

theorem Printed.put (h : Printed video s str r) (b : Byte) :
    Printed video s (str ++ [b]) (r.1.putCell (video + r.2) b, 2 + r.2) := by
  have hend := (putString_spec video s str).2
  constructor
  · rw [putString_append, hend, h.advance]
    exact putCell_mem h.mem _ b
  · have hadv := h.advance
    rw [List.length_append, List.length_singleton]
    omega

theorem printPointer_printed (video : Int) (s : Screen) {n : Nat} (h : 0 < n) :
    Printed video s (hexadecimal n) (printPointer video n s) := by
  induction n using Nat.strong_induction_on with
  | _ n ih =>
    rw [printPointer, if_neg h.ne']
    unfold hexadecimal at ih ⊢
    by_cases hlt : n < 16
    · rw [numeral_of_lt hlt le_rfl, Nat.div_eq_of_lt hlt, Nat.mod_eq_of_lt hlt, printPointer,
        if_pos rfl]
      exact (Printed.nil video s).put _
    · have hrec := ih (n / 16) (Nat.div_lt_self h (by decide)) (by omega)
      rw [numeral_of_le (by decide) le_rfl (Nat.not_lt.mp hlt)]
      exact hrec.put _

/-- The digits of a number that is not negative are those of a pointer. -/
theorem printHex_natCast (video : Int) (n : Nat) (s : Screen) :
    printHex video n s = printPointer video n s := by
  induction n using Nat.strong_induction_on with
  | _ n ih =>
    rw [printHex, printPointer]
    by_cases h : n = 0
    · rw [if_pos h, if_pos (by omega)]
    · have hrec := ih (n / 16) (Nat.div_lt_self (by omega) (by decide))
      rw [if_neg h, if_neg (by omega)]
      dsimp only
      rw [show (n : Int).tdiv 16 = (n / 16 : Nat) from rfl, hrec]
      rfl

/-- The last character that `printInt` writes for a number that is not negative. -/
theorem decimalChar (n : Nat) :
    BitVec.ofInt 8 ((n : Int).tmod 10 + 48) = hexChar (n % 10 : Nat) := by
  have hmod : (n : Int).tmod 10 = (n % 10 : Nat) := rfl
  rw [hmod, hexChar, if_neg (by omega)]

theorem unsignedInt_natCast (n : Nat) : unsignedInt n = n := if_neg (by omega)

theorem printInt_printed (video : Int) (s : Screen) {n : Nat} (h : 0 < n) :
    Printed video s (numeral 10 n) (printInt video n s) := by
  induction n using Nat.strong_induction_on with
  | _ n ih =>
    rw [printInt, if_neg (by omega)]
    simp only [if_neg (show ¬ (n : Int) < 0 by omega), unsignedInt_natCast, decimalChar]
    rw [show (n : Int).tdiv 10 = (n / 10 : Nat) from rfl]
    by_cases hlt : n < 10
    · rw [numeral_of_lt hlt (by decide), Nat.div_eq_of_lt hlt, Nat.mod_eq_of_lt hlt, printInt,
        if_pos Int.natCast_zero]
      refine ⟨?_, rfl⟩
      rw [Int.add_zero]
      exact putCell_putCell s video 48 _
    · have hrec := ih (n / 10) (Nat.div_lt_self h (by decide)) (by omega)
      rw [numeral_of_le (by decide) (by decide) (Nat.not_lt.mp hlt)]
      exact hrec.put _

end Printed

/-! ## Digits in the buffer -/

namespace Libc

theorem putString_append (current : Nat) (b : Buffer) (a str : List Byte) :
    putString current b (a ++ str) =
      putString (putString current b a).2 (putString current b a).1 str := by
  induction a generalizing current b with
  | nil => rfl
  | cons c a ih => exact ih (current + 1) (b.put current c)

/-- The string was stored, and its length is returned. -/
def Printed (current : Nat) (b : Buffer) (str : List Byte) (r : Buffer × Nat) : Prop :=
  r = ((putString current b str).1, str.length)

section Printed

variable {current : Nat} {b : Buffer} {str : List Byte} {r : Buffer × Nat}

theorem Printed.put (h : Printed current b str r) (c : Byte) :
    Printed current b (str ++ [c]) (r.1.put (current + r.2) c, 1 + r.2) := by
  have hend := (putString_eq current b str).1
  obtain rfl := h
  unfold Printed
  rw [putString_append, hend, List.length_append, Nat.add_comm 1]
  rfl

theorem printPointer_printed (current : Nat) (b : Buffer) {n : Nat} (h : 0 < n) :
    Printed current b (hexadecimal n) (printPointer current n b) := by
  induction n using Nat.strong_induction_on with
  | _ n ih =>
    rw [printPointer, if_neg h.ne']
    unfold hexadecimal at ih ⊢
    by_cases hlt : n < 16
    · rw [numeral_of_lt hlt le_rfl, Nat.div_eq_of_lt hlt, Nat.mod_eq_of_lt hlt, printPointer,
        if_pos rfl]
      exact Printed.put (show Printed current b [] (b, 0) from rfl) _
    · have hrec := ih (n / 16) (Nat.div_lt_self h (by decide)) (by omega)
      rw [numeral_of_le (by decide) le_rfl (Nat.not_lt.mp hlt)]
      exact hrec.put _

theorem printHex_natCast (current n : Nat) (b : Buffer) :
    printHex current n b = printPointer current n b := by
  induction n using Nat.strong_induction_on with
  | _ n ih =>
    rw [printHex, printPointer]
    by_cases h : n = 0
    · rw [if_pos h, if_pos (by omega)]
    · have hrec := ih (n / 16) (Nat.div_lt_self (by omega) (by decide))
      rw [if_neg h, if_neg (by omega)]
      dsimp only
      rw [show (n : Int).tdiv 16 = (n / 16 : Nat) from rfl, hrec]
      rfl

theorem printInt_printed (current : Nat) (b : Buffer) {n : Nat} (h : 0 < n) :
    Printed current b (numeral 10 n) (printInt current n b) := by
  induction n using Nat.strong_induction_on with
  | _ n ih =>
    rw [printInt, if_neg (by omega)]
    simp only [if_neg (show ¬ (n : Int) < 0 by omega), unsignedInt_natCast, decimalChar]
    rw [show (n : Int).tdiv 10 = (n / 10 : Nat) from rfl]
    by_cases hlt : n < 10
    · rw [numeral_of_lt hlt (by decide), Nat.div_eq_of_lt hlt, Nat.mod_eq_of_lt hlt, printInt,
        if_pos Int.natCast_zero]
      refine Prod.ext ?_ rfl
      funext i
      show Buffer.put (b.put current 48) current _ i = b.put current _ i
      unfold Buffer.put
      split_ifs <;> rfl
    · have hrec := ih (n / 10) (Nat.div_lt_self h (by decide)) (by omega)
      rw [numeral_of_le (by decide) (by decide) (Nat.not_lt.mp hlt)]
      exact hrec.put _

/-- A negative number starts with a character below the digits. -/
theorem printHex_negative (current : Nat) (b : Buffer) {num : Int} (h : num < 0) :
    ∃ q, -16 < q ∧ q < 0 ∧ (printHex current num b).1 current = some (hexChar q) := by
  induction hn : num.natAbs using Nat.strong_induction_on generalizing num with
  | _ m ih =>
    rw [printHex, if_neg h.ne]
    dsimp only
    by_cases hsmall : -16 < num
    · have hdiv : num.tdiv 16 = 0 := by
        apply Int.natAbs_eq_zero.mp
        rw [Int.natAbs_tdiv]
        exact Nat.div_eq_of_lt (by omega)
      have hmod : num.tmod 16 = num := by
        have hsum := Int.tmod_add_mul_tdiv num 16
        rw [hdiv] at hsum
        omega
      rw [hdiv, hmod, printHex, if_pos rfl]
      exact ⟨num, hsmall, h, Buffer.put_same _ _ _⟩
    · have hdiv : (num.tdiv 16).natAbs = m / 16 := by
        rw [Int.natAbs_tdiv, hn]
        rfl
      have hneg : num.tdiv 16 < 0 := by
        have hsum := Int.tmod_add_mul_tdiv num 16
        have hmod := Int.lt_tmod_of_pos num (show (0 : Int) < 16 by decide)
        omega
      obtain ⟨q, hq, hq', hhead⟩ := ih (m / 16) (Nat.div_lt_self (by omega) (by decide)) hneg hdiv
      have hadv := (printHex_stored current (num.tdiv 16) b).1
      rw [hdiv, Nat.digits_def' (by decide) (by omega), List.length_cons] at hadv
      refine ⟨q, hq, hq', ?_⟩
      rw [Buffer.put_of_ne _ _ (by omega), hhead]

end Printed

end Libc

/-! ## Directives -/

/-- A directive, and the text behind it. -/
def directive (conv : Char) (following : List Byte) : Nat → Byte :=
  text (chr '%' :: chr conv :: following)

/-- Whatever text is behind it and on every console, a directive of `kprintf` leaves what `%s`
    leaves for the numeral. -/
def KprintfWrites (conv : Char) (a : Arg) (str : List Byte) : Prop :=
  ∀ s, Good ⟨s, none⟩ → ∀ following, PlainText following → ∃ fuel s₁ s₂,
    kprintf fuel (directive conv following) (fun _ => a) s = some s₁ ∧
      kprintf fuel (directive 's' following) (fun _ => ⟨str, 0⟩) s = some s₂ ∧ SameConsole s₁ s₂

/-- So does a directive of `printf` in the buffer. -/
def PrintfWrites (conv : Char) (a : Arg) (str : List Byte) : Prop :=
  ∀ following, PlainText following → ∃ fuel f₁ f₂,
    Libc.printfLoop fuel ⟨directive conv following, fun _ => a, 0, 0, 0, fun _ => none⟩ = some f₁ ∧
      Libc.printfLoop fuel ⟨directive 's' following, fun _ => ⟨str, 0⟩, 0, 0, 0, fun _ => none⟩ =
        some f₂ ∧ f₁.current = f₂.current ∧ f₁.buffer = f₂.buffer

/-- What `%d`, `%x` and `%p` print. -/
def numberPiece (conv : Char) (a : Arg) : Piece := Piece.of (chr '%') (chr conv) a

section Directive

variable {conv : Char} {a : Arg} {str following : List Byte}

theorem reads_directive (h : PlainText following)
    (hconv : readArgs (chr '%') (chr conv) = 1) (args : Nat → Arg) :
    Reads (directive conv following) args 0 0
      (numberPiece conv (args 0) :: following.map Piece.ofChar) := by
  have hrest := reads_rest [chr '%', chr conv] h args 1
  refine .cons (show chr '%' ≠ 0 by decide) ?_
  show Reads _ args (0 + 2) (0 + readArgs (chr '%') (chr conv)) _
  rw [hconv]
  exact hrest

theorem kprintf_directive (h : PlainText following) (hconv : readArgs (chr '%') (chr conv) = 1)
    (args : Nat → Arg) (fuel : Nat) (s : Screen) :
    kprintf fuel (directive conv following) args s =
      if following.length + 1 < fuel then
        some (showPieces s.videoCardPosition s
          (numberPiece conv (args 0) :: following.map Piece.ofChar))
      else none := by
  unfold kprintf
  rw [kprintfLoop_eq (reads_directive h hconv args), List.length_cons, List.length_map]

/-- Two pieces that leave the same characters and the same cursor. -/
theorem showPieces_piece {p q : Piece} {video : Int} {s : Screen} (following : List Byte)
    (h : InCall video s)
    (hpq : ∀ video s, (showPiece video s p).1 = (showPiece video s q).1 ∧
      (showPiece video s p).2.mem = (showPiece video s q).2.mem) :
    SameConsole (showPieces video s (p :: following.map Piece.ofChar))
      (showPieces video s (q :: following.map Piece.ofChar)) := by
  obtain ⟨hvideo, hmem⟩ := hpq (scrollFor video s).1 (scrollFor video s).2
  have hp := h.round p
  have hq := h.round q
  have hflag := (showPiece_globals (scrollFor video s).1 (scrollFor video s).2 p).2
  have hflag' := (showPiece_globals (scrollFor video s).1 (scrollFor video s).2 q).2
  rw [showPieces, showPieces]
  rw [hvideo] at hp ⊢
  obtain ⟨hmem', hscroll⟩ := markScroll_congr
    (showPiece (scrollFor video s).1 (scrollFor video s).2 q).1 hmem (hflag.trans hflag'.symm)
  exact showPieces_congr following hp hq hmem' hscroll

theorem kprintfWrites_of (hconv : readArgs (chr '%') (chr conv) = 1)
    (h : ∀ video s, (showPiece video s (numberPiece conv a)).1 =
        (showPiece video s (.string str)).1 ∧
      (showPiece video s (numberPiece conv a)).2.mem = (showPiece video s (.string str)).2.mem) :
    KprintfWrites conv a str := by
  intro s hs following hf
  have hin : InCall s.videoCardPosition s := ⟨hs.cursor, le_rfl, hs.scroll.mp⟩
  have hsame := showPieces_piece following hin h
  refine ⟨following.length + 2, _, _, ?_, ?_, hsame⟩
  · rw [kprintf_directive hf hconv, if_pos (Nat.lt_succ_self _)]
  · rw [kprintf_directive hf rfl, if_pos (Nat.lt_succ_self _)]
    rfl

/-- A directive that writes the string, on an empty console. -/
theorem KprintfWrites.start (h : KprintfWrites conv a str)
    (hconv : readArgs (chr '%') (chr conv) = 1) :
    (showPiece 0 (boot fun _ => 0).screen (numberPiece conv a)).1 = 2 * (str.length : Int) ∧
      (showPiece 0 (boot fun _ => 0).screen (numberPiece conv a)).2.mem =
        (putString 0 (boot fun _ => 0).screen str).1.mem := by
  have hplain : PlainText [] := fun b hb => by cases hb
  obtain ⟨fuel, s₁, s₂, h₁, h₂, hsame⟩ := h (boot fun _ => 0).screen (good_boot _) [] hplain
  rw [kprintf_directive hplain hconv] at h₁
  rw [kprintf_directive hplain rfl] at h₂
  split_ifs at h₁ h₂
  obtain rfl := Option.some.inj h₁
  obtain rfl := Option.some.inj h₂
  have hend := (putString_spec 0 (boot fun _ => 0).screen str).2
  obtain ⟨hmem, hposition, -⟩ := hsame
  simp only [List.map_nil, showPieces, markScroll_mem, markScroll_position] at hmem hposition
  refine ⟨hposition.trans (hend.trans (Int.zero_add _)), hmem⟩

theorem printfWrites_of (hconv : readArgs (chr '%') (chr conv) = 1)
    (h : ∀ current b, Libc.storePiece current b (numberPiece conv a) =
      Libc.storePiece current b (.string str)) : PrintfWrites conv a str := by
  intro following hf
  obtain ⟨pos, arg, h₁⟩ := Libc.printfLoop_eq (reads_directive hf hconv fun _ => a)
    (following.length + 2) 0 fun _ => none
  obtain ⟨pos', arg', h₂⟩ := Libc.printfLoop_eq
    (reads_directive hf (show readArgs (chr '%') (chr 's') = 1 from rfl) fun _ => ⟨str, 0⟩)
    (following.length + 2) 0 fun _ => none
  rw [List.length_cons, List.length_map, if_pos (Nat.lt_succ_self _)] at h₁ h₂
  have hsame : Libc.storePieces 0 (fun _ => none)
        (numberPiece conv a :: following.map Piece.ofChar) =
      Libc.storePieces 0 (fun _ => none) (.string str :: following.map Piece.ofChar) := by
    rw [Libc.storePieces, Libc.storePieces, h]
  refine ⟨_, _, _, h₁, h₂, ?_, ?_⟩
  · exact congrArg Prod.fst hsame
  · exact congrArg Prod.snd hsame

theorem PrintfWrites.start (h : PrintfWrites conv a str)
    (hconv : readArgs (chr '%') (chr conv) = 1) :
    Libc.storePiece 0 (fun _ => none) (numberPiece conv a) =
      Libc.storePiece 0 (fun _ => none) (.string str) := by
  have hplain : PlainText [] := fun b hb => by cases hb
  obtain ⟨fuel, f₁, f₂, h₁, h₂, hcurrent, hbuffer⟩ := h [] hplain
  obtain ⟨pos, arg, hloop⟩ := Libc.printfLoop_eq (reads_directive hplain hconv fun _ => a)
    fuel 0 fun _ => none
  obtain ⟨pos', arg', hloop'⟩ := Libc.printfLoop_eq
    (reads_directive hplain (show readArgs (chr '%') (chr 's') = 1 from rfl) fun _ => ⟨str, 0⟩)
    fuel 0 fun _ => none
  rw [hloop] at h₁
  rw [hloop'] at h₂
  split_ifs at h₁ h₂
  obtain rfl := Option.some.inj h₁
  obtain rfl := Option.some.inj h₂
  exact Prod.ext hcurrent hbuffer

end Directive

/-! ## `%d` -/

/-- `%d` writes the decimal representation, and the length that is returned is that of the text. -/
structure DecimalWritten (a : Arg) : Prop where
  kprintf : KprintfWrites 'd' a (decimal a.int)
  printf : PrintfWrites 'd' a (decimal a.int)
  advance : ∀ video s, (printInt video a.int s).2 = 2 * ((decimal a.int).length : Int)
  advance_buffer : ∀ current b, (Libc.printInt current a.int b).2 = (decimal a.int).length

theorem decimal_natCast (n : Nat) : decimal n = numeral 10 n := by
  rw [decimal, if_neg (by omega), List.nil_append, Int.natAbs_natCast]

/-- Neither a sign nor the digit of 0 is counted. -/
theorem width_int {num : Int} (h : num ≤ 0) : (Piece.int num).width ≠ (decimal num).length := by
  show (Nat.digits 10 num.natAbs).length ≠ _
  unfold decimal
  by_cases h0 : num = 0
  · rw [h0]
    decide
  · rw [if_pos (by omega), List.length_append, length_numeral (by decide) (by decide) (by omega),
      List.length_singleton]
    omega

/-- `%d` writes the decimal representation exactly for the positive numbers. -/
theorem decimalWritten_iff (a : Arg) : DecimalWritten a ↔ 0 < a.int := by
  constructor
  · intro h
    by_contra hle
    have hadv := (h.kprintf.start rfl).1
    rw [showPiece_advance Piece.noConfusion] at hadv
    have hwidth := width_int (Int.not_lt.mp hle)
    change 0 + 2 * ((Piece.int a.int).width : Int) = _ at hadv
    omega
  · intro h
    obtain ⟨n, hn⟩ := Int.eq_ofNat_of_zero_le h.le
    have hpos : 0 < n := by omega
    have hpiece : numberPiece 'd' a = .int n := congrArg Piece.int hn
    refine ⟨kprintfWrites_of rfl ?_, printfWrites_of rfl ?_, ?_, ?_⟩
    · rw [hpiece, hn, decimal_natCast]
      intro video s
      obtain ⟨hmem, hadv⟩ := printInt_printed video s hpos
      exact ⟨(congrArg (video + ·) hadv).trans (putString_spec video s _).2.symm, hmem⟩
    · rw [hpiece, hn, decimal_natCast]
      intro current b
      have hend := (Libc.putString_eq current b (numeral 10 n)).1
      show (current + (Libc.printInt current n b).2, (Libc.printInt current n b).1) = _
      rw [Libc.printInt_printed current b hpos]
      exact Prod.ext hend.symm rfl
    · rw [hn, decimal_natCast]
      exact fun video s => (printInt_printed video s hpos).advance
    · rw [hn, decimal_natCast]
      exact fun current b => congrArg Prod.snd (Libc.printInt_printed current b hpos)

/-- The digit of 0 is overwritten by the text behind it. -/
theorem not_decimalWritten : ¬ DecimalWritten ⟨[], 0⟩ := by
  intro h
  have hadv := h.advance 0 (boot fun _ => 0).screen
  rw [show (Arg.int ⟨[], 0⟩) = 0 by decide, printInt, if_pos rfl] at hadv
  exact absurd hadv (by decide)

/-! ## `%x` and `%p` -/

/-- The 32 bits of an `int`. -/
def Arg.pattern (a : Arg) : Nat := (a.word.setWidth 32).toNat

/-- A directive writes the hexadecimal representation behind a prefix, and it can be read back. -/
structure HexWritten (conv : Char) (a : Arg) (before : List Byte) (value : Nat) : Prop where
  kprintf : KprintfWrites conv a (before ++ hexadecimal value)
  printf : PrintfWrites conv a (before ++ hexadecimal value)
  value : readHex (hexadecimal value) = value

theorem int_pos {a : Arg} (h : 0 < a.int) : a.int = a.pattern := by
  unfold Arg.int Arg.pattern at *
  rw [BitVec.toInt_eq_toNat_cond] at *
  split_ifs at * <;> omega

/-- The characters of a negative number lie below the digits. -/
theorem hexChar_negative {q : Int} (h : -16 < q) (h' : q < 0) {d : Nat} (hd : d < 16) :
    hexChar q ≠ hexChar d := by
  have hbelow : (hexChar q).toNat < 48 := by interval_cases q <;> decide
  have hdigit : 48 ≤ (hexChar d).toNat := by interval_cases d <;> decide
  intro heq
  rw [heq] at hbelow
  omega

theorem hexWritten_int_iff (a : Arg) : HexWritten 'x' a [] a.pattern ↔ 0 < a.int := by
  constructor
  · intro h
    have hprintf := h.printf.start rfl
    change Libc.storePiece 0 _ (.hex a.int) = _ at hprintf
    by_contra hle
    obtain ⟨d, hd, hhead⟩ := numeral_head (n := a.pattern) (show 1 < 16 by decide) le_rfl
    have hstr : (Libc.storePiece 0 (fun _ => none) (.string (hexadecimal a.pattern))).2 0 =
        some (hexChar d) := by
      show (Libc.putString 0 (fun _ => none) (hexadecimal a.pattern)).1 0 = _
      rw [(Libc.putString_eq 0 _ _).2, if_pos le_rfl, Nat.sub_self]
      unfold hexadecimal
      rw [hhead]
      rfl
    rw [List.nil_append] at hprintf
    rw [← hprintf] at hstr
    by_cases h0 : a.int = 0
    · rw [h0] at hstr
      change (Libc.printHex 0 0 fun _ => none).1 0 = _ at hstr
      rw [Libc.printHex, if_pos rfl] at hstr
      cases hstr
    · obtain ⟨q, hq, hq', hneg⟩ := Libc.printHex_negative 0 (fun _ => none)
        (show a.int < 0 by omega)
      exact hexChar_negative hq hq' hd (Option.some.inj (hneg.symm.trans hstr))
  · intro h
    have hint := int_pos h
    have hpos : 0 < a.pattern := by omega
    have hpiece : numberPiece 'x' a = .hex a.pattern := congrArg Piece.hex hint
    refine ⟨kprintfWrites_of rfl ?_, printfWrites_of rfl ?_, readHex_hexadecimal _⟩
    · rw [hpiece, List.nil_append]
      intro video s
      obtain ⟨hmem, hadv⟩ := printPointer_printed video s hpos
      rw [← printHex_natCast] at hmem hadv
      exact ⟨(congrArg (video + ·) hadv).trans (putString_spec video s _).2.symm, hmem⟩
    · rw [hpiece, List.nil_append]
      intro current b
      have hend := (Libc.putString_eq current b (hexadecimal a.pattern)).1
      show (current + (Libc.printHex current a.pattern b).2,
        (Libc.printHex current a.pattern b).1) = _
      rw [Libc.printHex_natCast, Libc.printPointer_printed current b hpos]
      exact Prod.ext hend.symm rfl

theorem hexWritten_pointer_iff (a : Arg) :
    HexWritten 'p' a [chr '0', chr 'x'] a.word.toNat ↔ a.word ≠ 0 := by
  have hpiece : numberPiece 'p' a = .pointer a.word.toNat := rfl
  constructor
  · rintro h h0
    have hadv := (h.kprintf.start rfl).1
    rw [hpiece, showPiece_advance Piece.noConfusion, h0] at hadv
    exact absurd hadv (by decide)
  · intro h
    have hpos : 0 < a.word.toNat := Nat.pos_of_ne_zero fun h0 => h (BitVec.eq_of_toNat_eq h0)
    refine ⟨kprintfWrites_of rfl ?_, printfWrites_of rfl ?_, readHex_hexadecimal _⟩
    · rw [hpiece]
      intro video s
      obtain ⟨hmem, hadv⟩ := printPointer_printed (video + 4)
        ((s.putCell video (chr '0')).putCell (video + 2) (chr 'x')) hpos
      have hstr : putString video s ([chr '0', chr 'x'] ++ hexadecimal a.word.toNat) =
          putString (video + 4) ((s.putCell video (chr '0')).putCell (video + 2) (chr 'x'))
            (hexadecimal a.word.toNat) := by
        rw [putString_append, show video + 4 = video + 2 + 2 by omega]
        rfl
      simp only [showPiece, hstr]
      exact ⟨(congrArg (video + 4 + ·) hadv).trans (putString_spec _ _ _).2.symm, hmem⟩
    · rw [hpiece]
      intro current b
      have hend := (Libc.putString_eq (current + 2)
        ((b.put current (chr '0')).put (current + 1) (chr 'x')) (hexadecimal a.word.toNat)).1
      simp only [Libc.storePiece]
      rw [Libc.printPointer_printed _ _ hpos]
      exact Prod.ext hend.symm rfl

/-- `%x` writes the hexadecimal representation exactly for the positive numbers, and `%p` exactly
    for the pointers that are not 0. -/
theorem hexWritten_iff (a : Arg) : (HexWritten 'x' a [] a.pattern ↔ 0 < a.int) ∧
    (HexWritten 'p' a [chr '0', chr 'x'] a.word.toNat ↔ a.word ≠ 0) :=
  ⟨hexWritten_int_iff a, hexWritten_pointer_iff a⟩

/-- A 0 is written as nothing at all. -/
theorem not_hexWritten : ¬ HexWritten 'x' ⟨[], 0⟩ [] (Arg.pattern ⟨[], 0⟩) ∧
    ¬ HexWritten 'p' ⟨[], 0⟩ [chr '0', chr 'x'] 0 :=
  ⟨fun h => absurd ((hexWritten_int_iff _).mp h) (by decide),
    fun h => (hexWritten_pointer_iff ⟨[], 0⟩).mp h rfl⟩

end SBUnix.Console
