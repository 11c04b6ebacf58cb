import SBUnix.Lib.ByteMem
import SBUnix.Lib.Steps
import SBUnix.Paging.Defs

/-
  The console (`sys/kprintf.c`).

  Positions are offsets from `videoCardStart`, so `setNewVideoCardAddresses` changes nothing here.
  Every store is also entered into a log. A call of `kprintf` takes one step for each round of its
  loop over the format; a string argument is given by its bytes up to the NUL.
-/

namespace SBUnix.Console

open ByteMem

/-- `videoCardEnd`. -/
def videoCardEnd : Int := 0xFA0

/-- A character constant. -/
def chr (c : Char) : Byte := BitVec.ofNat 8 c.toNat

/-- The bytes around the screen, the offsets written so far, and the globals. -/
structure Screen where
  mem : Int → Byte
  written : List Int
  videoCardPosition : Int
  scrollForNextCall : Bool

def Screen.put (s : Screen) (p : Int) (b : Byte) : Screen :=
  { s with mem := fun x => if x = p then b else s.mem x, written := p :: s.written }

/-- A character and its `colour`, which is always 0. -/
def Screen.putCell (s : Screen) (p : Int) (b : Byte) : Screen := (s.put p b).put (p + 1) 0

/-! ## Numbers and strings -/

/-- The character of a hexadecimal digit. -/
def hexChar (digit : Int) : Byte :=
  BitVec.ofInt 8 (if 10 ≤ digit then digit + 87 else digit + 48)

def printPointer (video : Int) (num : Nat) (s : Screen) : Screen × Int :=
  if num = 0 then (s, 0)
  else
    let r := printPointer video (num / 16) s
    (r.1.putCell (video + r.2) (hexChar (num % 16 : Nat)), 2 + r.2)
termination_by num

def printHex (video num : Int) (s : Screen) : Screen × Int :=
  if num = 0 then (s, 0)
  else
    let r := printHex video (num.tdiv 16) s
    (r.1.putCell (video + r.2) (hexChar (num.tmod 16)), 2 + r.2)
termination_by num.natAbs
decreasing_by
  rw [Int.natAbs_tdiv]
  exact Nat.div_lt_self (by omega) (by decide)

/-- `num * -1` in an `int`: the least `int` stays as it is. -/
def negInt (num : Int) : Int := if num = -2 ^ 31 then num else -num

/-- The `num` of `printInt` behind the sign. -/
def unsignedInt (num : Int) : Int := if num < 0 then negInt num else num

theorem natAbs_unsignedInt (num : Int) : (unsignedInt num).natAbs = num.natAbs := by
  unfold unsignedInt negInt
  split_ifs
  · rfl
  · exact Int.natAbs_neg num
  · rfl

def printInt (video num : Int) (s : Screen) : Screen × Int :=
  if num = 0 then (s.putCell video 48, 0)
  else
    let s := if num < 0 then s.putCell video 45 else s
    let video := if num < 0 then video + 2 else video
    let r := printInt video ((unsignedInt num).tdiv 10) s
    (r.1.putCell (video + r.2) (BitVec.ofInt 8 ((unsignedInt num).tmod 10 + 48)), 2 + r.2)
termination_by num.natAbs
decreasing_by
  rw [Int.natAbs_tdiv, natAbs_unsignedInt]
  exact Nat.div_lt_self (by omega) (by decide)

/-- The loop of `%s`. -/
def putString (video : Int) (s : Screen) : List Byte → Screen × Int
  | [] => (s, video)
  | b :: str => putString (video + 2) (s.putCell video b) str

/-! ## Scrolling -/

/-- Copy `n` bytes from `p + 160` to `p`. -/
def copyLines : Nat → Int → Screen → Screen
  | 0, _, s => s
  | n + 1, p, s => copyLines n (p + 1) (s.put p (s.mem (p + 160)))

/-- The loop for the last line. -/
def blankLine : Nat → Int → Screen → Screen
  | 0, _, s => s
  | n + 1, p, s => if p > videoCardEnd then s else blankLine n (p + 2) (s.put p (chr ' '))

def scroll (s : Screen) : Screen := blankLine 160 (24 * 160) (copyLines (24 * 160) 0 s)

/-- The loop of `initScreen`, from `p` on. -/
def blankCells : Nat → Int → Screen → Screen
  | 0, _, s => s
  | n + 1, p, s => blankCells n (p + 2) (s.put p (chr ' '))

def initScreen (s : Screen) : Screen := blankCells 4000 0 s

/-! ## `kprintf` -/

/-- An argument, as `%s` reads it and as the other conversions do. -/
structure Arg where
  str : List Byte
  word : Word

/-- `va_arg(parameters, int)`. -/
def Arg.int (a : Arg) : Int := (a.word.setWidth 32).toInt

/-- A call of `kprintf`: the format and the arguments, how much of them was read, and `video`. -/
structure Call where
  fmt : Nat → Byte
  args : Nat → Arg
  pos : Nat
  arg : Nat
  video : Int

/-- The next character of the format. -/
def Call.cur (c : Call) : Byte := c.fmt c.pos

/-- The character behind it. -/
def Call.conv (c : Call) : Byte := c.fmt (c.pos + 1)

/-- The next argument. -/
def Call.param (c : Call) : Arg := c.args c.arg

/-- The scroll that an earlier round left to do. -/
def deferredScroll (c : Call) (s : Screen) : Call × Screen :=
  if s.scrollForNextCall then
    let s := scroll s
    ({ c with video := c.video - 160 },
      { s with videoCardPosition := s.videoCardPosition - 160, scrollForNextCall := false })
  else (c, s)

/-- A conversion. -/
def convert (c : Call) (s : Screen) : Call × Screen :=
  let taken := { c with pos := c.pos + 2, arg := c.arg + 1 }
  if c.conv = chr 's' then
    let r := putString c.video s c.param.str
    ({ taken with video := r.2 }, r.1)
  else if c.conv = chr 'c' then
    ({ taken with video := c.video + 2 }, s.putCell c.video (c.param.word.setWidth 8))
  else if c.conv = chr 'd' then
    let r := printInt c.video c.param.int s
    ({ taken with video := c.video + r.2 }, r.1)
  else if c.conv = chr 'x' then
    let r := printHex c.video c.param.int s
    ({ taken with video := c.video + r.2 }, r.1)
  else if c.conv = chr 'p' then
    let s := (s.putCell c.video (chr '0')).putCell (c.video + 2) (chr 'x')
    let r := printPointer (c.video + 4) c.param.word.toNat s
    ({ taken with video := c.video + 4 + r.2 }, r.1)
  else ({ c with pos := c.pos + 2 }, s)

/-- The column arithmetic of a newline, with C's `%`. -/
def newline (c : Call) (s : Screen) : Int :=
  if s.videoCardPosition.tmod 160 ≠ 0 then c.video + (160 - c.video.tmod 160)
  else c.video + (160 - (c.video - s.videoCardPosition).tmod 160)

/-- A conversion, a newline or a character. -/
def item (c : Call) (s : Screen) : Call × Screen :=
  if c.cur = chr '%' then convert c s
  else if c.cur = chr '\n' then ({ c with pos := c.pos + 1, video := newline c s }, s)
  else ({ c with pos := c.pos + 1, video := c.video + 2 }, s.putCell c.video c.cur)

/-- `if(video >= videoCardEnd) scrollForNextCall = 1`. -/
def markScroll (video : Int) (s : Screen) : Screen :=
  if videoCardEnd ≤ video then { s with scrollForNextCall := true } else s

/-- A round of the loop. -/
def iterate (c : Call) (s : Screen) : Call × Screen :=
  let r := deferredScroll c s
  let r := item r.1 r.2
  (r.1, markScroll r.1.video r.2)

/-- The screen, and the call that is being carried out. -/
structure State where
  screen : Screen
  call : Option Call

/-- A call of `initScreen` or `kprintf`, a round of the loop of `kprintf`, or its return. -/
inductive Event where
  | initScreen
  | kprintf (fmt : Nat → Byte) (args : Nat → Arg)
  | iterate
  | ret

def step (s : State) : Event → Option State
  | .initScreen =>
    match s.call with
    | none => some { s with screen := initScreen s.screen }
    | some _ => none
  | .kprintf fmt args =>
    match s.call with
    | none => some { s with call := some ⟨fmt, args, 0, 0, s.screen.videoCardPosition⟩ }
    | some _ => none
  | .iterate =>
    match s.call with
    | none => none
    | some c =>
      if c.cur ≠ 0 then
        let r := iterate c s.screen
        some ⟨r.2, some r.1⟩
      else none
  | .ret =>
    match s.call with
    | none => none
    | some c =>
      if c.cur ≠ 0 then none
      else some ⟨markScroll c.video { s.screen with videoCardPosition := c.video }, none⟩

/-- The console before the first call. -/
def boot (mem : Int → Byte) : State := ⟨⟨mem, [], 0, false⟩, none⟩

/-- The runs of the console. -/
abbrev Run (s : State) (es : List Event) (s' : State) : Prop :=
  Steps.Run (fun s e s' => step s e = some s') s es s'

end SBUnix.Console
