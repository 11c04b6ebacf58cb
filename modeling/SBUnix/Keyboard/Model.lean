import SBUnix.Lib.ByteMem
import SBUnix.Lib.Steps

/-
  The keyboard (`sys/keyboard.c`).

  `buffer` is given by the bytes around it, and every store of the interrupt handler is entered
  into a log. What the handler echoes on the console is left out. The three assignments of
  `init_keyboard` are steps of their own, between which keys may arrive.
-/

namespace SBUnix.Keyboard

open ByteMem

/-- A character constant. -/
def chr (c : Char) : Byte := BitVec.ofNat 8 c.toNat

/-- `KB_ENTER`: the scan code, and what `hex_to_char` returns for it. -/
def kbEnter : Byte := 0x1c

/-- The character of `key` in a row of keys that starts at the scan code `first`. -/
def rowChar (row : String) (first key : Byte) : Byte :=
  (row.toList.map chr).getD (key - first).toNat 0

def hexToChar (key : Byte) : Byte :=
  if 0x02 ≤ key ∧ key ≤ 0x0b then rowChar "1234567890" 0x02 key
  else if 0x10 ≤ key ∧ key ≤ 0x1b then rowChar "qwertyuiop[]" 0x10 key
  else if 0x1e ≤ key ∧ key ≤ 0x28 then rowChar "asdfghjkl;'" 0x1e key
  else if 0x2c ≤ key ∧ key ≤ 0x35 then rowChar "zxcvbnm,./" 0x2c key
  else if 0x47 ≤ key ∧ key ≤ 0x53 then rowChar "789-456+1230." 0x47 key
  else if key = 0x39 then chr ' '
  else if key = kbEnter then kbEnter
  else 0

/-- The globals of `sys/keyboard.c`, and the indices of `buffer` stored to so far. -/
structure Globals where
  keyboardFlag : Bool
  keyCount : Int
  buffer : Int → Byte
  stores : List Int

/-- `n + 1` in an `int`. -/
def incInt (n : Int) : Int := (n + 1).bmod (2 ^ 32)

/-- `buffer[key_count++] = b`. -/
def Globals.push (k : Globals) (b : Byte) : Globals :=
  { k with
    buffer := fun i => if i = k.keyCount then b else k.buffer i
    stores := k.keyCount :: k.stores
    keyCount := incInt k.keyCount }

def keyboardInterrupt (key : Byte) (k : Globals) : Globals :=
  let character := hexToChar key
  if character ≠ 0 then
    if character = kbEnter then { k.push 0 with keyboardFlag := true }
    else if k.keyCount < 256 then k.push character
    else k
  else k

/-! ## `init_keyboard` -/

def clearFlag (k : Globals) : Globals := { k with keyboardFlag := false }

/-- `strcpy(buffer, "\0")`. -/
def clearBuffer (k : Globals) : Globals :=
  { k with buffer := fun i => if i = 0 then 0 else k.buffer i }

def clearCount (k : Globals) : Globals := { k with keyCount := 0 }

def initKeyboard (k : Globals) : Globals := clearCount (clearBuffer (clearFlag k))

/-! ## Runs -/

/-- What changes the globals: the steps of `init_keyboard`, which `getstring` starts with, and the
    interrupt. -/
inductive Event where
  | clearFlag
  | clearBuffer
  | clearCount
  | keyboardInterrupt (key : Byte)

def step (k : Globals) : Event → Globals
  | .clearFlag => clearFlag k
  | .clearBuffer => clearBuffer k
  | .clearCount => clearCount k
  | .keyboardInterrupt key => keyboardInterrupt key k

def run (k : Globals) (es : List Event) : Globals := es.foldl step k

/-- The keyboard before the first event, with any bytes in `buffer` and around it. -/
def boot (mem : Int → Byte) : Globals := ⟨false, 0, mem, []⟩

end SBUnix.Keyboard
