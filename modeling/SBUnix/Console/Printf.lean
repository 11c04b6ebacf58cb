import SBUnix.Console.Bounds

/-
  `printf` of the C library (`libc/puts.c`), and the system call it ends in.

  The format goes into `buffer`, one character for each that `kprintf` would put into a cell, and
  system call 1 prints the buffer with `kprintf("%s", ..)`. A whole call of `kprintf` is the run of
  its rounds and its return (`kprintfLoop_run`).
-/

namespace SBUnix.Console

open ByteMem

/-! ## `libc/puts.c` -/

namespace Libc

/-- `buffer`, with `none` where nothing was stored. -/
abbrev Buffer := Nat → Option Byte

/-- The number of characters of `buffer`. -/
def bufferSize : Nat := 2000

def Buffer.put (buffer : Buffer) (i : Nat) (b : Byte) : Buffer :=
  fun x => if x = i then some b else buffer x

def printPointer (current num : Nat) (buffer : Buffer) : Buffer × Nat :=
  if num = 0 then (buffer, 0)
  else
    let r := printPointer current (num / 16) buffer
    (r.1.put (current + r.2) (hexChar (num % 16 : Nat)), 1 + r.2)
termination_by num

def printHex (current : Nat) (num : Int) (buffer : Buffer) : Buffer × Nat :=
  if num = 0 then (buffer, 0)
  else
    let r := printHex current (num.tdiv 16) buffer
    (r.1.put (current + r.2) (hexChar (num.tmod 16)), 1 + r.2)
termination_by num.natAbs
decreasing_by
  rw [Int.natAbs_tdiv]
  exact Nat.div_lt_self (by omega) (by decide)

def printInt (current : Nat) (num : Int) (buffer : Buffer) : Buffer × Nat :=
  if num = 0 then (buffer.put current 48, 0)
  else
    let buffer := if num < 0 then buffer.put current 45 else buffer
    let current := if num < 0 then current + 1 else current
    let r := printInt current ((unsignedInt num).tdiv 10) buffer
    (r.1.put (current + r.2) (BitVec.ofInt 8 ((unsignedInt num).tmod 10 + 48)), 1 + r.2)
termination_by num.natAbs
decreasing_by
  rw [Int.natAbs_tdiv, natAbs_unsignedInt]
  exact Nat.div_lt_self (by omega) (by decide)

/-- The loop of `%s`. -/
def putString (current : Nat) (buffer : Buffer) : List Byte → Buffer × Nat
  | [] => (buffer, current)
  | b :: str => putString (current + 1) (buffer.put current b) str

/-- A call of `printf`, as `Call` is one of `kprintf`. -/
structure Printf where
  fmt : Nat → Byte
  args : Nat → Arg
  pos : Nat
  arg : Nat
  current : Nat
  buffer : Buffer

def Printf.cur (f : Printf) : Byte := f.fmt f.pos

def Printf.conv (f : Printf) : Byte := f.fmt (f.pos + 1)

def Printf.param (f : Printf) : Arg := f.args f.arg

/-- A conversion. -/
def convert (f : Printf) : Printf :=
  let taken := { f with pos := f.pos + 2, arg := f.arg + 1 }
  if f.conv = chr 's' then
    let r := putString f.current f.buffer f.param.str
    { taken with current := r.2, buffer := r.1 }
  else if f.conv = chr 'c' then
    { taken with
      current := f.current + 1
      buffer := f.buffer.put f.current (f.param.word.setWidth 8) }
  else if f.conv = chr 'd' then
    let r := printInt f.current f.param.int f.buffer
    { taken with current := f.current + r.2, buffer := r.1 }
  else if f.conv = chr 'x' then
    let r := printHex f.current f.param.int f.buffer
    { taken with current := f.current + r.2, buffer := r.1 }
  else if f.conv = chr 'p' then
    let buffer := (f.buffer.put f.current (chr '0')).put (f.current + 1) (chr 'x')
    let r := printPointer (f.current + 2) f.param.word.toNat buffer
    { taken with current := f.current + 2 + r.2, buffer := r.1 }
  else { f with pos := f.pos + 2 }

/-- A round of the loop. A newline is stored as any other character. -/
def iterate (f : Printf) : Printf :=
  if f.cur = chr '%' then convert f
  else if f.cur = chr '\n' then
    { f with pos := f.pos + 1, current := f.current + 1, buffer := f.buffer.put f.current f.cur }
  else { f with pos := f.pos + 1, current := f.current + 1, buffer := f.buffer.put f.current f.cur }

def printfLoop : Nat → Printf → Option Printf
  | 0, _ => none
  | fuel + 1, f => if f.cur ≠ 0 then printfLoop fuel (iterate f) else some f

/-- The string in `buffer` from `i` on, if it ends within `n` characters. -/
def bufferString (buffer : Buffer) : Nat → Nat → Option (List Byte)
  | 0, _ => none
  | n + 1, i => do
    let b ← buffer i
    if b = 0 then return [] else return b :: (← bufferString buffer n (i + 1))

end Libc

/-! ## The two calls -/

def kprintfLoop : Nat → Call → Screen → Option Screen
  | 0, _, _ => none
  | fuel + 1, c, s =>
    if c.cur ≠ 0 then
      let r := iterate c s
      kprintfLoop fuel r.1 r.2
    else some (markScroll c.video { s with videoCardPosition := c.video })

theorem kprintfLoop_run {fuel : Nat} {c : Call} {s s' : Screen}
    (h : kprintfLoop fuel c s = some s') :
    ∃ n, Run ⟨s, some c⟩ (List.replicate n .iterate ++ [.ret]) ⟨s', none⟩ := by
  induction fuel generalizing c s with
  | zero => cases h
  | succ fuel ih =>
    rw [kprintfLoop] at h
    by_cases hcur : c.cur ≠ 0
    · rw [if_pos hcur] at h
      obtain ⟨n, hrun⟩ := ih h
      exact ⟨n + 1, .cons (if_pos hcur) hrun⟩
    · rw [if_neg hcur] at h
      obtain rfl := Option.some.inj h
      exact ⟨0, .single (if_neg hcur)⟩

/-- A whole call of `kprintf`, with `fuel` for its loop. -/
def kprintf (fuel : Nat) (fmt : Nat → Byte) (args : Nat → Arg) (s : Screen) : Option Screen :=
  kprintfLoop fuel ⟨fmt, args, 0, 0, s.videoCardPosition⟩ s

theorem kprintf_run {fuel : Nat} {fmt : Nat → Byte} {args : Nat → Arg} {s s' : Screen}
    (h : kprintf fuel fmt args s = some s') :
    ∃ n, Run ⟨s, none⟩ (.kprintf fmt args :: (List.replicate n .iterate ++ [.ret])) ⟨s', none⟩ := by
  obtain ⟨n, hrun⟩ := kprintfLoop_run h
  exact ⟨n, .cons rfl hrun⟩

/-- The format `"%s"`. -/
def stringFormat : Nat → Byte
  | 0 => chr '%'
  | 1 => chr 's'
  | _ => 0

/-- `syscall_handler` for system call 1. -/
def syscallPrint (text : List Byte) (s : Screen) : Option Screen :=
  kprintf 2 stringFormat (fun _ => ⟨text, 0⟩) s

/-- A whole call of libc's `printf`. -/
def Libc.printf (fuel : Nat) (fmt : Nat → Byte) (args : Nat → Arg) (s : Screen) : Option Screen := do
  let f ← Libc.printfLoop fuel ⟨fmt, args, 0, 0, 0, fun _ => none⟩
  let text ← Libc.bufferString (f.buffer.put f.current 0) Libc.bufferSize 0
  syscallPrint text s

end SBUnix.Console
