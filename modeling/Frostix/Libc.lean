import Frostix.Lib.Machine32

/-! Character classes and number parsing of the kernel's C library. A string is the
list of bytes from its address on; it ends at the first NUL or where a function stops
reading. -/
namespace Frostix.Libc

open Machine32

/-- `unsigned char`; a plain `char` is its two's-complement reading. -/
abbrev Byte := BitVec 8

def ascii (c : Char) : Byte := BitVec.ofNat 8 c.toNat

def isDigit (c : Byte) : Bool := ascii '0' ≤ c && c ≤ ascii '9'

/-- `isspace`: also `\f` and `\v`. -/
def isSpace (c : Byte) : Bool :=
  c == ascii ' ' || c == 12#8 || c == ascii '\n' || c == ascii '\r' || c == ascii '\t' || c == 11#8

def isAlpha (c : Byte) : Bool :=
  (ascii 'A' ≤ c && c ≤ ascii 'Z') || (ascii 'a' ≤ c && c ≤ ascii 'z')

def toUpper (c : Byte) : Byte := if ascii 'a' ≤ c ∧ c ≤ ascii 'z' then c - ascii 'a' + ascii 'A' else c

/-- The digit loop of `atoi`: 32-bit `int` arithmetic at every digit. -/
def atoiDigits (result : Int) : List Byte → Int
  | [] => result
  | c :: s => if isDigit c then atoiDigits (sint (result * 10 + (c.toNat - 48))) s else result

def atoi (nptr : List Byte) : Int :=
  let s := nptr.dropWhile isSpace
  match s with
  | [] => 0
  | c :: rest =>
      if c = ascii '+' then atoiDigits 0 rest
      else if c = ascii '-' then sint (-1 * atoiDigits 0 rest)
      else atoiDigits 0 s

def digitValue (c : Byte) : Option Nat :=
  if isDigit c then some (c.toNat - 48)
  else if ascii 'a' ≤ c ∧ c ≤ ascii 'f' then some (c.toNat - 97 + 10)
  else if ascii 'A' ≤ c ∧ c ≤ ascii 'F' then some (c.toNat - 65 + 10)
  else none

/-- The digit loop of `strtoul`: it ends at the first byte that is no digit of the base. -/
def strtoulDigits (base val : Nat) : List Byte → Nat
  | [] => val
  | c :: s =>
      match digitValue c with
      | some d => if base ≤ d then val else strtoulDigits base (wrap (val * base + d)) s
      | none => val

/-- `0x` or `0X` in front of a number. -/
def startsWithHex (s : List Byte) : Bool :=
  s.take 2 = [ascii '0', ascii 'x'] || s.take 2 = [ascii '0', ascii 'X']

/-- Base 0 is decided by the number's first characters, which are skipped. -/
def detectBase (base : Nat) (s : List Byte) : Nat × List Byte :=
  if base = 0 then
    if startsWithHex s then (16, s.drop 2)
    else if s.take 1 = [ascii '0'] then (8, s.drop 1)
    else (10, s)
  else (base, s)

/-- `strtoul`; `unsigned long` has 32 bits. -/
def strtoul (str : List Byte) (base : Nat) : Nat :=
  let s := str.dropWhile fun c => c == ascii ' ' || c == ascii '\t' || c == ascii '\n' || c == ascii '\r'
  let s := if s.take 1 = [ascii '+'] then s.drop 1 else s
  let (base, s) := detectBase base s
  let s := if base = 16 ∧ startsWithHex s then s.drop 2 else s
  strtoulDigits base 0 s

end Frostix.Libc
