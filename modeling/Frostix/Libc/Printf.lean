import Frostix.Lib.Emit
import Frostix.Libc

/-!
The formatter behind `printf` (`printf.c`). A format is the list of its bytes without the
terminating NUL. The variable arguments are the 32-bit words of the caller's stack; strings
are read from a memory that the output does not reach. Conversions of floating-point numbers
end the call with `none`, and so does a directive that the terminator cuts off. -/
namespace Frostix.Libc.Printf

open ByteMemory Machine32 Emit

/-- The `FLAGS_` bits of a directive. -/
structure Flags where
  zeropad : Bool := false
  left : Bool := false
  plus : Bool := false
  space : Bool := false
  hash : Bool := false
  uppercase : Bool := false
  char : Bool := false
  short : Bool := false
  long : Bool := false
  longLong : Bool := false
  precision : Bool := false
  deriving DecidableEq

abbrev VaList := Nat → BitVec 32

def VaList.drop (va : VaList) (n : Nat) : VaList := fun i => va (i + n)

/-- `va_arg(va, long long)`: two words, the low one first. -/
def VaList.word64 (va : VaList) : BitVec 64 := va 1 ++ va 0

def ntoaBufferSize : Nat := 32

variable {σ : Type}

def outBuffer (buffer maxlen : Nat) : Out Mem Byte := fun m character idx =>
  if idx < maxlen then store8 m (wrap (buffer + idx)) character else m

def outNull : Out σ Byte := fun s _ _ => s

/-- `_out_char` and `_out_fct`: the function they call never sees a NUL. -/
def outChar (putchar : σ → Byte → σ) : Out σ Byte := fun s character _ =>
  if character != 0#8 then putchar s character else s

def spaces (out : Out σ Byte) (n : Nat) (s : σ × Nat) : σ × Nat := repeated out (ascii ' ') n s

/-- `_out_rev`; `buf` holds the `len` characters in reverse. -/
def outRev (out : Out σ Byte) (s : σ × Nat) (buf : List Byte) (width : Nat) (flags : Flags) : σ × Nat :=
  let startIdx := s.2
  let s := if !flags.left && !flags.zeropad then spaces out (width - buf.length) s else s
  let s := emit out s buf.reverse
  if flags.left then spaces out (width - wsub s.2 startIdx) s else s

/-- `while (len < n && len < PRINTF_NTOA_BUFFER_SIZE) buf[len++] = '0'`. -/
def fillZeros (buf : List Byte) (n : Nat) : List Byte :=
  buf ++ List.replicate (min n ntoaBufferSize - buf.length) (ascii '0')

/-- `buf[len++] = c` if there is room. -/
def pushChar (buf : List Byte) (c : Byte) : List Byte :=
  if buf.length < ntoaBufferSize then buf ++ [c] else buf

/-- The width without the place of a sign in front of padding zeros. -/
def signedWidth (negative : Bool) (width : Nat) (flags : Flags) : Nat :=
  if width ≠ 0 ∧ flags.zeropad ∧ (negative ∨ flags.plus ∨ flags.space) then width - 1 else width

def padZeros (buf : List Byte) (negative : Bool) (prec width : Nat) (flags : Flags) : List Byte × Nat :=
  if flags.left then (buf, width)
  else
    let width := signedWidth negative width flags
    let buf := fillZeros buf prec
    (if flags.zeropad then fillZeros buf width else buf, width)

/-- One or two characters are taken back when the number fills the width or the precision. -/
def takeBack (buf : List Byte) (base prec width : Nat) (flags : Flags) : List Byte :=
  if !flags.precision ∧ buf.length ≠ 0 ∧ (buf.length = prec ∨ buf.length = width) then
    if buf.length - 1 ≠ 0 ∧ base = 16 then buf.dropLast.dropLast else buf.dropLast
  else buf

def addHash (buf : List Byte) (base prec width : Nat) (flags : Flags) : List Byte :=
  let buf := takeBack buf base prec width flags
  let buf :=
    if base = 16 then pushChar buf (if flags.uppercase then ascii 'X' else ascii 'x')
    else if base = 2 then pushChar buf (ascii 'b')
    else buf
  pushChar buf (ascii '0')

def addSign (buf : List Byte) (negative : Bool) (flags : Flags) : List Byte :=
  if negative then pushChar buf (ascii '-')
  else if flags.plus then pushChar buf (ascii '+')
  else if flags.space then pushChar buf (ascii ' ')
  else buf

/-- The buffer and the width that `_ntoa_format` hands to `_out_rev`. -/
def formatBuffer (buf : List Byte) (negative : Bool) (base prec width : Nat) (flags : Flags) : List Byte × Nat :=
  let (buf, width) := padZeros buf negative prec width flags
  let buf := if flags.hash then addHash buf base prec width flags else buf
  (addSign buf negative flags, width)

def ntoaFormat (out : Out σ Byte) (s : σ × Nat) (buf : List Byte) (negative : Bool)
    (base prec width : Nat) (flags : Flags) : σ × Nat :=
  let (buf, width) := formatBuffer buf negative base prec width flags
  outRev out s buf width flags

def digitChar (uppercase : Bool) (digit : Nat) : Byte :=
  if digit < 10 then BitVec.ofNat 8 (48 + digit)
  else BitVec.ofNat 8 ((if uppercase then 65 else 97) + digit - 10)

def ntoaDigits (uppercase : Bool) (base : Nat) : Nat → Nat → List Byte
  | 0, _ => []
  | room + 1, value =>
      digitChar uppercase (value % base) ::
        if value / base = 0 then [] else ntoaDigits uppercase base room (value / base)

/-- `_ntoa_long` and `_ntoa_long_long` differ in the type of the value only. -/
def ntoa (out : Out σ Byte) (s : σ × Nat) (value : Nat) (negative : Bool) (base prec width : Nat)
    (flags : Flags) : σ × Nat :=
  let flags := if value = 0 then { flags with hash := false } else flags
  let buf := if !flags.precision || value ≠ 0 then ntoaDigits flags.uppercase base ntoaBufferSize value else []
  ntoaFormat out s buf negative base prec width flags

def ntoaLong (out : Out σ Byte) (s : σ × Nat) (value : BitVec 32) := ntoa out s value.toNat

def ntoaLongLong (out : Out σ Byte) (s : σ × Nat) (value : BitVec 64) := ntoa out s value.toNat

/-- What has been read of a directive, with the rest of the format and of the arguments. -/
structure Directive where
  flags : Flags
  width : Nat
  precision : Nat
  fmt : List Byte
  va : VaList

def readFlags (flags : Flags) : List Byte → Flags × List Byte
  | [] => (flags, [])
  | c :: fmt =>
      if c = ascii '0' then readFlags { flags with zeropad := true } fmt
      else if c = ascii '-' then readFlags { flags with left := true } fmt
      else if c = ascii '+' then readFlags { flags with plus := true } fmt
      else if c = ascii ' ' then readFlags { flags with space := true } fmt
      else if c = ascii '#' then readFlags { flags with hash := true } fmt
      else (flags, c :: fmt)

/-- `_atoi`: the digits in front, in `unsigned int` arithmetic. -/
def atoiUnsigned (i : Nat) : List Byte → Nat × List Byte
  | [] => (i, [])
  | c :: fmt => if isDigit c then atoiUnsigned (wrap (i * 10 + (c.toNat - 48))) fmt else (i, c :: fmt)

/-- "evaluate width field": a negative argument is a width with the flag `-`. -/
def readWidth (d : Directive) : Directive :=
  match d.fmt with
  | [] => d
  | c :: fmt =>
      if isDigit c then { d with width := (atoiUnsigned 0 d.fmt).1, fmt := (atoiUnsigned 0 d.fmt).2 }
      else if c = ascii '*' then
        let w := (d.va 0).toInt
        { d with
          flags := if w < 0 then { d.flags with left := true } else d.flags
          width := w.natAbs
          fmt
          va := d.va.drop 1 }
      else d

def readPrecision (d : Directive) : Directive :=
  match d.fmt with
  | [] => d
  | c :: fmt =>
      if c = ascii '.' then
        let d := { d with flags := { d.flags with precision := true }, fmt }
        match fmt with
        | [] => d
        | c :: fmt' =>
            if isDigit c then { d with precision := (atoiUnsigned 0 fmt).1, fmt := (atoiUnsigned 0 fmt).2 }
            else if c = ascii '*' then
              { d with precision := (d.va 0).toInt.toNat, fmt := fmt', va := d.va.drop 1 }
            else d
      else d

/-- "evaluate length field". On this machine `long`, `ptrdiff_t` and `size_t` have 32
bits, `intmax_t` and `long long` have 64. -/
def readLength (d : Directive) : Directive :=
  match d.fmt with
  | [] => d
  | c :: fmt =>
      if c = ascii 'l' then
        if fmt.head? = some (ascii 'l') then
          { d with flags := { d.flags with long := true, longLong := true }, fmt := fmt.drop 1 }
        else { d with flags := { d.flags with long := true }, fmt }
      else if c = ascii 'h' then
        if fmt.head? = some (ascii 'h') then
          { d with flags := { d.flags with short := true, char := true }, fmt := fmt.drop 1 }
        else { d with flags := { d.flags with short := true }, fmt }
      else if c = ascii 't' ∨ c = ascii 'z' then { d with flags := { d.flags with long := true }, fmt }
      else if c = ascii 'j' then { d with flags := { d.flags with longLong := true }, fmt }
      else d

def readDirective (fmt : List Byte) (va : VaList) : Directive :=
  let (flags, fmt) := readFlags {} fmt
  readLength (readPrecision (readWidth { flags, width := 0, precision := 0, fmt, va }))

def integerBase (c : Byte) : Nat :=
  if c = ascii 'x' ∨ c = ascii 'X' then 16
  else if c = ascii 'o' then 8
  else if c = ascii 'b' then 2
  else 10

def isSigned (c : Byte) : Bool := c == ascii 'i' || c == ascii 'd'

def integerFlags (c : Byte) (flags : Flags) : Flags :=
  { flags with
    hash := flags.hash && integerBase c != 10
    uppercase := flags.uppercase || c == ascii 'X'
    plus := flags.plus && isSigned c
    space := flags.space && isSigned c
    zeropad := flags.zeropad && !flags.precision }

/-- The value of a signed integer argument. A plain `char` is signed. -/
def signedArg (flags : Flags) (va : VaList) : Int :=
  if flags.longLong then va.word64.toInt
  else if flags.long then (va 0).toInt
  else if flags.char then ((va 0).setWidth 8).toInt
  else if flags.short then ((va 0).setWidth 16).toInt
  else (va 0).toInt

def unsignedArg (flags : Flags) (va : VaList) : Nat :=
  if flags.longLong then va.word64.toNat
  else if flags.long then (va 0).toNat
  else if flags.char then ((va 0).setWidth 8).toNat
  else if flags.short then ((va 0).setWidth 16).toNat
  else (va 0).toNat

/-- `d`, `i`, `u`, `x`, `X`, `o` and `b`. The magnitude of the least value of a signed
type is taken as that of the same bits read unsigned. -/
def convertInteger (out : Out σ Byte) (s : σ × Nat) (c : Byte) (d : Directive) : σ × Nat :=
  let base := integerBase c
  let flags := integerFlags c d.flags
  if isSigned c then
    let value := signedArg flags d.va
    if flags.longLong then
      ntoaLongLong out s (BitVec.ofNat 64 value.natAbs) (value < 0) base d.precision d.width flags
    else ntoaLong out s (BitVec.ofNat 32 value.natAbs) (value < 0) base d.precision d.width flags
  else
    let value := unsignedArg flags d.va
    if flags.longLong then
      ntoaLongLong out s (BitVec.ofNat 64 value) false base d.precision d.width flags
    else ntoaLong out s (BitVec.ofNat 32 value) false base d.precision d.width flags

/-- `c`. -/
def convertChar (out : Out σ Byte) (s : σ × Nat) (d : Directive) : σ × Nat :=
  let s := if !d.flags.left then spaces out (d.width - 1) s else s
  let s := put out s ((d.va 0).setWidth 8)
  if d.flags.left then spaces out (d.width - 1) s else s

/-- `_strnlen_s`; the second argument is `maxsize`. -/
def strnlenS (m : Mem) (str : Nat) : Nat → Nat
  | 0 => 0
  | maxsize + 1 => if m str = 0#8 then 0 else strnlenS m (wrap (str + 1)) maxsize + 1

/-- "string output": up to the NUL, or for as many characters as the precision allows. All
of memory without a NUL is read around forever. -/
def outString (out : Out σ Byte) (m : Mem) (limited : Bool) : Nat → Nat → σ × Nat → Option (σ × Nat)
  | 0, _, s => if limited then some s else none
  | room + 1, p, s =>
      if m p = 0#8 then some s else outString out m limited room (wrap (p + 1)) (put out s (m p))

/-- `s`. -/
def convertString (out : Out σ Byte) (m : Mem) (s : σ × Nat) (d : Directive) : Option (σ × Nat) :=
  let p := (d.va 0).toNat
  let l := strnlenS m p (if d.precision ≠ 0 then d.precision else 2 ^ 32 - 1)
  let l := if d.flags.precision then min l d.precision else l
  let s := if !d.flags.left then spaces out (d.width - l) s else s
  let room := if d.flags.precision then d.precision else 2 ^ 32
  (outString out m d.flags.precision room p s).map fun s =>
    if d.flags.left then spaces out (d.width - l) s else s

/-- `p`. -/
def convertPointer (out : Out σ Byte) (s : σ × Nat) (d : Directive) : σ × Nat :=
  ntoaLong out s (d.va 0) false 16 d.precision 8 { d.flags with zeropad := true, uppercase := true }

def argWords (flags : Flags) : Nat := if flags.longLong then 2 else 1

def integerSpecifiers : List Byte := ['d', 'i', 'u', 'x', 'X', 'o', 'b'].map ascii

def floatSpecifiers : List Byte := ['f', 'F', 'e', 'E', 'g', 'G'].map ascii

/-- "evaluate specifier". `%` and any unknown character are printed as they stand. -/
def convert (out : Out σ Byte) (m : Mem) (s : σ × Nat) (d : Directive) :
    Option ((σ × Nat) × List Byte × VaList) :=
  match d.fmt with
  | [] => none
  | c :: fmt =>
      if integerSpecifiers.contains c then some (convertInteger out s c d, fmt, d.va.drop (argWords d.flags))
      else if floatSpecifiers.contains c then none
      else if c = ascii 'c' then some (convertChar out s d, fmt, d.va.drop 1)
      else if c = ascii 's' then (convertString out m s d).map fun s => (s, fmt, d.va.drop 1)
      else if c = ascii 'p' then some (convertPointer out s d, fmt, d.va.drop 1)
      else some (put out s c, fmt, d.va)

/-- The loop of `_vsnprintf`, for at most as many rounds as the first argument says. -/
def formatLoop (out : Out σ Byte) (m : Mem) : Nat → List Byte → VaList → σ × Nat → Option (σ × Nat)
  | _, [], _, s => some s
  | 0, _ :: _, _, _ => none
  | rounds + 1, c :: fmt, va, s =>
      if c ≠ ascii '%' then formatLoop out m rounds fmt va (put out s c)
      else
        match convert out m s (readDirective fmt va) with
        | none => none
        | some (s, fmt, va) => formatLoop out m rounds fmt va s

/-- `_vsnprintf`. Every round consumes a byte of the format. -/
def vsnprintfCore (out : Out σ Byte) (buffer maxlen : Nat) (m : Mem) (format : List Byte) (va : VaList)
    (s : σ) : Option (σ × Int) :=
  let out := if buffer = 0 then outNull else out
  (formatLoop out m format.length format va (s, 0)).map fun (s, idx) =>
    (out s 0#8 (if idx < maxlen then idx else wsub maxlen 1), sint idx)

/-- `vprintf_` and `printf_`: the formatter's buffer is a local of the function. -/
def vprintf (putchar : σ → Byte → σ) (m : Mem) (format : List Byte) (va : VaList) (s : σ) : Option (σ × Int) :=
  vsnprintfCore (outChar putchar) 1 (2 ^ 32 - 1) m format va s

/-- `vfctprintf` and `fctprintf`. -/
def vfctprintf (out : σ → Byte → σ) (m : Mem) (format : List Byte) (va : VaList) (s : σ) : Option (σ × Int) :=
  vsnprintfCore (outChar out) 1 (2 ^ 32 - 1) m format va s

/-- `vsnprintf_` and `snprintf_`. -/
def vsnprintf (buffer count : Nat) (format : List Byte) (va : VaList) (m : Mem) : Option (Mem × Int) :=
  vsnprintfCore (outBuffer buffer count) buffer count m format va m

def sprintf (buffer : Nat) (format : List Byte) (va : VaList) (m : Mem) : Option (Mem × Int) :=
  vsnprintfCore (outBuffer buffer (2 ^ 32 - 1)) buffer (2 ^ 32 - 1) m format va m

end Frostix.Libc.Printf
