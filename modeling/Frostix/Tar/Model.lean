import Frostix.Libc
import Frostix.Lib.While

/-!
The reader of the initial ramdisk (`tar.c`). Addresses and sizes are 32-bit words,
and every sum of a pointer and a size wraps. Memory may hold unreadable addresses;
a function that reads one has no value. Header fields are read where the source reads
them and only as far as it does: `name` at offset 0, `size` at 124, `typeflag` at 156
and `prefix` at 345. -/
namespace Frostix.Tar

open Machine32 Libc While

abbrev Memory := Nat → Option Byte

def load (mem : Memory) (a : Nat) : Option Byte := mem (wrap a)

def roundUp512 (x : Nat) : Nat := alignUp x 512

/-- Up to `n` bytes from `a`, ending before the first at which the reader stops. -/
def readUntil (mem : Memory) (stops : Byte → Bool) : Nat → Nat → Option (List Byte)
  | _, 0 => some []
  | a, n + 1 => do
      let c ← load mem a
      if stops c then return []
      else return c :: (← readUntil mem stops (a + 1) n)

def isNul (c : Byte) : Bool := c == 0#8

def endsField (c : Byte) : Bool := c == 0#8 || c == ascii ' '

def octalValue (buf : List Byte) : Nat := if buf = [] then 0 else strtoul buf 8

def tarParseOctal (mem : Memory) (str len : Nat) : Option Nat := do
  let n := if len < 31 then len else 31
  return octalValue (← readUntil mem endsField str n)

/-- `n` bytes from `a` are zero; the loop ends at the first that is not. -/
def allZero (mem : Memory) : Nat → Nat → Option Bool
  | _, 0 => some true
  | a, n + 1 => do
      let c ← load mem a
      if c ≠ 0#8 then return false else allZero mem (a + 1) n

def headerIsZero (mem : Memory) (h : Nat) : Option Bool := allZero mem h 512

/-- The string that `build_full_name` leaves in a buffer of `outSz` bytes. -/
def buildFullName (mem : Memory) (hdr outSz : Nat) : Option (List Byte) := do
  if (← load mem (hdr + 345)) ≠ 0#8 then
    let out ← readUntil mem isNul (hdr + 345) (outSz - 1)
    let out := if out.length + 1 < outSz then out ++ [ascii '/'] else out
    return out ++ (← readUntil mem isNul hdr (outSz - 1 - out.length))
  else readUntil mem isNul hdr (outSz - 1)

/-- How much of a long name is kept: `TAR_LONGNAME_MAX` is 4096. -/
def copyLen (fsize : Nat) : Nat := if fsize < 4096 - 1 then fsize else 4096 - 1

/-- The header behind an entry at `p`, unless that lies behind the end. -/
def advance (limit p fsize : Nat) : Option Nat :=
  let skip := wrap (512 + roundUp512 fsize)
  if limit < wrap (p + skip) then none else some (wrap (p + skip))

/-- An entry of type `L`: the string left in `long_name` and the next header, or
nothing where the archive is cut off. `memcpy` copies nothing from the null pointer;
the string would then be whatever the buffer held, and the model gives it no value. -/
def readLongName (mem : Memory) (limit p fsize : Nat) : Option (Option (List Byte × Nat)) :=
  let data := wrap (p + 512)
  if limit < wrap (data + copyLen fsize) then some none
  else if data = 0 ∧ 0 < copyLen fsize then none
  else
    (readUntil mem (fun _ => false) data (copyLen fsize)).map fun copied =>
      (advance limit p fsize).map fun p' => (copied.takeWhile fun c => !isNul c, p')

/-- The string in `name`: the first 255 bytes of a long name that is held, else the
name from the header. -/
def nameOf (mem : Memory) (longName : List Byte) (hdr : Nat) : Option (List Byte) :=
  if longName ≠ [] then some (longName.take 255) else buildFullName mem hdr 256

/-- A line that `tar_list` prints, with the header it stands for. -/
structure Line where
  hdr : Nat
  typeflag : Byte
  fsize : Nat
  name : List Byte
  deriving DecidableEq

/-- The local variables of `tar_list`; `long_name` as the string it holds. -/
structure ListState where
  p : Nat
  longName : List Byte
  lines : List Line

def tarListBody (mem : Memory) (limit : Nat) (s : ListState) :
    Option (Outcome ListState (List Line)) :=
  if wrap (s.p + 512) ≤ limit then do
    if ← headerIsZero mem s.p then return .stop s.lines
    let fsize ← tarParseOctal mem (s.p + 124) 12
    let typeflag ← load mem (s.p + 156)
    if typeflag = ascii 'L' then
      match ← readLongName mem limit s.p fsize with
      | none => return .stop s.lines
      | some (longName, p) => return .next { s with p, longName }
    else
      let name ← nameOf mem s.longName s.p
      let lines := s.lines ++ [{ hdr := s.p, typeflag, fsize, name }]
      -- the long name has been consumed
      match advance limit s.p fsize with
      | none => return .stop lines
      | some p => return .next { p, longName := [], lines }
  else return .stop s.lines

/-- The local variables of `tar_find`. -/
structure FindState where
  p : Nat
  longName : List Byte

def isRegular (typeflag : Byte) : Bool := typeflag == 0#8 || typeflag == ascii '0'

/-- An iteration of `tar_find`; the result is the address of the data and the size. -/
def tarFindBody (mem : Memory) (limit : Nat) (path : List Byte) (s : FindState) :
    Option (Outcome FindState (Option (Nat × Nat))) :=
  if wrap (s.p + 512) ≤ limit then do
    if ← headerIsZero mem s.p then return .stop none
    let fsize ← tarParseOctal mem (s.p + 124) 12
    let typeflag ← load mem (s.p + 156)
    if typeflag = ascii 'L' then
      match ← readLongName mem limit s.p fsize with
      | none => return .stop none
      | some (longName, p) => return .next { p, longName }
    else
      let name ← nameOf mem s.longName s.p
      if isRegular typeflag ∧ name = path then return .stop (some (wrap (s.p + 512), fsize))
      match advance limit s.p fsize with
      | none => return .stop none
      | some p => return .next { s with p }
  else return .stop none

/-- `tar_list(archive, archive_size)` prints these lines and returns. -/
def TarList (mem : Memory) (archive archiveSize : Nat) (lines : List Line) : Prop :=
  Returns (tarListBody mem (wrap (archive + archiveSize))) ⟨archive, [], []⟩ lines

/-- `tar_find(archive, archive_size, path, &n)` returns: nothing for `NULL`, else the
pointer and `n`. -/
def TarFind (mem : Memory) (archive archiveSize : Nat) (path : List Byte)
    (result : Option (Nat × Nat)) : Prop :=
  Returns (tarFindBody mem (wrap (archive + archiveSize)) path) ⟨archive, []⟩ result

end Frostix.Tar
