import Frostix.Libc.Printf

/-!
The text that a format stands for. Each conversion hands its text to the output function,
whichever it is; so what the members of the `printf` family do differs in nothing but what
becomes of that text. -/
namespace Frostix.Libc.Printf

open ByteMemory Machine32 Emit

variable {σ : Type} {out : Out σ Byte}

/-- The characters of a reversed buffer with the spaces that fill the width. -/
def revText (buf : List Byte) (width : Nat) (flags : Flags) : List Byte :=
  (if !flags.left && !flags.zeropad then List.replicate (width - buf.length) (ascii ' ') else []) ++
    buf.reverse ++ (if flags.left then List.replicate (width - buf.length) (ascii ' ') else [])

/-- The digits of a number as `_ntoa_long` leaves them in its buffer. -/
def digitsBuffer (value base : Nat) (flags : Flags) : List Byte :=
  if !flags.precision || value ≠ 0 then ntoaDigits flags.uppercase base ntoaBufferSize value else []

def ntoaText (value : Nat) (negative : Bool) (base prec width : Nat) (flags : Flags) : List Byte :=
  let flags := if value = 0 then { flags with hash := false } else flags
  let (buf, width) := formatBuffer (digitsBuffer value base flags) negative base prec width flags
  revText buf width flags

def integerText (c : Byte) (d : Directive) : List Byte :=
  let flags := integerFlags c d.flags
  if isSigned c then
    let value := signedArg flags d.va
    ntoaText value.natAbs (value < 0) (integerBase c) d.precision d.width flags
  else ntoaText (unsignedArg flags d.va) false (integerBase c) d.precision d.width flags

def charText (d : Directive) : List Byte :=
  let pad := List.replicate (d.width - 1) (ascii ' ')
  (if !d.flags.left then pad else []) ++ [(d.va 0).setWidth 8] ++ (if d.flags.left then pad else [])

def stringChars (m : Mem) (limited : Bool) : Nat → Nat → Option (List Byte)
  | 0, _ => if limited then some [] else none
  | room + 1, p =>
      if m p = 0#8 then some [] else (stringChars m limited room (wrap (p + 1))).map (m p :: ·)

def stringText (m : Mem) (d : Directive) : Option (List Byte) :=
  let p := (d.va 0).toNat
  let l := strnlenS m p (if d.precision ≠ 0 then d.precision else 2 ^ 32 - 1)
  let l := if d.flags.precision then min l d.precision else l
  let pad := List.replicate (d.width - l) (ascii ' ')
  let room := if d.flags.precision then d.precision else 2 ^ 32
  (stringChars m d.flags.precision room p).map fun text =>
    (if !d.flags.left then pad else []) ++ text ++ (if d.flags.left then pad else [])

def pointerText (d : Directive) : List Byte :=
  ntoaText (d.va 0).toNat false 16 d.precision 8 { d.flags with zeropad := true, uppercase := true }

/-- The text of a directive, the rest of the format and of the arguments. -/
def directiveText (m : Mem) (d : Directive) : Option (List Byte × List Byte × VaList) :=
  match d.fmt with
  | [] => none
  | c :: fmt =>
      if integerSpecifiers.contains c then some (integerText c d, fmt, d.va.drop (argWords d.flags))
      else if floatSpecifiers.contains c then none
      else if c = ascii 'c' then some (charText d, fmt, d.va.drop 1)
      else if c = ascii 's' then (stringText m d).map fun text => (text, fmt, d.va.drop 1)
      else if c = ascii 'p' then some (pointerText d, fmt, d.va.drop 1)
      else some ([c], fmt, d.va)

def formatTextFrom (m : Mem) : Nat → List Byte → VaList → Option (List Byte)
  | _, [], _ => some []
  | 0, _ :: _, _ => none
  | rounds + 1, c :: fmt, va =>
      if c ≠ ascii '%' then (formatTextFrom m rounds fmt va).map (c :: ·)
      else
        (directiveText m (readDirective fmt va)).bind fun r =>
          (formatTextFrom m rounds r.2.1 r.2.2).map (r.1 ++ ·)

def formatText (m : Mem) (format : List Byte) (va : VaList) : Option (List Byte) :=
  formatTextFrom m format.length format va

@[simp] theorem spaces_eq (n : Nat) (s : σ × Nat) :
    spaces out n s = emit out s (List.replicate n (ascii ' ')) := repeated_eq_emit out (ascii ' ') n s

theorem wsub_emit_idx (s : σ × Nat) {text : List Byte} (h : text.length < 2 ^ 32) :
    wsub (emit out s text).2 s.2 = text.length := by
  have hidx := emit_idx out text s
  unfold wsub
  unfold wrap at *
  omega

theorem outRev_eq (s : σ × Nat) {buf : List Byte} (width : Nat) (flags : Flags)
    (h : buf.length < 2 ^ 32) : outRev out s buf width flags = emit out s (revText buf width flags) := by
  have hrev : buf.reverse.length < 2 ^ 32 := by rwa [List.length_reverse]
  unfold outRev revText
  cases hleft : flags.left with
  | true =>
      simp only [Bool.not_true, Bool.false_and, Bool.false_eq_true, if_false, if_true, spaces_eq,
        List.nil_append, wsub_emit_idx s hrev, List.length_reverse, emit_emit]
  | false =>
      cases flags.zeropad <;>
        simp only [Bool.not_true, Bool.not_false, Bool.and_false, Bool.and_true,
          Bool.false_eq_true, if_false, if_true, spaces_eq, List.nil_append, List.append_nil, emit_emit]

theorem ntoaDigits_length_le (uppercase : Bool) (base room : Nat) :
    ∀ value, (ntoaDigits uppercase base room value).length ≤ room := by
  induction room with
  | zero => exact fun _ => le_rfl
  | succ room ih =>
      intro value
      rw [ntoaDigits, List.length_cons]
      split_ifs
      · exact Nat.succ_le_succ (Nat.zero_le room)
      · exact Nat.succ_le_succ (ih _)

theorem digitsBuffer_length_le (value base : Nat) (flags : Flags) :
    (digitsBuffer value base flags).length ≤ ntoaBufferSize := by
  unfold digitsBuffer
  split_ifs
  · exact ntoaDigits_length_le flags.uppercase base ntoaBufferSize value
  · exact Nat.zero_le _

theorem pushChar_length_le {buf : List Byte} (c : Byte) (h : buf.length ≤ ntoaBufferSize) :
    (pushChar buf c).length ≤ ntoaBufferSize := by
  unfold pushChar
  split_ifs with hroom
  · rw [List.length_append, List.length_singleton]
    exact hroom
  · exact h

theorem fillZeros_length (buf : List Byte) (n : Nat) :
    (fillZeros buf n).length = max buf.length (min n ntoaBufferSize) := by
  rw [fillZeros, List.length_append, List.length_replicate]
  omega

theorem takeBack_length_le {buf : List Byte} (base prec width : Nat) (flags : Flags)
    (h : buf.length ≤ ntoaBufferSize) : (takeBack buf base prec width flags).length ≤ ntoaBufferSize := by
  unfold takeBack
  split_ifs
  · rw [List.length_dropLast, List.length_dropLast]
    omega
  · rw [List.length_dropLast]
    omega
  · exact h

theorem addHash_length_le {buf : List Byte} (base prec width : Nat) (flags : Flags)
    (h : buf.length ≤ ntoaBufferSize) : (addHash buf base prec width flags).length ≤ ntoaBufferSize := by
  have hback := takeBack_length_le base prec width flags h
  unfold addHash
  apply pushChar_length_le
  split_ifs
  · exact pushChar_length_le _ hback
  · exact pushChar_length_le _ hback
  · exact pushChar_length_le _ hback
  · exact hback

theorem addSign_length_le {buf : List Byte} (negative : Bool) (flags : Flags)
    (h : buf.length ≤ ntoaBufferSize) : (addSign buf negative flags).length ≤ ntoaBufferSize := by
  unfold addSign
  split_ifs
  · exact pushChar_length_le _ h
  · exact pushChar_length_le _ h
  · exact pushChar_length_le _ h
  · exact h

theorem padZeros_length_le {buf : List Byte} (negative : Bool) (prec width : Nat) (flags : Flags)
    (h : buf.length ≤ ntoaBufferSize) : (padZeros buf negative prec width flags).1.length ≤ ntoaBufferSize := by
  unfold padZeros
  split_ifs <;> simp only [fillZeros_length] <;> omega

theorem formatBuffer_length_le {buf : List Byte} (negative : Bool) (base prec width : Nat) (flags : Flags)
    (h : buf.length ≤ ntoaBufferSize) :
    (formatBuffer buf negative base prec width flags).1.length ≤ ntoaBufferSize := by
  have hpad := padZeros_length_le negative prec width flags h
  rw [formatBuffer]
  apply addSign_length_le
  cases flags.hash with
  | true => exact addHash_length_le base prec _ flags hpad
  | false => exact hpad

theorem ntoa_eq (s : σ × Nat) (value : Nat) (negative : Bool) (base prec width : Nat) (flags : Flags) :
    ntoa out s value negative base prec width flags =
      emit out s (ntoaText value negative base prec width flags) := by
  refine outRev_eq s _ _ (lt_of_le_of_lt (formatBuffer_length_le _ _ _ _ _ ?_) (by decide))
  exact digitsBuffer_length_le value base _

theorem signedArg_natAbs_lt (flags : Flags) (va : VaList) :
    (signedArg flags va).natAbs < 2 ^ 64 ∧
      (flags.longLong = false → (signedArg flags va).natAbs < 2 ^ 32) := by
  have h64 := BitVec.toInt_lt (x := va.word64)
  have h64' := BitVec.le_toInt (x := va.word64)
  have h32 := BitVec.toInt_lt (x := va 0)
  have h32' := BitVec.le_toInt (x := va 0)
  have h16 := BitVec.toInt_lt (x := (va 0).setWidth 16)
  have h16' := BitVec.le_toInt (x := (va 0).setWidth 16)
  have h8 := BitVec.toInt_lt (x := (va 0).setWidth 8)
  have h8' := BitVec.le_toInt (x := (va 0).setWidth 8)
  unfold signedArg
  split_ifs <;> simp_all <;> omega

theorem unsignedArg_lt (flags : Flags) (va : VaList) :
    unsignedArg flags va < 2 ^ 64 ∧ (flags.longLong = false → unsignedArg flags va < 2 ^ 32) := by
  have h64 := va.word64.isLt
  have h32 := (va 0).isLt
  have h16 := ((va 0).setWidth 16).isLt
  have h8 := ((va 0).setWidth 8).isLt
  unfold unsignedArg
  split_ifs <;> simp_all <;> omega

theorem convertInteger_eq (s : σ × Nat) (c : Byte) (d : Directive) :
    convertInteger out s c d = emit out s (integerText c d) := by
  obtain ⟨hs64, hs32⟩ := signedArg_natAbs_lt (integerFlags c d.flags) d.va
  obtain ⟨hu64, hu32⟩ := unsignedArg_lt (integerFlags c d.flags) d.va
  unfold convertInteger integerText ntoaLongLong ntoaLong
  simp only [ntoa_eq, BitVec.toNat_ofNat]
  split_ifs with hsigned hlong hlong
  · rw [Nat.mod_eq_of_lt hs64]
  · rw [Nat.mod_eq_of_lt (hs32 (Bool.not_eq_true _ ▸ hlong))]
  · rw [Nat.mod_eq_of_lt hu64]
  · rw [Nat.mod_eq_of_lt (hu32 (Bool.not_eq_true _ ▸ hlong))]

theorem convertPointer_eq (s : σ × Nat) (d : Directive) :
    convertPointer out s d = emit out s (pointerText d) := ntoa_eq s _ false 16 _ _ _

theorem convertChar_eq (s : σ × Nat) (d : Directive) :
    convertChar out s d = emit out s (charText d) := by
  unfold convertChar charText
  cases d.flags.left <;> simp [put_eq_emit, emit_emit]

theorem outString_eq (m : Mem) (limited : Bool) (room : Nat) : ∀ (p : Nat) (s : σ × Nat),
    outString out m limited room p s = (stringChars m limited room p).map (emit out s) := by
  induction room with
  | zero => cases limited <;> exact fun _ _ => rfl
  | succ room ih =>
      intro p s
      rw [outString, stringChars]
      split_ifs
      · rfl
      · rw [ih, Option.map_map]
        rfl

theorem convertString_eq (m : Mem) (s : σ × Nat) (d : Directive) :
    convertString out m s d = (stringText m d).map (emit out s) := by
  unfold convertString stringText
  simp only [outString_eq, Option.map_map]
  congr 1
  funext text
  cases d.flags.left <;> simp [emit_emit]

theorem convert_eq (m : Mem) (s : σ × Nat) (d : Directive) :
    convert out m s d = (directiveText m d).map fun r => (emit out s r.1, r.2) := by
  unfold convert directiveText
  cases d.fmt with
  | nil => rfl
  | cons c fmt =>
      simp only [convertInteger_eq, convertChar_eq, convertString_eq, convertPointer_eq, put_eq_emit]
      split_ifs <;> simp only [Option.map_some, Option.map_none, Option.map_map]
      rfl

theorem formatLoop_eq (m : Mem) (rounds : Nat) : ∀ (fmt : List Byte) (va : VaList) (s : σ × Nat),
    formatLoop out m rounds fmt va s = (formatTextFrom m rounds fmt va).map (emit out s) := by
  induction rounds with
  | zero =>
      intro fmt va s
      cases fmt <;> rfl
  | succ rounds ih =>
      intro fmt va s
      cases fmt with
      | nil => rfl
      | cons c fmt =>
          rw [formatLoop, formatTextFrom, convert_eq]
          split_ifs with hc
          · rw [ih, Option.map_map]
            rfl
          · cases directiveText m (readDirective fmt va) with
            | none => rfl
            | some r =>
                simp only [Option.map_some, Option.bind_some, ih, Option.map_map]
                congr 1
                funext text
                exact emit_emit out s r.1 text

/-- What `_vsnprintf` does to the state of any output function. -/
theorem vsnprintfCore_eq {buffer : Nat} (hbuffer : buffer ≠ 0) (maxlen : Nat) (m : Mem)
    (format : List Byte) (va : VaList) (s : σ) :
    vsnprintfCore out buffer maxlen m format va s = (formatText m format va).map fun text =>
      let idx := wrap text.length
      (out (emit out (s, 0) text).1 0#8 (if idx < maxlen then idx else wsub maxlen 1), sint idx) := by
  have hidx : ∀ text : List Byte, (emit out (s, 0) text).2 = wrap text.length := by
    intro text
    rw [emit_idx_eq out text (Nat.two_pow_pos 32), Nat.zero_add]
  unfold vsnprintfCore
  simp only [if_neg hbuffer, formatLoop_eq, Option.map_map]
  congr 1
  funext text
  simp only [Function.comp, hidx]

theorem bounded_end {buffer maxlen : Nat} {text : List Byte} (m : Mem) (hlen : text.length < 2 ^ 32)
    (hpos : 0 < maxlen) (hend : buffer + min (text.length + 1) maxlen ≤ 2 ^ 32) (hmax : maxlen < 2 ^ 32) :
    outBuffer buffer maxlen (emit (outBuffer buffer maxlen) (m, 0) text).1 0#8
        (if wrap text.length < maxlen then wrap text.length else wsub maxlen 1) =
      place m buffer (text.take (maxlen - 1) ++ [0#8]) := by
  have hemit : (emit (outBuffer buffer maxlen) (m, 0) text).1 = place m buffer (text.take maxlen) :=
    emit_bounded (s := (m, 0)) text (by rw [Nat.zero_add]; exact hlen) (by rw [Nat.zero_add]; omega)
  have htake : (text.take maxlen).length = min maxlen text.length := List.length_take
  have hidx : (if wrap text.length < maxlen then wrap text.length else wsub maxlen 1) =
      min text.length (maxlen - 1) := by
    rw [wrap_of_lt hlen, wsub_of_le hmax hpos]
    split_ifs <;> omega
  rw [hemit, hidx, outBuffer, if_pos (by omega), wrap_of_lt (by omega),
    place_store8 _ m buffer 0#8 (by omega) (by omega), List.take_take, Nat.min_assoc,
    Nat.min_eq_left (show maxlen - 1 ≤ maxlen by omega), Nat.min_comm, ← List.take_take, List.take_length]

theorem snprintf_measures {m : Mem} {format text : List Byte} {va : VaList}
    (htext : formatText m format va = some text)
    (hlen : text.length < 2 ^ 32) {buffer : Nat} (hbuffer : buffer ≤ 2 ^ 32) :
    vsnprintf buffer 0 format va m = some (m, sint text.length) := by
  by_cases hnull : buffer = 0
  · have hquiet : ∀ (l : List Byte) (s : Mem × Nat), (emit outNull s l).1 = s.1 := by
      intro l
      induction l with
      | nil => exact fun s => rfl
      | cons c l ih => exact fun s => (emit_cons outNull s c l).symm ▸ ih _
    have hidx : (emit outNull (m, 0) text).2 = text.length := by
      rw [emit_idx_eq outNull text (Nat.two_pow_pos 32), Nat.zero_add, wrap_of_lt hlen]
    have hformat : formatTextFrom m format.length format va = some text := htext
    rw [vsnprintf, vsnprintfCore]
    simp only [if_pos hnull, formatLoop_eq, hformat, Option.map_some, hidx]
    exact congrArg (fun m => some (m, sint text.length)) (hquiet text (m, 0))
  · rw [vsnprintf, vsnprintfCore_eq hnull, htext, Option.map_some, wrap_of_lt hlen]
    have hemit : (emit (outBuffer buffer 0) (m, 0) text).1 = place m buffer (text.take 0) :=
      emit_bounded (s := (m, 0)) text (by rw [Nat.zero_add]; exact hlen) (by omega)
    exact congrArg (fun m => some (m, sint text.length)) hemit

theorem snprintf_stores {buffer count : Nat} {m : Mem} {format text : List Byte} {va : VaList}
    (htext : formatText m format va = some text) (hlen : text.length < 2 ^ 32) (hbuffer : buffer ≠ 0)
    (hcount : 0 < count) (hend : buffer + count ≤ 2 ^ 32) :
    vsnprintf buffer count format va m = some (textBuffer m buffer count text, sint text.length) := by
  have hplace := @bounded_end buffer _ _ m hlen hcount (by omega) (by omega)
  rw [wrap_of_lt hlen] at hplace
  rw [vsnprintf, vsnprintfCore_eq hbuffer, htext, Option.map_some, wrap_of_lt hlen]
  exact congrArg (fun m => some (m, sint text.length)) hplace

/-- With room for the whole text `sprintf` stores all of it. -/
theorem sprintf_eq {buffer : Nat} {m : Mem} {format text : List Byte} {va : VaList}
    (htext : formatText m format va = some text) (hbuffer : buffer ≠ 0)
    (hend : buffer + text.length < 2 ^ 32) :
    sprintf buffer format va m = some (place m buffer (text ++ [0#8]), sint text.length) := by
  have hlen : text.length < 2 ^ 32 := by omega
  have hplace := @bounded_end buffer (2 ^ 32 - 1) _ m hlen (by decide) (by omega) (by decide)
  rw [List.take_of_length_le (by omega), wrap_of_lt hlen] at hplace
  rw [sprintf, vsnprintfCore_eq hbuffer, htext, Option.map_some]
  simp only [wrap_of_lt hlen, hplace]

/-- `printf` and `fctprintf` pass on exactly the characters of the text other than NUL, in
order, and return the length of the text. -/
theorem vprintf_eq (putchar : σ → Byte → σ) (m : Mem) (format : List Byte) (va : VaList) (s : σ) :
    vprintf putchar m format va s = (formatText m format va).map fun text =>
      ((text.filter (· != 0#8)).foldl putchar s, sint (wrap text.length)) := by
  rw [vprintf, vsnprintfCore_eq (by decide)]
  congr 1
  funext text
  have hemit := emit_device putchar (· != 0#8) text (s, 0)
  simp only [outChar, bne_self_eq_false, Bool.false_eq_true, if_false]
  exact congrArg (·, sint (wrap text.length)) hemit

end Frostix.Libc.Printf
