import Frostix.Libc.PrintfText

/-!
The layout of a printed integer: spaces, a sign, padding zeros and digits. `standardInteger`
is the layout that the C standard describes; the formatter follows it except where the flag
`-` meets a precision and where its buffer of 32 characters is too small. -/
namespace Frostix.Libc.Printf

open Machine32

def numeral (base value : Nat) : List Nat := if value = 0 then [0] else Nat.digits base value

theorem numeral_ne_nil (base value : Nat) : numeral base value ≠ [] := by
  unfold numeral
  split_ifs with h
  · exact List.cons_ne_nil 0 []
  · exact Nat.digits_ne_nil_iff_ne_zero.mpr h

theorem numeral_length_pos (base value : Nat) : 0 < (numeral base value).length :=
  List.length_pos_of_ne_nil (numeral_ne_nil base value)

theorem numeral_lt {base : Nat} (hbase : 2 ≤ base) (value : Nat) : ∀ d ∈ numeral base value, d < base := by
  intro d hd
  unfold numeral at hd
  split_ifs at hd with h
  · rw [List.mem_singleton.mp hd]
    omega
  · exact Nat.digits_lt_base hbase hd

@[simp] theorem ofDigits_numeral (base value : Nat) : Nat.ofDigits base (numeral base value) = value := by
  unfold numeral
  split_ifs with h
  · rw [h, Nat.ofDigits_singleton]
  · exact Nat.ofDigits_digits base value

theorem numeral_length_le_iff {base k : Nat} (hbase : 2 ≤ base) (hk : 0 < k) (value : Nat) :
    (numeral base value).length ≤ k ↔ value < base ^ k := by
  unfold numeral
  split_ifs with h
  · subst h
    exact ⟨fun _ => Nat.pow_pos (by omega), fun _ => hk⟩
  · exact Nat.digits_length_le_iff hbase value

theorem ntoaDigits_eq {base : Nat} (hbase : 2 ≤ base) (uppercase : Bool) (room : Nat) : ∀ value,
    ntoaDigits uppercase base room value = ((numeral base value).take room).map (digitChar uppercase) := by
  induction room with
  | zero => exact fun _ => rfl
  | succ room ih =>
      intro value
      rw [ntoaDigits, ih]
      by_cases hzero : value = 0
      · subst hzero
        rw [if_pos (Nat.zero_div base), Nat.zero_mod, numeral, if_pos rfl, List.take_succ_cons, List.take_nil]
        rfl
      · have hdigits : numeral base value = value % base :: Nat.digits base (value / base) := by
          rw [numeral, if_neg hzero, Nat.digits_def' hbase (Nat.pos_of_ne_zero hzero)]
        rw [hdigits, List.take_succ_cons, List.map_cons]
        congr 1
        by_cases hlast : value / base = 0
        · rw [if_pos hlast, hlast, Nat.digits_zero, List.take_nil, List.map_nil]
        · rw [if_neg hlast, numeral, if_neg hlast]

theorem digitsBuffer_eq {base : Nat} (hbase : 2 ≤ base) (value : Nat) (flags : Flags) :
    digitsBuffer value base flags =
      if flags.precision ∧ value = 0 then []
      else ((numeral base value).take ntoaBufferSize).map (digitChar flags.uppercase) := by
  unfold digitsBuffer
  rw [ntoaDigits_eq hbase]
  cases flags.precision <;> by_cases hzero : value = 0 <;> simp [hzero]

theorem digitChar_ne_space : ∀ (uppercase : Bool) (d : Fin 16), digitChar uppercase d ≠ ascii ' ' := by
  decide

@[simp] theorem digitChar_zero (uppercase : Bool) : digitChar uppercase 0 = ascii '0' := by
  cases uppercase <;> rfl

def signText (negative : Bool) (flags : Flags) : List Byte :=
  if negative then [ascii '-'] else if flags.plus then [ascii '+'] else if flags.space then [ascii ' '] else []

def standardDigits (value base : Nat) (flags : Flags) : List Byte :=
  if flags.precision ∧ value = 0 then [] else ((numeral base value).map (digitChar flags.uppercase)).reverse

def standardZeros (value : Nat) (negative : Bool) (base prec width : Nat) (flags : Flags) : Nat :=
  if flags.precision then prec - (standardDigits value base flags).length
  else if flags.zeropad && !flags.left then
    width - (signText negative flags).length - (standardDigits value base flags).length
  else 0

def standardNumber (value : Nat) (negative : Bool) (base prec width : Nat) (flags : Flags) : List Byte :=
  signText negative flags ++
    List.replicate (standardZeros value negative base prec width flags) (ascii '0') ++
    standardDigits value base flags

def standardInteger (value : Nat) (negative : Bool) (base prec width : Nat) (flags : Flags) : List Byte :=
  let number := standardNumber value negative base prec width flags
  let pad := List.replicate (width - number.length) (ascii ' ')
  if flags.left then number ++ pad else pad ++ number

/-- A precision does not meet the flag `-`, and the number fits into the formatter's buffer,
unless all it would lose is a space that the width supplies again. -/
def Fits (value : Nat) (negative : Bool) (base prec width : Nat) (flags : Flags) : Prop :=
  let number := standardNumber value negative base prec width flags
  (flags.left → flags.precision → prec ≤ (standardDigits value base flags).length) ∧
    (number.length ≤ ntoaBufferSize ∨
      number.length = ntoaBufferSize + 1 ∧ signText negative flags = [ascii ' '] ∧
        flags.left = false ∧ flags.zeropad = false ∧ ntoaBufferSize < width)

/-- The zeros that the formatter puts in front of a buffer's digits. -/
def paddingZeros (len : Nat) (negative : Bool) (prec width : Nat) (flags : Flags) : Nat :=
  if flags.left then 0
  else max (min prec ntoaBufferSize)
    (if flags.zeropad then min (signedWidth negative width flags) ntoaBufferSize else 0) - len

theorem padZeros_eq (buf : List Byte) (negative : Bool) (prec width : Nat) (flags : Flags) :
    (padZeros buf negative prec width flags).1 =
      buf ++ List.replicate (paddingZeros buf.length negative prec width flags) (ascii '0') := by
  unfold padZeros paddingZeros
  split_ifs
  · exact (List.append_nil buf).symm
  · simp only [fillZeros, List.append_assoc, List.append_cancel_left_eq, List.length_append,
      List.length_replicate, List.replicate_append_replicate, List.replicate_inj, or_true, and_true]
    omega
  · simp only [fillZeros, Nat.max_zero]

theorem addSign_eq (buf : List Byte) (negative : Bool) (flags : Flags) :
    addSign buf negative flags =
      buf ++ if buf.length < ntoaBufferSize then signText negative flags else [] := by
  unfold addSign signText pushChar
  split_ifs <;> simp

theorem signText_reverse (negative : Bool) (flags : Flags) :
    (signText negative flags).reverse = signText negative flags := by
  unfold signText
  split_ifs <;> rfl

theorem signText_length (negative : Bool) (flags : Flags) :
    (signText negative flags).length = if negative ∨ flags.plus ∨ flags.space then 1 else 0 := by
  unfold signText
  cases negative <;> cases flags.plus <;> cases flags.space <;> rfl

theorem signedWidth_eq (negative : Bool) (width : Nat) (flags : Flags) :
    signedWidth negative width flags =
      width - if flags.zeropad then (signText negative flags).length else 0 := by
  rw [signText_length, signedWidth]
  cases flags.zeropad <;> cases negative <;> cases flags.plus <;> cases flags.space <;> simp <;> omega

theorem padZeros_width {flags : Flags} (h : flags.left = true ∨ flags.zeropad = false) (buf : List Byte)
    (negative : Bool) (prec width : Nat) : (padZeros buf negative prec width flags).2 = width := by
  unfold padZeros
  by_cases hleft : flags.left = true
  · rw [if_pos hleft]
  · rw [if_neg hleft]
    show signedWidth negative width flags = width
    rw [signedWidth_eq, h.resolve_left hleft]
    rfl

def paddedNumber (value : Nat) (negative : Bool) (base prec width : Nat) (flags : Flags) : List Byte :=
  let digits := digitsBuffer value base flags
  let zeros := paddingZeros digits.length negative prec width flags
  (if digits.length + zeros < ntoaBufferSize then signText negative flags else []) ++
    List.replicate zeros (ascii '0') ++ digits.reverse

/-- Without the flag `#` the formatter pads its number with zeros or with spaces. -/
theorem ntoaText_plain {flags : Flags} (hhash : flags.hash = false) (value : Nat) (negative : Bool)
    (base prec width : Nat) :
    ntoaText value negative base prec width flags =
      let number := paddedNumber value negative base prec width flags
      let pad := List.replicate (width - number.length) (ascii ' ')
      if flags.left then number ++ pad else if flags.zeropad then number else pad ++ number := by
  have hflags : (if value = 0 then { flags with hash := false } else flags) = flags := by
    rw [← hhash]
    exact ite_self flags
  have hbuf : (formatBuffer (digitsBuffer value base flags) negative base prec width flags).1.reverse =
      paddedNumber value negative base prec width flags := by
    rw [formatBuffer, paddedNumber]
    simp only [hhash, Bool.false_eq_true, if_false, addSign_eq, padZeros_eq, List.reverse_append,
      List.length_append, List.length_replicate, List.reverse_replicate, List.append_assoc]
    split_ifs <;> simp only [signText_reverse, List.reverse_nil]
  have hlen : (formatBuffer (digitsBuffer value base flags) negative base prec width flags).1.length =
      (paddedNumber value negative base prec width flags).length := by
    rw [← hbuf, List.length_reverse]
  have hwidth : flags.left = true ∨ flags.zeropad = false →
      (formatBuffer (digitsBuffer value base flags) negative base prec width flags).2 = width :=
    fun h => padZeros_width h _ negative prec width
  simp only [ntoaText, hflags, revText, hbuf, hlen]
  cases hleft : flags.left <;> cases hzero : flags.zeropad <;> simp_all

def ink (l : List Byte) : Nat := l.countP (· != ascii ' ')

theorem ink_append (l k : List Byte) : ink (l ++ k) = ink l + ink k := List.countP_append

theorem ink_pad (n : Nat) : ink (List.replicate n (ascii ' ')) = 0 := by
  rw [ink, List.countP_replicate]
  rfl

theorem ink_zeros (n : Nat) : ink (List.replicate n (ascii '0')) = n := by
  rw [ink, List.countP_replicate]
  rfl

theorem ink_le_length (l : List Byte) : ink l ≤ l.length := List.countP_le_length

theorem ink_digits {l : List Nat} (uppercase : Bool) (hl : ∀ d ∈ l, d < 16) :
    ink (l.map (digitChar uppercase)) = l.length := by
  rw [ink, List.countP_map, List.countP_eq_length]
  intro d hd
  exact bne_iff_ne.mpr (digitChar_ne_space uppercase ⟨d, hl d hd⟩)

theorem ink_signText (negative : Bool) (flags : Flags) :
    ink (signText negative flags) = (signText negative flags).length ∨
      signText negative flags = [ascii ' '] ∧ ink (signText negative flags) = 0 := by
  unfold signText
  split_ifs
  · exact .inl rfl
  · exact .inl rfl
  · exact .inr ⟨rfl, rfl⟩
  · exact .inl rfl

theorem ink_standardDigits {base : Nat} (hbase : 2 ≤ base) (hle : base ≤ 16) (value : Nat) (flags : Flags) :
    ink (standardDigits value base flags) = (standardDigits value base flags).length := by
  unfold standardDigits
  split_ifs
  · rfl
  · rw [ink, List.countP_reverse, List.length_reverse, List.length_map]
    exact ink_digits _ fun d hd => lt_of_lt_of_le (numeral_lt hbase value d hd) hle

theorem ink_digitsBuffer {base : Nat} (hbase : 2 ≤ base) (hle : base ≤ 16) (value : Nat) (flags : Flags) :
    ink (digitsBuffer value base flags).reverse = (digitsBuffer value base flags).length := by
  rw [digitsBuffer_eq hbase, ink, List.countP_reverse]
  split_ifs
  · rfl
  · rw [List.length_map]
    exact ink_digits _ fun d hd => lt_of_lt_of_le (numeral_lt hbase value d (List.mem_of_mem_take hd)) hle

theorem ink_standardInteger {base : Nat} (hbase : 2 ≤ base) (hle : base ≤ 16) (value : Nat) (negative : Bool)
    (prec width : Nat) (flags : Flags) :
    ink (standardInteger value negative base prec width flags) =
      ink (signText negative flags) + standardZeros value negative base prec width flags +
        (standardDigits value base flags).length := by
  have hnumber : ink (standardNumber value negative base prec width flags) =
      ink (signText negative flags) + standardZeros value negative base prec width flags +
        (standardDigits value base flags).length := by
    rw [standardNumber, ink_append, ink_append, ink_zeros, ink_standardDigits hbase hle]
  unfold standardInteger
  split_ifs
  · rw [ink_append, ink_pad, hnumber, Nat.add_zero]
  · rw [ink_append, ink_pad, hnumber, Nat.zero_add]

theorem ink_ntoaText {flags : Flags} (hhash : flags.hash = false) (value : Nat) (negative : Bool)
    (base prec width : Nat) :
    ink (ntoaText value negative base prec width flags) =
      ink (paddedNumber value negative base prec width flags) := by
  rw [ntoaText_plain hhash]
  cases flags.left <;> cases flags.zeropad <;> simp [ink_append, ink_pad]

theorem standardDigits_length (value base : Nat) (flags : Flags) :
    (standardDigits value base flags).length =
      if flags.precision ∧ value = 0 then 0 else (numeral base value).length := by
  unfold standardDigits
  split_ifs
  · rfl
  · rw [List.length_reverse, List.length_map]

theorem digitsBuffer_length {base : Nat} (hbase : 2 ≤ base) (value : Nat) (flags : Flags) :
    (digitsBuffer value base flags).length = min (standardDigits value base flags).length ntoaBufferSize := by
  rw [digitsBuffer_eq hbase, standardDigits_length]
  split_ifs
  · rfl
  · rw [List.length_map, List.length_take, Nat.min_comm]

theorem digitsBuffer_reverse {base : Nat} (hbase : 2 ≤ base) {value : Nat} {flags : Flags}
    (h : (standardDigits value base flags).length ≤ ntoaBufferSize) :
    (digitsBuffer value base flags).reverse = standardDigits value base flags := by
  rw [standardDigits_length] at h
  rw [digitsBuffer_eq hbase, standardDigits]
  split_ifs at h ⊢
  · rfl
  · rw [List.take_of_length_le h]

theorem signText_length_le (negative : Bool) (flags : Flags) : (signText negative flags).length ≤ 1 := by
  rw [signText_length]
  split_ifs <;> omega

theorem standardNumber_length (value : Nat) (negative : Bool) (base prec width : Nat) (flags : Flags) :
    (standardNumber value negative base prec width flags).length =
      (signText negative flags).length + standardZeros value negative base prec width flags +
        (standardDigits value base flags).length := by
  rw [standardNumber, List.length_append, List.length_append, List.length_replicate]

section Layout

variable {value base prec width : Nat} {negative : Bool} {flags : Flags}
  (hbase : 2 ≤ base) (hzeropad : flags.precision → flags.zeropad = false)
  (hprec : flags.precision = false → prec = 0)
include hbase hzeropad hprec

theorem paddingZeros_eq (hleft : flags.left → flags.precision → prec ≤ (standardDigits value base flags).length)
    (hfit : standardZeros value negative base prec width flags +
      (standardDigits value base flags).length ≤ ntoaBufferSize) :
    paddingZeros (digitsBuffer value base flags).length negative prec width flags =
      standardZeros value negative base prec width flags := by
  rw [digitsBuffer_length hbase, Nat.min_eq_left (by omega)]
  unfold standardZeros paddingZeros at *
  rw [signedWidth_eq]
  cases hl : flags.left <;> cases hp : flags.precision <;> cases hz : flags.zeropad <;> simp_all <;> omega

theorem paddedNumber_eq (hfits : Fits value negative base prec width flags)
    (hroom : (standardNumber value negative base prec width flags).length ≤ ntoaBufferSize) :
    paddedNumber value negative base prec width flags =
      standardNumber value negative base prec width flags := by
  rw [standardNumber_length] at hroom
  have hzeros := @paddingZeros_eq _ _ _ width negative _ hbase hzeropad hprec hfits.1 (by omega)
  rw [paddedNumber, standardNumber, hzeros, digitsBuffer_reverse hbase (by omega), digitsBuffer_length hbase]
  congr 2
  split_ifs with hfull
  · rfl
  · exact (List.length_eq_zero_iff.mp (by omega)).symm

omit hbase hprec in
theorem width_le_of_zeropad (hleft : flags.left = false) (hzero : flags.zeropad = true) :
    width ≤ (standardNumber value negative base prec width flags).length := by
  have hp : flags.precision = false := by
    by_contra hp
    rw [hzeropad (Bool.not_eq_false _ ▸ hp)] at hzero
    exact Bool.false_ne_true hzero
  have hzeros : standardZeros value negative base prec width flags =
      width - (signText negative flags).length - (standardDigits value base flags).length := by
    simp [standardZeros, hp, hzero, hleft]
  rw [standardNumber_length]
  omega

theorem ntoaText_lost_space (hhash : flags.hash = false)
    (hlen : (standardNumber value negative base prec width flags).length = ntoaBufferSize + 1)
    (hsign : signText negative flags = [ascii ' ']) (hleft : flags.left = false)
    (hzero : flags.zeropad = false) (hwidth : ntoaBufferSize < width) :
    ntoaText value negative base prec width flags = standardInteger value negative base prec width flags := by
  have hl : flags.left → flags.precision → prec ≤ (standardDigits value base flags).length := by
    rw [hleft]
    exact fun h => absurd h Bool.false_ne_true
  rw [standardNumber_length, hsign, List.length_singleton] at hlen
  have hzeros := @paddingZeros_eq _ _ _ width negative _ hbase hzeropad hprec hl (by omega)
  have hnumber : paddedNumber value negative base prec width flags =
      List.replicate (standardZeros value negative base prec width flags) (ascii '0') ++
        standardDigits value base flags := by
    rw [paddedNumber, hzeros, digitsBuffer_reverse hbase (by omega), digitsBuffer_length hbase,
      if_neg (by omega), List.nil_append]
  have hpad : List.replicate (width - ntoaBufferSize) (ascii ' ') =
      List.replicate (width - (ntoaBufferSize + 1)) (ascii ' ') ++ [ascii ' '] := by
    rw [← List.replicate_succ', show width - ntoaBufferSize = width - (ntoaBufferSize + 1) + 1 by omega]
  rw [ntoaText_plain hhash, standardInteger, hnumber]
  simp only [hleft, hzero, Bool.false_eq_true, if_false]
  rw [List.length_append, List.length_replicate, standardNumber_length, hsign, List.length_singleton,
    show standardZeros value negative base prec width flags + (standardDigits value base flags).length =
      ntoaBufferSize by omega,
    show 1 + standardZeros value negative base prec width flags + (standardDigits value base flags).length =
      ntoaBufferSize + 1 by omega, hpad, standardNumber, hsign]
  simp only [List.append_assoc]

theorem ntoaText_of_fits (hhash : flags.hash = false) (hfits : Fits value negative base prec width flags) :
    ntoaText value negative base prec width flags = standardInteger value negative base prec width flags := by
  rcases hfits.2 with hroom | ⟨hlen, hsign, hleft, hzero, hwidth⟩
  · rw [ntoaText_plain hhash, standardInteger,
      paddedNumber_eq hbase hzeropad hprec hfits hroom]
    cases hleft : flags.left with
    | true => rfl
    | false =>
        cases hzero : flags.zeropad with
        | false => rfl
        | true =>
            have hwide := @width_le_of_zeropad value base prec width negative _ hzeropad hleft hzero
            simp only [Bool.false_eq_true, if_false, if_true]
            rw [Nat.sub_eq_zero_of_le hwide, List.replicate_zero, List.nil_append]
  · exact ntoaText_lost_space hbase hzeropad hprec hhash hlen hsign hleft hzero hwidth

end Layout

def zeroPadded (base width value : Nat) (uppercase : Bool := false) : List Byte :=
  List.replicate (width - (numeral base value).length) (ascii '0') ++
    ((numeral base value).map (digitChar uppercase)).reverse

theorem zeroPadded_length (base width value : Nat) (uppercase : Bool) :
    (zeroPadded base width value uppercase).length = max width (numeral base value).length := by
  rw [zeroPadded, List.length_append, List.length_replicate, List.length_reverse, List.length_map]
  omega

/-- A conversion such as `%04u` or `%p`. -/
theorem ntoaText_zeroPadded {base width value : Nat} (hbase : 2 ≤ base) (hwidth : width ≤ ntoaBufferSize)
    (hvalue : (numeral base value).length ≤ ntoaBufferSize) {uppercase : Bool} :
    ntoaText value false base 0 width { zeropad := true, uppercase } = zeroPadded base width value uppercase := by
  have hdigits : (standardDigits value base { zeropad := true, uppercase }).length =
      (numeral base value).length := by
    rw [standardDigits_length]
    rfl
  have hnumber : standardNumber value false base 0 width { zeropad := true, uppercase } =
      zeroPadded base width value uppercase := by
    rw [standardNumber, standardZeros, hdigits]
    rfl
  have hfits : Fits value false base 0 width { zeropad := true, uppercase } := by
    refine ⟨fun h => Bool.noConfusion h, .inl ?_⟩
    rw [hnumber, zeroPadded_length]
    exact max_le hwidth hvalue
  rw [ntoaText_of_fits hbase (fun h => Bool.noConfusion h) (fun _ => rfl) rfl hfits, standardInteger, hnumber,
    zeroPadded_length, Nat.sub_eq_zero_of_le (le_max_left _ _)]
  rfl

/-- A conversion such as `%u` or `%lx`. -/
theorem ntoaText_digits {base value : Nat} (hbase : 2 ≤ base)
    (hvalue : (numeral base value).length ≤ ntoaBufferSize)
    {long : Bool} : ntoaText value false base 0 0 { long } = zeroPadded base 0 value := by
  have hnumber : standardNumber value false base 0 0 { long } = zeroPadded base 0 value := by
    rw [standardNumber, zeroPadded, Nat.zero_sub]
    rfl
  have hfits : Fits value false base 0 0 { long } := by
    refine ⟨fun h => Bool.noConfusion h, .inl ?_⟩
    rw [hnumber, zeroPadded_length, Nat.zero_max]
    exact hvalue
  rw [ntoaText_of_fits hbase (fun h => Bool.noConfusion h) (fun _ => rfl) rfl hfits, standardInteger, hnumber,
    Nat.zero_sub]
  rfl

section Buffer

variable {value base prec width : Nat} {negative : Bool} {flags : Flags}

theorem padding_fits : (digitsBuffer value base flags).length +
    paddingZeros (digitsBuffer value base flags).length negative prec width flags ≤ ntoaBufferSize := by
  have hdigits := digitsBuffer_length_le value base flags
  unfold paddingZeros
  split_ifs <;> omega

theorem paddedNumber_length_le :
    (paddedNumber value negative base prec width flags).length ≤ ntoaBufferSize := by
  have hfill := @padding_fits value base prec width negative flags
  have hsign := signText_length_le negative flags
  rw [paddedNumber, List.length_append, List.length_append, List.length_replicate, List.length_reverse]
  split_ifs
  · omega
  · rw [List.length_nil]
    omega

theorem ink_paddedNumber (hbase : 2 ≤ base) (hle : base ≤ 16) :
    ink (paddedNumber value negative base prec width flags) =
      (if (digitsBuffer value base flags).length +
          paddingZeros (digitsBuffer value base flags).length negative prec width flags < ntoaBufferSize
        then ink (signText negative flags) else 0) +
      paddingZeros (digitsBuffer value base flags).length negative prec width flags +
      (digitsBuffer value base flags).length := by
  rw [paddedNumber, ink_append, ink_append, ink_zeros, ink_digitsBuffer hbase hle]
  congr 2
  split_ifs <;> rfl

theorem ntoaText_length (hhash : flags.hash = false) :
    (ntoaText value negative base prec width flags).length =
      if flags.zeropad && !flags.left then (paddedNumber value negative base prec width flags).length
      else max width (paddedNumber value negative base prec width flags).length := by
  rw [ntoaText_plain hhash]
  cases flags.left <;> cases flags.zeropad <;> simp <;> omega

theorem standardInteger_length : (standardInteger value negative base prec width flags).length =
    max width (standardNumber value negative base prec width flags).length := by
  unfold standardInteger
  cases flags.left <;> simp <;> omega

theorem left_ne_standard (hhash : flags.hash = false) (hbase : 2 ≤ base) (hle : base ≤ 16)
    (hleft : flags.left = true) (hsign : signText negative flags = [ascii ' '])
    (hfull : (digitsBuffer value base flags).length +
      paddingZeros (digitsBuffer value base flags).length negative prec width flags = ntoaBufferSize) :
    ntoaText value negative base prec width flags ≠ standardInteger value negative base prec width flags := by
  intro heq
  have hink := @ink_paddedNumber value _ prec width negative flags hbase hle
  rw [if_neg (by omega)] at hink
  have hlen := @paddedNumber_length_le value base prec width negative flags
  have hfilled := ink_le_length (paddedNumber value negative base prec width flags)
  rw [ntoaText_plain hhash, standardInteger, standardNumber, hsign] at heq
  simp only [hleft, if_true, List.cons_append] at heq
  cases hnumber : paddedNumber value negative base prec width flags with
  | nil =>
      rw [hnumber] at hink
      have hnil : ink ([] : List Byte) = 0 := rfl
      have hsize : ntoaBufferSize = 32 := rfl
      omega
  | cons c l =>
      rw [hnumber, List.cons_append] at heq
      have hspace : c = ascii ' ' := (List.cons.inj heq).1
      have hrest : ink (c :: l) = ink l := List.countP_cons_of_neg (by simp [hspace])
      have hl := ink_le_length l
      rw [hnumber] at hink hlen
      rw [List.length_cons] at hlen
      omega

theorem fits_of_ntoaText (hhash : flags.hash = false) (hbase : 2 ≤ base) (hle : base ≤ 16)
    (h : ntoaText value negative base prec width flags = standardInteger value negative base prec width flags) :
    Fits value negative base prec width flags := by
  have hbuf := digitsBuffer_length hbase value flags
  have hfill := @padding_fits value base prec width negative flags
  have hink := congrArg ink h
  rw [ink_ntoaText hhash, ink_standardInteger hbase hle, ink_paddedNumber hbase hle] at hink
  refine ⟨?_, ?_⟩
  · intro hleft hp
    by_contra hlong
    have hzeros : standardZeros value negative base prec width flags =
        prec - (standardDigits value base flags).length := by rw [standardZeros, if_pos hp]
    have hnone : paddingZeros (digitsBuffer value base flags).length negative prec width flags = 0 := by
      rw [paddingZeros, if_pos hleft]
    split_ifs at hink <;> omega
  · by_cases hroom : (standardNumber value negative base prec width flags).length ≤ ntoaBufferSize
    · exact .inl hroom
    · rw [standardNumber_length] at hroom
      have hfull : (digitsBuffer value base flags).length +
          paddingZeros (digitsBuffer value base flags).length negative prec width flags = ntoaBufferSize := by
        have hle := ink_le_length (signText negative flags)
        have hone := signText_length_le negative flags
        split_ifs at hink <;> omega
      rw [if_neg (by omega)] at hink
      obtain ⟨hsign, hnone⟩ : signText negative flags = [ascii ' '] ∧ ink (signText negative flags) = 0 :=
        (ink_signText negative flags).resolve_left (by omega)
      have hleft : flags.left = false := by
        by_contra hleft
        exact left_ne_standard hhash hbase hle (Bool.not_eq_false _ ▸ hleft) hsign hfull h
      have hnumber : (paddedNumber value negative base prec width flags).length = ntoaBufferSize := by
        have hlen := ink_le_length (paddedNumber value negative base prec width flags)
        have hmax := @paddedNumber_length_le value base prec width negative flags
        rw [ink_paddedNumber hbase hle, if_neg (by omega)] at hlen
        omega
      have hlen := congrArg List.length h
      rw [ntoaText_length hhash, standardInteger_length, standardNumber_length, hnumber] at hlen
      have hone : (signText negative flags).length = 1 := by rw [hsign, List.length_singleton]
      rw [standardNumber_length]
      cases hzero : flags.zeropad with
      | true => simp only [hzero, hleft, Bool.not_false, Bool.and_true, if_true] at hlen; omega
      | false =>
          simp only [hzero, Bool.false_and, Bool.false_eq_true, if_false] at hlen
          exact .inr ⟨by omega, hsign, hleft, rfl, by omega⟩

end Buffer

/-- The magnitude of an integer argument and whether it is negative. -/
def integerArg (c : Byte) (d : Directive) : Nat × Bool :=
  let flags := integerFlags c d.flags
  if isSigned c then ((signedArg flags d.va).natAbs, signedArg flags d.va < 0)
  else (unsignedArg flags d.va, false)

theorem integerText_eq (c : Byte) (d : Directive) :
    integerText c d = ntoaText (integerArg c d).1 (integerArg c d).2 (integerBase c) d.precision d.width
      (integerFlags c d.flags) := by
  unfold integerText integerArg
  split_ifs <;> rfl

theorem integerBase_range (c : Byte) : 2 ≤ integerBase c ∧ integerBase c ≤ 16 := by
  unfold integerBase
  split_ifs <;> decide

theorem integerFlags_zeropad (c : Byte) (flags : Flags) (h : (integerFlags c flags).precision) :
    (integerFlags c flags).zeropad = false := by
  simp_all [integerFlags]

theorem readWidth_precision (d : Directive) : (readWidth d).precision = d.precision := by
  unfold readWidth
  split
  · rfl
  · split_ifs <;> rfl

theorem readPrecision_precision (d : Directive) (hd : d.precision = 0)
    (h : (readPrecision d).flags.precision = false) : (readPrecision d).precision = 0 := by
  revert h
  unfold readPrecision
  split
  · exact fun _ => hd
  · split_ifs
    · split
      · exact fun _ => hd
      · split_ifs
        · exact False.elim
        · exact False.elim
        · exact fun _ => hd
    · exact fun _ => hd

theorem readLength_fields (d : Directive) : (readLength d).precision = d.precision ∧
    (readLength d).flags.precision = d.flags.precision := by
  unfold readLength
  split
  · exact ⟨rfl, rfl⟩
  · split_ifs <;> exact ⟨rfl, rfl⟩

theorem readDirective_precision {fmt : List Byte} {va : VaList}
    (h : (readDirective fmt va).flags.precision = false) : (readDirective fmt va).precision = 0 := by
  unfold readDirective at *
  obtain ⟨hvalue, hflag⟩ := readLength_fields (readPrecision (readWidth
    { flags := (readFlags {} fmt).1, width := 0, precision := 0, fmt := (readFlags {} fmt).2, va }))
  rw [hvalue]
  exact readPrecision_precision _ (readWidth_precision _) (hflag ▸ h)

def readFront (fmt : List Byte) (va : VaList) : Directive :=
  readWidth { flags := (readFlags {} fmt).1, width := 0, precision := 0, fmt := (readFlags {} fmt).2, va }

/-- The precision is `*` and its argument negative. -/
def negativePrecision (fmt : List Byte) (va : VaList) : Bool :=
  (readFront fmt va).fmt.take 2 == ['.', '*'].map ascii && decide (((readFront fmt va).va 0).toInt < 0)

/-- A directive as the standard reads it: a negative precision is taken as if it were omitted. -/
def standardDirective (fmt : List Byte) (va : VaList) : Directive :=
  let d := readDirective fmt va
  if negativePrecision fmt va then { d with flags := { d.flags with precision := false } } else d

theorem readDirective_negative {fmt : List Byte} {va : VaList} (h : negativePrecision fmt va = true) :
    (readDirective fmt va).precision = 0 ∧ (readDirective fmt va).flags.precision = true := by
  have hread : readDirective fmt va = readLength (readPrecision (readFront fmt va)) := rfl
  obtain ⟨hvalue, hflag⟩ := readLength_fields (readPrecision (readFront fmt va))
  obtain ⟨hfmt, hneg⟩ := Bool.and_eq_true_iff.mp h
  rw [hread, hvalue, hflag]
  generalize readFront fmt va = d at hfmt hneg
  have hdot : ∃ rest, d.fmt = ascii '.' :: ascii '*' :: rest := by
    match hd : d.fmt with
    | [] => exact absurd (hd ▸ hfmt) (by decide)
    | [c] => simp [hd] at hfmt
    | c :: c' :: rest =>
        rw [hd] at hfmt
        obtain ⟨rfl, hrest⟩ := List.cons.inj (beq_iff_eq.mp hfmt)
        exact ⟨rest, by rw [(List.cons.inj hrest).1]⟩
  obtain ⟨rest, hd⟩ := hdot
  have htoNat : (d.va 0).toInt.toNat = 0 := Int.toNat_of_nonpos (of_decide_eq_true hneg).le
  have hstar : isDigit (ascii '*') = false := rfl
  rw [readPrecision, hd]
  simp only [if_true, hstar, Bool.false_eq_true, if_false, htoNat, and_self]

section Omission

variable {value base width : Nat} {negative : Bool} {flags : Flags}

theorem standardInteger_omitted (hvalue : value ≠ 0)
    (hzeros : standardZeros value negative base 0 width flags = 0) :
    standardInteger value negative base 0 width { flags with precision := true, zeropad := false } =
      standardInteger value negative base 0 width flags := by
  have hnumber : standardNumber value negative base 0 width { flags with precision := true, zeropad := false } =
      standardNumber value negative base 0 width flags := by
    have hdigits : standardDigits value base { flags with precision := true, zeropad := false } =
        standardDigits value base flags := by
      rw [standardDigits, standardDigits, if_neg (fun h => hvalue h.2), if_neg (fun h => hvalue h.2)]
    have hzero : standardZeros value negative base 0 width { flags with precision := true, zeropad := false } = 0 :=
      (if_pos rfl).trans (Nat.zero_sub _)
    rw [standardNumber, standardNumber, hdigits, hzero, hzeros]
    rfl
  rw [standardInteger, standardInteger, hnumber]

/-- With a precision 0 no zero is printed, and no digit of 0. -/
theorem ntoaText_omitted_iff (hbase : 2 ≤ base) (hle : base ≤ 16) (hhash : flags.hash = false)
    (hp : flags.precision = false) :
    ntoaText value negative base 0 width { flags with precision := true, zeropad := false } =
        standardInteger value negative base 0 width flags ↔
      Fits value negative base 0 width { flags with precision := true, zeropad := false } ∧
        value ≠ 0 ∧ standardZeros value negative base 0 width flags = 0 := by
  constructor
  · intro h
    have hink := congrArg ink h
    rw [ink_ntoaText (by exact hhash), ink_standardInteger hbase hle, ink_paddedNumber hbase hle] at hink
    have hpad : paddingZeros (digitsBuffer value base { flags with precision := true, zeropad := false }).length
        negative 0 width { flags with precision := true, zeropad := false } = 0 := by
      simp [paddingZeros]
    have hbuf := digitsBuffer_length hbase value { flags with precision := true, zeropad := false }
    have hcode := standardDigits_length value base { flags with precision := true, zeropad := false }
    have hdigits := standardDigits_length value base flags
    have hpos := numeral_length_pos base value
    rw [if_neg (by simp [hp])] at hdigits
    have hsign : ink (signText negative { flags with precision := true, zeropad := false }) =
        ink (signText negative flags) := rfl
    rw [hsign] at hink
    have hvalue : value ≠ 0 := by
      intro hzero
      rw [if_pos ⟨rfl, hzero⟩] at hcode
      split_ifs at hink <;> omega
    rw [if_neg (fun hc => hvalue hc.2)] at hcode
    have hzeros : standardZeros value negative base 0 width flags = 0 := by
      split_ifs at hink <;> omega
    rw [← standardInteger_omitted hvalue hzeros] at h
    exact ⟨fits_of_ntoaText hhash hbase hle h, hvalue, hzeros⟩
  · rintro ⟨hfits, hvalue, hzeros⟩
    rw [← standardInteger_omitted hvalue hzeros]
    exact ntoaText_of_fits hbase (fun _ => rfl) (fun h => Bool.noConfusion h) hhash hfits

end Omission

end Frostix.Libc.Printf
