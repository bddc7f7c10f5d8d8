import Frostix.Libc.PrintfNumber

/-!
Printed numbers read back by `strtoul` and `atoi`. The alternative form takes back one or two
characters of a number that fills its width, whether they are padding or digits; the number
is read back unless digits went with them. -/
namespace Frostix.Libc.Printf

open Machine32

theorem digitValue_digitChar : ∀ (uppercase : Bool) (d : Fin 16),
    digitValue (digitChar uppercase d) = some d.val := by
  decide

theorem isDigit_digitChar : ∀ (uppercase : Bool) (d : Fin 10),
    isDigit (digitChar uppercase d) = true ∧ (digitChar uppercase d).toNat - 48 = d.val := by
  decide

theorem strtoulDigits_map {base : Nat} (hle : base ≤ 16) (uppercase : Bool) {l : List Nat} :
    (∀ d ∈ l, d < base) → ∀ (val : Nat) (rest : List Byte),
    strtoulDigits base val (l.map (digitChar uppercase) ++ rest) =
      strtoulDigits base (l.foldl (fun v d => wrap (v * base + d)) val) rest := by
  induction l with
  | nil => exact fun _ _ _ => rfl
  | cons d l ih =>
      intro hl val rest
      have hd : d < base := hl d List.mem_cons_self
      have hvalue := digitValue_digitChar uppercase ⟨d, by omega⟩
      rw [List.map_cons, List.cons_append, strtoulDigits, hvalue]
      simp only [if_neg (Nat.not_le.mpr hd)]
      exact ih (fun b hb => hl b (List.mem_cons_of_mem d hb)) _ _

theorem foldl_wrap (base : Nat) (l : List Nat) : ∀ val < 2 ^ 32,
    l.reverse.foldl (fun v d => wrap (v * base + d)) val =
      wrap (val * base ^ l.length + Nat.ofDigits base l) := by
  induction l with
  | nil =>
      intro val hval
      simpa using (wrap_of_lt hval).symm
  | cons d l ih =>
      intro val hval
      rw [List.reverse_cons, List.foldl_append, ih val hval, List.foldl_cons, List.foldl_nil,
        Nat.ofDigits_cons, List.length_cons]
      have hmod : wrap (val * base ^ l.length + Nat.ofDigits base l) ≡
          val * base ^ l.length + Nat.ofDigits base l [MOD 2 ^ 32] := Nat.mod_modEq _ _
      refine ((hmod.mul_right _).add_right _).trans (congrArg (· % 2 ^ 32) ?_)
      ring

/-- What stands behind a printed text: nothing, or the NUL of its string. -/
def Ended (rest : List Byte) : Prop := ∀ c ∈ rest.head?, c = 0#8

theorem ended_nil : Ended [] := fun _ h => nomatch h

theorem strtoulDigits_ended (base val : Nat) {rest : List Byte} (h : Ended rest) :
    strtoulDigits base val rest = val := by
  cases rest with
  | nil => rfl
  | cons c rest =>
      rw [h c rfl, strtoulDigits]
      rfl

theorem strtoulDigits_spaces (base val n : Nat) {rest : List Byte} (h : Ended rest) :
    strtoulDigits base val (List.replicate n (ascii ' ') ++ rest) = val := by
  cases n with
  | zero => exact strtoulDigits_ended base val h
  | succ n => rfl

theorem strtoulDigits_numeral {base : Nat} (hle : base ≤ 16) (uppercase : Bool) {l : List Nat}
    (hl : ∀ d ∈ l, d < base) (n : Nat) {rest : List Byte} (h : Ended rest) :
    strtoulDigits base 0 ((l.map (digitChar uppercase)).reverse ++ (List.replicate n (ascii ' ') ++ rest)) =
      wrap (Nat.ofDigits base l) := by
  rw [← List.map_reverse, strtoulDigits_map hle uppercase fun d hd => hl d (List.mem_reverse.mp hd),
    strtoulDigits_spaces base _ n h, foldl_wrap base l 0 (Nat.two_pow_pos 32), Nat.zero_mul, Nat.zero_add]

/-- What `strtoul` skips in front of a number. -/
def isBlank (c : Byte) : Bool := c == ascii ' ' || c == ascii '\t' || c == ascii '\n' || c == ascii '\r'

theorem strtoul_spaces (n : Nat) (s : List Byte) (base : Nat) :
    strtoul (List.replicate n (ascii ' ') ++ s) base = strtoul s base := by
  induction n with
  | zero => rfl
  | succ n ih =>
      rw [List.replicate_succ, List.cons_append, ← ih]
      rfl

theorem strtoul_of_head {base : Nat} (hbase : base ≠ 0) {c : Byte} (s : List Byte)
    (hc : isBlank c = false ∧ c ≠ ascii '+') :
    strtoul (c :: s) base =
      strtoulDigits base 0 (if base = 16 ∧ startsWithHex (c :: s) then s.drop 1 else c :: s) := by
  have hblank : (c == ascii ' ' || c == ascii '\t' || c == ascii '\n' || c == ascii '\r') = false := hc.1
  have hplus : ¬(c :: s).take 1 = [ascii '+'] := fun h => hc.2 (List.cons.inj h).1
  unfold strtoul
  rw [List.dropWhile_cons_of_neg (by rw [hblank]; exact Bool.false_ne_true)]
  simp only [if_neg hplus, detectBase, if_neg hbase]
  rfl

theorem digitChar_head : ∀ (uppercase : Bool) (d : Fin 16),
    (isBlank (digitChar uppercase d) = false ∧ digitChar uppercase d ≠ ascii '+') ∧
      digitChar uppercase d ≠ ascii 'x' ∧ digitChar uppercase d ≠ ascii 'X' := by
  decide

theorem startsWithHex_digits (uppercase : Bool) {l : List Nat} (hl : ∀ d ∈ l, d < 16) (hne : l ≠ []) (n : Nat)
    {rest : List Byte} (h : Ended rest) :
    startsWithHex (l.map (digitChar uppercase) ++ (List.replicate n (ascii ' ') ++ rest)) = false := by
  have hsecond : ∀ c ∈ ((l.map (digitChar uppercase) ++ (List.replicate n (ascii ' ') ++ rest)).drop 1).head?,
      c ≠ ascii 'x' ∧ c ≠ ascii 'X' := by
    intro c hc
    match l, hne with
    | [d], _ =>
        cases n with
        | zero =>
            rw [h c hc]
            decide
        | succ n =>
            rw [← Option.mem_some.mp hc]
            decide
    | d :: d' :: l, _ =>
        have hd' := digitChar_head uppercase ⟨d', hl d' (List.mem_cons_of_mem d List.mem_cons_self)⟩
        rw [← Option.mem_some.mp hc]
        exact hd'.2
  generalize l.map (digitChar uppercase) ++ (List.replicate n (ascii ' ') ++ rest) = s at hsecond
  match s with
  | [] => rfl
  | [_] => simp [startsWithHex]
  | c :: c' :: _ =>
      have hc' := hsecond c' rfl
      simp [startsWithHex, hc']

theorem strtoul_numeral {base : Nat} (hbase : 2 ≤ base) (hle : base ≤ 16) (uppercase : Bool) {l : List Nat}
    (hl : ∀ d ∈ l, d < base) (n k : Nat) {rest : List Byte} (h : Ended rest) :
    strtoul (List.replicate n (ascii ' ') ++ ((l.map (digitChar uppercase)).reverse ++
      (List.replicate k (ascii ' ') ++ rest))) base = wrap (Nat.ofDigits base l) := by
  rw [strtoul_spaces, ← strtoulDigits_numeral hle uppercase hl k h, ← List.map_reverse]
  cases hrev : l.reverse with
  | nil =>
      rw [List.map_nil, List.nil_append, strtoul_spaces, strtoulDigits_spaces base 0 k h]
      cases rest with
      | nil => simp [strtoul, detectBase, startsWithHex, strtoulDigits,
            Nat.ne_of_gt (Nat.lt_of_lt_of_le Nat.two_pos hbase)]
      | cons c rest =>
          rw [h c rfl, strtoul_of_head (by omega) rest ⟨rfl, by decide⟩, if_neg]
          · rfl
          · simp [startsWithHex, ascii]
  | cons d l' =>
      have hlr : ∀ b ∈ d :: l', b < 16 := by
        intro b hb
        rw [← hrev] at hb
        exact lt_of_lt_of_le (hl b (List.mem_reverse.mp hb)) hle
      have hhex := startsWithHex_digits uppercase hlr (List.cons_ne_nil d l') k h
      have hhead := digitChar_head uppercase ⟨d, hlr d List.mem_cons_self⟩
      rw [List.map_cons, List.cons_append] at hhex ⊢
      rw [strtoul_of_head (by omega) _ hhead.1, hhex]
      simp only [Bool.false_eq_true, and_false, if_false]

/-- So is one behind the prefix `0x`. -/
theorem strtoul_prefixed (uppercase : Bool) {l : List Nat} (hl : ∀ d ∈ l, d < 16) (n k : Nat)
    {rest : List Byte} (h : Ended rest) {x : Byte} (hx : x = ascii 'x' ∨ x = ascii 'X') :
    strtoul (List.replicate n (ascii ' ') ++ ([ascii '0', x] ++ ((l.map (digitChar uppercase)).reverse ++
      (List.replicate k (ascii ' ') ++ rest)))) 16 = wrap (Nat.ofDigits 16 l) := by
  have hhex : ∀ s, startsWithHex (ascii '0' :: x :: s) = true := by
    intro s
    rcases hx with rfl | rfl <;> simp [startsWithHex]
  rw [strtoul_spaces, ← strtoulDigits_numeral le_rfl uppercase hl k h, List.cons_append, List.singleton_append,
    strtoul_of_head (by decide) _ (by decide), hhex]
  rfl

theorem strtoul_half_prefix (n : Nat) (s : List Byte) {x : Byte} (hx : x = ascii 'x' ∨ x = ascii 'X') :
    strtoul (List.replicate n (ascii ' ') ++ x :: s) 16 = 0 := by
  rw [strtoul_spaces]
  rcases hx with rfl | rfl
  · rw [strtoul_of_head (by decide) s (by decide), if_neg (by simp [startsWithHex, ascii])]
    rfl
  · rw [strtoul_of_head (by decide) s (by decide), if_neg (by simp [startsWithHex, ascii])]
    rfl

/-- The prefix of the alternative form in front of `len` characters. -/
def hashPrefix (base len : Nat) (flags : Flags) : List Byte :=
  let x := if flags.uppercase then ascii 'X' else ascii 'x'
  if ntoaBufferSize ≤ len then []
  else if base = 16 then if ntoaBufferSize ≤ len + 1 then [x] else [ascii '0', x]
  else if base = 2 then if ntoaBufferSize ≤ len + 1 then [ascii 'b'] else [ascii '0', ascii 'b']
  else [ascii '0']

theorem pushChar_room {buf : List Byte} {c : Byte} (h : buf.length < ntoaBufferSize) :
    pushChar buf c = buf ++ [c] := if_pos h

theorem pushChar_full {buf : List Byte} {c : Byte} (h : ntoaBufferSize ≤ buf.length) :
    pushChar buf c = buf := if_neg (Nat.not_lt.mpr h)

theorem addHash_eq (buf : List Byte) (base prec width : Nat) (flags : Flags) :
    addHash buf base prec width flags = takeBack buf base prec width flags ++
      (hashPrefix base (takeBack buf base prec width flags).length flags).reverse := by
  unfold addHash hashPrefix
  generalize takeBack buf base prec width flags = buf'
  by_cases hfull : ntoaBufferSize ≤ buf'.length
  · simp only [pushChar_full hfull, if_pos hfull, List.reverse_nil, List.append_nil, ite_self]
  · have hone := fun c => pushChar_room (c := c) (Nat.not_le.mp hfull)
    simp only [if_neg hfull]
    by_cases hlast : ntoaBufferSize ≤ buf'.length + 1
    · have htwo := fun c c' => @pushChar_full (buf' ++ [c]) c'
        (by rwa [List.length_append, List.length_singleton])
      split_ifs <;> simp only [hone, htwo, List.reverse_singleton]
    · have htwo := fun c c' => @pushChar_room (buf' ++ [c]) c'
        (by rw [List.length_append, List.length_singleton]; omega)
      split_ifs <;> simp only [hone, htwo, List.append_assoc] <;> rfl

/-- How many of the highest characters the alternative form takes back. -/
def takenBack (base prec width len : Nat) (flags : Flags) : Nat :=
  if !flags.precision ∧ len ≠ 0 ∧ (len = prec ∨ len = width) then
    if len - 1 ≠ 0 ∧ base = 16 then 2 else 1
  else 0

theorem takeBack_eq (buf : List Byte) (base prec width : Nat) (flags : Flags) :
    takeBack buf base prec width flags = buf.take (buf.length - takenBack base prec width buf.length flags) := by
  unfold takeBack takenBack
  split_ifs
  · rw [List.dropLast_eq_take, List.dropLast_eq_take, List.take_take, List.length_take]
    congr 1
    omega
  · exact List.dropLast_eq_take
  · exact List.take_length.symm

section Unsigned

variable {value base prec width : Nat} {flags : Flags}

def printedDigits (value base : Nat) (flags : Flags) : List Nat :=
  if flags.precision ∧ value = 0 then [] else (numeral base value).take ntoaBufferSize

def paddedDigits (value base prec width : Nat) (flags : Flags) : List Nat :=
  printedDigits value base flags ++
    List.replicate (paddingZeros (printedDigits value base flags).length false prec width flags) 0

def keptDigits (value base prec width : Nat) (flags : Flags) : List Nat :=
  let digits := paddedDigits value base prec width flags
  if flags.hash then digits.take (digits.length - takenBack base prec width digits.length flags) else digits

theorem padZeros_digits (hbase : 2 ≤ base) :
    (padZeros (digitsBuffer value base flags) false prec width flags).1 =
      (paddedDigits value base prec width flags).map (digitChar flags.uppercase) := by
  have hbuf : digitsBuffer value base flags =
      (printedDigits value base flags).map (digitChar flags.uppercase) := by
    rw [digitsBuffer_eq hbase, printedDigits]
    split_ifs <;> rfl
  rw [padZeros_eq, hbuf, paddedDigits, List.map_append, List.map_replicate, digitChar_zero, List.length_map]

theorem padZeros_unsigned (hplus : flags.plus = false) (hspace : flags.space = false) (buf : List Byte) :
    (padZeros buf false prec width flags).2 = width := by
  unfold padZeros
  by_cases hleft : flags.left = true
  · rw [if_pos hleft]
  · rw [if_neg hleft]
    show signedWidth false width flags = width
    simp [signedWidth, hplus, hspace]

theorem revText_eq (buf : List Byte) (width : Nat) (flags : Flags) :
    revText buf width flags =
      List.replicate (if !flags.left && !flags.zeropad then width - buf.length else 0) (ascii ' ') ++
        (buf.reverse ++ List.replicate (if flags.left then width - buf.length else 0) (ascii ' ')) := by
  unfold revText
  cases flags.left <;> cases flags.zeropad <;> simp

theorem formatBuffer_fst (buf : List Byte) (negative : Bool) :
    (formatBuffer buf negative base prec width flags).1 =
      addSign (if flags.hash
        then addHash (padZeros buf negative prec width flags).1 base prec
          (padZeros buf negative prec width flags).2 flags
        else (padZeros buf negative prec width flags).1) negative flags := rfl

/-- The text of an unsigned number: spaces, the prefix and the digits. -/
theorem ntoaText_unsigned (hbase : 2 ≤ base) (hplus : flags.plus = false) (hspace : flags.space = false)
    (hzero : value = 0 → flags.hash = false) :
    ∃ n k, ntoaText value false base prec width flags =
      List.replicate n (ascii ' ') ++
        ((if flags.hash then hashPrefix base (keptDigits value base prec width flags).length flags else []) ++
          (((keptDigits value base prec width flags).map (digitChar flags.uppercase)).reverse ++
            List.replicate k (ascii ' '))) := by
  have hflags : (if value = 0 then { flags with hash := false } else flags) = flags := by
    split_ifs with h
    · rw [← hzero h]
    · rfl
  have hsign : signText false flags = [] := by simp [signText, hplus, hspace]
  have hbuf : (formatBuffer (digitsBuffer value base flags) false base prec width flags).1.reverse =
      (if flags.hash then hashPrefix base (keptDigits value base prec width flags).length flags else []) ++
        ((keptDigits value base prec width flags).map (digitChar flags.uppercase)).reverse := by
    have hpad := @padZeros_digits value _ prec width flags hbase
    rw [formatBuffer_fst, addSign_eq, hsign, ite_self, List.append_nil]
    simp only [padZeros_unsigned hplus hspace, hpad]
    unfold keptDigits
    cases flags.hash with
    | false => simp
    | true =>
        simp only [if_true, addHash_eq, takeBack_eq, List.reverse_append, List.reverse_reverse,
          List.length_map, List.map_take, List.length_take]
  rw [ntoaText, hflags]
  generalize formatBuffer (digitsBuffer value base flags) false base prec width flags = r at hbuf ⊢
  obtain ⟨buf, w⟩ := r
  have hbuf : buf.reverse = _ := hbuf
  have htext := revText_eq buf w flags
  rw [hbuf, List.append_assoc] at htext
  exact ⟨_, _, htext⟩

theorem paddedDigits_lt (hbase : 2 ≤ base) : ∀ d ∈ paddedDigits value base prec width flags, d < base := by
  intro d hd
  rcases List.mem_append.mp hd with hd | hd
  · unfold printedDigits at hd
    split_ifs at hd
    · exact absurd hd List.not_mem_nil
    · exact numeral_lt hbase value d (List.mem_of_mem_take hd)
  · rw [List.eq_of_mem_replicate hd]
    omega

theorem ofDigits_paddedDigits (hbase : 2 ≤ base) (hvalue : value < 2 ^ 32) :
    Nat.ofDigits base (paddedDigits value base prec width flags) = value := by
  have hfit : (numeral base value).length ≤ ntoaBufferSize :=
    (numeral_length_le_iff hbase (by decide) value).mpr (hvalue.trans_le (Nat.pow_le_pow_left hbase 32))
  rw [paddedDigits, Nat.ofDigits_append, Nat.ofDigits_replicate_zero, Nat.mul_zero, Nat.add_zero, printedDigits]
  split_ifs with h
  · exact h.2.symm
  · rw [List.take_of_length_le hfit, ofDigits_numeral]

theorem ofDigits_keptDigits (hbase : 2 ≤ base) (hvalue : value < 2 ^ 32) :
    Nat.ofDigits base (keptDigits value base prec width flags) =
      value % base ^ (keptDigits value base prec width flags).length := by
  have hall := @ofDigits_paddedDigits _ _ prec width flags hbase hvalue
  have hlt := @paddedDigits_lt value _ prec width flags hbase
  unfold keptDigits
  split_ifs
  · rw [← Nat.ofDigits_mod_pow_eq_ofDigits_take _ (by omega) _ hlt, hall, List.length_take]
    congr 2
    omega
  · have hbound := Nat.ofDigits_lt_base_pow_length (by omega) hlt
    rw [hall] at hbound ⊢
    exact (Nat.mod_eq_of_lt hbound).symm

theorem mod_pow_eq_iff (hbase : 2 ≤ base) (hvalue : value ≠ 0) (j : Nat) :
    value % base ^ j = value ↔ (numeral base value).length ≤ j := by
  have hpos := numeral_length_pos base value
  rcases Nat.eq_zero_or_pos j with rfl | hj
  · rw [Nat.pow_zero, Nat.mod_one]
    omega
  · rw [numeral_length_le_iff hbase hj, Nat.mod_eq_iff_lt (Nat.ne_of_gt (Nat.pow_pos (by omega)))]

/-- Half a prefix is left when there is room for one character in front of the digits. -/
theorem strtoul_ntoaText (hbase : 2 ≤ base) (hle : base ≤ 16) (hbinary : base ≠ 2) (hvalue : value < 2 ^ 32)
    (hplus : flags.plus = false) (hspace : flags.space = false) (hzero : value = 0 → flags.hash = false)
    {rest : List Byte} (hrest : Ended rest) :
    strtoul (ntoaText value false base prec width flags ++ rest) base =
      if flags.hash ∧ base = 16 ∧ (keptDigits value base prec width flags).length + 1 = ntoaBufferSize then 0
      else value % base ^ (keptDigits value base prec width flags).length := by
  obtain ⟨n, k, htext⟩ := @ntoaText_unsigned _ _ prec width _ hbase hplus hspace hzero
  have hlt : ∀ d ∈ keptDigits value base prec width flags, d < base := by
    intro d hd
    refine @paddedDigits_lt value _ prec width flags hbase d ?_
    unfold keptDigits at hd
    split_ifs at hd
    · exact List.mem_of_mem_take hd
    · exact hd
  have hread : wrap (Nat.ofDigits base (keptDigits value base prec width flags)) =
      value % base ^ (keptDigits value base prec width flags).length := by
    rw [ofDigits_keptDigits hbase hvalue, wrap_of_lt (lt_of_le_of_lt (Nat.mod_le _ _) hvalue)]
  have hx : (if flags.uppercase then ascii 'X' else ascii 'x') = ascii 'x' ∨
      (if flags.uppercase then ascii 'X' else ascii 'x') = ascii 'X' := by
    cases flags.uppercase <;> decide
  rw [htext, List.append_assoc, List.append_assoc, List.append_assoc, ← hread]
  generalize keptDigits value base prec width flags = l at hlt ⊢
  have hplain := strtoul_numeral hbase hle flags.uppercase hlt n k hrest
  cases hhash : flags.hash with
  | false =>
      simp only [Bool.false_eq_true, if_false, List.nil_append, false_and]
      exact hplain
  | true =>
      simp only [if_true, hashPrefix, true_and]
      generalize (if flags.uppercase then ascii 'X' else ascii 'x') = x at hx ⊢
      by_cases hfull : ntoaBufferSize ≤ l.length
      · rw [if_pos hfull, if_neg (by omega), List.nil_append]
        exact hplain
      · rw [if_neg hfull]
        by_cases h16 : base = 16
        · subst h16
          simp only [if_true, true_and]
          by_cases hhalf : ntoaBufferSize ≤ l.length + 1
          · rw [if_pos hhalf, if_pos (by omega)]
            exact strtoul_half_prefix n _ hx
          · rw [if_neg hhalf, if_neg (by omega)]
            exact strtoul_prefixed flags.uppercase hlt n k hrest hx
        · rw [if_neg h16, if_neg hbinary, if_neg (fun h => h16 h.1)]
          -- the prefix of an octal number is one more digit 0
          have hoctal := strtoul_numeral hbase hle flags.uppercase (l := l ++ [0])
            (by simpa [or_imp, forall_and] using ⟨hlt, Nat.lt_of_lt_of_le Nat.two_pos hbase⟩) n k hrest
          rw [List.map_append, List.map_singleton, digitChar_zero, List.reverse_append, List.reverse_singleton,
            List.append_assoc, Nat.ofDigits_append, Nat.ofDigits_singleton, Nat.mul_zero, Nat.add_zero] at hoctal
          exact hoctal

/-- The alternative form of a number of `len` digits takes back one of them, or half of its
own prefix is missing. -/
def TakesDigits (len base prec width : Nat) (flags : Flags) : Prop :=
  if flags.precision then base = 16 ∧ flags.left = false ∧ prec = 31
  else if flags.zeropad && !flags.left then len ≤ width ∧ width < len + (if base = 16 then 2 else 1)
  else width = len

instance (len base prec width : Nat) (flags : Flags) : Decidable (TakesDigits len base prec width flags) :=
  inferInstanceAs (Decidable (if flags.precision then base = 16 ∧ flags.left = false ∧ prec = 31
    else if flags.zeropad && !flags.left then len ≤ width ∧ width < len + (if base = 16 then 2 else 1)
    else width = len))

theorem keptDigits_length (hhash : flags.hash = true) (hvalue : value ≠ 0)
    (hfit : (numeral base value).length ≤ ntoaBufferSize) :
    let len := (numeral base value).length + paddingZeros (numeral base value).length false prec width flags
    (keptDigits value base prec width flags).length = len - takenBack base prec width len flags := by
  have hlen : (paddedDigits value base prec width flags).length =
      (numeral base value).length + paddingZeros (numeral base value).length false prec width flags := by
    rw [paddedDigits, printedDigits, if_neg (fun h => hvalue h.2), List.take_of_length_le hfit,
      List.length_append, List.length_replicate]
  simp only [keptDigits, hhash, if_true, List.length_take, hlen]
  omega

theorem paddingZeros_unsigned (hplus : flags.plus = false) (hspace : flags.space = false) (len : Nat) :
    paddingZeros len false prec width flags =
      if flags.left then 0
      else max (min prec ntoaBufferSize) (if flags.zeropad then min width ntoaBufferSize else 0) - len := by
  unfold paddingZeros signedWidth
  simp [hplus, hspace]

theorem kept_iff {len : Nat} (hpos : 0 < len) (hshort : len ≤ 11) (hplus : flags.plus = false)
    (hspace : flags.space = false) (hzeropad : flags.precision → flags.zeropad = false)
    (hprec : flags.precision = false → prec = 0) {kept : Nat}
    (hkept : kept = len + paddingZeros len false prec width flags -
      takenBack base prec width (len + paddingZeros len false prec width flags) flags) :
    (¬(base = 16 ∧ kept + 1 = ntoaBufferSize) ∧ len ≤ kept) ↔ ¬TakesDigits len base prec width flags := by
  rw [paddingZeros_unsigned hplus hspace] at hkept
  have hsize : ntoaBufferSize = 32 := rfl
  unfold takenBack at hkept
  unfold TakesDigits
  cases hp : flags.precision with
  | true =>
      rw [hzeropad hp] at hkept
      cases hl : flags.left <;> simp [hp, hl] at hkept ⊢ <;> omega
  | false =>
      rw [hprec hp] at hkept
      by_cases h16 : base = 16 <;> cases hl : flags.left <;> cases hz : flags.zeropad <;>
        simp [hp, hl, hz, h16] at hkept ⊢ <;> split_ifs at hkept <;> omega

theorem strtoul_hash_iff (hbase : 8 ≤ base) (hle : base ≤ 16) (hvalue : value < 2 ^ 32) (hne : value ≠ 0)
    (hhash : flags.hash = true) (hplus : flags.plus = false) (hspace : flags.space = false)
    (hzeropad : flags.precision → flags.zeropad = false) (hprec : flags.precision = false → prec = 0)
    {rest : List Byte} (hrest : Ended rest) :
    strtoul (ntoaText value false base prec width flags ++ rest) base = value ↔
      ¬TakesDigits (numeral base value).length base prec width flags := by
  have hshort : (numeral base value).length ≤ 11 :=
    (numeral_length_le_iff (by omega) (by decide) value).mpr
      (hvalue.trans_le (le_trans (by decide) (Nat.pow_le_pow_left hbase 11)))
  have hkept := @keptDigits_length _ base prec width _ hhash hne (hshort.trans (by decide))
  rw [strtoul_ntoaText (by omega) hle (by omega) hvalue hplus hspace (fun h => absurd h hne) hrest,
    ← kept_iff (numeral_length_pos base value) hshort hplus hspace hzeropad hprec hkept, hhash]
  split_ifs with hhalf
  · exact ⟨fun h => absurd h.symm hne, fun h => absurd hhalf.2 h.1⟩
  · rw [mod_pow_eq_iff (by omega) hne]
    exact ⟨fun h => ⟨fun hhalf' => hhalf ⟨rfl, hhalf'⟩, h⟩, fun h => h.2⟩

theorem strtoul_plain (hbase : 8 ≤ base) (hle : base ≤ 16) (hvalue : value < 2 ^ 32)
    (hhash : flags.hash = false) (hplus : flags.plus = false) (hspace : flags.space = false)
    {rest : List Byte} (hrest : Ended rest) :
    strtoul (ntoaText value false base prec width flags ++ rest) base = value := by
  have hkeep : keptDigits value base prec width flags = paddedDigits value base prec width flags := by
    rw [keptDigits, hhash]
    rfl
  have hall := @ofDigits_keptDigits _ _ prec width flags (show 2 ≤ base by omega) hvalue
  rw [hkeep, ofDigits_paddedDigits (by omega) hvalue] at hall
  rw [strtoul_ntoaText (by omega) hle (by omega) hvalue hplus hspace (fun _ => hhash) hrest, hhash, hkeep,
    if_neg (fun h => Bool.false_ne_true h.1), ← hall]

end Unsigned

/-- The specifiers of unsigned numbers in a base that `strtoul` is called with. -/
def unsignedSpecifiers : List Byte := ['u', 'x', 'X', 'o'].map ascii

theorem sint_step (x a b : Int) : sint (sint x * a + b) = sint (x * a + b) := by
  unfold sint
  rw [← Int.bmod_add_bmod, Int.bmod_mul_bmod, Int.bmod_add_bmod]

theorem foldl_sint (l : List Nat) :
    l.reverse.foldl (fun (v : Int) (d : Nat) => sint (v * 10 + d)) 0 = sint (Nat.ofDigits 10 l : Nat) := by
  induction l with
  | nil => rfl
  | cons d l ih =>
      rw [List.reverse_cons, List.foldl_append, ih, List.foldl_cons, List.foldl_nil, sint_step,
        Nat.ofDigits_cons]
      congr 1
      push_cast
      ring

theorem atoiDigits_map {l : List Nat} : (∀ d ∈ l, d < 10) → ∀ (val : Int) (rest : List Byte),
    atoiDigits val (l.map (digitChar false) ++ rest) =
      atoiDigits (l.foldl (fun (v : Int) (d : Nat) => sint (v * 10 + d)) val) rest := by
  induction l with
  | nil => exact fun _ _ _ => rfl
  | cons d l ih =>
      intro hl val rest
      obtain ⟨hdigit, hvalue⟩ := isDigit_digitChar false ⟨d, hl d List.mem_cons_self⟩
      have hnat : 48 ≤ (digitChar false d).toNat := by
        have hrange : ∀ d : Fin 10, 48 ≤ (digitChar false d).toNat := by decide
        exact hrange ⟨d, hl d List.mem_cons_self⟩
      have hint : ((digitChar false d).toNat : Int) - 48 = (d : Nat) := by
        have hvalue : (digitChar false d).toNat - 48 = d := hvalue
        omega
      rw [List.map_cons, List.cons_append, atoiDigits, if_pos hdigit, hint]
      exact ih (fun b hb => hl b (List.mem_cons_of_mem d hb)) _ _

theorem atoiDigits_spaces (val : Int) (n : Nat) {rest : List Byte} (h : Ended rest) :
    atoiDigits val (List.replicate n (ascii ' ') ++ rest) = val := by
  cases n with
  | zero =>
      cases rest with
      | nil => rfl
      | cons c rest =>
          rw [h c rfl]
          rfl
  | succ n => rfl

theorem atoiDigits_numeral {l : List Nat} (hl : ∀ d ∈ l, d < 10) (n : Nat) {rest : List Byte} (h : Ended rest) :
    atoiDigits 0 ((l.map (digitChar false)).reverse ++ (List.replicate n (ascii ' ') ++ rest)) =
      sint (Nat.ofDigits 10 l : Nat) := by
  rw [← List.map_reverse, atoiDigits_map fun d hd => hl d (List.mem_reverse.mp hd), foldl_sint,
    atoiDigits_spaces _ n h]

theorem atoi_spaces (n : Nat) (s : List Byte) : atoi (List.replicate n (ascii ' ') ++ s) = atoi s := by
  induction n with
  | zero => rfl
  | succ n ih =>
      rw [List.replicate_succ, List.cons_append, ← ih]
      rfl

theorem atoi_numeral {l : List Nat} (hl : ∀ d ∈ l, d < 10) (n k : Nat) {rest : List Byte} (h : Ended rest) :
    atoi (List.replicate n (ascii ' ') ++ ((l.map (digitChar false)).reverse ++
      (List.replicate k (ascii ' ') ++ rest))) = sint (Nat.ofDigits 10 l : Nat) := by
  rw [atoi_spaces, ← atoiDigits_numeral hl k h, ← List.map_reverse]
  cases hrev : l.reverse with
  | nil =>
      rw [List.map_nil, List.nil_append, atoi_spaces, atoiDigits_spaces 0 k h]
      cases rest with
      | nil => rfl
      | cons c rest =>
          rw [h c rfl]
          rfl
  | cons d l' =>
      have hd : d < 10 := hl d (List.mem_reverse.mp (hrev ▸ List.mem_cons_self))
      have hhead : ∀ d : Fin 10, isSpace (digitChar false d) = false ∧ digitChar false d ≠ ascii '+' ∧
          digitChar false d ≠ ascii '-' := by decide
      obtain ⟨hspace, hplus, hminus⟩ := hhead ⟨d, hd⟩
      rw [List.map_cons, List.cons_append, atoi, List.dropWhile_cons_of_neg (by simp [hspace])]
      simp only [hplus, hminus, if_false]

theorem atoi_signed (n : Nat) (s : List Byte) :
    atoi (List.replicate n (ascii ' ') ++ (ascii '-' :: s)) = sint (-atoiDigits 0 s) ∧
      atoi (List.replicate n (ascii ' ') ++ (ascii '+' :: s)) = atoiDigits 0 s := by
  refine ⟨?_, ?_⟩
  · rw [atoi_spaces, ← neg_one_mul]
    rfl
  · rw [atoi_spaces]
    rfl

section Signed

variable {value prec width : Nat} {negative : Bool} {flags : Flags}

def SignLost (prec width : Nat) (flags : Flags) : Prop :=
  flags.left = false ∧ (ntoaBufferSize ≤ prec ∨ flags.zeropad ∧ ntoaBufferSize < width)

theorem ntoaText_signed (hhash : flags.hash = false) (hupper : flags.uppercase = false) :
    ∃ n k zeros, ntoaText value negative 10 prec width flags =
      List.replicate n (ascii ' ') ++
        ((if (printedDigits value 10 flags).length + zeros < ntoaBufferSize then signText negative flags else []) ++
          (((printedDigits value 10 flags ++ List.replicate zeros 0).map (digitChar false)).reverse ++
            List.replicate k (ascii ' '))) ∧
      zeros = paddingZeros (printedDigits value 10 flags).length negative prec width flags := by
  have hbuf : digitsBuffer value 10 flags = (printedDigits value 10 flags).map (digitChar false) := by
    rw [digitsBuffer_eq (by decide), printedDigits, hupper]
    split_ifs <;> rfl
  have hnumber : paddedNumber value negative 10 prec width flags =
      (if (printedDigits value 10 flags).length +
          paddingZeros (printedDigits value 10 flags).length negative prec width flags < ntoaBufferSize
        then signText negative flags else []) ++
        ((printedDigits value 10 flags ++ List.replicate
          (paddingZeros (printedDigits value 10 flags).length negative prec width flags) 0).map
            (digitChar false)).reverse := by
    rw [paddedNumber, hbuf, List.length_map, List.map_append, List.map_replicate, digitChar_zero,
      List.reverse_append, List.reverse_replicate, List.append_assoc]
  rw [ntoaText_plain hhash, hnumber]
  simp only [List.append_assoc]
  cases flags.left with
  | true => exact ⟨0, _, _, rfl, rfl⟩
  | false =>
      cases flags.zeropad with
      | true => exact ⟨0, 0, _, by simp, rfl⟩
      | false => exact ⟨_, 0, _, by simp; rfl, rfl⟩

theorem printedDigits_spec (hvalue : value < 2 ^ 32) :
    (∀ d ∈ printedDigits value 10 flags, d < 10) ∧ Nat.ofDigits 10 (printedDigits value 10 flags) = value ∧
      (printedDigits value 10 flags).length ≤ 10 := by
  have hlen : (numeral 10 value).length ≤ 10 :=
    (numeral_length_le_iff (by decide) (by decide) value).mpr (hvalue.trans_le (by decide))
  unfold printedDigits
  split_ifs with h
  · exact ⟨fun d hd => absurd hd List.not_mem_nil, h.2.symm, Nat.zero_le 10⟩
  · rw [List.take_of_length_le (hlen.trans (by decide))]
    exact ⟨numeral_lt (by decide) value, ofDigits_numeral 10 value, hlen⟩

theorem sign_room_iff (hzeropad : flags.precision → flags.zeropad = false)
    (hprec : flags.precision = false → prec = 0) {len : Nat} (hlen : len ≤ 10) (hnegative : negative = true) :
    len + paddingZeros len negative prec width flags < ntoaBufferSize ↔ ¬SignLost prec width flags := by
  have hsize : ntoaBufferSize = 32 := rfl
  unfold paddingZeros SignLost signedWidth
  cases hp : flags.precision with
  | true =>
      rw [hzeropad hp]
      cases hl : flags.left <;> simp <;> omega
  | false =>
      rw [hprec hp]
      cases hl : flags.left <;> cases hz : flags.zeropad <;> simp [hnegative] <;> (try split_ifs) <;> omega

/-- The sign in front of digits as `atoi` reads it. -/
theorem atoi_signText {l : List Nat} (hl : ∀ d ∈ l, d < 10) (n k : Nat) {rest : List Byte} (h : Ended rest)
    (negative : Bool) (flags : Flags) :
    atoi (List.replicate n (ascii ' ') ++ (signText negative flags ++ ((l.map (digitChar false)).reverse ++
      (List.replicate k (ascii ' ') ++ rest)))) =
      if negative then sint (-(Nat.ofDigits 10 l : Nat)) else sint (Nat.ofDigits 10 l : Nat) := by
  obtain ⟨hminus, hplus⟩ := atoi_signed n
    ((l.map (digitChar false)).reverse ++ (List.replicate k (ascii ' ') ++ rest))
  rw [atoiDigits_numeral hl k h] at hminus hplus
  unfold signText
  split_ifs
  · have hneg := sint_step (Nat.ofDigits 10 l : Nat) (-1) 0
    simp only [mul_neg, mul_one, add_zero] at hneg
    rw [← hneg, ← hminus]
    rfl
  · exact hplus
  · rw [← atoi_numeral hl (n + 1) k h, List.replicate_succ']
    simp only [List.append_assoc]
  · exact atoi_numeral hl n k h

end Signed

theorem readDirective_uppercase (fmt : List Byte) (va : VaList) :
    (readDirective fmt va).flags.uppercase = false := by
  have hflags : ∀ (fmt : List Byte) (flags : Flags), flags.uppercase = false →
      (readFlags flags fmt).1.uppercase = false := by
    intro fmt
    induction fmt with
    | nil => exact fun _ h => h
    | cons c fmt ih =>
        intro flags h
        rw [readFlags]
        split_ifs
        all_goals first | exact ih _ h | exact h
  have hwidth : ∀ d : Directive, (readWidth d).flags.uppercase = d.flags.uppercase := by
    intro d
    unfold readWidth
    split
    · rfl
    · split_ifs
      · rfl
      · dsimp only
        split_ifs <;> rfl
      · rfl
  have hprecision : ∀ d : Directive, (readPrecision d).flags.uppercase = d.flags.uppercase := by
    intro d
    unfold readPrecision
    split
    · rfl
    · split_ifs
      · split
        · rfl
        · split_ifs <;> rfl
      · rfl
  have hlength : ∀ d : Directive, (readLength d).flags.uppercase = d.flags.uppercase := by
    intro d
    unfold readLength
    split
    · rfl
    · split_ifs <;> rfl
  rw [readDirective, hlength, hprecision, hwidth]
  exact hflags fmt {} rfl

theorem sint_neg {n : Nat} (hn : n ≤ 2 ^ 31) : sint (-(n : Int)) = -(n : Int) := by
  unfold sint
  rw [Int.bmod_eq_of_le] <;> omega

theorem sint_natCast {n : Nat} (hn : n ≤ 2 ^ 31) : sint (n : Int) = if n = 2 ^ 31 then -(n : Int) else n := by
  split_ifs with h
  · subst h
    decide
  · unfold sint
    rw [Int.bmod_eq_of_le] <;> omega

/-- For every directive and every argument in the range of `int`, `atoi` reads the printed
number back, unless it is negative and its sign is lost. The least number overflows to itself. -/
theorem signed_reads_back_iff {fmt : List Byte} {va : VaList} {c : Byte} {rest : List Byte}
    (hc : isSigned c = true) (hrest : Ended rest) :
    let d := readDirective fmt va
    let flags := integerFlags c d.flags
    let value := signedArg flags d.va
    value < 2 ^ 31 → -2 ^ 31 ≤ value →
    (atoi (integerText c d ++ rest) = value ↔
      ¬(-2 ^ 31 < value ∧ value < 0 ∧ SignLost d.precision d.width flags)) := by
  intro d flags value hhigh hlow
  have hcases : c = ascii 'i' ∨ c = ascii 'd' := by simpa [isSigned] using hc
  have hbase : integerBase c = 10 := by
    rcases hcases with rfl | rfl <;> decide
  have hhash : flags.hash = false := by simp [flags, integerFlags, hbase]
  have hupper : flags.uppercase = false := by
    have hd : d.flags.uppercase = false := readDirective_uppercase fmt va
    rcases hcases with rfl | rfl
    · simp [flags, integerFlags, hd, ascii]
    · simp [flags, integerFlags, hd, ascii]
  have hmagnitude : value.natAbs < 2 ^ 32 := by omega
  obtain ⟨hdigits, hvalue, hlen⟩ := @printedDigits_spec _ flags hmagnitude
  obtain ⟨n, k, zeros, htext, hzeros⟩ :=
    @ntoaText_signed value.natAbs d.precision d.width (decide (value < 0)) _ hhash hupper
  have hall : ∀ b ∈ printedDigits value.natAbs 10 flags ++ List.replicate zeros 0, b < 10 := by
    intro b hb
    rcases List.mem_append.mp hb with hb | hb
    · exact hdigits b hb
    · rw [List.eq_of_mem_replicate hb]
      decide
  have hnumber : Nat.ofDigits 10 (printedDigits value.natAbs 10 flags ++ List.replicate zeros 0) =
      value.natAbs := by
    rw [Nat.ofDigits_append, Nat.ofDigits_replicate_zero, Nat.mul_zero, Nat.add_zero, hvalue]
  have hprinted : integerText c d = ntoaText value.natAbs (decide (value < 0)) 10 d.precision d.width flags := by
    rw [integerText, hc, hbase]
    rfl
  have hkeep := atoi_signText hall n k hrest (decide (value < 0)) flags
  have hlose := atoi_numeral hall n k hrest
  rw [hnumber] at hkeep hlose
  have hroom := @sign_room_iff _ d.width true _ (integerFlags_zeropad c d.flags)
    (fun h => @readDirective_precision fmt va h) _ hlen rfl
  have hneg := sint_neg (show value.natAbs ≤ 2 ^ 31 by omega)
  have hpos := sint_natCast (show value.natAbs ≤ 2 ^ 31 by omega)
  rw [hprinted, htext]
  simp only [List.append_assoc]
  by_cases hsign : value < 0
  · simp only [hsign, decide_true, if_true] at hkeep hzeros ⊢
    rw [← hzeros] at hroom
    split_ifs with hfits
    · rw [hkeep, hneg]
      exact iff_of_true (by omega) fun h => hroom.mp hfits h.2.2
    · have hlost : SignLost d.precision d.width flags := not_not.mp fun h => hfits (hroom.mpr h)
      rw [List.nil_append, hlose, hpos]
      simp only [hlost, and_true]
      split_ifs <;> omega
  · have hread : atoi (List.replicate n (ascii ' ') ++
        ((if (printedDigits value.natAbs 10 flags).length + zeros < ntoaBufferSize
          then signText (decide (value < 0)) flags else []) ++
          (((printedDigits value.natAbs 10 flags ++ List.replicate zeros 0).map (digitChar false)).reverse ++
            (List.replicate k (ascii ' ') ++ rest)))) = sint (value.natAbs : Int) := by
      split_ifs
      · rw [hkeep]
        simp only [hsign, decide_false, Bool.false_eq_true, if_false]
      · exact hlose
    have hnonneg : (value.natAbs : Int) = value := Int.natAbs_of_nonneg (not_lt.mp hsign)
    rw [hread, hpos, hnonneg]
    refine iff_of_true ?_ fun h => hsign h.2.1
    split_ifs <;> omega

/-- `%040d` prints -5 as thirty-one zeros and a 5. -/
theorem sign_lost :
    atoi (integerText (ascii 'd') (readDirective (['0', '4', '0', 'd'].map ascii) fun _ => -5#32) ++ []) ≠ -5 := by
  have hiff := @signed_reads_back_iff (['0', '4', '0', 'd'].map ascii) (fun _ => -5#32) (ascii 'd') [] (by decide)
    ended_nil (by decide) (by decide)
  exact fun h => hiff.mp h ⟨by decide, by decide, by decide, .inr ⟨by decide, by decide⟩⟩

end Frostix.Libc.Printf
