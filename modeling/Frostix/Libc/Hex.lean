import Frostix.Libc

/-!
`hex_to_u32` beside `strtoul`: one shifts and ors, the other multiplies and adds. A plain
`char` is signed, so bytes from 0x80 on are below every digit. -/
namespace Frostix.Libc

open Machine32

/-- `(val << 4) | d`. -/
def shiftIn (val d : Nat) : Nat := wrap (val <<< 4) ||| d

/-- The loop of `hex_to_u32`. -/
def hexToU32Digits (val : Nat) : List Byte → Nat
  | [] => val
  | c :: s =>
      if (ascii '0').sle c && c.sle (ascii '9') then hexToU32Digits (shiftIn val (c.toNat - 48)) s
      else if (ascii 'a').sle c && c.sle (ascii 'f') then hexToU32Digits (shiftIn val (c.toNat - 97 + 10)) s
      else if (ascii 'A').sle c && c.sle (ascii 'F') then hexToU32Digits (shiftIn val (c.toNat - 65 + 10)) s
      else val

def hexToU32 (str : List Byte) : Nat := hexToU32Digits 0 (if startsWithHex str then str.drop 2 else str)

/-- The digits in front, behind an optional `0x` or `0X`. -/
def hexPart (s : List Byte) : List Byte :=
  (if startsWithHex s then s.drop 2 else s).takeWhile fun c => (digitValue c).isSome

def digitsNumber (l : List Byte) : Nat := Nat.ofDigits 16 (l.filterMap digitValue).reverse

theorem signed_range : ∀ c : Byte,
    ((ascii '0').sle c && c.sle (ascii '9')) = isDigit c ∧
    ((ascii 'a').sle c && c.sle (ascii 'f')) = decide (ascii 'a' ≤ c ∧ c ≤ ascii 'f') ∧
    ((ascii 'A').sle c && c.sle (ascii 'F')) = decide (ascii 'A' ≤ c ∧ c ≤ ascii 'F') := by
  decide +kernel

theorem digitValue_lt : ∀ c : Byte, ∀ d ∈ digitValue c, d < 16 := by
  decide +kernel

theorem hexToU32Digits_cons (val : Nat) (c : Byte) (s : List Byte) :
    hexToU32Digits val (c :: s) = (digitValue c).elim val fun d => hexToU32Digits (shiftIn val d) s := by
  obtain ⟨hdec, hlower, hupper⟩ := signed_range c
  rw [hexToU32Digits, hdec, hlower, hupper, digitValue]
  split_ifs <;> simp_all

theorem strtoulDigits_cons (val : Nat) (c : Byte) (s : List Byte) :
    strtoulDigits 16 val (c :: s) =
      (digitValue c).elim val fun d => strtoulDigits 16 (wrap (val * 16 + d)) s := by
  rw [strtoulDigits]
  cases hc : digitValue c with
  | none => rfl
  | some d => exact if_neg (Nat.not_le.mpr (digitValue_lt c d hc))

theorem shiftIn_eq {d : Nat} (val : Nat) (hd : d < 16) : shiftIn val d = wrap (val * 16 + d) := by
  have hshift : wrap (val <<< 4) = 2 ^ 4 * (val % 2 ^ 28) := by
    rw [Nat.shiftLeft_eq]
    unfold wrap
    omega
  rw [shiftIn, hshift, ← Nat.two_pow_add_eq_or_of_lt hd]
  unfold wrap
  omega

theorem hexToU32Digits_eq (s : List Byte) : ∀ val, hexToU32Digits val s = strtoulDigits 16 val s := by
  induction s with
  | nil => exact fun _ => rfl
  | cons c s ih =>
      intro val
      rw [hexToU32Digits_cons, strtoulDigits_cons]
      cases hc : digitValue c with
      | none => rfl
      | some d =>
          rw [Option.elim_some, Option.elim_some, ih, shiftIn_eq val (digitValue_lt c d hc)]

theorem digitsNumber_cons {c : Byte} {d : Nat} (h : digitValue c = some d) {l : List Byte}
    (hl : ∀ b ∈ l, (digitValue b).isSome) : digitsNumber (c :: l) = d * 16 ^ l.length + digitsNumber l := by
  have hlength : (l.filterMap digitValue).length = l.length := by
    rw [List.length_filterMap_eq_countP]
    exact List.countP_eq_length.mpr hl
  rw [digitsNumber, digitsNumber, List.filterMap_cons_some h, List.reverse_cons, Nat.ofDigits_append,
    Nat.ofDigits_singleton, List.length_reverse, hlength]
  ring

/-- The digits behind `val`, up to the first byte that is none. -/
theorem strtoulDigits_eq (s : List Byte) : ∀ val < 2 ^ 32,
    let l := s.takeWhile fun c => (digitValue c).isSome
    strtoulDigits 16 val s = wrap (val * 16 ^ l.length + digitsNumber l) := by
  induction s with
  | nil =>
      intro val hval
      simpa [strtoulDigits, digitsNumber] using (wrap_of_lt hval).symm
  | cons c s ih =>
      intro val hval
      rw [strtoulDigits_cons]
      cases hc : digitValue c with
      | none => simpa [hc, digitsNumber] using (wrap_of_lt hval).symm
      | some d =>
          have hrest := ih _ (wrap_lt (val * 16 + d))
          simp only [Option.elim_some, List.takeWhile_cons, hc, Option.isSome_some, if_true, List.length_cons]
          rw [digitsNumber_cons hc fun b hb => List.mem_takeWhile_imp (p := fun c => (digitValue c).isSome) hb, hrest]
          have hmod : wrap (val * 16 + d) ≡ val * 16 + d [MOD 2 ^ 32] := Nat.mod_modEq _ _
          refine ((hmod.mul_right _).add_right _).trans (congrArg (· % 2 ^ 32) ?_)
          ring

/-- Without white space and sign in front only the optional `0x` is skipped. -/
theorem strtoul_hex {s : List Byte}
    (hs : ∀ c ∈ s.head?, c ∉ [ascii ' ', ascii '\t', ascii '\n', ascii '\r', ascii '+']) :
    strtoul s 16 = strtoulDigits 16 0 (if startsWithHex s then s.drop 2 else s) := by
  cases s with
  | nil => rfl
  | cons c s =>
      have hc := hs c rfl
      simp only [List.mem_cons, List.not_mem_nil, or_false, not_or] at hc
      simp [strtoul, detectBase, hc]

theorem hexToU32_eq {s : List Byte}
    (hs : ∀ c ∈ s.head?, c ∉ [ascii ' ', ascii '\t', ascii '\n', ascii '\r', ascii '+']) :
    hexToU32 s = strtoul s 16 ∧ strtoul s 16 = digitsNumber (hexPart s) % 2 ^ 32 := by
  have hvalue := strtoulDigits_eq (if startsWithHex s then s.drop 2 else s) 0 (by decide)
  simp only [Nat.zero_mul, Nat.zero_add] at hvalue
  exact ⟨by rw [strtoul_hex hs, hexToU32, hexToU32Digits_eq], (strtoul_hex hs).trans hvalue⟩

end Frostix.Libc
