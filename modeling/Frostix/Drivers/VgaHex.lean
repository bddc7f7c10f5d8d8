import Frostix.Drivers.VgaText
import Frostix.Libc.Hex

/-! `vga_text_print_hex`: its buffer holds a text that the parsers read back. -/
namespace Frostix.Drivers

open Machine32 Libc

/-- `hex_chars[value & 0xF]`. -/
def hexChar (value : Nat) : Byte := ("0123456789ABCDEF".toList.map ascii).getD (value &&& 15) 0#8

/-- `buffer` at the end of `vga_text_print_hex`, for what was on the stack before. -/
def hexBuffer (stack : Fin 11 → Byte) (value : Nat) : Fin 11 → Byte :=
  let buffer := Function.update (Function.update (Function.update stack 0 (ascii '0')) 1 (ascii 'x')) 10 0#8
  let (buffer, _) := [9, 8, 7, 6, 5, 4, 3, 2].foldl
    (fun (buffer, value) i => (Function.update buffer i (hexChar value), value >>> 4)) (buffer, value)
  buffer

def vgaTextWritestring (dev : VgaTextDevice) (str : List Byte) : Option (KernelStatus × VgaTextDevice) :=
  vgaTextWrite dev (str.takeWhile (· ≠ 0#8))

def vgaTextPrintHex (dev : VgaTextDevice) (stack : Fin 11 → Byte) (value : Nat) :
    Option (KernelStatus × VgaTextDevice) :=
  if !dev.initialized then some (.error, dev)
  else vgaTextWritestring dev (List.ofFn (hexBuffer stack value))

/-- The last `k` hexadecimal digits of a number. -/
def hexDigits : Nat → Nat → List Byte
  | 0, _ => []
  | k + 1, v => hexDigits k (v >>> 4) ++ [hexChar v]

/-- What `vga_text_print_hex` writes. -/
def hexText (v : Nat) : List Byte := ascii '0' :: ascii 'x' :: hexDigits 8 v

theorem hexBuffer_eq (stack : Fin 11 → Byte) (v : Nat) : List.ofFn (hexBuffer stack v) = hexText v ++ [0#8] := by
  simp [hexBuffer, hexText, hexDigits, List.ofFn_succ, Function.update]

theorem digitValue_hexChar (v : Nat) : digitValue (hexChar v) = some (v % 16) := by
  have hmask : v &&& 15 = v % 16 := Nat.and_two_pow_sub_one_eq_mod v 4
  have hdigit : ∀ d < 16, digitValue (("0123456789ABCDEF".toList.map ascii).getD d 0#8) = some d := by decide
  rw [hexChar, hmask, hdigit _ (Nat.mod_lt v (by decide))]

theorem digitValue_hexDigits {k v : Nat} {c : Byte} (h : c ∈ hexDigits k v) : (digitValue c).isSome := by
  induction k generalizing v with
  | zero => exact absurd h List.not_mem_nil
  | succ k ih =>
      rcases List.mem_append.mp h with hmem | hlast
      · exact ih hmem
      · obtain rfl := List.mem_singleton.mp hlast
        rw [digitValue_hexChar]
        rfl

theorem digitsNumber_hexDigits (k v : Nat) : digitsNumber (hexDigits k v) = v % 16 ^ k := by
  induction k generalizing v with
  | zero => exact (Nat.mod_one v).symm
  | succ k ih =>
      have hlast : List.filterMap digitValue [hexChar v] = [v % 16] := by
        rw [List.filterMap_cons_some (digitValue_hexChar v), List.filterMap_nil]
      have hrest : Nat.ofDigits 16 ((hexDigits k (v >>> 4)).filterMap digitValue).reverse = v / 16 % 16 ^ k := by
        rw [← digitsNumber, ih, Nat.shiftRight_eq_div_pow]
      rw [hexDigits, digitsNumber, List.filterMap_append, hlast, List.reverse_append, List.reverse_singleton,
        List.singleton_append, Nat.ofDigits_cons, hrest, Nat.pow_succ', Nat.mod_mul]

theorem vgaTextPrintHex_eq {dev : VgaTextDevice} (h : dev.initialized = true) (stack : Fin 11 → Byte) (v : Nat) :
    vgaTextPrintHex dev stack v = vgaTextWrite dev (hexText v) := by
  have hne : ∀ c ∈ hexText v, decide (c ≠ 0#8) = true := by
    intro c hc
    rw [decide_eq_true_iff]
    rintro rfl
    rw [hexText, List.mem_cons, List.mem_cons] at hc
    rcases hc with hzero | hx | hdigit
    · exact absurd hzero (by decide)
    · exact absurd hx (by decide)
    · exact absurd (digitValue_hexDigits hdigit) (by decide)
  have hstring : (hexText v ++ [0#8]).takeWhile (fun c => decide (c ≠ 0#8)) = hexText v := by
    rw [List.takeWhile_append_of_pos hne, List.takeWhile_cons_of_neg (by decide), List.append_nil]
  rw [vgaTextPrintHex, if_neg (by simp [h]), vgaTextWritestring, hexBuffer_eq, hstring]

/-- The text is `0x` and the digits of the number. -/
theorem digitsNumber_hexText {v : Nat} (hv : v < 2 ^ 32) : digitsNumber (hexPart (hexText v)) = v := by
  have hpart : hexPart (hexText v) = hexDigits 8 v := by
    have hstart : startsWithHex (hexText v) = true := by simp [startsWithHex, hexText]
    rw [hexPart, if_pos hstart]
    exact List.takeWhile_eq_self_iff.mpr fun c hc => digitValue_hexDigits hc
  rw [hpart, digitsNumber_hexDigits, Nat.mod_eq_of_lt (hv.trans_le (by decide))]

/-- The two parsers agree on every string without white space or sign in front, and both read back
what `vga_text_print_hex` writes. -/
theorem hex_parsers_agree {s : List Byte}
    (hs : ∀ c ∈ s.head?, c ∉ [ascii ' ', ascii '\t', ascii '\n', ascii '\r', ascii '+'])
    {dev : VgaTextDevice} (hdev : dev.initialized = true) (stack : Fin 11 → Byte) {v : Nat} (hv : v < 2 ^ 32) :
    hexToU32 s = strtoul s 16 ∧ strtoul s 16 = digitsNumber (hexPart s) % 2 ^ 32 ∧
      vgaTextPrintHex dev stack v = vgaTextWrite dev (hexText v) ∧ hexToU32 (hexText v) = v ∧
        strtoul (hexText v) 16 = v := by
  obtain ⟨hsame, hvalue⟩ := hexToU32_eq hs
  have hhead : ∀ c ∈ (hexText v).head?, c ∉ [ascii ' ', ascii '\t', ascii '\n', ascii '\r', ascii '+'] := by
    rintro c ⟨⟩
    decide
  obtain ⟨hsame', hvalue'⟩ := hexToU32_eq hhead
  have hback : strtoul (hexText v) 16 = v := by
    rw [hvalue', digitsNumber_hexText hv, Nat.mod_eq_of_lt hv]
  exact ⟨hsame, hvalue, vgaTextPrintHex_eq hdev stack v, hsame'.trans hback, hback⟩

/-- A numeral that ends at a byte from 0x80 on, and the text of a large number. -/
theorem hex_parsers_agree_deadbeef :
    hexToU32 [ascii '0', ascii 'X', ascii '1', ascii 'f', 0x80#8] = 31 ∧
      strtoul [ascii '0', ascii 'X', ascii '1', ascii 'f', 0x80#8] 16 = 31 ∧
      hexToU32 (hexText 0xDEADBEEF) = 0xDEADBEEF ∧ strtoul (hexText 0xDEADBEEF) 16 = 0xDEADBEEF := by
  have hhead : ∀ c ∈ [ascii '0', ascii 'X', ascii '1', ascii 'f', 0x80#8].head?,
      c ∉ [ascii ' ', ascii '\t', ascii '\n', ascii '\r', ascii '+'] := by
    rintro c ⟨⟩
    decide
  have hnumber : digitsNumber (hexPart [ascii '0', ascii 'X', ascii '1', ascii 'f', 0x80#8]) % 2 ^ 32 =
    31 := by decide
  obtain ⟨hsame, hvalue, -, hback, hback'⟩ :=
    hex_parsers_agree hhead (show (⟨0, 0, 7#8, fun _ => 0#16, true⟩ : VgaTextDevice).initialized = true from rfl)
      (fun _ => 0#8) (show 0xDEADBEEF < 2 ^ 32 by decide)
  exact ⟨hsame.trans (hvalue.trans hnumber), hvalue.trans hnumber, hback, hback'⟩

end Frostix.Drivers
