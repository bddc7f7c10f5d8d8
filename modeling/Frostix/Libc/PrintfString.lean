import Frostix.Libc.PrintfText
import Frostix.Libc.Strings

/-! Formats piece by piece: characters in front of a directive, and strings in memory that `%s`
prints. -/
namespace Frostix.Libc.Printf

open ByteMemory Machine32

variable {m : Mem}

theorem stringChars_cstring (fuel : Nat) : ∀ {a : Nat} {s : List Byte}, CString m a s → s.length < fuel →
    stringChars m false fuel a = some s := by
  induction fuel with
  | zero => exact fun _ hlt => absurd hlt (Nat.not_lt_zero _)
  | succ fuel ih =>
      intro a s h hlt
      have hend := h.lt
      cases s with
      | nil => rw [stringChars, if_pos h.2]
      | cons c s =>
          rw [List.length_cons] at hlt hend
          have hc : m a ≠ 0#8 := h.1.symm ▸ h.2.1
          rw [stringChars, if_neg hc, wrap_of_lt (by omega), ih h.2.2 (by omega), Option.map_some, h.1]

/-- Characters other than `%` stand for themselves. -/
theorem formatTextFrom_plain {l : List Byte} (hl : l.all (· != ascii '%') = true) (rounds : Nat) (fmt : List Byte)
    (va : VaList) : formatTextFrom m (l.length + rounds) (l ++ fmt) va =
      (formatTextFrom m rounds fmt va).map (l ++ ·) := by
  induction l with
  | nil => simp
  | cons c l ih =>
      rw [List.all_cons, Bool.and_eq_true, bne_iff_ne] at hl
      rw [List.length_cons, Nat.add_right_comm, List.cons_append, formatTextFrom, if_pos hl.1, ih hl.2,
        Option.map_map]
      rfl

theorem formatTextFrom_directive {fmt text rest : List Byte} {va va' : VaList}
    (h : directiveText m (readDirective fmt va) = some (text, rest, va')) (rounds : Nat) :
    formatTextFrom m (rounds + 1) (ascii '%' :: fmt) va = (formatTextFrom m rounds rest va').map (text ++ ·) := by
  rw [formatTextFrom, if_neg (by decide), h]
  rfl

theorem formatTextFrom_segment {l : List Byte} (hl : l.all (· != ascii '%') = true) {fmt text rest : List Byte}
    {va va' : VaList} (h : directiveText m (readDirective fmt va) = some (text, rest, va')) (rounds : Nat) :
    formatTextFrom m (l.length + (rounds + 1)) (l ++ ascii '%' :: fmt) va =
      (formatTextFrom m rounds rest va').map fun tail => l ++ (text ++ tail) := by
  rw [formatTextFrom_plain hl, formatTextFrom_directive h, Option.map_map]
  rfl

/-- `%s` stands for the string that its argument points to. -/
theorem directiveText_string {s : List Byte} {va : VaList} (h : CString m (va 0).toNat s) (fmt : List Byte) :
    directiveText m (readDirective (ascii 's' :: fmt) va) = some (s, fmt, va.drop 1) := by
  have hread : readDirective (ascii 's' :: fmt) va = ⟨{}, 0, 0, ascii 's' :: fmt, va⟩ := rfl
  have hstring : stringText m ⟨{}, 0, 0, ascii 's' :: fmt, va⟩ = some s := by
    have hchars := stringChars_cstring (2 ^ 32) h (lt_of_le_of_lt (Nat.le_add_left _ _) h.lt)
    rw [stringText]
    simp only [Bool.false_eq_true, if_false, hchars, Option.map_some, Nat.zero_sub, List.replicate_zero, Bool.not_false,
      if_true, List.nil_append, List.append_nil]
  have hdirective : directiveText m ⟨{}, 0, 0, ascii 's' :: fmt, va⟩ =
      (stringText m ⟨{}, 0, 0, ascii 's' :: fmt, va⟩).map fun text => (text, fmt, va.drop 1) := rfl
  rw [hread, hdirective, hstring]
  rfl

end Frostix.Libc.Printf
