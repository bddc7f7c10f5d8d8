import Frostix.Lib.ByteMemory
import Frostix.Lib.Machine32

/-!
Output functions that are called with one character at a time and its position. A text
is emitted by calling one for each of its characters; the rules below say what that leaves
in a bounded buffer, in a list and at a device that does not look at positions. -/
namespace Emit

open ByteMemory Machine32

variable {σ α : Type}

abbrev Out (σ α : Type) := σ → α → Nat → σ

def put (out : Out σ α) (s : σ × Nat) (c : α) : σ × Nat := (out s.1 c s.2, wrap (s.2 + 1))

def emit (out : Out σ α) (s : σ × Nat) (text : List α) : σ × Nat := text.foldl (put out) s

/-- The same character `n` times. -/
def repeated (out : Out σ α) (c : α) : Nat → σ × Nat → σ × Nat
  | 0, s => s
  | n + 1, s => repeated out c n (put out s c)

@[simp] theorem emit_nil (out : Out σ α) (s : σ × Nat) : emit out s [] = s := rfl

theorem emit_cons (out : Out σ α) (s : σ × Nat) (c : α) (text : List α) :
    emit out s (c :: text) = emit out (put out s c) text := rfl

theorem put_eq_emit (out : Out σ α) (s : σ × Nat) (c : α) : put out s c = emit out s [c] := rfl

theorem emit_emit (out : Out σ α) (s : σ × Nat) (text more : List α) :
    emit out (emit out s text) more = emit out s (text ++ more) := by
  unfold emit
  rw [List.foldl_append]

theorem repeated_eq_emit (out : Out σ α) (c : α) (n : Nat) :
    ∀ s, repeated out c n s = emit out s (List.replicate n c) := by
  induction n with
  | zero => exact fun _ => rfl
  | succ n ih => exact fun s => ih (put out s c)

theorem emit_idx (out : Out σ α) (text : List α) :
    ∀ s : σ × Nat, wrap (emit out s text).2 = wrap (s.2 + text.length) := by
  induction text with
  | nil => exact fun _ => rfl
  | cons c text ih =>
      intro s
      rw [emit_cons, ih, List.length_cons]
      unfold put wrap
      omega

theorem emit_idx_lt (out : Out σ α) (text : List α) {s : σ × Nat} (hs : s.2 < 2 ^ 32) :
    (emit out s text).2 < 2 ^ 32 := by
  induction text generalizing s with
  | nil => exact hs
  | cons c text ih => exact ih (wrap_lt (s.2 + 1))

theorem emit_idx_eq (out : Out σ α) (text : List α) {s : σ × Nat} (hs : s.2 < 2 ^ 32) :
    (emit out s text).2 = wrap (s.2 + text.length) := by
  have h := emit_idx out text s
  rwa [wrap_of_lt (emit_idx_lt out text hs)] at h

/-- An output function that passes on the characters with a property, without their
positions. -/
def device (step : σ → α → σ) (keep : α → Bool) : Out σ α := fun s c _ => if keep c then step s c else s

theorem emit_device (step : σ → α → σ) (keep : α → Bool) (text : List α) :
    ∀ s : σ × Nat, (emit (device step keep) s text).1 = (text.filter keep).foldl step s.1 := by
  induction text with
  | nil => exact fun _ => rfl
  | cons c text ih =>
      intro s
      rw [emit_cons, ih, put, device]
      cases hc : keep c with
      | true => rw [List.filter_cons_of_pos hc, List.foldl_cons, if_pos rfl]
      | false => rw [List.filter_cons_of_neg (by simp [hc]), if_neg Bool.false_ne_true]

/-- The first `maxlen` positions are stored from `base` on, the others are dropped. -/
def bounded (base maxlen : Nat) : Out Mem (BitVec 8) := fun m c idx =>
  if idx < maxlen then store8 m (wrap (base + idx)) c else m

/-- The bytes `l` placed from `a` on. -/
def place (m : Mem) (a : Nat) : List (BitVec 8) → Mem
  | [] => m
  | c :: l => place (store8 m a c) (a + 1) l

theorem place_apply (l : List (BitVec 8)) : ∀ (m : Mem) (a x : Nat),
    place m a l x = if h : a ≤ x ∧ x < a + l.length then l[x - a] else m x := by
  induction l with
  | nil =>
      intro m a x
      rw [dif_neg (by simp only [List.length_nil]; omega)]
      rfl
  | cons c l ih =>
      intro m a x
      rw [place, ih, store8]
      simp only [List.length_cons]
      by_cases hx : x = a
      · subst hx
        rw [dif_neg (by omega), if_pos rfl, dif_pos (by omega)]
        simp
      · by_cases hin : a + 1 ≤ x ∧ x < a + 1 + l.length
        · rw [dif_pos hin, dif_pos (by omega)]
          simp only [show x - a = x - (a + 1) + 1 by omega, List.getElem_cons_succ]
        · rw [dif_neg hin, if_neg hx, dif_neg (by omega)]

theorem place_append (l k : List (BitVec 8)) : ∀ (m : Mem) (a : Nat),
    place m a (l ++ k) = place (place m a l) (a + l.length) k := by
  induction l with
  | nil => exact fun _ _ => rfl
  | cons c l ih =>
      intro m a
      rw [List.cons_append, place, ih, place, List.length_cons, Nat.add_assoc, Nat.add_comm 1]

theorem place_store8 (l : List (BitVec 8)) (m : Mem) (a : Nat) {i : Nat} (c : BitVec 8)
    (hi : i ≤ l.length) (hone : l.length ≤ i + 1) :
    store8 (place m a l) (a + i) c = place m a (l.take i ++ [c]) := by
  funext x
  have hlen : (l.take i ++ [c]).length = i + 1 := by
    rw [List.length_append, List.length_take_of_le hi, List.length_singleton]
  rw [store8, place_apply, place_apply]
  simp only [hlen]
  by_cases hx : x = a + i
  · subst hx
    rw [if_pos rfl, dif_pos (by omega), List.getElem_append_right (by simp)]
    simp
  · rw [if_neg hx]
    by_cases hin : a ≤ x ∧ x < a + i
    · rw [dif_pos (by omega), dif_pos (by omega), List.getElem_append_left (by simp; omega),
        List.getElem_take]
    · rw [dif_neg (by omega), dif_neg (by omega)]

theorem place_same (l : List (BitVec 8)) (m : Mem) (a : Nat) {b n : Nat} (h : b + n ≤ a ∨ a + l.length ≤ b) :
    Same m (place m a l) b n := by
  intro x hlo hhi
  rw [place_apply, dif_neg (by omega)]

theorem place_over (l : List (BitVec 8)) (m : Mem) (a : Nat) (c d : BitVec 8) (k : List (BitVec 8)) :
    place (place m a (l ++ [c])) (a + l.length) (d :: k) = place m a (l ++ d :: k) := by
  have hstore : store8 (place m a (l ++ [c])) (a + l.length) d = place m a (l ++ [d]) := by
    rw [place_store8 _ m a d (by simp) (by simp), List.take_left]
  rw [place, hstore, List.append_cons l d k, place_append (l ++ [d]) k, List.length_append, List.length_singleton,
    Nat.add_assoc]

theorem emit_bounded {base maxlen : Nat} (text : List (BitVec 8)) : ∀ {s : Mem × Nat},
    s.2 + text.length < 2 ^ 32 → base + min (s.2 + text.length) maxlen ≤ 2 ^ 32 →
    (emit (bounded base maxlen) s text).1 = place s.1 (base + s.2) (text.take (maxlen - s.2)) := by
  induction text with
  | nil =>
      intro s _ _
      rw [emit_nil, List.take_nil]
      rfl
  | cons c text ih =>
      intro s hlen hend
      rw [List.length_cons] at hlen hend
      have hnext : wrap (s.2 + 1) = s.2 + 1 := wrap_of_lt (by omega)
      rw [emit_cons, ih (by rw [put, hnext]; omega) (by rw [put, hnext]; omega)]
      simp only [put, hnext, bounded]
      by_cases hroom : s.2 < maxlen
      · rw [if_pos hroom, wrap_of_lt (by omega), show maxlen - s.2 = maxlen - (s.2 + 1) + 1 by omega,
          List.take_succ_cons, place, Nat.add_assoc]
      · rw [if_neg hroom, show maxlen - s.2 = 0 by omega, show maxlen - (s.2 + 1) = 0 by omega,
          List.take_zero, List.take_zero]
        rfl

/-- A buffer of `size` bytes with as much of a text as fits in front of a NUL. -/
def textBuffer (m : Mem) (base size : Nat) (text : List (BitVec 8)) : Mem :=
  place m base (text.take (size - 1) ++ [0#8])

section TextBuffer

variable {m : Mem} {base size : Nat} {text : List (BitVec 8)}

theorem textBuffer_same (text : List (BitVec 8)) (hsize : 0 < size) {b n : Nat}
    (h : b + n ≤ base ∨ base + size ≤ b) :
    Same m (textBuffer m base size text) b n := by
  refine place_same _ m base ?_
  rw [List.length_append, List.length_take, List.length_singleton]
  omega

theorem textBuffer_append (hroom : text.length < size) (more : List (BitVec 8)) :
    textBuffer (textBuffer m base size text) (base + text.length) (size - text.length) more =
      textBuffer m base size (text ++ more) := by
  have htake : text.take (size - 1) = text := List.take_of_length_le (by omega)
  have hmore : (text ++ more).take (size - 1) = text ++ more.take (size - text.length - 1) := by
    rw [List.take_append, htake, Nat.sub_right_comm]
  rw [textBuffer, textBuffer, textBuffer, htake, hmore, List.append_assoc]
  cases hk : more.take (size - text.length - 1) with
  | nil => exact place_over text m base 0#8 0#8 []
  | cons d k => exact place_over text m base 0#8 d (k ++ [0#8])

theorem textBuffer_full (hfull : size ≤ text.length) (more : List (BitVec 8)) :
    textBuffer m base size (text ++ more) = textBuffer m base size text := by
  rw [textBuffer, textBuffer, List.take_append_of_le_length (by omega)]

theorem textBuffer_end (hsize : 0 < size) (hfull : size ≤ text.length) :
    store8 (textBuffer m base size text) (base + (size - 1)) 0#8 = textBuffer m base size text := by
  have hlen : (text.take (size - 1)).length = size - 1 := List.length_take_of_le (by omega)
  rw [textBuffer, place_store8 _ m base 0#8 (by simp; omega) (by simp), List.take_left' hlen]

end TextBuffer

end Emit
