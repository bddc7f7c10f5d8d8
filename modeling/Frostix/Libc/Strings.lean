import Frostix.Lib.Emit
import Frostix.Libc.Strtok

/-!
The length of a string and the comparisons (`string.c`). A comparison returns the difference of
the first two bytes that differ, the NUL included; so its sign is the dictionary order. -/
namespace Frostix.Libc

open Machine32 ByteMemory

def strlenLoop (m : Mem) (str : Nat) : Nat → Nat → Option Nat
  | 0, _ => none
  | fuel + 1, len => if m (wrap (str + len)) = 0#8 then some len else strlenLoop m str fuel (wrap (len + 1))

def strlen (m : Mem) (str : Nat) : Option Nat := if str = 0 then some 0 else strlenLoop m str stringFuel 0

/-- `while (*s1 && (*s1 == *s2))`. -/
def strcmpLoop (m : Mem) : Nat → Nat → Nat → Option Int
  | 0, _, _ => none
  | fuel + 1, s1, s2 =>
      if m s1 ≠ 0#8 ∧ m s1 = m s2 then strcmpLoop m fuel (wrap (s1 + 1)) (wrap (s2 + 1))
      else some ((m s1).toNat - (m s2).toNat)

def strcmp (m : Mem) (s1 s2 : Nat) : Option Int :=
  if s1 = 0 ∨ s2 = 0 then some (if s1 = s2 then 0 else if s1 ≠ 0 then 1 else -1)
  else strcmpLoop m stringFuel s1 s2

/-- The loop of `strncmp` and the return behind it. -/
def strncmpLoop (m : Mem) : Nat → Nat → Nat → Int
  | 0, _, _ => 0
  | n + 1, s1, s2 =>
      if m s1 ≠ 0#8 ∧ m s1 = m s2 then strncmpLoop m n (wrap (s1 + 1)) (wrap (s2 + 1))
      else (m s1).toNat - (m s2).toNat

def strncmp (m : Mem) (s1 s2 n : Nat) : Int := if s1 = 0 ∨ s2 = 0 ∨ n = 0 then 0 else strncmpLoop m n s1 s2

variable {m : Mem} {a b : Nat} {s t : List Byte}

theorem CString.place (m : Mem) {text : List Byte} (hnul : ∀ c ∈ text, c ≠ 0#8) : ∀ {a : Nat},
    a + text.length < 2 ^ 32 → CString (Emit.place m a (text ++ [0#8])) a text := by
  induction text generalizing m with
  | nil =>
      intro a hlt
      exact ⟨hlt, by simp [Emit.place, store8]⟩
  | cons c text ih =>
      intro a hlt
      rw [List.length_cons] at hlt
      refine ⟨?_, hnul c List.mem_cons_self, ih (store8 m a c) (fun d hd => hnul d (List.mem_cons_of_mem c hd))
        (by omega)⟩
      rw [Emit.place_apply, dif_pos ⟨le_rfl, by simp⟩]
      simp

theorem strlenLoop_spec (fuel : Nat) : ∀ {len : Nat} {s : List Byte}, CString m (a + len) s → s.length < fuel →
    strlenLoop m a fuel len = some (len + s.length) := by
  induction fuel with
  | zero => exact fun _ h => absurd h (Nat.not_lt_zero _)
  | succ fuel ih =>
      intro len s h hfuel
      have hlt := h.lt
      cases s with
      | nil =>
          rw [strlenLoop, wrap_of_lt h.1, if_pos h.2]
          rfl
      | cons c s =>
          rw [List.length_cons] at hlt hfuel ⊢
          have hc : m (a + len) ≠ 0#8 := h.1.symm ▸ h.2.1
          rw [strlenLoop, wrap_of_lt (by omega), if_neg hc, wrap_of_lt (by omega),
            ih (by rw [← Nat.add_assoc]; exact h.2.2) (by omega)]
          exact congrArg some (by omega)

theorem strlen_eq (h : CString m a s) (ha : a ≠ 0) : strlen m a = some s.length := by
  have hlt := h.lt
  have hfuel : s.length < stringFuel := lt_of_le_of_lt (Nat.le_add_left _ a) hlt
  rw [strlen, if_neg ha, strlenLoop_spec stringFuel h hfuel, Nat.zero_add]

/-- The difference of the first two bytes that differ; behind the end of a string stands a NUL. -/
def firstDifference : List Byte → List Byte → Int
  | [], [] => 0
  | [], d :: _ => 0 - (d.toNat : Int)
  | c :: _, [] => c.toNat - 0
  | c :: s, d :: t => if c = d then firstDifference s t else c.toNat - d.toNat

theorem toNat_pos {c : Byte} (h : c ≠ 0#8) : 0 < c.toNat := by
  rcases Nat.eq_zero_or_pos c.toNat with hzero | hpos
  · exact absurd (BitVec.eq_of_toNat_eq hzero) h
  · exact hpos

theorem firstDifference_swap (s t : List Byte) : firstDifference t s = -firstDifference s t := by
  induction s generalizing t with
  | nil => cases t <;> simp [firstDifference]
  | cons c s ih =>
      cases t with
      | nil => simp [firstDifference]
      | cons d t =>
          rw [firstDifference, firstDifference]
          by_cases hcd : c = d
          · rw [if_pos hcd, if_pos hcd.symm, ih]
          · rw [if_neg hcd, if_neg (Ne.symm hcd)]
            omega

theorem firstDifference_lt_iff {t : List Byte} (ht : ∀ d ∈ t, d ≠ 0#8) : ∀ {s : List Byte},
    firstDifference s t < 0 ↔ s < t := by
  induction t with
  | nil =>
      intro s
      cases s with
      | nil => simp [firstDifference]
      | cons c s => simp [firstDifference]
  | cons d t ih =>
      intro s
      have hd := toNat_pos (ht d List.mem_cons_self)
      cases s with
      | nil =>
          refine iff_of_true ?_ (List.nil_lt_cons d t)
          rw [firstDifference]
          omega
      | cons c s =>
          rw [firstDifference, List.cons_lt_cons_iff]
          by_cases hcd : c = d
          · rw [if_pos hcd, ih fun e he => ht e (List.mem_cons_of_mem d he)]
            simp [hcd]
          · rw [if_neg hcd, BitVec.lt_def]
            simp only [hcd, false_and, or_false]
            omega

theorem firstDifference_eq_zero_iff {t : List Byte} (ht : ∀ d ∈ t, d ≠ 0#8) : ∀ {s : List Byte},
    (∀ c ∈ s, c ≠ 0#8) → (firstDifference s t = 0 ↔ s = t) := by
  induction t with
  | nil =>
      intro s hs
      cases s with
      | nil => simp [firstDifference]
      | cons c s =>
          have hc := toNat_pos (hs c List.mem_cons_self)
          refine iff_of_false ?_ (List.cons_ne_nil c s)
          rw [firstDifference]
          omega
  | cons d t ih =>
      intro s hs
      have hd := toNat_pos (ht d List.mem_cons_self)
      cases s with
      | nil =>
          refine iff_of_false ?_ (List.cons_ne_nil d t).symm
          rw [firstDifference]
          omega
      | cons c s =>
          rw [firstDifference, List.cons.injEq]
          by_cases hcd : c = d
          · have hrest := ih (fun e he => ht e (List.mem_cons_of_mem d he)) fun e he => hs e
              (List.mem_cons_of_mem c he)
            rw [if_pos hcd, hrest]
            simp [hcd]
          · have hne : c.toNat ≠ d.toNat := fun h => hcd (BitVec.eq_of_toNat_eq h)
            rw [if_neg hcd]
            exact iff_of_false (by omega) fun h => hcd h.1

theorem CString.ne_nul (h : CString m a s) : ∀ c ∈ s, c ≠ 0#8 := by
  induction s generalizing a with
  | nil => exact fun c hc => absurd hc List.not_mem_nil
  | cons d s ih =>
      intro c hc
      rcases List.mem_cons.mp hc with rfl | hc
      · exact h.2.1
      · exact ih h.2.2 c hc

theorem strcmpLoop_spec (fuel : Nat) : ∀ {a b : Nat} {s t : List Byte}, CString m a s → CString m b t →
    s.length < fuel → strcmpLoop m fuel a b = some (firstDifference s t) := by
  induction fuel with
  | zero => exact fun _ _ h => absurd h (Nat.not_lt_zero _)
  | succ fuel ih =>
      intro a b s t hs ht hfuel
      have has := hs.lt
      have hbt := ht.lt
      rw [strcmpLoop]
      cases s with
      | nil =>
          rw [if_neg (by simp [hs.2]), hs.2]
          cases t with
          | nil => rw [ht.2]; rfl
          | cons d t => rw [ht.1]; rfl
      | cons c s =>
          rw [List.length_cons] at has hfuel
          cases t with
          | nil =>
              rw [hs.1, ht.2, if_neg (fun h => hs.2.1 h.2)]
              rfl
          | cons d t =>
              rw [List.length_cons] at hbt
              rw [hs.1, ht.1, firstDifference]
              by_cases hcd : c = d
              · rw [if_pos ⟨hs.2.1, hcd⟩, if_pos hcd, wrap_of_lt (by omega), wrap_of_lt (by omega)]
                exact ih hs.2.2 ht.2.2 (by omega)
              · rw [if_neg (fun h => hcd h.2), if_neg hcd]

theorem strncmpLoop_spec (n : Nat) : ∀ {a b : Nat} {s t : List Byte}, CString m a s → CString m b t →
    strncmpLoop m n a b = firstDifference (s.take n) (t.take n) := by
  induction n with
  | zero => exact fun _ _ => rfl
  | succ n ih =>
      intro a b s t hs ht
      have has := hs.lt
      have hbt := ht.lt
      rw [strncmpLoop]
      cases s with
      | nil =>
          rw [if_neg (by simp [hs.2]), hs.2]
          cases t with
          | nil => rw [ht.2]; rfl
          | cons d t => rw [ht.1]; rfl
      | cons c s =>
          rw [List.length_cons] at has
          cases t with
          | nil =>
              rw [hs.1, ht.2, if_neg (fun h => hs.2.1 h.2)]
              rfl
          | cons d t =>
              rw [List.length_cons] at hbt
              rw [hs.1, ht.1, List.take_succ_cons, List.take_succ_cons, firstDifference]
              by_cases hcd : c = d
              · rw [if_pos ⟨hs.2.1, hcd⟩, if_pos hcd, wrap_of_lt (by omega), wrap_of_lt (by omega)]
                exact ih hs.2.2 ht.2.2
              · rw [if_neg (fun h => hcd h.2), if_neg hcd]

theorem strcmp_eq (hs : CString m a s) (ht : CString m b t) (ha : a ≠ 0) (hb : b ≠ 0) :
    strcmp m a b = some (firstDifference s t) := by
  have hfuel : s.length < stringFuel := lt_of_le_of_lt (Nat.le_add_left _ a) hs.lt
  rw [strcmp, if_neg (not_or.mpr ⟨ha, hb⟩)]
  exact strcmpLoop_spec stringFuel hs ht hfuel

theorem strncmp_eq (hs : CString m a s) (ht : CString m b t) (ha : a ≠ 0) (hb : b ≠ 0) (n : Nat) :
    strncmp m a b n = firstDifference (s.take n) (t.take n) := by
  unfold strncmp
  split_ifs with h
  · obtain rfl : n = 0 := (h.resolve_left ha).resolve_left hb
    rfl
  · exact strncmpLoop_spec n hs ht

/-- The sign of `d` is the order of the strings. -/
structure Orders (d : Int) (s t : List Byte) : Prop where
  less : d < 0 ↔ s < t
  equal : d = 0 ↔ s = t
  greater : 0 < d ↔ t < s

theorem firstDifference_orders (hs : ∀ c ∈ s, c ≠ 0#8) (ht : ∀ c ∈ t, c ≠ 0#8) :
    Orders (firstDifference s t) s t where
  less := firstDifference_lt_iff ht
  equal := firstDifference_eq_zero_iff ht hs
  greater := by
    have hswap := firstDifference_swap s t
    rw [← firstDifference_lt_iff hs]
    omega

/-- `strcmp` orders strings like a dictionary, `strncmp` their first `n` bytes. -/
theorem strings_ordered {m : Mem} {a b : Nat} {s t : List Byte} (hs : CString m a s) (ht : CString m b t)
    (ha : a ≠ 0)
    (hb : b ≠ 0) : (∃ d, strcmp m a b = some d ∧ Orders d s t) ∧
      ∀ n, Orders (strncmp m a b n) (s.take n) (t.take n) := by
  refine ⟨⟨_, strcmp_eq hs ht ha hb, firstDifference_orders hs.ne_nul ht.ne_nul⟩, fun n => ?_⟩
  rw [strncmp_eq hs ht ha hb]
  exact firstDifference_orders (fun c hc => hs.ne_nul c (List.mem_of_mem_take hc))
    fun c hc => ht.ne_nul c (List.mem_of_mem_take hc)

/-- `ab` comes before `ac`; their first bytes are the same. -/
theorem strings_ordered_two :
    let m := Emit.place (fun _ => 0#8) 16 [97#8, 98#8, 0#8, 97#8, 99#8, 0#8]
    (∃ d, strcmp m 16 19 = some d ∧ d < 0) ∧ strncmp m 16 19 1 = 0 := by
  intro m
  have hs : CString m 16 [97#8, 98#8] := by simp [m, CString, Emit.place, store8]
  have ht : CString m 19 [97#8, 99#8] := by simp [m, CString, Emit.place, store8]
  obtain ⟨⟨d, hd, horder⟩, hstart⟩ := strings_ordered hs ht (by decide) (by decide)
  exact ⟨⟨d, hd, horder.less.mpr (by decide)⟩, (hstart 1).equal.mpr rfl⟩

end Frostix.Libc
