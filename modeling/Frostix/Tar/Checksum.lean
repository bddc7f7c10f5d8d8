import Frostix.Lib.Loop
import Frostix.Tar.Encode

/-!
`tar_validate_header`. The checksum field holds the sum of the header's bytes, with the
field itself counted as blanks, in octal. A header with that sum in it is accepted, and
no accepted header is accepted any more when one byte outside the field is changed. -/
namespace Frostix.Tar

open Machine32 Libc

/-- `strncmp` with the second string given by its characters in front of its NUL. -/
def strncmp (mem : Memory) (s1 : Nat) (s2 : List Byte) : Nat → Option Int
  | 0 => some 0
  | n + 1 => do
      let c ← load mem s1
      if c ≠ 0#8 ∧ c = s2.headD 0#8 then strncmp mem (s1 + 1) s2.tail n
      else some (c.toNat - (s2.headD 0#8).toNat)

def ustar : List Byte := "ustar".toList.map ascii

/-- `tar_validate_header`: `chksum` is at offset 148 and `magic` at 257. -/
def tarValidateHeader (mem : Memory) (hdr : Nat) : Option Bool :=
  if hdr = 0 then some false
  else do
    let sum ← (List.range 512).foldlM (fun sum i => do
      let c ← load mem (hdr + i)
      return wrap (sum + c.toNat)) 0
    let sum ← (List.range 8).foldlM (fun sum i => do
      let c ← load mem (hdr + 148 + i)
      return wsub sum c.toNat) sum
    let sum := wrap (sum + 32 * 8)
    let chk ← tarParseOctal mem (hdr + 148) 8
    if chk ≠ sum then return false
    if (← load mem (hdr + 257)) ≠ 0#8 then
      if (← strncmp mem (hdr + 257) ustar 5) ≠ 0 then return false
    return true

/-- Offsets of the field `chksum`. -/
def inChksum (i : Nat) : Prop := 148 ≤ i ∧ i < 156

instance (i : Nat) : Decidable (inChksum i) := inferInstanceAs (Decidable (_ ∧ _))

/-- The bytes of a header, with the checksum field counted as blanks. -/
def headerSum (h : Nat → Byte) : Nat := ∑ i ∈ Finset.range 512, if inChksum i then 32 else (h i).toNat

def headerChksum (h : Nat → Byte) : Nat :=
  octalValue (((List.range 8).map fun i => h (148 + i)).takeWhile fun c => !endsField c)

/-- The magic is empty or starts with `ustar`. -/
def MagicOk (h : Nat → Byte) : Prop := h 257 = 0#8 ∨ ∀ i < 5, h (257 + i) = ustar.getD i 0#8

instance (h : Nat → Byte) : Decidable (MagicOk h) := inferInstanceAs (Decidable (_ ∨ _))

/-- `mem` holds the 512 bytes of the header. -/
def HoldsHeader (mem : Memory) (hdr : Nat) (h : Nat → Byte) : Prop := ∀ i < 512, mem (hdr + i) = some (h i)

/-- The header with six digits and `ends` in its checksum field. -/
def withChksum (h : Nat → Byte) (ends : List Byte) : Nat → Byte := fun i =>
  if inChksum i then (octalDigits 6 (headerSum h) ++ ends).getD (i - 148) 0#8 else h i

section
variable {mem : Memory} {h : Nat → Byte} {hdr : Nat}

theorem readUntil_takeWhile {stops : Byte → Bool} (n : Nat) : ∀ {a : Nat} {f : Nat → Byte},
    (∀ i < n, load mem (a + i) = some (f i)) →
      readUntil mem stops a n = some (((List.range n).map f).takeWhile fun c => !stops c) := by
  induction n with
  | zero => exact fun _ => rfl
  | succ n ih =>
      intro a f hread
      have hc := hread 0 (Nat.succ_pos n)
      rw [Nat.add_zero] at hc
      have hrest := @ih (a + 1) (fun i => f (i + 1)) fun i hi => by
        rw [Nat.add_assoc, Nat.add_comm 1 i]
        exact hread (i + 1) (Nat.succ_lt_succ hi)
      rw [readUntil, hc, List.range_succ_eq_map, List.map_cons, List.map_map]
      simp only [Option.bind_eq_bind, Option.bind_some]
      by_cases hstop : stops (f 0) = true
      · rw [if_pos hstop, List.takeWhile_cons_of_neg (by simp [hstop])]
        rfl
      · rw [if_neg hstop, hrest, List.takeWhile_cons_of_pos (by simpa using hstop)]
        rfl

/-- The constant has no NUL, so all its characters are compared. -/
theorem strncmp_eq_zero {s : List Byte} (hs : ∀ c ∈ s, c ≠ 0#8) : ∀ {n a : Nat} {f : Nat → Byte}, n ≤ s.length →
    (∀ i < n, load mem (a + i) = some (f i)) →
      ∃ r, strncmp mem a s n = some r ∧ (r = 0 ↔ ∀ i < n, f i = s.getD i 0#8) := by
  induction s with
  | nil =>
      intro n a f hn _
      obtain rfl : n = 0 := Nat.le_zero.mp hn
      exact ⟨0, rfl, fun _ i hi => absurd hi (Nat.not_lt_zero i), fun _ => rfl⟩
  | cons d s ih =>
      intro n a f hn hread
      cases n with
      | zero => exact ⟨0, rfl, fun _ i hi => absurd hi (Nat.not_lt_zero i), fun _ => rfl⟩
      | succ n =>
          have hc := hread 0 (Nat.succ_pos n)
          rw [Nat.add_zero] at hc
          have hd := hs d List.mem_cons_self
          rw [strncmp, hc, Option.bind_eq_bind, Option.bind_some]
          by_cases heq : f 0 = d
          · rw [if_pos ⟨heq ▸ hd, heq⟩, List.tail_cons]
            obtain ⟨r, hrun, hr⟩ := @ih (fun c hc => hs c (List.mem_cons_of_mem _ hc)) n (a + 1)
              (fun i => f (i + 1)) (Nat.le_of_succ_le_succ hn) fun i hi => by
                rw [Nat.add_assoc, Nat.add_comm 1 i]
                exact hread (i + 1) (Nat.succ_lt_succ hi)
            refine ⟨r, hrun, hr.trans ⟨fun hall i hi => ?_, fun hall i hi => ?_⟩⟩
            · cases i with
              | zero => exact heq
              | succ i => exact hall i (Nat.lt_of_succ_lt_succ hi)
            · exact hall (i + 1) (Nat.succ_lt_succ hi)
          · rw [if_neg fun hboth => heq hboth.2]
            refine ⟨_, rfl, fun hzero => ?_, fun hall => absurd (hall 0 (Nat.succ_pos n)) heq⟩
            have hne : (f 0).toNat ≠ d.toNat := fun hval => heq (BitVec.eq_of_toNat_eq hval)
            rw [List.headD_cons] at hzero
            omega

theorem headerSum_eq (h : Nat → Byte) :
    headerSum h + ∑ i ∈ Finset.range 8, (h (148 + i)).toNat =
      ∑ i ∈ Finset.range 512, (h i).toNat + 32 * 8 := by
  have hsplit : ∀ f : Nat → Nat, ∑ i ∈ Finset.range 512, f i =
      ∑ i ∈ Finset.range 148, f i + ∑ i ∈ Finset.range 8, f (148 + i) +
        ∑ i ∈ Finset.range 356, f (156 + i) := by
    intro f
    rw [show 512 = 148 + 8 + 356 from rfl, Finset.sum_range_add, Finset.sum_range_add]
  unfold headerSum
  rw [hsplit, hsplit fun i => (h i).toNat]
  have hlow : ∑ i ∈ Finset.range 148, (if inChksum i then 32 else (h i).toNat) =
      ∑ i ∈ Finset.range 148, (h i).toNat := by
    refine Finset.sum_congr rfl fun i hi => if_neg ?_
    have hlt := Finset.mem_range.mp hi
    unfold inChksum
    omega
  have hmid : ∑ i ∈ Finset.range 8, (if inChksum (148 + i) then 32 else (h (148 + i)).toNat) = 32 * 8 := by
    rw [Finset.sum_congr rfl fun i hi => if_pos (show inChksum (148 + i) from ?_), Finset.sum_const,
      Finset.card_range, smul_eq_mul, Nat.mul_comm]
    have hlt := Finset.mem_range.mp hi
    unfold inChksum
    omega
  have hhigh : ∑ i ∈ Finset.range 356, (if inChksum (156 + i) then 32 else (h (156 + i)).toNat) =
      ∑ i ∈ Finset.range 356, (h (156 + i)).toNat := by
    refine Finset.sum_congr rfl fun i _ => if_neg ?_
    unfold inChksum
    omega
  rw [hlow, hmid, hhigh]
  omega

theorem sum_bytes_le (f : Nat → Byte) (n : Nat) : ∑ i ∈ Finset.range n, (f i).toNat ≤ n * 255 := by
  calc ∑ i ∈ Finset.range n, (f i).toNat ≤ (Finset.range n).card • 255 :=
        Finset.sum_le_card_nsmul _ _ _ fun i _ => Nat.le_of_lt_succ (f i).isLt
    _ = n * 255 := by rw [Finset.card_range, smul_eq_mul]

theorem sum_field_le (h : Nat → Byte) :
    ∑ i ∈ Finset.range 8, (h (148 + i)).toNat ≤ ∑ i ∈ Finset.range 512, (h i).toNat := by
  have hsplit : ∑ i ∈ Finset.range 512, (h i).toNat = ∑ i ∈ Finset.range 148, (h i).toNat +
      ∑ i ∈ Finset.range 8, (h (148 + i)).toNat + ∑ i ∈ Finset.range 356, (h (156 + i)).toNat := by
    rw [show 512 = 148 + 8 + 356 from rfl, Finset.sum_range_add, Finset.sum_range_add]
  omega

theorem headerSum_lt (h : Nat → Byte) : headerSum h < 8 ^ 6 := by
  have heq := headerSum_eq h
  have hle := sum_bytes_le h 512
  omega

/-- A header is accepted if the number in the field is the sum and the magic is in order. -/
theorem tarValidateHeader_eq (hpos : hdr ≠ 0) (hfit : hdr + 512 ≤ 2 ^ 32) (hmem : HoldsHeader mem hdr h) :
    tarValidateHeader mem hdr = some (decide (headerChksum h = headerSum h ∧ MagicOk h)) := by
  have hload : ∀ i < 512, load mem (hdr + i) = some (h i) := by
    intro i hi
    rw [load, wrap_of_lt (by omega)]
    exact hmem i hi
  have hfield : ∀ i < 8, load mem (hdr + 148 + i) = some (h (148 + i)) := by
    intro i hi
    rw [Nat.add_assoc]
    exact hload (148 + i) (by omega)
  have hmagic : ∀ i < 5, load mem (hdr + 257 + i) = some (h (257 + i)) := by
    intro i hi
    rw [Nat.add_assoc]
    exact hload (257 + i) (by omega)
  have hle := sum_bytes_le h 512
  have hpart := sum_field_le h
  have heq := headerSum_eq h
  -- the first loop adds all bytes, the second subtracts those of the field
  obtain ⟨total, htotal, hall⟩ := Loop.foldlM_range_some
    (f := fun sum i => (load mem (hdr + i)).bind fun c => some (wrap (sum + c.toNat))) (n := 512) (s := 0)
    (fun k sum => sum = ∑ i ∈ Finset.range k, (h i).toNat) rfl (by
      rintro i hi sum rfl
      refine ⟨_, by rw [hload i hi]; rfl, ?_⟩
      have hbound := sum_bytes_le h (i + 1)
      rw [Finset.sum_range_succ] at hbound ⊢
      exact wrap_of_lt (by omega))
  rw [hall] at htotal
  obtain ⟨rest, hrest, hsum⟩ := Loop.foldlM_range_some
    (f := fun sum i => (load mem (hdr + 148 + i)).bind fun c => some (wsub sum c.toNat)) (n := 8)
    (s := ∑ i ∈ Finset.range 512, (h i).toNat)
    (fun k sum => sum + ∑ i ∈ Finset.range k, (h (148 + i)).toNat = ∑ i ∈ Finset.range 512, (h i).toNat)
    (by rw [Finset.sum_range_zero, Nat.add_zero]) (by
      intro i hi sum hsum
      refine ⟨_, by rw [hfield i hi]; rfl, ?_⟩
      have hnext : ∑ j ∈ Finset.range (i + 1), (h (148 + j)).toNat ≤
          ∑ j ∈ Finset.range 8, (h (148 + j)).toNat :=
        Finset.sum_le_sum_of_subset (Finset.range_subset_range.mpr (by omega))
      rw [Finset.sum_range_succ] at hnext ⊢
      rw [wsub_of_le (by omega) (by omega)]
      omega)
  obtain ⟨r, hcompare, hr⟩ := strncmp_eq_zero (show ∀ c ∈ ustar, c ≠ 0#8 by decide)
    (show 5 ≤ ustar.length by decide)
    hmagic
  have hchk : tarParseOctal mem (hdr + 148) 8 = some (headerChksum h) := by
    rw [tarParseOctal, if_pos (by decide), readUntil_takeWhile 8 hfield]
    rfl
  have hfirst := hmagic 0 (by decide)
  rw [Nat.add_zero] at hfirst
  have htotal' : wrap (rest + 32 * 8) = headerSum h := by
    rw [wrap_of_lt (by omega)]
    omega
  unfold tarValidateHeader
  rw [if_neg hpos]
  simp only [Option.bind_eq_bind, Option.pure_def, htotal, hrest, hchk, hfirst, hcompare, htotal',
    Option.bind_some]
  by_cases hequal : headerChksum h = headerSum h
  · rw [if_neg (not_not.mpr hequal)]
    by_cases hempty : h 257 = 0#8
    · rw [if_neg (not_not.mpr hempty), decide_eq_true ⟨hequal, Or.inl hempty⟩]
    · rw [if_pos hempty]
      by_cases hzero : r = 0
      · rw [if_neg (not_not.mpr hzero), decide_eq_true ⟨hequal, Or.inr (hr.mp hzero)⟩]
      · rw [if_pos hzero, decide_eq_false]
        rintro ⟨-, hempty' | hstarts⟩
        · exact hempty hempty'
        · exact hzero (hr.mpr hstarts)
  · rw [if_pos hequal, decide_eq_false fun hboth => hequal hboth.1]

theorem headerSum_congr {h' : Nat → Byte} (hsame : ∀ i, ¬ inChksum i → h' i = h i) :
    headerSum h' = headerSum h := by
  refine Finset.sum_congr rfl fun i _ => ?_
  by_cases hin : inChksum i
  · rw [if_pos hin, if_pos hin]
  · rw [if_neg hin, if_neg hin, hsame i hin]

theorem headerChksum_withChksum {ends : List Byte} (hends : ends = [0#8, ascii ' '] ∨ ends = [ascii ' ', 0#8]) :
    headerChksum (withChksum h ends) = headerSum h := by
  have hlen : (octalDigits 6 (headerSum h) ++ ends).length = 8 := by
    rw [List.length_append, length_octalDigits]
    rcases hends with rfl | rfl <;> rfl
  have hfield : ((List.range 8).map fun i => withChksum h ends (148 + i)) =
      octalDigits 6 (headerSum h) ++ ends := by
    refine List.ext_getElem (by rw [List.length_map, List.length_range, hlen]) fun i hi hi' => ?_
    rw [List.length_map, List.length_range] at hi
    rw [List.getElem_map, List.getElem_range, withChksum, if_pos ⟨by omega, by omega⟩, Nat.add_sub_cancel_left,
      List.getD_eq_getElem _ _ hi']
  have hdigits : ∀ c ∈ octalDigits 6 (headerSum h), (!endsField c) = true := by
    intro c hc
    obtain ⟨d, hd, -, rfl⟩ := octalDigits_digit hc
    interval_cases d <;> decide
  have hstop : ends.takeWhile (fun c => !endsField c) = [] := by
    rcases hends with rfl | rfl <;> decide
  rw [headerChksum, hfield, List.takeWhile_append_of_pos hdigits, hstop, List.append_nil,
    octalValue_octalDigits (by decide), Nat.mod_eq_of_lt (headerSum_lt h)]
  exact wrap_of_lt (lt_trans (headerSum_lt h) (by decide))

theorem headerSum_update {i : Nat} (hi : i < 512) (hout : ¬ inChksum i) (c : Byte) :
    headerSum (Function.update h i c) + (h i).toNat = headerSum h + c.toNat := by
  have hterm : (fun j => if inChksum j then 32 else (Function.update h i c j).toNat) =
      Function.update (fun j => if inChksum j then 32 else (h j).toNat) i c.toNat := by
    funext j
    by_cases hj : j = i
    · rw [hj, Function.update_self, Function.update_self, if_neg hout]
    · rw [Function.update_of_ne hj, Function.update_of_ne hj]
  have hmem : i ∈ Finset.range 512 := Finset.mem_range.mpr hi
  unfold headerSum
  rw [hterm, Finset.sum_update_of_mem hmem, Finset.sum_eq_add_sum_sdiff_singleton_of_mem hmem
    fun j => if inChksum j then 32 else (h j).toNat, if_neg hout]
  omega

end

/-- For every header: with the octal sum in its checksum field it is accepted, if its magic
is empty or starts with `ustar`; and if it is accepted, it is not accepted after the change
of any one byte outside the field. -/
theorem validate_header_law (h : Nat → Byte) (hdr : Nat) (hpos : hdr ≠ 0) (hfit : hdr + 512 ≤ 2 ^ 32) :
    (MagicOk h → ∀ ends, ends = [0#8, ascii ' '] ∨ ends = [ascii ' ', 0#8] →
      ∀ mem, HoldsHeader mem hdr (withChksum h ends) → tarValidateHeader mem hdr = some true) ∧
    ∀ mem, HoldsHeader mem hdr h → tarValidateHeader mem hdr = some true →
      ∀ i < 512, ¬ inChksum i → ∀ c, c ≠ h i →
        ∀ mem', HoldsHeader mem' hdr (Function.update h i c) → tarValidateHeader mem' hdr = some false := by
  refine ⟨fun hmagic ends hends mem hmem => ?_, fun mem hmem haccept i hi hout c hc mem' hmem' => ?_⟩
  · have hkept : ∀ i, ¬ inChksum i → withChksum h ends i = h i := fun i hi => if_neg hi
    have hmagic' : MagicOk (withChksum h ends) := by
      refine hmagic.imp (fun hempty => ?_) fun hstarts i hi => ?_
      · rw [hkept 257 (by decide)]
        exact hempty
      · rw [hkept (257 + i) (by unfold inChksum; omega)]
        exact hstarts i hi
    rw [tarValidateHeader_eq hpos hfit hmem, decide_eq_true]
    exact ⟨(headerChksum_withChksum hends).trans (headerSum_congr hkept).symm, hmagic'⟩
  · rw [tarValidateHeader_eq hpos hfit hmem, Option.some.injEq, decide_eq_true_eq] at haccept
    rw [tarValidateHeader_eq hpos hfit hmem', decide_eq_false]
    rintro ⟨hequal, -⟩
    have hsum := @headerSum_update h i hi hout c
    have hsame : headerChksum (Function.update h i c) = headerChksum h := by
      unfold headerChksum
      congr 2
      refine List.map_congr_left fun j hj => Function.update_of_ne ?_ _ _
      have hlt := List.mem_range.mp hj
      rintro rfl
      exact hout ⟨by omega, by omega⟩
    -- the field still has the old sum
    rw [hsame, haccept.1] at hequal
    exact hc (BitVec.eq_of_toNat_eq (by omega))

/-- A header at address 4096 with the name `a`, and the same header with the name `b`. -/
theorem validate_header_law_short :
    tarValidateHeader (fun a => some (withChksum (fun i => if i = 0 then ascii 'a' else 0#8) [0#8, ascii ' ']
        (a - 4096))) 4096 = some true ∧
      tarValidateHeader (fun a => some (Function.update
        (withChksum (fun i => if i = 0 then ascii 'a' else 0#8) [0#8, ascii ' ']) 0 (ascii 'b') (a - 4096))) 4096 =
          some false := by
  have haccept := (validate_header_law (fun i => if i = 0 then ascii 'a' else 0#8) 4096 (by decide) (by decide)).1
    (Or.inl rfl) [0#8, ascii ' '] (Or.inl rfl)
    (fun a => some (withChksum (fun i => if i = 0 then ascii 'a' else 0#8) [0#8, ascii ' '] (a - 4096)))
    fun i _ => by
      dsimp only
      rw [Nat.add_sub_cancel_left]
  refine ⟨haccept, ?_⟩
  refine (validate_header_law (withChksum (fun i => if i = 0 then ascii 'a' else 0#8) [0#8, ascii ' ']) 4096
    (by decide) (by decide)).2 _ (fun i _ => by rw [Nat.add_sub_cancel_left]) haccept 0 (by decide) (by decide)
      (ascii 'b') (by decide) _ fun i _ => by rw [Nat.add_sub_cancel_left]

end Frostix.Tar
