import Frostix.Lib.Loop
import Frostix.Lib.RunSearch
import Frostix.Pmm.Bitmap

/-! What the two search loops return, in terms of the clear bits of the bitmap. -/
namespace Frostix.Pmm
open Machine32 RunSearch

/-- Page `b` has a bit in the bitmap and this bit is clear. -/
def Free (p : BitmapAllocator) (b : Nat) : Prop := b < p.size * 8 ∧ bitAt p b = false

instance (p : BitmapAllocator) (b : Nat) : Decidable (Free p b) :=
  inferInstanceAs (Decidable (_ ∧ _))

/-- Every free page has a 32-bit address, so index arithmetic never wraps on it. -/
def Addressable (p : BitmapAllocator) : Prop := ∀ b, Free p b → b < 2 ^ 20

/-- Every free page has a 32-bit index away from `(u32)-1`; this is enough for the searches. -/
def Indexed (p : BitmapAllocator) : Prop := ∀ b, Free p b → b < 2 ^ 32 - 8

theorem Addressable.indexed {p : BitmapAllocator} (h : Addressable p) : Indexed p := by
  intro b hb
  have hlt := h b hb
  omega

theorem bitmapTestBit_false_iff {p : BitmapAllocator} {b : Nat} (hb : b < p.size * 8) :
    bitmapTestBit p b = false ↔ Free p b := by
  simp [bitmapTestBit_eq, Free, hb]

theorem free_of_byte {p : BitmapAllocator} {byte bit : Nat} (hbyte : byte < p.size)
    (hbit : bit < 8) : Free p (byte * 8 + bit) ↔ p.bits byte &&& bitMask bit = 0#8 := by
  have hdiv : (byte * 8 + bit) / 8 = byte := by omega
  have hmod : (byte * 8 + bit) % 8 = bit := by omega
  have hself : bit % 8 = bit := Nat.mod_eq_of_lt hbit
  rw [and_bitMask_eq_zero, Free, bitAt, hdiv, hmod, hself]
  exact and_iff_right (by omega)

/-- A byte other than `0xFF` has a clear bit; `0xFF` has none. -/
theorem byte_full_iff {p : BitmapAllocator} {byte : Nat} (hbyte : byte < p.size) :
    p.bits byte = 0xFF#8 ↔ ∀ bit < 8, ¬ Free p (byte * 8 + bit) := by
  have hall : ∀ j < 8, (0xFF#8).getLsbD j = true := by decide
  constructor
  · intro h bit hbit hfree
    rw [free_of_byte hbyte hbit, and_bitMask_eq_zero, h, Nat.mod_eq_of_lt hbit] at hfree
    simp [hall bit hbit] at hfree
  · intro h
    apply BitVec.eq_of_getLsbD_eq
    intro j hj
    have hset := h j hj
    rw [free_of_byte hbyte hj, and_bitMask_eq_zero, Nat.mod_eq_of_lt hj] at hset
    rw [hall j hj]
    simpa using hset

theorem firstClearIn_eq_some {p : BitmapAllocator} {byte b : Nat} (hbyte : byte < p.size) :
    firstClearIn p byte = some b ↔
      ∃ bit < 8, b = wrap (byte * 8 + bit) ∧ Free p (byte * 8 + bit) ∧
        ∀ c < bit, ¬ Free p (byte * 8 + c) := by
  unfold firstClearIn
  rw [Loop.findSome_range]
  constructor
  · rintro ⟨bit, hbit, hval, hbefore⟩
    split at hval
    · rename_i hclear
      cases hval
      refine ⟨bit, hbit, rfl, (free_of_byte hbyte hbit).mpr hclear, ?_⟩
      intro c hc hfc
      have hnone := hbefore c hc
      rw [if_pos ((free_of_byte hbyte (by omega)).mp hfc)] at hnone
      cases hnone
    · cases hval
  · rintro ⟨bit, hbit, rfl, hfree, hbefore⟩
    refine ⟨bit, hbit, if_pos ((free_of_byte hbyte hbit).mp hfree), ?_⟩
    intro c hc
    rw [if_neg]
    intro hclear
    exact hbefore c hc ((free_of_byte hbyte (by omega)).mpr hclear)

theorem firstClearIn_isSome {p : BitmapAllocator} {b : Nat} (hb : Free p b) :
    p.bits (b / 8) ≠ 0xFF#8 ∧ (firstClearIn p (b / 8)).isSome := by
  have hbyte : b / 8 < p.size := by have := hb.1; omega
  have hb' : Free p (b / 8 * 8 + b % 8) := by rwa [show b / 8 * 8 + b % 8 = b by omega]
  have hmod : b % 8 < 8 := Nat.mod_lt _ (by decide)
  refine ⟨fun hfull => (byte_full_iff hbyte).mp hfull (b % 8) hmod hb', ?_⟩
  rw [firstClearIn, List.findSome?_isSome_iff]
  exact ⟨b % 8, List.mem_range.mpr hmod, by rw [if_pos ((free_of_byte hbyte hmod).mp hb')]; rfl⟩

/-- `bitmap_find_free_bit` returns the index of the lowest free page, computed in 32 bits. -/
theorem bitmapFindFreeBit_wrap (p : BitmapAllocator) :
    (bitmapFindFreeBit p = noBit ∧ ∀ b, ¬ Free p b) ∨
      ∃ b, Free p b ∧ (∀ c < b, ¬ Free p c) ∧ bitmapFindFreeBit p = wrap b := by
  unfold bitmapFindFreeBit
  cases hsearch : (List.range p.size).findSome? fun byte =>
      if p.bits byte ≠ 0xFF#8 then firstClearIn p byte else none with
  | none =>
      refine Or.inl ⟨rfl, fun b hb => ?_⟩
      simp only [List.findSome?_eq_none_iff, List.mem_range] at hsearch
      obtain ⟨hfull, hsome⟩ := firstClearIn_isSome hb
      have hnone := hsearch (b / 8) (by have := hb.1; omega)
      rw [if_pos hfull] at hnone
      rw [hnone] at hsome
      cases hsome
  | some b =>
      obtain ⟨byte, hbyte, hval, hbefore⟩ := Loop.findSome_range.mp hsearch
      split at hval
      · obtain ⟨bit, hbit, rfl, hfree, hlow⟩ := (firstClearIn_eq_some hbyte).mp hval
        refine Or.inr ⟨byte * 8 + bit, hfree, fun c hc hfc => ?_, rfl⟩
        by_cases hsame : c / 8 = byte
        · refine hlow (c % 8) (by omega) ?_
          rwa [show byte * 8 + c % 8 = c by omega]
        · obtain ⟨hfull, hsome⟩ := firstClearIn_isSome hfc
          have hnone := hbefore (c / 8) (by omega)
          rw [if_pos hfull] at hnone
          rw [hnone] at hsome
          cases hsome
      · cases hval

/-- `bitmap_find_free_bit` returns the lowest free page. -/
theorem bitmapFindFreeBit_spec {p : BitmapAllocator} (hp : Indexed p) :
    (bitmapFindFreeBit p = noBit ∧ ∀ b, ¬ Free p b) ∨
      (Free p (bitmapFindFreeBit p) ∧ ∀ c < bitmapFindFreeBit p, ¬ Free p c) := by
  rcases bitmapFindFreeBit_wrap p with hnone | ⟨b, hfree, hlow, heq⟩
  · exact Or.inl hnone
  · have hlt := hp b hfree
    rw [heq, wrap_of_lt (by omega)]
    exact Or.inr ⟨hfree, hlow⟩

/-- What the run search takes for a free page: a full byte is skipped, a bit of another byte is
tested under its index in 32 bits. -/
def ReadFree (p : BitmapAllocator) (n : Nat) : Prop := p.bits (n / 8) ≠ 0xFF#8 ∧ Free p (wrap n)

/-- Below `2^32` the search reads the bitmap. -/
theorem readFree_iff {p : BitmapAllocator} {n : Nat} (hn : n < 2 ^ 32) : ReadFree p n ↔ Free p n := by
  rw [ReadFree, wrap_of_lt hn]
  exact and_iff_right_of_imp fun hfree => (firstClearIn_isSome hfree).1

/-- The search returns the start of the lowest run that it reads, counted back from its end. -/
def Completes (p : BitmapAllocator) (count start : Nat) : Prop :=
  ∃ s, LowestRun (ReadFree p) count (p.size * 8) s ∧ start = wsub (wrap (s + count)) count

theorem scanBit_ends {p : BitmapAllocator} {count byte bit found : Nat}
    (hcount : count < 2 ^ 32) (hbyte : byte < p.size) (hbit : bit < 8) (hfull : p.bits byte ≠ 0xFF#8)
    (h : Scanned (ReadFree p) count (byte * 8 + bit) found) :
    Loop.Ends (Scanned (ReadFree p) count (byte * 8 + bit + 1)) (Completes p count)
      (scanBit p count byte found bit) := by
  have hshort := h.short
  have hfound : wrap (found + 1) = found + 1 := wrap_of_lt (by omega)
  have hread : ReadFree p (byte * 8 + bit) ↔ Free p (wrap (byte * 8 + bit)) := by
    rw [ReadFree, show (byte * 8 + bit) / 8 = byte by omega]
    exact and_iff_right hfull
  have hle : wrap (byte * 8 + bit) ≤ byte * 8 + bit := Nat.mod_le _ _
  have htest := @bitmapTestBit_false_iff p (wrap (byte * 8 + bit)) (by omega)
  unfold scanBit
  rw [hfound]
  by_cases hfree : ReadFree p (byte * 8 + bit)
  · rw [htest.mpr (hread.mp hfree)]
    rcases h.advance hfree with ⟨hlt, hmore⟩ | ⟨hlast, hrun⟩
    · rw [if_neg (by decide), if_neg (by omega)]
      exact hmore
    · rw [if_neg (by decide), if_pos hlast]
      have hstart := h.le
      refine ⟨byte * 8 + bit + 1 - count, hrun.mono (by omega), ?_⟩
      rw [show byte * 8 + bit + 1 - count + count = byte * 8 + bit + 1 by omega]
  · have hset : bitmapTestBit p (wrap (byte * 8 + bit)) = true := by
      rw [← Bool.not_eq_false, htest, ← hread]
      exact hfree
    rw [hset, if_pos rfl]
    exact h.reset hfree

theorem scanned_skip {p : BitmapAllocator} {count byte found : Nat}
    (hfull : p.bits byte = 0xFF#8) (h : Scanned (ReadFree p) count (byte * 8) found) :
    Scanned (ReadFree p) count ((byte + 1) * 8) 0 := by
  have hset : ∀ bit < 8, ¬ ReadFree p (byte * 8 + bit) := by
    intro bit hbit hread
    refine hread.1 ?_
    rwa [show (byte * 8 + bit) / 8 = byte by omega]
  have hbits : ∀ n ≤ 8, ∃ f, Scanned (ReadFree p) count (byte * 8 + n) f ∧ (0 < n → f = 0) := by
    intro n
    induction n with
    | zero => exact fun _ => ⟨found, h, fun hn => absurd hn (lt_irrefl 0)⟩
    | succ n ih =>
        intro hn
        obtain ⟨f, hf, _⟩ := ih (by omega)
        exact ⟨0, hf.reset (hset n (by omega)), fun _ => rfl⟩
  obtain ⟨f, hf, hzero⟩ := hbits 8 le_rfl
  rw [hzero (by decide)] at hf
  rwa [show (byte + 1) * 8 = byte * 8 + 8 by omega]

theorem scanByte_ends {p : BitmapAllocator} {count byte found : Nat}
    (hcount : count < 2 ^ 32) (hbyte : byte < p.size)
    (h : Scanned (ReadFree p) count (byte * 8) found) :
    Loop.Ends (Scanned (ReadFree p) count ((byte + 1) * 8)) (Completes p count)
      (scanByte p count found byte) := by
  unfold scanByte
  by_cases hfull : p.bits byte = 0xFF#8
  · rw [if_pos hfull]
    exact scanned_skip hfull h
  · rw [if_neg hfull]
    have hloop := Loop.foldlM_range (f := scanBit p count byte) (n := 8) (s := found)
      (fun bit found => Scanned (ReadFree p) count (byte * 8 + bit) found) (Completes p count) h
      (fun bit hbit found hinv => scanBit_ends hcount hbyte hbit hfull hinv)
    rwa [show (byte + 1) * 8 = byte * 8 + 8 by omega]

/-- `bitmap_find_free_bits` returns the lowest run that it reads, and `(u32)-1` when it reads none. -/
theorem bitmapFindFreeBits_read {p : BitmapAllocator} {count : Nat} (hcount : count < 2 ^ 32)
    (hpos : 0 < count) :
    (bitmapFindFreeBits p count = noBit ∧
        ∀ s, s + count ≤ p.size * 8 → ¬ IsRun (ReadFree p) count s) ∨
      Completes p count (bitmapFindFreeBits p count) := by
  have hloop := Loop.foldlM_range (f := scanByte p count) (n := p.size) (s := 0)
    (fun byte found => Scanned (ReadFree p) count (byte * 8) found) (Completes p count) (Scanned.zero hpos)
    (fun byte hbyte found hinv => scanByte_ends hcount hbyte hinv)
  unfold bitmapFindFreeBits
  rw [if_neg (by omega)]
  cases hrun : (List.range p.size).foldlM (scanByte p count) 0 with
  | error start =>
      rw [hrun] at hloop
      exact Or.inr hloop
  | ok found =>
      rw [hrun] at hloop
      exact Or.inl ⟨rfl, hloop.noRun⟩

/-- Without free pages near `2^32` or above, the search reads the bitmap. -/
theorem Indexed.readFree_iff {p : BitmapAllocator} (hp : Indexed p) {n : Nat} (hn : n < p.size * 8) :
    ReadFree p n ↔ Free p n := by
  rcases Nat.lt_or_ge n (2 ^ 32) with hlt | hge
  · exact Pmm.readFree_iff hlt
  · have hfull : p.bits (n / 8) = 0xFF#8 := by
      refine (byte_full_iff (by omega)).mpr fun bit hbit hfree => ?_
      have hlow := hp _ hfree
      omega
    refine iff_of_false (fun hread => hread.1 hfull) fun hfree => ?_
    have hlow := hp n hfree
    omega

/-- `bitmap_find_free_bits` returns the lowest run of `count` free pages, and
`(u32)-1` only when there is none. -/
theorem bitmapFindFreeBits_spec {p : BitmapAllocator} {count : Nat} (hp : Indexed p)
    (hcount : count < 2 ^ 32) (hpos : 0 < count) :
    (bitmapFindFreeBits p count = noBit ∧
        ∀ s, s + count ≤ p.size * 8 → ¬ IsRun (Free p) count s) ∨
      LowestRun (Free p) count (p.size * 8) (bitmapFindFreeBits p count) := by
  have hiff : ∀ s, s + count ≤ p.size * 8 → (IsRun (ReadFree p) count s ↔ IsRun (Free p) count s) :=
    fun s hs => forall₂_congr fun i hi => hp.readFree_iff (by omega)
  rcases bitmapFindFreeBits_read hcount hpos with ⟨hnone, hno⟩ | ⟨s, hlow, hstart⟩
  · exact Or.inl ⟨hnone, fun s hs hrun => hno s hs ((hiff s hs).mpr hrun)⟩
  · right
    have hfits := hlow.fits
    have hrun := (hiff s hfits).mp hlow.run
    have hlast := hp _ (hrun (count - 1) (by omega))
    rw [wrap_of_lt (by omega), wsub_of_le (by omega) (by omega), Nat.add_sub_cancel] at hstart
    rw [hstart]
    exact ⟨hrun, hfits, fun t ht hrun' => hlow.lowest t ht ((hiff t (by omega)).mpr hrun')⟩

end Frostix.Pmm
