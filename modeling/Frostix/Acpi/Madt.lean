import Frostix.Acpi.Model
import Frostix.Lib.While

/-!
Parsing the MADT. Only the bytes of the table are readable here, so a call that returns
has read no other. `acpi_parse_madt` compares `ptr + 2` and `ptr + len` with the end of
the table after both sums have wrapped: next to the top of the address space an entry
that runs over the end passes. -/
namespace Frostix.Acpi
open Machine32 ByteMemory While

/-- Memory with unreadable addresses; a function that reads one has no value. -/
abbrev Readable := Nat → Option (BitVec 8)

def readByte (mem : Readable) (a : Nat) : Option (BitVec 8) := mem (wrap a)

/-- A `u32` through a pointer of any alignment. -/
def readWord (mem : Readable) (a : Nat) : Option Nat := do
  let b₀ ← readByte mem a
  let b₁ ← readByte mem (a + 1)
  let b₂ ← readByte mem (a + 2)
  let b₃ ← readByte mem (a + 3)
  return b₀.toNat + 2 ^ 8 * b₁.toNat + 2 ^ 16 * b₂.toNat + 2 ^ 24 * b₃.toNat

/-- `sizeof(madt_t)`: the header, `local_apic_addr` and `flags`. -/
def sizeofMadt : Nat := sizeofHeader + 8

/-- What is logged about an entry; `quiet` is an entry of a known type that is too short for it. -/
inductive MadtLine where
  | lapic (proc apic : BitVec 8) (flags : Nat)
  | ioapic (id : BitVec 8) (addr gsi : Nat)
  | quiet
  | unknown (type : BitVec 8) (len : Nat)
  deriving DecidableEq

structure MadtEntry where
  ptr : Nat
  line : MadtLine
  deriving DecidableEq

/-- `entry_count` is the number of entries. -/
structure MadtState where
  ptr : Nat
  entries : List MadtEntry

/-- What a call logs; `invalid` is the offset of an entry that ends the loop. -/
structure MadtReport where
  localApicAddr : Nat
  flags : Nat
  entries : List MadtEntry
  invalid : Option Nat

def readMadtEntry (mem : Readable) (ptr : Nat) (type : BitVec 8) (len : Nat) : Option MadtLine :=
  if type = 0#8 then
    if 8 ≤ len then do
      let proc ← readByte mem (ptr + 2)
      let apic ← readByte mem (ptr + 3)
      let flags ← readWord mem (ptr + 4)
      return .lapic proc apic flags
    else some .quiet
  else if type = 1#8 then
    if 12 ≤ len then do
      let id ← readByte mem (ptr + 2)
      let addr ← readWord mem (ptr + 4)
      let gsi ← readWord mem (ptr + 8)
      return .ioapic id addr gsi
    else some .quiet
  else some (.unknown type len)

/-- The loop of `acpi_parse_madt`; it returns the entries and the offset of an invalid one. -/
def parseMadtBody (mem : Readable) (madt limit : Nat) (s : MadtState) :
    Option (Outcome MadtState (List MadtEntry × Option Nat)) :=
  if wrap (s.ptr + 2) ≤ limit then do
    let type ← readByte mem s.ptr
    let len ← readByte mem (s.ptr + 1)
    if len.toNat < 2 ∨ limit < wrap (s.ptr + len.toNat) then
      return .stop (s.entries, some (wsub s.ptr madt))
    else
      let line ← readMadtEntry mem s.ptr type len.toNat
      return .next ⟨wrap (s.ptr + len.toNat), s.entries ++ [⟨s.ptr, line⟩]⟩
  else some (.stop (s.entries, none))

/-- `acpi_parse_madt`; a null table is reported and nothing is read. -/
def AcpiParseMadt (mem : Readable) (madt : Nat) (result : Option MadtReport) : Prop :=
  if madt = 0 then result = none
  else ∃ report length,
    result = some report ∧ readWord mem (madt + 4) = some length ∧
    readWord mem (madt + 36) = some report.localApicAddr ∧ readWord mem (madt + 40) = some report.flags ∧
    Returns (parseMadtBody mem madt (wrap (madt + length))) ⟨wrap (madt + sizeofMadt), []⟩
      (report.entries, report.invalid)

section Table

variable (bytes : Mem) (madt : Nat)

def madtLength : Nat := load32 bytes (madt + 4)

def entryLen (o : Nat) : Nat := (bytes (madt + o + 1)).toNat

/-- The entry at an offset has a length of at least 2 and ends within the table. -/
def EntryFits (o : Nat) : Prop :=
  o + 2 ≤ madtLength bytes madt ∧ 2 ≤ entryLen bytes madt o ∧ o + entryLen bytes madt o ≤ madtLength bytes madt

instance (o : Nat) : Decidable (EntryFits bytes madt o) := inferInstanceAs (Decidable (_ ∧ _ ∧ _))

/-- The offsets of the consecutive entries from an offset on, as far as they fit. -/
def entryOffsets (o : Nat) : List Nat :=
  if EntryFits bytes madt o then o :: entryOffsets (o + entryLen bytes madt o) else []
termination_by madtLength bytes madt - o
decreasing_by
  rename_i h
  have := h.2
  have := h.1
  omega

def entriesEnd (o : Nat) : Nat :=
  if EntryFits bytes madt o then entriesEnd (o + entryLen bytes madt o) else o
termination_by madtLength bytes madt - o
decreasing_by
  rename_i h
  have := h.2
  have := h.1
  omega

/-- A memory in which only the table is readable: its fixed part, and as far as its length says. -/
def madtMemory : Readable := fun a =>
  if madt ≤ a ∧ a < madt + max sizeofMadt (madtLength bytes madt) then some (bytes a) else none

/-- The call returns without having read anything but the table, and it has visited the
entries of the table. -/
def ParsesMadt : Prop :=
  ∃ report, AcpiParseMadt (madtMemory bytes madt) madt (some report) ∧
    report.entries.map MadtEntry.ptr = (entryOffsets bytes madt sizeofMadt).map (madt + ·)

/-- Behind the last entry neither `ptr + 2` wraps nor, where the length of another entry is
read that is at least 2, `ptr + len`. A table that ends at the top of the address space,
where `end` wraps to 0, has no entry or room for one entry of 2 bytes. -/
def MadtSumsFit : Prop :=
  let o := entriesEnd bytes madt sizeofMadt
  (madt + madtLength bytes madt < 2 ^ 32 ∧ madt + o + 2 < 2 ^ 32 ∧
      (o + 2 ≤ madtLength bytes madt → 2 ≤ entryLen bytes madt o → madt + o + entryLen bytes madt o < 2 ^ 32)) ∨
    madt + madtLength bytes madt = 2 ^ 32 ∧
      (madtLength bytes madt = 46 ∨ ¬ EntryFits bytes madt sizeofMadt)

end Table

section Walk

variable {bytes : Mem} {madt : Nat}

theorem readByte_inside (hfit : madt + max sizeofMadt (madtLength bytes madt) ≤ 2 ^ 32) {o : Nat}
    (ho : o < max sizeofMadt (madtLength bytes madt)) :
    readByte (madtMemory bytes madt) (madt + o) = some (bytes (madt + o)) := by
  rw [readByte, wrap_of_lt (by omega), madtMemory, if_pos ⟨by omega, by omega⟩]

theorem readByte_outside {a : Nat}
    (h : wrap a < madt ∨ madt + max sizeofMadt (madtLength bytes madt) ≤ wrap a) :
    readByte (madtMemory bytes madt) a = none := by
  rw [readByte, madtMemory, if_neg (by omega)]

theorem readWord_inside (hfit : madt + max sizeofMadt (madtLength bytes madt) ≤ 2 ^ 32) {o : Nat}
    (ho : o + 4 ≤ max sizeofMadt (madtLength bytes madt)) :
    readWord (madtMemory bytes madt) (madt + o) = some (load32 bytes (madt + o)) := by
  have hread : ∀ k < 4, readByte (madtMemory bytes madt) (madt + o + k) = some (bytes (madt + o + k)) := by
    intro k hk
    rw [Nat.add_assoc]
    exact readByte_inside hfit (by omega)
  have hfirst := hread 0 (by decide)
  rw [Nat.add_zero] at hfirst
  rw [readWord, hfirst, hread 1 (by decide), hread 2 (by decide), hread 3 (by decide)]
  rfl

theorem readMadtEntry_inside (hfit : madt + max sizeofMadt (madtLength bytes madt) ≤ 2 ^ 32) {o len : Nat}
    (ho : o + len ≤ madtLength bytes madt) (type : BitVec 8) :
    ∃ line, readMadtEntry (madtMemory bytes madt) (madt + o) type len = some line := by
  have hbyte : ∀ k < len, ∃ b, readByte (madtMemory bytes madt) (madt + o + k) = some b := by
    intro k hk
    rw [Nat.add_assoc]
    exact ⟨_, readByte_inside hfit (by omega)⟩
  have hword : ∀ k, k + 4 ≤ len → ∃ w, readWord (madtMemory bytes madt) (madt + o + k) = some w := by
    intro k hk
    rw [Nat.add_assoc]
    exact ⟨_, readWord_inside hfit (by omega)⟩
  unfold readMadtEntry
  split_ifs with hlapic hlen hioapic hlen
  · obtain ⟨proc, hproc⟩ := hbyte 2 (by omega)
    obtain ⟨apic, hapic⟩ := hbyte 3 (by omega)
    obtain ⟨flags, hflags⟩ := hword 4 (by omega)
    exact ⟨.lapic proc apic flags, by rw [hproc, hapic, hflags]; rfl⟩
  · exact ⟨_, rfl⟩
  · obtain ⟨id, hid⟩ := hbyte 2 (by omega)
    obtain ⟨addr, haddr⟩ := hword 4 (by omega)
    obtain ⟨gsi, hgsi⟩ := hword 8 (by omega)
    exact ⟨.ioapic id addr gsi, by rw [hid, haddr, hgsi]; rfl⟩
  · exact ⟨_, rfl⟩
  · exact ⟨_, rfl⟩

theorem parsesMadt_iff_loop (hmadt : madt ≠ 0)
    (hfit : madt + max sizeofMadt (madtLength bytes madt) ≤ 2 ^ 32) :
    ParsesMadt bytes madt ↔
      ∃ entries invalid,
        Returns (parseMadtBody (madtMemory bytes madt) madt (wrap (madt + madtLength bytes madt)))
          ⟨wrap (madt + sizeofMadt), []⟩ (entries, invalid) ∧
        entries.map MadtEntry.ptr = (entryOffsets bytes madt sizeofMadt).map (madt + ·) := by
  have hsize : 44 ≤ max sizeofMadt (madtLength bytes madt) := le_max_left _ _
  have hlength : readWord (madtMemory bytes madt) (madt + 4) = some (madtLength bytes madt) :=
    readWord_inside hfit (by omega)
  constructor
  · rintro ⟨report, hcall, hentries⟩
    rw [AcpiParseMadt, if_neg hmadt] at hcall
    obtain ⟨report', length, hreport, hlen, -, -, hloop⟩ := hcall
    cases hreport
    rw [hlength] at hlen
    cases hlen
    exact ⟨_, _, hloop, hentries⟩
  · rintro ⟨entries, invalid, hloop, hentries⟩
    refine ⟨⟨load32 bytes (madt + 36), load32 bytes (madt + 40), entries, invalid⟩, ?_, hentries⟩
    rw [AcpiParseMadt, if_neg hmadt]
    exact ⟨_, _, rfl, hlength, readWord_inside hfit (by omega), readWord_inside hfit (by omega), hloop⟩

theorem parseMadtBody_read {mem : Readable} {limit : Nat} {s : MadtState} {type len : BitVec 8}
    (hroom : wrap (s.ptr + 2) ≤ limit) (htype : readByte mem s.ptr = some type)
    (hlen : readByte mem (s.ptr + 1) = some len) :
    parseMadtBody mem madt limit s =
      if len.toNat < 2 ∨ limit < wrap (s.ptr + len.toNat) then
        some (.stop (s.entries, some (wsub s.ptr madt)))
      else (readMadtEntry mem s.ptr type len.toNat).map fun line =>
        .next ⟨wrap (s.ptr + len.toNat), s.entries ++ [⟨s.ptr, line⟩]⟩ := by
  rw [parseMadtBody, if_pos hroom, htype, hlen]
  simp only [Option.bind_eq_bind, Option.bind_some]
  split_ifs
  · rfl
  · cases readMadtEntry mem s.ptr type len.toNat <;> rfl

theorem parseMadtBody_unreadable {mem : Readable} {limit : Nat} {s : MadtState}
    (hroom : wrap (s.ptr + 2) ≤ limit) (h : readByte mem s.ptr = none ∨ readByte mem (s.ptr + 1) = none) :
    parseMadtBody mem madt limit s = none := by
  rw [parseMadtBody, if_pos hroom]
  cases htype : readByte mem s.ptr with
  | none => rfl
  | some type =>
      rcases h with h | h
      · rw [htype] at h
        cases h
      · rw [h]
        rfl

theorem parseMadtBody_cases {mem : Readable} {limit : Nat} {s : MadtState}
    {o : Outcome MadtState (List MadtEntry × Option Nat)} (h : parseMadtBody mem madt limit s = some o) :
    (∃ invalid, o = .stop (s.entries, invalid)) ∨ ∃ t entry, o = .next t ∧ t.entries = s.entries ++ [entry] := by
  rw [parseMadtBody] at h
  split_ifs at h with hroom
  · obtain ⟨type, -, h⟩ := Option.bind_eq_some_iff.mp h
    obtain ⟨len, -, h⟩ := Option.bind_eq_some_iff.mp h
    split_ifs at h with hinvalid
    · exact Or.inl ⟨_, (Option.some.inj h).symm⟩
    · obtain ⟨line, -, h⟩ := Option.bind_eq_some_iff.mp h
      exact Or.inr ⟨_, _, (Option.some.inj h).symm, rfl⟩
  · exact Or.inl ⟨_, (Option.some.inj h).symm⟩

theorem entries_kept {mem : Readable} {limit : Nat} {s : MadtState} {r : List MadtEntry × Option Nat}
    (h : Returns (parseMadtBody mem madt limit) s r) : s.entries <+: r.1 := by
  refine h.induction (motive := fun s r => s.entries <+: r.1) ?_ ?_
  · intro s r hbody
    rcases parseMadtBody_cases hbody with ⟨invalid, hstop⟩ | ⟨t, entry, hnext, -⟩
    · cases hstop
      exact List.prefix_rfl
    · cases hnext
  · intro s t r hbody _ ih
    rcases parseMadtBody_cases hbody with ⟨invalid, hstop⟩ | ⟨t', entry, hnext, hentries⟩
    · cases hstop
    · cases hnext
      rw [hentries] at ih
      exact (List.prefix_append _ _).trans ih

theorem more_entries {mem : Readable} {limit : Nat} {s t : MadtState} {r : List MadtEntry × Option Nat}
    (hbody : parseMadtBody mem madt limit s = some (.next t))
    (h : Returns (parseMadtBody mem madt limit) s r) : r.1 ≠ s.entries := by
  intro heq
  rcases parseMadtBody_cases hbody with ⟨invalid, hstop⟩ | ⟨t', entry, hnext, hentries⟩
  · cases hstop
  · cases hnext
    have hle := (entries_kept ((returns_next_iff hbody).mp h)).length_le
    rw [hentries, heq, List.length_append, List.length_singleton] at hle
    omega

theorem parseMadtBody_at (hfit : madt + max sizeofMadt (madtLength bytes madt) ≤ 2 ^ 32) {o limit : Nat}
    (ho : o + 2 ≤ madtLength bytes madt) (hroom : wrap (madt + o + 2) ≤ limit) (entries : List MadtEntry) :
    parseMadtBody (madtMemory bytes madt) madt limit ⟨madt + o, entries⟩ =
      if entryLen bytes madt o < 2 ∨ limit < wrap (madt + o + entryLen bytes madt o) then
        some (.stop (entries, some (wsub (madt + o) madt)))
      else (readMadtEntry (madtMemory bytes madt) (madt + o) (bytes (madt + o)) (entryLen bytes madt o)).map
        fun line => .next ⟨wrap (madt + o + entryLen bytes madt o), entries ++ [⟨madt + o, line⟩]⟩ := by
  have hsecond : readByte (madtMemory bytes madt) (madt + o + 1) = some (bytes (madt + o + 1)) := by
    rw [Nat.add_assoc]
    exact readByte_inside hfit (by omega)
  exact parseMadtBody_read hroom (readByte_inside hfit (by omega)) hsecond

theorem parseMadtBody_fits (hfit : madt + max sizeofMadt (madtLength bytes madt) ≤ 2 ^ 32)
    (hbelow : madt + madtLength bytes madt < 2 ^ 32) {o : Nat} (h : EntryFits bytes madt o)
    (entries : List MadtEntry) :
    ∃ line, parseMadtBody (madtMemory bytes madt) madt (madt + madtLength bytes madt)
        ⟨wrap (madt + o), entries⟩ =
      some (.next ⟨wrap (madt + (o + entryLen bytes madt o)), entries ++ [⟨madt + o, line⟩]⟩) := by
  obtain ⟨hroom, hlen, hend⟩ := h
  obtain ⟨line, hline⟩ := readMadtEntry_inside hfit hend (bytes (madt + o))
  refine ⟨line, ?_⟩
  rw [wrap_of_lt (show madt + o < 2 ^ 32 by omega), ← Nat.add_assoc,
    parseMadtBody_at hfit hroom (by rw [wrap_of_lt] <;> omega), hline,
    wrap_of_lt (show madt + o + entryLen bytes madt o < 2 ^ 32 by omega), if_neg (by omega)]
  rfl

theorem loop_to_end (hfit : madt + max sizeofMadt (madtLength bytes madt) ≤ 2 ^ 32)
    (hbelow : madt + madtLength bytes madt < 2 ^ 32) (o : Nat) :
    ∀ entries, ∃ visited, visited.map MadtEntry.ptr = (entryOffsets bytes madt o).map (madt + ·) ∧
      ∀ r, Returns (parseMadtBody (madtMemory bytes madt) madt (madt + madtLength bytes madt))
          ⟨wrap (madt + o), entries⟩ r ↔
        Returns (parseMadtBody (madtMemory bytes madt) madt (madt + madtLength bytes madt))
          ⟨wrap (madt + entriesEnd bytes madt o), entries ++ visited⟩ r := by
  fun_induction entriesEnd bytes madt o with
  | case1 o h ih =>
      intro entries
      obtain ⟨line, hbody⟩ := parseMadtBody_fits hfit hbelow h entries
      obtain ⟨visited, hvisited, hloop⟩ := ih (entries ++ [⟨madt + o, line⟩])
      refine ⟨⟨madt + o, line⟩ :: visited, ?_, fun r => ?_⟩
      · rw [entryOffsets, if_pos h, List.map_cons, List.map_cons, hvisited]
      · rw [returns_next_iff hbody, hloop, List.append_assoc, List.singleton_append]
  | case2 o h =>
      refine fun entries => ⟨[], ?_, fun r => ?_⟩
      · rw [entryOffsets, if_neg h]
        rfl
      · rw [List.append_nil]

theorem not_fits_end (bytes : Mem) (madt o : Nat) : ¬ EntryFits bytes madt (entriesEnd bytes madt o) := by
  fun_induction entriesEnd bytes madt o with
  | case1 o h ih => exact ih
  | case2 o h => exact h

theorem entriesEnd_ge (bytes : Mem) (madt o : Nat) : o ≤ entriesEnd bytes madt o := by
  fun_induction entriesEnd bytes madt o with
  | case1 o h ih => omega
  | case2 o h => exact le_rfl

theorem entriesEnd_le (bytes : Mem) (madt o : Nat) : entriesEnd bytes madt o ≤ max o (madtLength bytes madt) := by
  fun_induction entriesEnd bytes madt o with
  | case1 o h ih =>
      have := h.2.2
      omega
  | case2 o h => exact le_max_left _ _

theorem loop_stops (hfit : madt + max sizeofMadt (madtLength bytes madt) ≤ 2 ^ 32) {o : Nat}
    (hend : ¬ EntryFits bytes madt o) (hbelow : madt + o + 2 < 2 ^ 32)
    (hsum : o + 2 ≤ madtLength bytes madt → 2 ≤ entryLen bytes madt o → madt + o + entryLen bytes madt o < 2 ^ 32)
    (entries : List MadtEntry) :
    ∃ invalid, Returns (parseMadtBody (madtMemory bytes madt) madt (madt + madtLength bytes madt))
      ⟨wrap (madt + o), entries⟩ (entries, invalid) := by
  rw [wrap_of_lt (show madt + o < 2 ^ 32 by omega)]
  by_cases hroom : o + 2 ≤ madtLength bytes madt
  · refine ⟨some (wsub (madt + o) madt), .of_stop ?_⟩
    rw [parseMadtBody_at hfit hroom (by rw [wrap_of_lt] <;> omega), if_pos]
    by_cases hlen : 2 ≤ entryLen bytes madt o
    · have hlong : ¬ o + entryLen bytes madt o ≤ madtLength bytes madt := fun h => hend ⟨hroom, hlen, h⟩
      rw [wrap_of_lt (hsum hroom hlen)]
      omega
    · omega
  · refine ⟨none, .of_stop ?_⟩
    rw [parseMadtBody, if_neg]
    rw [wrap_of_lt hbelow]
    omega

/-- Where `ptr + 2` wraps an entry outside the table is read. -/
theorem reads_outside (hmadt : madt ≠ 0) (hfit : madt + max sizeofMadt (madtLength bytes madt) ≤ 2 ^ 32)
    (hbelow : madt + madtLength bytes madt < 2 ^ 32) {o : Nat} (hstart : sizeofMadt ≤ o)
    (ho : o ≤ max sizeofMadt (madtLength bytes madt)) (hwrap : 2 ^ 32 ≤ madt + o + 2) (entries : List MadtEntry) :
    parseMadtBody (madtMemory bytes madt) madt (madt + madtLength bytes madt)
      ⟨wrap (madt + o), entries⟩ = none := by
  have hsize : sizeofMadt = 44 := rfl
  have hroom : wrap (wrap (madt + o) + 2) ≤ madt + madtLength bytes madt := by
    unfold wrap
    omega
  refine parseMadtBody_unreadable hroom ?_
  by_cases htop : madt + o = 2 ^ 32
  · refine Or.inl (readByte_outside (Or.inl ?_))
    change wrap (wrap (madt + o)) < madt
    rw [htop]
    exact Nat.pos_of_ne_zero hmadt
  · refine Or.inr (readByte_outside ?_)
    change wrap (wrap (madt + o) + 1) < madt ∨ _ ≤ wrap (wrap (madt + o) + 1)
    rw [wrap_of_lt (show madt + o < 2 ^ 32 by omega)]
    unfold wrap
    omega

/-- Where `ptr + len` wraps an entry that does not fit is visited. -/
theorem visits_overrun (hfit : madt + max sizeofMadt (madtLength bytes madt) ≤ 2 ^ 32)
    (hbelow : madt + madtLength bytes madt < 2 ^ 32) {o : Nat} (hroom : o + 2 ≤ madtLength bytes madt)
    (hlen : 2 ≤ entryLen bytes madt o) (hwrap : 2 ^ 32 ≤ madt + o + entryLen bytes madt o)
    (entries : List MadtEntry) {r : List MadtEntry × Option Nat}
    (h : Returns (parseMadtBody (madtMemory bytes madt) madt (madt + madtLength bytes madt))
      ⟨wrap (madt + o), entries⟩ r) : r.1 ≠ entries := by
  have hbyte : entryLen bytes madt o < 256 := (bytes (madt + o + 1)).isLt
  have hpasses : wrap (madt + o + entryLen bytes madt o) ≤ madt + madtLength bytes madt := by
    unfold wrap
    omega
  rw [wrap_of_lt (show madt + o < 2 ^ 32 by omega)] at h
  have hbody := parseMadtBody_at hfit hroom (show wrap (madt + o + 2) ≤ madt + madtLength bytes madt by
    rw [wrap_of_lt] <;> omega) entries
  rw [if_neg (by omega)] at hbody
  cases hline : readMadtEntry (madtMemory bytes madt) (madt + o) (bytes (madt + o)) (entryLen bytes madt o) with
  | none =>
      rw [hline] at hbody
      exact absurd h (not_returns_of_none hbody)
  | some line =>
      rw [hline] at hbody
      exact more_entries hbody h

/-- A table that ends below the top of the address space. -/
theorem parsesMadt_iff_below (hmadt : madt ≠ 0) (hfit : madt + max sizeofMadt (madtLength bytes madt) ≤ 2 ^ 32)
    (hbelow : madt + madtLength bytes madt < 2 ^ 32) :
    ParsesMadt bytes madt ↔
      madt + entriesEnd bytes madt sizeofMadt + 2 < 2 ^ 32 ∧
        (entriesEnd bytes madt sizeofMadt + 2 ≤ madtLength bytes madt →
          2 ≤ entryLen bytes madt (entriesEnd bytes madt sizeofMadt) →
          madt + entriesEnd bytes madt sizeofMadt +
            entryLen bytes madt (entriesEnd bytes madt sizeofMadt) < 2 ^ 32) := by
  obtain ⟨visited, hvisited, hloop⟩ := loop_to_end hfit hbelow sizeofMadt []
  rw [parsesMadt_iff_loop hmadt hfit, wrap_of_lt hbelow]
  simp only [hloop, List.nil_append]
  have hstart := entriesEnd_ge bytes madt sizeofMadt
  have hlast := entriesEnd_le bytes madt sizeofMadt
  have hend := not_fits_end bytes madt sizeofMadt
  generalize entriesEnd bytes madt sizeofMadt = o at *
  constructor
  · rintro ⟨entries, invalid, hreturns, hentries⟩
    rw [← hvisited] at hentries
    -- the entries visited so far come first, and there is room for no other
    have hsame : entries = visited :=
      ((entries_kept hreturns).eq_of_length (by
        have := congrArg List.length hentries
        rwa [List.length_map, List.length_map, eq_comm] at this)).symm
    have hroom : madt + o + 2 < 2 ^ 32 := by
      by_contra hwrap
      exact not_returns_of_none (reads_outside hmadt hfit hbelow hstart hlast (by omega) visited) hreturns
    refine ⟨hroom, fun htwo hlen => ?_⟩
    by_contra hwrap
    exact visits_overrun hfit hbelow htwo hlen (by omega) visited hreturns hsame
  · rintro ⟨hroom, hsum⟩
    obtain ⟨invalid, hreturns⟩ := loop_stops hfit hend hroom hsum visited
    exact ⟨visited, invalid, hreturns, hvisited⟩

theorem loop_of_zero {mem : Readable} {ptr : Nat} (hptr : wrap (ptr + 2) ≠ 0) (entries : List MadtEntry)
    (r : List MadtEntry × Option Nat) :
    Returns (parseMadtBody mem madt 0) ⟨ptr, entries⟩ r ↔ (entries, none) = r := by
  refine returns_stop_iff ?_
  rw [parseMadtBody, if_neg]
  exact fun h => hptr (Nat.le_zero.mp h)

/-- A table of 46 bytes at the top of the address space has room for one entry, which is
visited if it fits. -/
theorem loop_of_46 (hfit : madt + max sizeofMadt (madtLength bytes madt) ≤ 2 ^ 32)
    (htop : madt + madtLength bytes madt = 2 ^ 32) (hlength : madtLength bytes madt = 46) :
    ∃ entries invalid, Returns (parseMadtBody (madtMemory bytes madt) madt 0) ⟨madt + 44, []⟩ (entries, invalid) ∧
      entries.map MadtEntry.ptr = (entryOffsets bytes madt 44).map (madt + ·) := by
  have hbyte : entryLen bytes madt 44 < 256 := (bytes (madt + 44 + 1)).isLt
  have hroom : wrap (madt + 44 + 2) ≤ 0 := by
    rw [show madt + 44 + 2 = 2 ^ 32 by omega]
    exact le_rfl
  have hbody := parseMadtBody_at hfit (by omega) hroom []
  by_cases hfits : EntryFits bytes madt 44
  · have hlen : entryLen bytes madt 44 = 2 := by
      have := hfits.2
      omega
    have hlast : ¬ EntryFits bytes madt 46 := by
      intro h
      have := h.1
      omega
    obtain ⟨line, hline⟩ := readMadtEntry_inside hfit hfits.2.2 (bytes (madt + 44))
    rw [if_neg (by rw [hlen]; omega), hline, hlen, show madt + 44 + 2 = 2 ^ 32 by omega] at hbody
    refine ⟨[⟨madt + 44, line⟩], none, .of_next hbody ((loop_of_zero (by decide) _ _).mpr rfl), ?_⟩
    rw [entryOffsets, if_pos hfits, hlen, entryOffsets, if_neg hlast]
    rfl
  · have hne : entryLen bytes madt 44 ≠ 2 := fun h => hfits ⟨by omega, by omega, by omega⟩
    rw [if_pos] at hbody
    · refine ⟨[], _, .of_stop hbody, ?_⟩
      rw [entryOffsets, if_neg hfits]
      rfl
    · unfold wrap
      omega

/-- A table that ends at the top of the address space: `end` is 0. -/
theorem parsesMadt_iff_top (hmadt : madt ≠ 0) (hfit : madt + max sizeofMadt (madtLength bytes madt) ≤ 2 ^ 32)
    (htop : madt + madtLength bytes madt = 2 ^ 32) :
    ParsesMadt bytes madt ↔ madtLength bytes madt = 46 ∨ ¬ EntryFits bytes madt sizeofMadt := by
  have hsize : sizeofMadt = 44 := rfl
  rw [parsesMadt_iff_loop hmadt hfit, htop, hsize, show wrap (2 ^ 32) = 0 from rfl]
  by_cases hlength : madtLength bytes madt = 46
  · refine ⟨fun _ => Or.inl hlength, fun _ => ?_⟩
    rw [wrap_of_lt (show madt + 44 < 2 ^ 32 by omega)]
    exact loop_of_46 hfit htop hlength
  · have hptr : wrap (wrap (madt + 44) + 2) ≠ 0 := by
      unfold wrap
      omega
    simp only [loop_of_zero hptr]
    constructor
    · rintro ⟨entries, invalid, hreturns, hentries⟩
      cases hreturns
      refine Or.inr fun hfits => ?_
      rw [entryOffsets, if_pos hfits] at hentries
      cases hentries
    · rintro (h | h)
      · exact absurd h hlength
      · refine ⟨[], none, rfl, ?_⟩
        rw [entryOffsets, if_neg h]
        rfl

/-- A table shorter than its fixed part is read beyond its length: `local_apic_addr` and
`flags` are logged before the loop. -/
theorem reads_fixed_part {mem : Readable} (hmadt : madt ≠ 0) {report : MadtReport}
    (h : AcpiParseMadt mem madt (some report)) : ∀ k < 8, ∃ b, readByte mem (madt + 36 + k) = some b := by
  rw [AcpiParseMadt, if_neg hmadt] at h
  obtain ⟨report', length, -, -, hlapic, hflags, -⟩ := h
  have hword : ∀ {a w : Nat}, readWord mem a = some w → ∀ k < 4, ∃ b, readByte mem (a + k) = some b := by
    intro a w hw k hk
    obtain ⟨b₀, h₀, hw⟩ := Option.bind_eq_some_iff.mp hw
    obtain ⟨b₁, h₁, hw⟩ := Option.bind_eq_some_iff.mp hw
    obtain ⟨b₂, h₂, hw⟩ := Option.bind_eq_some_iff.mp hw
    obtain ⟨b₃, h₃, -⟩ := Option.bind_eq_some_iff.mp hw
    interval_cases k
    · exact ⟨b₀, h₀⟩
    · exact ⟨b₁, h₁⟩
    · exact ⟨b₂, h₂⟩
    · exact ⟨b₃, h₃⟩
  intro k hk
  rcases Nat.lt_or_ge k 4 with hlow | hhigh
  · exact hword hlapic k hlow
  · obtain ⟨b, hb⟩ := hword hflags (k - 4) (by omega)
    exact ⟨b, by rwa [show madt + 36 + k = madt + 40 + (k - 4) by omega]⟩

end Walk

/-- For every content of a table that lies in the address space: `acpi_parse_madt` returns
without having read anything but the table and visits exactly the consecutive entries from
offset 44 on that are at least 2 bytes long and end within the table, if and only if none
of its sums wraps. -/
theorem acpi_parse_madt_iff (bytes : Mem) (madt : Nat) (hmadt : madt ≠ 0)
    (hfit : madt + max sizeofMadt (madtLength bytes madt) ≤ 2 ^ 32) :
    ParsesMadt bytes madt ↔ MadtSumsFit bytes madt := by
  unfold MadtSumsFit
  by_cases hbelow : madt + madtLength bytes madt < 2 ^ 32
  · rw [parsesMadt_iff_below hmadt hfit hbelow]
    constructor
    · exact fun h => Or.inl ⟨hbelow, h⟩
    · rintro (⟨-, h⟩ | ⟨htop, -⟩)
      · exact h
      · omega
  · have htop : madt + madtLength bytes madt = 2 ^ 32 := by omega
    rw [parsesMadt_iff_top hmadt hfit htop]
    constructor
    · exact fun h => Or.inr ⟨htop, h⟩
    · rintro (⟨h, -⟩ | ⟨-, h⟩)
      · exact absurd h hbelow
      · exact h

/-- A table of `length` bytes whose entries are all of type 2 and `len` bytes long. -/
def uniformTable (madt length len : Nat) : Mem := fun a =>
  if a < madt + 44 then byteOf length (a - (madt + 4))
  else if (a - (madt + 44)) % len = 1 then BitVec.ofNat 8 len else 2#8

/-- A table of 60 bytes with two entries is parsed. -/
theorem acpi_parse_madt_two : ParsesMadt (uniformTable 4096 60 8) 4096 := by
  have hend : entriesEnd (uniformTable 4096 60 8) 4096 sizeofMadt = 60 := by
    rw [entriesEnd, if_pos (by decide), entriesEnd, if_pos (by decide), entriesEnd, if_neg (by decide)]
    decide
  refine (acpi_parse_madt_iff _ 4096 (by decide) (by decide)).mpr (Or.inl ?_)
  rw [hend]
  exact ⟨by decide, by decide, fun hroom => absurd hroom (by decide)⟩

/-- In a table of 48 bytes at 0xFFFFFFC0 an entry of 32 bytes is visited that runs over the
end of the table and of the address space. -/
theorem acpi_parse_madt_overruns :
    ¬ ∀ (bytes : Mem) (madt : Nat), madt ≠ 0 → madt + max sizeofMadt (madtLength bytes madt) ≤ 2 ^ 32 →
      ParsesMadt bytes madt := by
  intro h
  have hparses := h (uniformTable 0xFFFFFFC0 48 32) 0xFFFFFFC0 (by decide) (by decide)
  rw [parsesMadt_iff_below (by decide) (by decide) (by decide), entriesEnd, if_neg (by decide)] at hparses
  exact absurd (hparses.2 (by decide) (by decide)) (by decide)

end Frostix.Acpi
