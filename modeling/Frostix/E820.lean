import Frostix.Pmm.Init

/-!
The memory map of the BIOS (`e820.c`) and the queries about it. The end of a region is a
64-bit sum: it is zero for a region that reaches the top of the address space, and for a
queried range it may be anything. -/
namespace Frostix.E820

open ByteMemory Pmm

/-- `E820_MAX_ENTRIES`. -/
def maxEntries : Nat := 128

/-- `E820_TYPE_USABLE`. -/
def typeUsable : UInt32 := 1

/-- `E820_TYPE_RESERVED`. -/
def typeReserved : UInt32 := 2

/-- `e820_entry_t`. -/
structure E820Entry where
  baseAddr : UInt64
  length : UInt64
  type : UInt32
  extended : UInt32
  deriving DecidableEq

/-- `e820_map_t`; the list has the first `entry_count` entries of the array. -/
structure E820Map where
  entries : List E820Entry
  count_le : entries.length ≤ maxEntries

def e820Reset : E820Map := ⟨[], Nat.zero_le _⟩

def e820AddEntry (map : E820Map) (e : E820Entry) : E820Map :=
  if h : map.entries.length < maxEntries then ⟨map.entries ++ [e], by simpa using h⟩ else map

/-- An entry of the boot loader's map; the type 0 stands for a reserved region. -/
def bootEntry (m : Mem) (e : Nat) : E820Entry where
  baseAddr := UInt64.ofNat (entryAddr m e)
  length := UInt64.ofNat (entryLen m e)
  type := if entryType m e = 0 then typeReserved else UInt32.ofNat (entryType m e)
  extended := 0

/-- The loop of `e820_detect_memory`; it walks the boot loader's map like `pmm_init` does. -/
def detectLoop (m : Mem) (info : Nat) : Nat → Nat → E820Map → Option E820Map
  | 0, _, _ => none
  | fuel + 1, e, map =>
      if e < mmapStop m info then detectLoop m info fuel (nextEntry m e) (e820AddEntry map (bootEntry m e))
      else some map

/-- `e820_detect_memory`; the null pointer is an absent `multiboot_info_t`. -/
def e820DetectMemory (m : Mem) (info : Nat) (map : E820Map) (fuel : Nat) : Option (KernelStatus × E820Map) :=
  if info = 0 then some (.invalidParam, map)
  else if infoFlags m info &&& 0x40 = 0 then some (.error, map)
  else (detectLoop m info fuel (infoMmapAddr m info) e820Reset).map fun map => (.ok, map)

def e820GetTotalUsableMemory (map : E820Map) : UInt64 :=
  map.entries.foldl (fun total e => if e.type = typeUsable then total + e.length else total) 0

def e820GetHighestAddress (map : E820Map) : UInt64 :=
  map.entries.foldl (fun max e => if max < e.baseAddr + e.length then e.baseAddr + e.length else max) 0

def e820FindRegion (map : E820Map) (address : UInt64) : Option E820Entry :=
  map.entries.find? fun e => e.baseAddr ≤ address && address < e.baseAddr + e.length

def e820IsUsableRegion (map : E820Map) (base length : UInt64) : Bool :=
  if length = 0 then false
  else map.entries.any fun e =>
    e.type == typeUsable && (e.baseAddr ≤ base && base + length ≤ e.baseAddr + e.length)

def FromBoot (m : Mem) (map : E820Map) : Prop := ∀ e ∈ map.entries, ∃ a, e = bootEntry m a

theorem e820AddEntry_fromBoot {m : Mem} {map : E820Map} (h : FromBoot m map) (a : Nat) :
    FromBoot m (e820AddEntry map (bootEntry m a)) := by
  unfold e820AddEntry
  split_ifs with hroom
  · intro e he
    rcases List.mem_append.mp he with he | he
    · exact h e he
    · exact ⟨a, List.mem_singleton.mp he⟩
  · exact h

theorem detectLoop_fromBoot {m : Mem} {info : Nat} (fuel : Nat) {e : Nat} {map map' : E820Map}
    (hmap : FromBoot m map) (h : detectLoop m info fuel e map = some map') : FromBoot m map' := by
  induction fuel generalizing e map with
  | zero => cases h
  | succ fuel ih =>
      rw [detectLoop] at h
      split_ifs at h with hnext
      · exact ih (e820AddEntry_fromBoot hmap e) h
      · cases h
        exact hmap

theorem e820DetectMemory_type {m : Mem} {info fuel : Nat} {map map' : E820Map}
    (h : e820DetectMemory m info map fuel = some (.ok, map')) : ∀ e ∈ map'.entries, e.type ≠ 0 := by
  unfold e820DetectMemory at h
  split_ifs at h with hinfo hflag
  · cases h
  · cases h
  · obtain ⟨found, hloop, heq⟩ := Option.map_eq_some_iff.mp h
    cases heq
    intro e he
    obtain ⟨a, rfl⟩ := detectLoop_fromBoot fuel (fun e he => absurd he List.not_mem_nil) hloop e he
    unfold bootEntry
    dsimp only
    split_ifs with hzero
    · decide
    · intro htype
      have hlt : entryType m a < 2 ^ 32 := load32_lt m (a + 20)
      have hval := congrArg UInt32.toNat htype
      rw [UInt32.toNat_ofNat_of_lt' hlt] at hval
      exact hzero hval

def E820Entry.stop (e : E820Entry) : Nat := e.baseAddr.toNat + e.length.toNat

def InSpace (map : E820Map) : Prop := ∀ e ∈ map.entries, e.stop ≤ 2 ^ 64

instance (map : E820Map) : Decidable (InSpace map) :=
  inferInstanceAs (Decidable (∀ e ∈ map.entries, e.stop ≤ 2 ^ 64))

structure E820Entry.Covers (e : E820Entry) (base length : UInt64) : Prop where
  usable : e.type = typeUsable
  start_le : e.baseAddr ≤ base
  le_stop : base.toNat + length.toNat ≤ e.stop

structure Answers (map : E820Map) (base length : UInt64) : Prop where
  usable : e820IsUsableRegion map base length = true ↔ 0 < length ∧ ∃ e ∈ map.entries, e.Covers base length
  found : e820IsUsableRegion map base length = true →
    ∀ a : UInt64, base ≤ a → a.toNat < base.toNat + length.toNat → e820FindRegion map a ≠ none
  highest : e820IsUsableRegion map base length = true →
    base.toNat + length.toNat ≤ (e820GetHighestAddress map).toNat

/-- The ranges that are answered right. An empty one is. One that ends below the top is
unless all usable entries that contain it reach the top; any other one is unless a usable
entry starts at or below it and ends, as a 64-bit sum, at or above its 64-bit end. -/
def Sound (map : E820Map) (base length : UInt64) : Prop :=
  length = 0 ∨
  (base.toNat + length.toNat < 2 ^ 64 ∧
    ((∃ e ∈ map.entries, e.Covers base length) → ∃ e ∈ map.entries, e.Covers base length ∧ e.stop < 2 ^ 64)) ∨
  (2 ^ 64 ≤ base.toNat + length.toNat ∧
    ¬ ∃ e ∈ map.entries, e.type = typeUsable ∧ e.baseAddr ≤ base ∧
      base.toNat + length.toNat - 2 ^ 64 ≤ e.stop % 2 ^ 64)

theorem isUsableRegion_iff {map : E820Map} {base length : UInt64} :
    e820IsUsableRegion map base length = true ↔ length ≠ 0 ∧ ∃ e ∈ map.entries, e.type = typeUsable ∧
      e.baseAddr ≤ base ∧ (base.toNat + length.toNat) % 2 ^ 64 ≤ e.stop % 2 ^ 64 := by
  unfold e820IsUsableRegion E820Entry.stop
  by_cases hlen : length = 0
  · simp [hlen]
  · simp [hlen, UInt64.le_iff_toNat_le]

theorem findRegion_ne_none {map : E820Map} {a : UInt64} {e : E820Entry} (he : e ∈ map.entries)
    (hlo : e.baseAddr ≤ a) (hhi : a.toNat < e.stop) (hstop : e.stop < 2 ^ 64) : e820FindRegion map a ≠ none := by
  unfold e820FindRegion
  intro hnone
  have hno := List.find?_eq_none.mp hnone e he
  unfold E820Entry.stop at hhi hstop
  rw [UInt64.le_iff_toNat_le] at hlo
  simp only [Bool.and_eq_true, decide_eq_true_eq, UInt64.le_iff_toNat_le, UInt64.lt_iff_toNat_lt, UInt64.toNat_add,
    Nat.mod_eq_of_lt hstop] at hno
  exact hno ⟨hlo, hhi⟩

theorem highest_foldl (es : List E820Entry) : ∀ m : UInt64,
    m ≤ es.foldl (fun max e => if max < e.baseAddr + e.length then e.baseAddr + e.length else max) m ∧
    ∀ d ∈ es, d.baseAddr + d.length ≤
      es.foldl (fun max e => if max < e.baseAddr + e.length then e.baseAddr + e.length else max) m := by
  induction es with
  | nil => exact fun m => ⟨UInt64.le_refl m, fun d hd => absurd hd List.not_mem_nil⟩
  | cons d es ih =>
      intro m
      rw [List.foldl_cons]
      obtain ⟨hle, hall⟩ := ih (if m < d.baseAddr + d.length then d.baseAddr + d.length else m)
      split_ifs at hle hall ⊢ with hlt
      · refine ⟨UInt64.le_trans (UInt64.le_of_lt hlt) hle, fun c hc => ?_⟩
        rcases List.mem_cons.mp hc with rfl | hc
        · exact hle
        · exact hall c hc
      · refine ⟨hle, fun c hc => ?_⟩
        rcases List.mem_cons.mp hc with rfl | hc
        · exact UInt64.le_trans (UInt64.not_lt.mp hlt) hle
        · exact hall c hc

theorem le_highest {map : E820Map} {e : E820Entry} (he : e ∈ map.entries) :
    e.stop % 2 ^ 64 ≤ (e820GetHighestAddress map).toNat := by
  have hle := (highest_foldl map.entries 0).2 e he
  rwa [UInt64.le_iff_toNat_le, UInt64.toNat_add] at hle

theorem stop_mod {e : E820Entry} (h : e.stop ≤ 2 ^ 64) :
    e.stop % 2 ^ 64 = e.stop ∧ e.stop < 2 ^ 64 ∨ e.stop % 2 ^ 64 = 0 ∧ e.stop = 2 ^ 64 := by
  omega

section Answers

variable {map : E820Map} {base length : UInt64}

theorem answers_empty (hlen : length = 0) : Answers map base length := by
  have hno : ¬ e820IsUsableRegion map base length = true := fun h => (isUsableRegion_iff.mp h).1 hlen
  refine ⟨iff_of_false hno fun h => ?_, fun h => absurd h hno, fun h => absurd h hno⟩
  rw [hlen] at h
  exact absurd h.1 (by decide)

theorem length_pos (hlen : length ≠ 0) : 0 < length :=
  UInt64.lt_iff_toNat_lt.mpr (Nat.pos_of_ne_zero fun hz => hlen (UInt64.toNat_inj.mp hz))

/-- A positive answer below the top comes from an entry that contains the range and does not
reach the top. -/
theorem covers_of_usable (hmap : InSpace map) (hlow : base.toNat + length.toNat < 2 ^ 64)
    (husable : e820IsUsableRegion map base length = true) :
    ∃ e ∈ map.entries, e.Covers base length ∧ e.stop < 2 ^ 64 := by
  obtain ⟨hlen, d, hd, htype, hstart, hstop⟩ := isUsableRegion_iff.mp husable
  have hpos := UInt64.lt_iff_toNat_lt.mp (length_pos hlen)
  rw [UInt64.toNat_zero] at hpos
  rw [Nat.mod_eq_of_lt hlow] at hstop
  have hd' := stop_mod (hmap d hd)
  exact ⟨d, hd, ⟨htype, hstart, by omega⟩, by omega⟩

theorem answers_low_iff (hmap : InSpace map) (hlen : length ≠ 0) (hlow : base.toNat + length.toNat < 2 ^ 64) :
    Answers map base length ↔
      ((∃ e ∈ map.entries, e.Covers base length) → ∃ e ∈ map.entries, e.Covers base length ∧ e.stop < 2 ^ 64) := by
  constructor
  · rintro h hcovered
    exact covers_of_usable hmap hlow (h.usable.mpr ⟨length_pos hlen, hcovered⟩)
  · intro h
    refine ⟨⟨fun husable => ?_, ?_⟩, fun husable a hlo hhi => ?_, fun husable => ?_⟩
    · obtain ⟨e, he, hcovers, -⟩ := covers_of_usable hmap hlow husable
      exact ⟨length_pos hlen, e, he, hcovers⟩
    · rintro ⟨-, hcovered⟩
      obtain ⟨e, he, hcovers, hstop⟩ := h hcovered
      refine isUsableRegion_iff.mpr ⟨hlen, e, he, hcovers.usable, hcovers.start_le, ?_⟩
      rw [Nat.mod_eq_of_lt hlow, Nat.mod_eq_of_lt hstop]
      exact hcovers.le_stop
    · obtain ⟨e, he, hcovers, hstop⟩ := covers_of_usable hmap hlow husable
      exact findRegion_ne_none he (UInt64.le_trans hcovers.start_le hlo)
        (lt_of_lt_of_le hhi hcovers.le_stop) hstop
    · obtain ⟨e, he, hcovers, hstop⟩ := covers_of_usable hmap hlow husable
      have hle := le_highest he
      rw [Nat.mod_eq_of_lt hstop] at hle
      exact le_trans hcovers.le_stop hle

theorem usable_wrapped_iff (hlen : length ≠ 0) (htop : 2 ^ 64 ≤ base.toNat + length.toNat) :
    e820IsUsableRegion map base length = true ↔ ∃ e ∈ map.entries, e.type = typeUsable ∧ e.baseAddr ≤ base ∧
      base.toNat + length.toNat - 2 ^ 64 ≤ e.stop % 2 ^ 64 := by
  have hbase := base.toNat_lt
  have hlength := length.toNat_lt
  have hwrapped : (base.toNat + length.toNat) % 2 ^ 64 = base.toNat + length.toNat - 2 ^ 64 := by omega
  rw [isUsableRegion_iff, and_iff_right hlen, hwrapped]

theorem answers_wrapped_iff (hmap : InSpace map) (hlen : length ≠ 0) (htop : 2 ^ 64 ≤ base.toNat + length.toNat) :
    Answers map base length ↔ ¬ ∃ e ∈ map.entries, e.type = typeUsable ∧ e.baseAddr ≤ base ∧
      base.toNat + length.toNat - 2 ^ 64 ≤ e.stop % 2 ^ 64 := by
  rw [← usable_wrapped_iff hlen htop]
  constructor
  · intro h husable
    -- a positive answer would put the end of the range below the highest address
    have hhighest := h.highest husable
    have hhigh := (e820GetHighestAddress map).toNat_lt
    omega
  · intro hno
    refine ⟨iff_of_false hno ?_, fun husable => absurd husable hno, fun husable => absurd husable hno⟩
    rintro ⟨-, e, he, hcovers⟩
    have hle := hcovers.le_stop
    have hspace := hmap e he
    exact hno ((usable_wrapped_iff hlen htop).mpr ⟨e, he, hcovers.usable, hcovers.start_le, by omega⟩)

end Answers

/-- The three queries agree with exact arithmetic on the sound ranges and on no other. -/
theorem e820_is_usable_region_iff {map : E820Map} (hmap : InSpace map) (base length : UInt64) :
    Answers map base length ↔ Sound map base length := by
  by_cases hlen : length = 0
  · exact iff_of_true (answers_empty hlen) (Or.inl hlen)
  unfold Sound
  rw [or_iff_right hlen]
  rcases Nat.lt_or_ge (base.toNat + length.toNat) (2 ^ 64) with hlow | htop
  · rw [or_iff_left fun h => absurd h.1 (Nat.not_le.mpr hlow), and_iff_right hlow]
    exact answers_low_iff hmap hlen hlow
  · rw [or_iff_right fun h => absurd h.1 (Nat.not_lt.mpr htop), and_iff_right htop]
    exact answers_wrapped_iff hmap hlen htop

def smallMap : E820Map := ⟨[⟨0, 0x9FC00, 1, 0⟩, ⟨0x100000, 0x7EF0000, 1, 0⟩], by decide⟩

theorem e820_is_usable_region_small : Answers smallMap 0x200000 0x1000 :=
  (e820_is_usable_region_iff (by decide) 0x200000 0x1000).mpr (Or.inr (Or.inl ⟨by decide, fun _ =>
    ⟨⟨0x100000, 0x7EF0000, 1, 0⟩, by decide, ⟨by decide, by decide, by decide⟩, by decide⟩⟩))

/-- A range that wraps around is usable; its first byte is in no region. -/
theorem e820_is_usable_region_wraps :
    InSpace smallMap ∧ e820IsUsableRegion smallMap 0xFFFFFFFFFFFFF000 0x2000 = true ∧
      e820FindRegion smallMap 0xFFFFFFFFFFFFF000 = none ∧
      ¬ ∃ e ∈ smallMap.entries, e.Covers 0xFFFFFFFFFFFFF000 0x2000 := by
  refine ⟨by decide, by decide, by decide, ?_⟩
  rintro ⟨e, he, hcovers⟩
  have hspace : InSpace smallMap := by decide
  exact absurd (le_trans hcovers.le_stop (hspace e he)) (by decide)

end Frostix.E820
