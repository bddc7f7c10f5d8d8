import Frostix.Drivers.Timer

/-!
What `rtc_read` makes of the real-time clock's registers. Status register B selects one of
four formats. `rtc_read` converts the hours from BCD before it looks at the PM bit, and the
conversion destroys the bit: the 12-hour BCD format loses every hour from noon on. -/
namespace Frostix.Drivers

def daysInMonth (year month : Nat) : Nat :=
  if month = 2 then if year % 4 = 0 ∧ (year % 100 ≠ 0 ∨ year % 400 = 0) then 29 else 28
  else if month ∈ [4, 6, 9, 11] then 30
  else 31

/-- A calendar date and a time of day whose year has three or four digits. -/
structure DateTime where
  year : Nat
  month : Nat
  day : Nat
  hour : Nat
  minute : Nat
  second : Nat
  year_range : 100 ≤ year ∧ year ≤ 9999
  month_range : 1 ≤ month ∧ month ≤ 12
  day_range : 1 ≤ day ∧ day ≤ daysInMonth year month
  hour_lt : hour < 24
  minute_lt : minute < 60
  second_lt : second < 60

def isBinary (cmos : Cmos) : Bool := cmos 0x0B &&& 0x04 != 0

def is24h (cmos : Cmos) : Bool := cmos 0x0B &&& 0x02 != 0

/-- A number below 100 in a register: as it is, or one digit in each half. -/
def encodeIn (binary : Bool) (n : Nat) : UInt8 :=
  if binary then UInt8.ofNat n else UInt8.ofNat (16 * (n / 10) + n % 10)

def dialHour (hour : Nat) : Nat := if hour % 12 = 0 then 12 else hour % 12

/-- The hours register; on a 12-hour dial bit 7 is set from noon on. -/
def encodeHour (binary h24 : Bool) (hour : Nat) : UInt8 :=
  if h24 then encodeIn binary hour
  else encodeIn binary (dialHour hour) ||| (if 12 ≤ hour then 0x80 else 0)

/-- The registers hold the date and time in the format that status register B selects. -/
structure Holds (cmos : Cmos) (d : DateTime) : Prop where
  second : cmos 0x00 = encodeIn (isBinary cmos) d.second
  minute : cmos 0x02 = encodeIn (isBinary cmos) d.minute
  hour : cmos 0x04 = encodeHour (isBinary cmos) (is24h cmos) d.hour
  day : cmos 0x07 = encodeIn (isBinary cmos) d.day
  month : cmos 0x08 = encodeIn (isBinary cmos) d.month
  year : cmos 0x09 = encodeIn (isBinary cmos) (d.year % 100)
  century : cmos 0x32 = encodeIn (isBinary cmos) (d.year / 100)

/-- The structure holds the date and time, each field as a number. -/
structure Stores (t : Time) (d : DateTime) : Prop where
  year : t.year.toNat = d.year
  month : t.month.toNat = d.month
  day : t.day.toNat = d.day
  hour : t.hour.toNat = d.hour
  minute : t.minute.toNat = d.minute
  second : t.second.toNat = d.second

def decodeIn (binary : Bool) (val : UInt8) : UInt8 := if binary then val else bcdToBin val

def decodeHour (binary h24 : Bool) (val : UInt8) : UInt8 :=
  if h24 then decodeIn binary val else hour24 (decodeIn binary val)

theorem decode_encode : ∀ binary : Bool, ∀ n < 100, (decodeIn binary (encodeIn binary n)).toNat = n := by decide

theorem decode_hour_iff : ∀ binary h24 : Bool, ∀ hour < 24,
    ((decodeHour binary h24 (encodeHour binary h24 hour)).toNat = hour ↔
      binary = true ∨ h24 = true ∨ hour < 12) := by decide

theorem century_eq (binary : Bool) (val : UInt8) :
    (if ¬ binary = true ∧ val ≠ 0 then bcdToBin val else val) = decodeIn binary val := by
  cases binary with
  | true => rfl
  | false =>
      by_cases hval : val = 0
      · rw [hval]
        rfl
      · exact if_pos ⟨Bool.false_ne_true, hval⟩

theorem daysInMonth_le (year month : Nat) : daysInMonth year month ≤ 31 := by
  unfold daysInMonth
  split_ifs <;> decide

/-- `rtc_read`, field by field. -/
theorem rtcRead_eq (cmos : Cmos) :
    rtcRead cmos =
      { year := (decodeIn (isBinary cmos) (cmos 0x09)).toUInt32 +
          (if decodeIn (isBinary cmos) (cmos 0x32) ≠ 0 then decodeIn (isBinary cmos) (cmos 0x32)
            else 20).toUInt32 * 100
        month := decodeIn (isBinary cmos) (cmos 0x08)
        day := decodeIn (isBinary cmos) (cmos 0x07)
        hour := decodeHour (isBinary cmos) (is24h cmos) (cmos 0x04)
        minute := decodeIn (isBinary cmos) (cmos 0x02)
        second := decodeIn (isBinary cmos) (cmos 0x00) } := by
  have hbinary : (cmos 0x0B &&& 0x04 ≠ 0) ↔ isBinary cmos = true := bne_iff_ne.symm
  have h24h : (cmos 0x0B &&& 0x02 ≠ 0) ↔ is24h cmos = true := bne_iff_ne.symm
  rw [← century_eq (isBinary cmos) (cmos 0x32)]
  simp only [rtcRead, decodeIn, decodeHour, hbinary, h24h]

theorem year_toNat {year century : UInt8} (hyear : year.toNat < 100) (hlo : 1 ≤ century.toNat)
    (hhi : century.toNat < 100) :
    (year.toUInt32 + (if century ≠ 0 then century else 20).toUInt32 * 100).toNat =
      year.toNat + century.toNat * 100 := by
  have hne : century ≠ 0 := by
    rintro rfl
    exact absurd hlo (by decide)
  rw [if_pos hne, UInt32.toNat_add, UInt32.toNat_mul, UInt8.toNat_toUInt32, UInt8.toNat_toUInt32]
  change (year.toNat + century.toNat * 100 % 2 ^ 32) % 2 ^ 32 = _
  omega

/-- For every date and time and every format: if the registers hold it, `rtc_read` stores
it exactly in the binary formats, in the 24-hour formats and before noon. -/
theorem rtc_read_iff (cmos : Cmos) (d : DateTime) (h : Holds cmos d) :
    Stores (rtcRead cmos) d ↔ isBinary cmos = true ∨ is24h cmos = true ∨ d.hour < 12 := by
  have hfield := decode_encode (isBinary cmos)
  have hhour := decode_hour_iff (isBinary cmos) (is24h cmos) d.hour d.hour_lt
  rw [← h.hour] at hhour
  rw [rtcRead_eq]
  refine ⟨fun hstores => hhour.mp hstores.hour, fun hformat => ?_⟩
  obtain ⟨hlo, hhi⟩ := d.year_range
  have hyear := hfield (d.year % 100) (Nat.mod_lt _ (by decide))
  have hcentury := hfield (d.year / 100) (by omega)
  rw [← h.year] at hyear
  rw [← h.century] at hcentury
  have hday := d.day_range.2.trans (daysInMonth_le d.year d.month)
  have hmonth := d.month_range.2
  have hminute := d.minute_lt
  have hsecond := d.second_lt
  constructor
  · rw [year_toNat (by omega) (by omega) (by omega), hyear, hcentury]
    omega
  · rw [h.month, hfield _ (by omega)]
  · rw [h.day, hfield _ (by omega)]
  · exact hhour.mpr hformat
  · rw [h.minute, hfield _ (by omega)]
  · rw [h.second, hfield _ (by omega)]

/-- Registers that hold a date and time in the format of `statusB`. -/
def registers (statusB : UInt8) (d : DateTime) : Cmos := fun reg =>
  let binary := statusB &&& 0x04 != 0
  match reg with
  | 0x00 => encodeIn binary d.second
  | 0x02 => encodeIn binary d.minute
  | 0x04 => encodeHour binary (statusB &&& 0x02 != 0) d.hour
  | 0x07 => encodeIn binary d.day
  | 0x08 => encodeIn binary d.month
  | 0x09 => encodeIn binary (d.year % 100)
  | 0x0B => statusB
  | 0x32 => encodeIn binary (d.year / 100)
  | _ => 0

theorem holds_registers (statusB : UInt8) (d : DateTime) : Holds (registers statusB d) d :=
  ⟨rfl, rfl, rfl, rfl, rfl, rfl, rfl⟩

def leapDay : DateTime :=
  ⟨2024, 2, 29, 13, 0, 0, by decide, by decide, by decide, by decide, by decide, by decide⟩

theorem rtc_read_iff_24h :
    Holds (registers 0x02 leapDay) leapDay ∧
      (Stores (rtcRead (registers 0x02 leapDay)) leapDay ↔
        isBinary (registers 0x02 leapDay) = true ∨ is24h (registers 0x02 leapDay) = true ∨ leapDay.hour < 12) :=
  ⟨holds_registers 0x02 leapDay, rtc_read_iff _ leapDay (holds_registers 0x02 leapDay)⟩

/-- In the 12-hour BCD format 13 o'clock is stored as 81. -/
theorem rtc_read_loses_pm : ¬ ∀ (cmos : Cmos) (d : DateTime), Holds cmos d → Stores (rtcRead cmos) d := by
  intro h
  have hstores := h (registers 0x00 leapDay) leapDay (holds_registers 0x00 leapDay)
  exact absurd hstores.hour (by decide)

end Frostix.Drivers
