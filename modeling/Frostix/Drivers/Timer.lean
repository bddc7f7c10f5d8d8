import Mathlib

/-!
The clock (`pit.c`, `time.c`). The tick counter is incremented by the interrupt handler,
and once more by `time_update`, which the handler calls when the counter reaches a
multiple of the frequency. -/
namespace Frostix.Drivers

/-- `time_t`. -/
structure Time where
  year : UInt32
  month : UInt8
  day : UInt8
  hour : UInt8
  minute : UInt8
  second : UInt8
  deriving DecidableEq

abbrev Cmos := UInt8 → UInt8

def bcdToBin (val : UInt8) : UInt8 := (val >>> 4) * 10 + (val &&& 0x0F)

/-- The hour of the 12-hour mode, with its PM bit, as an hour of the day. -/
def hour24 (hour : UInt8) : UInt8 :=
  let isPm := hour &&& 0x80 ≠ 0
  let hour := hour &&& 0x7F
  if isPm ∧ hour ≠ 12 then hour + 12
  else if ¬ isPm ∧ hour = 12 then 0
  else hour

/-- `rtc_read` behind its wait for the end of an update. -/
def rtcRead (cmos : Cmos) : Time :=
  let statusB := cmos 0x0B
  let isBinary := statusB &&& 0x04 ≠ 0
  let is24h := statusB &&& 0x02 ≠ 0
  let decode := fun val => if isBinary then val else bcdToBin val
  let hour := decode (cmos 0x04)
  let century := cmos 0x32
  let century := if ¬ isBinary ∧ century ≠ 0 then bcdToBin century else century
  { year := (decode (cmos 0x09)).toUInt32 + (if century ≠ 0 then century else 20).toUInt32 * 100
    month := decode (cmos 0x08)
    day := decode (cmos 0x07)
    hour := if is24h then hour else hour24 hour
    minute := decode (cmos 0x02)
    second := decode (cmos 0x00) }

def pitFrequency : UInt64 := 100

/-- The static variables of the clock, how often the RTC was read, and the times that
`draw_status` showed. -/
structure Clock where
  currentTime : Time
  ticks : UInt64
  lastSecondTick : UInt64
  lastSecond : UInt8
  rtcReads : Nat
  drawn : List Time

section Clock

-- what the RTC shows at each read
variable (rtc : Nat → Cmos)

def stepSecond (now : Time × Nat) : Time × Nat :=
  let (t, reads) := now
  let t := { t with second := t.second + 1 }
  if 60 ≤ t.second then
    let t := { t with second := 0, minute := t.minute + 1 }
    if 60 ≤ t.minute then
      let t := { t with minute := 0, hour := t.hour + 1 }
      if 24 ≤ t.hour then (rtcRead (rtc reads), reads + 1) else (t, reads)
    else (t, reads)
  else (t, reads)

def timeInit (c : Clock) : Clock :=
  { c with currentTime := rtcRead (rtc c.rtcReads), rtcReads := c.rtcReads + 1, ticks := 0 }

def timeUpdate (c : Clock) : Clock :=
  let c := { c with ticks := c.ticks + 1 }
  if pitFrequency ≤ c.ticks - c.lastSecondTick then
    let (t, reads) := stepSecond rtc (c.currentTime, c.rtcReads)
    let c := { c with lastSecondTick := c.ticks, currentTime := t, rtcReads := reads }
    if c.lastSecond ≠ c.currentTime.second then
      { c with drawn := c.drawn ++ [c.currentTime], lastSecond := c.currentTime.second }
    else c
  else c

def pitHandler (c : Clock) : Clock :=
  let c := { c with ticks := c.ticks + 1 }
  if c.ticks % pitFrequency = 0 then timeUpdate rtc c else c

/-- `time_get_uptime_ms`. -/
def Clock.uptimeMs (c : Clock) : UInt64 := c.ticks * 1000 / pitFrequency

/-- The clock after `time_init` and `n` timer interrupts. -/
def afterInterrupts (c : Clock) (n : Nat) : Clock := (pitHandler rtc)^[n] (timeInit rtc c)

/-- After `n` interrupts at 100 Hz the uptime is `10 * n` milliseconds, and the time has
made a step for each full second. -/
def KeepsTime (c : Clock) (n : Nat) : Prop :=
  let start := timeInit rtc c
  let now := afterInterrupts rtc c n
  now.uptimeMs.toNat = 10 * n ∧
    (now.currentTime, now.rtcReads) = (stepSecond rtc)^[n / 100] (start.currentTime, start.rtcReads)

theorem afterInterrupts_succ (c : Clock) (n : Nat) :
    afterInterrupts rtc c (n + 1) = pitHandler rtc (afterInterrupts rtc c n) :=
  Function.iterate_succ_apply' _ _ _

theorem toNat_succ {t : UInt64} (h : t.toNat + 1 < 2 ^ 64) : (t + 1).toNat = t.toNat + 1 := by
  rw [UInt64.toNat_add]
  exact Nat.mod_eq_of_lt h

theorem timeUpdate_ticks (c : Clock) : (timeUpdate rtc c).ticks = c.ticks + 1 := by
  unfold timeUpdate
  dsimp only
  split_ifs <;> rfl

theorem pitHandler_ticks {c : Clock} (h : c.ticks.toNat + 2 < 2 ^ 64) :
    (pitHandler rtc c).ticks.toNat =
      if (c.ticks.toNat + 1) % 100 = 0 then c.ticks.toNat + 2 else c.ticks.toNat + 1 := by
  have hone := toNat_succ (t := c.ticks) (by omega)
  have htwo := toNat_succ (t := c.ticks + 1) (by omega)
  rw [hone] at htwo
  have hcond : (c.ticks + 1) % pitFrequency = 0 ↔ (c.ticks.toNat + 1) % 100 = 0 := by
    rw [← UInt64.toNat_inj, UInt64.toNat_mod, hone]
    rfl
  unfold pitHandler
  dsimp only
  by_cases hmod : (c.ticks.toNat + 1) % 100 = 0
  · rw [if_pos (hcond.mpr hmod), if_pos hmod, timeUpdate_ticks rtc]
    exact htwo
  · rw [if_neg (fun h => hmod (hcond.mp h)), if_neg hmod]
    exact hone

theorem ticks_after (c : Clock) {n : Nat} (hn : 1000 * n < 2 ^ 64) :
    (afterInterrupts rtc c n).ticks.toNat = n + (n - 1) / 99 := by
  induction n with
  | zero => rfl
  | succ n ih =>
      have hticks := ih (by omega)
      have hnext := pitHandler_ticks rtc (c := afterInterrupts rtc c n) (by omega)
      rw [afterInterrupts_succ rtc, hnext, hticks]
      split <;> omega

theorem time_before (c : Clock) {n : Nat} (hn : n < 100) :
    (afterInterrupts rtc c n).currentTime = (timeInit rtc c).currentTime ∧
      (afterInterrupts rtc c n).rtcReads = (timeInit rtc c).rtcReads := by
  induction n with
  | zero => exact ⟨rfl, rfl⟩
  | succ n ih =>
      have hticks : (afterInterrupts rtc c n).ticks.toNat = n + (n - 1) / 99 :=
        ticks_after rtc c (by omega)
      have hone := toNat_succ (t := (afterInterrupts rtc c n).ticks) (by omega)
      have hcond : ¬ ((afterInterrupts rtc c n).ticks + 1) % pitFrequency = 0 := by
        rw [← UInt64.toNat_inj, UInt64.toNat_mod, hone, hticks]
        change ¬ (n + (n - 1) / 99 + 1) % 100 = 0
        omega
      rw [afterInterrupts_succ rtc, pitHandler]
      dsimp only
      rw [if_neg hcond]
      exact ih (by omega)

theorem uptime_toNat (c : Clock) : c.uptimeMs.toNat = c.ticks.toNat * 1000 % 2 ^ 64 / 100 := by
  rw [Clock.uptimeMs, UInt64.toNat_div, UInt64.toNat_mul]
  rfl

/-- The uptime and the time are right exactly during the first 99 interrupts. -/
theorem keepsTime_iff (c : Clock) (n : Nat) : KeepsTime rtc c n ↔ n < 100 := by
  constructor
  · rintro ⟨huptime, -⟩
    rw [uptime_toNat] at huptime
    by_contra hge
    have hwrapped := Nat.mod_lt ((afterInterrupts rtc c n).ticks.toNat * 1000) (Nat.two_pow_pos 64)
    have hsmall : 1000 * n < 2 ^ 64 := by omega
    have hticks := ticks_after rtc c hsmall
    -- from the hundredth interrupt on there is at least one tick too many
    have hmore : n < (afterInterrupts rtc c n).ticks.toNat := by omega
    generalize (afterInterrupts rtc c n).ticks.toNat = t at *
    rcases Nat.lt_or_ge (t * 1000) (2 ^ 64) with hlt | hwrap
    · rw [Nat.mod_eq_of_lt hlt] at huptime
      omega
    · rw [Nat.mod_eq_sub_mod hwrap, Nat.mod_eq_of_lt (by omega)] at huptime
      omega
  · intro hn
    obtain ⟨htime, hreads⟩ := time_before rtc c hn
    refine ⟨?_, ?_⟩
    · have hticks := ticks_after rtc c (n := n) (by omega)
      rw [uptime_toNat, hticks, Nat.div_eq_of_lt (by omega : n - 1 < 99), Nat.add_zero,
        Nat.mod_eq_of_lt (by omega)]
      omega
    · rw [Nat.div_eq_of_lt hn, htime, hreads]
      rfl

/-- After the hundredth interrupt the uptime is 1010 milliseconds. -/
theorem uptime_hundred :
    ¬ ∀ (rtc : Nat → Cmos) (c : Clock) (n : Nat), KeepsTime rtc c n := by
  intro h
  have huptime := (h (fun _ _ => 0) ⟨⟨0, 0, 0, 0, 0, 0⟩, 0, 0, 255, 0, []⟩ 100).1
  have hrun : (afterInterrupts (fun _ _ => 0) ⟨⟨0, 0, 0, 0, 0, 0⟩, 0, 0, 255, 0, []⟩ 100).uptimeMs.toNat =
      1010 := by decide +kernel
  rw [hrun] at huptime
  exact absurd huptime (by decide)

end Clock

end Frostix.Drivers
