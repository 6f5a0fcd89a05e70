import Mathlib

namespace Eris.Drivers.Rtc

structure RtcTime where
  second : ℕ
  minute : ℕ
  hour : ℕ
  day : ℕ
  month : ℕ
  year : ℕ
  deriving DecidableEq

/-- What each access finds in each register. -/
abbrev Chip := ℕ → ℕ → ℕ

def isBinary (statusB : ℕ) : Bool := statusB / 4 % 2 = 1

def isTwentyFourHour (statusB : ℕ) : Bool := statusB / 2 % 2 = 1

def decode (value : ℕ) (binary : Bool) : ℕ := if binary then value else (value % 16 + value / 16 * 10) % 256

def decodeHour (raw : ℕ) (binary twentyFourHour : Bool) : ℕ :=
  let hour := decode (raw % 128) binary
  if !twentyFourHour ∧ raw / 128 % 2 = 1 then hour % 12 + 12 else hour

def readOnce (chip : Chip) (statusB n : ℕ) : RtcTime where
  hour := decodeHour (chip n 0x04) (isBinary statusB) (isTwentyFourHour statusB)
  second := decode (chip (n + 1) 0x00) (isBinary statusB)
  minute := decode (chip (n + 2) 0x02) (isBinary statusB)
  day := decode (chip (n + 3) 0x07) (isBinary statusB)
  month := decode (chip (n + 4) 0x08) (isBinary statusB)
  year := 2000 + decode (chip (n + 5) 0x09) (isBinary statusB)

/-- The loop that waits for an update to end, with so many looks at the register at most. -/
def settle (chip : Chip) : ℕ → ℕ → Option ℕ
  | 0, _ => none
  | looks + 1, n => if chip n 0x0A / 128 % 2 = 1 then settle chip looks (n + 1) else some (n + 1)

/-- The attempts of `rtc_read`; no result at all stands for an update that has not ended. -/
def attempts (chip : Chip) (statusB looks : ℕ) : ℕ → ℕ → Option (Option RtcTime)
  | 0, _ => some none
  | left + 1, n => do
    let n ← settle chip looks n
    if readOnce chip statusB n = readOnce chip statusB (n + 6) then return some (readOnce chip statusB n)
    else attempts chip statusB looks left (n + 12)

def rtcRead (chip : Chip) (looks : ℕ) : Option (Option RtcTime) := attempts chip (chip 0 0x0B) looks 8 1

def isLeap (year : ℕ) : Bool := year % 4 = 0 ∧ year % 100 ≠ 0 ∨ year % 400 = 0

def daysBefore : List ℕ := [0, 31, 59, 90, 120, 151, 181, 212, 243, 273, 304, 334]

def unixTime (now : RtcTime) : ℕ :=
  let years := now.year - 1970
  let days := years * 365 + (years + 1) / 4 + (if 1 ≤ now.month ∧ now.month ≤ 12 then daysBefore.getD (now.month - 1) 0 else 0)
    + (if isLeap now.year ∧ 2 < now.month then 1 else 0) + (now.day - 1)
  ((days * 24 + now.hour) * 60 + now.minute) * 60 + now.second

def rtcUnixTime (chip : Chip) (looks : ℕ) : Option ℕ := (rtcRead chip looks).map (·.elim 0 unixTime)

def monthDays (year month : ℕ) : ℕ :=
  if month = 2 then if isLeap year then 29 else 28 else if month ∈ [4, 6, 9, 11] then 30 else 31

/-- The seconds since the beginning of 1970, counted by the lengths of the years and months. -/
def secondsSinceEpoch (time : RtcTime) : ℕ :=
  let days := ((List.range' 1970 (time.year - 1970)).map fun year ↦ if isLeap year then 366 else 365).sum +
    ((List.range' 1 (time.month - 1)).map (monthDays time.year)).sum + (time.day - 1)
  ((days * 24 + time.hour) * 60 + time.minute) * 60 + time.second

/-- A time of the years that the chip can tell apart. -/
structure CivilTime extends RtcTime where
  second_lt : second < 60
  minute_lt : minute < 60
  hour_lt : hour < 24
  day_pos : 1 ≤ day
  day_le : day ≤ monthDays year month
  month_pos : 1 ≤ month
  month_le : month ≤ 12
  year_ge : 2000 ≤ year
  year_le : year ≤ 2099

def encode (value : ℕ) (binary : Bool) : ℕ := if binary then value else value / 10 * 16 + value % 10

def encodeHour (hour : ℕ) (binary twentyFourHour : Bool) : ℕ :=
  if twentyFourHour then encode hour binary
  else encode ((hour + 11) % 12 + 1) binary + if 12 ≤ hour then 128 else 0

/-- The chip at rest, with a time in its registers and no update going on. -/
def holding (time : RtcTime) (statusA statusB : ℕ) : Chip := fun _ register ↦
  match register with
  | 0x00 => encode time.second (isBinary statusB)
  | 0x02 => encode time.minute (isBinary statusB)
  | 0x04 => encodeHour time.hour (isBinary statusB) (isTwentyFourHour statusB)
  | 0x07 => encode time.day (isBinary statusB)
  | 0x08 => encode time.month (isBinary statusB)
  | 0x09 => encode (time.year - 2000) (isBinary statusB)
  | 0x0A => statusA % 128
  | 0x0B => statusB
  | _ => 0

theorem decode_encode : ∀ value < 100, ∀ binary, decode (encode value binary) binary = value := by decide

/-- Midnight comes back as noon from the twelve-hour formats. -/
theorem decodeHour_encodeHour : ∀ hour < 24, ∀ binary twentyFourHour, decodeHour (encodeHour hour binary twentyFourHour)
    binary twentyFourHour = if twentyFourHour ∨ hour ≠ 0 then hour else 12 := by decide

theorem unixTime_eq (time : CivilTime) : unixTime time.toRtcTime = secondsSinceEpoch time.toRtcTime := by
  have hyears : ∀ k < 100, ((List.range' 1970 (30 + k)).map fun year ↦ if isLeap year then 366 else 365).sum =
      (30 + k) * 365 + (30 + k + 1) / 4 := by decide +kernel
  have hmonths : ∀ k < 100, ∀ m < 12, ((List.range' 1 m).map (monthDays (2000 + k))).sum =
      daysBefore.getD m 0 + if isLeap (2000 + k) ∧ 2 < m + 1 then 1 else 0 := by decide +kernel
  obtain ⟨time, -, -, -, -, -, hpos, hle, hge, hlast⟩ := time
  obtain ⟨k, hyear⟩ := Nat.exists_eq_add_of_le hge
  obtain ⟨m, hmonth⟩ := Nat.exists_eq_add_of_le' hpos
  rw [secondsSinceEpoch, unixTime, if_pos ⟨hpos, hle⟩, hyear, hmonth, Nat.add_sub_cancel,
    show 2000 + k - 1970 = 30 + k by omega, hyears k (by omega), hmonths k (by omega) m (by omega),
    ← Nat.add_assoc ((30 + k) * 365 + _)]

theorem readOnce_holding (time : CivilTime) (statusA statusB n : ℕ) :
    readOnce (holding time.toRtcTime statusA statusB) statusB n =
      { time.toRtcTime with hour := if isTwentyFourHour statusB ∨ time.hour ≠ 0 then time.hour else 12 } := by
  obtain ⟨time, hsecond, hminute, hhour, -, hday, -, hmonth, hge, hle⟩ := time
  have hlong : time.day ≤ 31 := by
    refine hday.trans ?_
    rw [monthDays]
    split_ifs <;> decide
  simp only [readOnce, holding, decodeHour_encodeHour time.hour hhour]
  rw [decode_encode time.second (by omega), decode_encode time.minute (by omega), decode_encode time.day (by omega),
    decode_encode time.month (by omega), decode_encode (time.year - 2000) (by omega), Nat.add_sub_cancel' hge]

/-- What `rtc_read` returns is right except for the hour after midnight in the twelve-hour formats. -/
theorem rtcRead_iff (time : CivilTime) (statusA statusB looks : ℕ) :
    rtcRead (holding time.toRtcTime statusA statusB) (looks + 1) = some (some time.toRtcTime) ∧
      rtcUnixTime (holding time.toRtcTime statusA statusB) (looks + 1) = some (secondsSinceEpoch time.toRtcTime) ↔
      isTwentyFourHour statusB ∨ time.hour ≠ 0 := by
  have hsettle : ∀ n, settle (holding time.toRtcTime statusA statusB) (looks + 1) n = some (n + 1) :=
    fun n ↦ if_neg (by simp only [holding]; omega)
  have hread : rtcRead (holding time.toRtcTime statusA statusB) (looks + 1) = some (some
      { time.toRtcTime with hour := if isTwentyFourHour statusB ∨ time.hour ≠ 0 then time.hour else 12 }) := by
    change attempts _ statusB _ 8 1 = _
    rw [attempts, hsettle, Option.bind_eq_bind, Option.bind_some, readOnce_holding, readOnce_holding, if_pos rfl]
    rfl
  rw [rtcUnixTime, hread]
  by_cases hright : isTwentyFourHour statusB ∨ time.hour ≠ 0
  · rw [if_pos hright]
    exact iff_of_true ⟨rfl, congrArg some (unixTime_eq time)⟩ hright
  · rw [if_neg hright]
    refine iff_of_false (fun hsame ↦ hright (.inr fun hzero ↦ ?_)) hright
    have hhour : 12 = time.hour := congrArg RtcTime.hour (Option.some.inj (Option.some.inj hsame.1))
    omega

/-- In a twelve-hour format midnight is `12` without the mark of the afternoon, and `rtc_read` takes it for noon. -/
theorem rtcRead_midnight : ∃ midnight : CivilTime, rtcRead (holding midnight.toRtcTime 0 0) 1 =
    some (some { midnight.toRtcTime with hour := 12 }) ∧ midnight.hour = 0 :=
  ⟨⟨⟨0, 0, 0, 1, 1, 2000⟩, by decide, by decide, by decide, by decide, by decide, by decide, by decide, by decide,
    by decide⟩, by decide, rfl⟩

/-- A chip that shows the seconds it has counted, with ticks between the accesses. -/
structure Ticking where
  count : ℕ → ℕ
  mono : Monotone count
  /-- Between the first and the last of the twelve accesses of an attempt there are fewer than sixty ticks. -/
  slow : ∀ n, count (n + 11) < count n + 60
  shown : ℕ → ℕ → ℕ
  statusA : ℕ → ℕ
  statusB : ℕ
  seconds : ∀ count, decode (shown count 0x00) (isBinary statusB) = count % 60

namespace Ticking

def chip (t : Ticking) : Chip := fun n register ↦
  if register = 0x0A then t.statusA n else if register = 0x0B then t.statusB else t.shown (t.count n) register

/-- Both readings of an attempt give the time, and it is what the chip showed at one instant of the attempt. -/
def Frozen (t : Ticking) (time : RtcTime) : Prop :=
  ∃ start, readOnce t.chip t.statusB start = time ∧ readOnce t.chip t.statusB (start + 6) = time ∧
    ∃ k, start ≤ k ∧ k < start + 12 ∧ time = readOnce (fun _ ↦ t.chip k) t.statusB 0

variable {t : Ticking} {time : RtcTime} {n left looks : ℕ}

/-- Two readings agree only if no tick falls between the two accesses to the seconds. -/
theorem readOnce_frozen (h : readOnce t.chip t.statusB n = readOnce t.chip t.statusB (n + 6)) :
    readOnce t.chip t.statusB n = readOnce (fun _ ↦ t.chip (n + 1)) t.statusB 0 := by
  have hseconds : t.count (n + 1) % 60 = t.count (n + 7) % 60 := by
    rw [← t.seconds, ← t.seconds]
    exact congrArg RtcTime.second h
  have hchip : ∀ i, 1 ≤ i → i ≤ 7 → ∀ register ≠ 0x0A, t.chip (n + i) register = t.chip (n + 1) register := by
    intro i hi hi' register hregister
    have := t.slow n
    have := t.mono (show n ≤ n + 1 by omega)
    have := t.mono (show n + 1 ≤ n + i by omega)
    have := t.mono (show n + i ≤ n + 7 by omega)
    have := t.mono (show n + 7 ≤ n + 11 by omega)
    rw [chip, chip, if_neg hregister, if_neg hregister, show t.count (n + i) = t.count (n + 1) by omega]
  have hhour : decodeHour (t.chip n 0x04) _ _ = decodeHour (t.chip (n + 6) 0x04) _ _ := congrArg RtcTime.hour h
  rw [hchip 6 (by decide) (by decide) _ (by decide)] at hhour
  rw [readOnce, readOnce, hhour, hchip 2 (by decide) (by decide) _ (by decide), hchip 3 (by decide) (by decide) _ (by decide),
    hchip 4 (by decide) (by decide) _ (by decide), hchip 5 (by decide) (by decide) _ (by decide)]

theorem attempts_frozen (h : attempts t.chip t.statusB looks left n = some (some time)) : t.Frozen time := by
  induction left generalizing n with
  | zero => cases h
  | succ left ih =>
    obtain ⟨start, -, h⟩ := Option.bind_eq_some_iff.mp h
    split at h
    case isTrue hsame =>
      cases h
      exact ⟨start, rfl, hsame.symm, start + 1, by omega, by omega, readOnce_frozen hsame⟩
    case isFalse => exact ih h

/-- A tick every eight accesses, in the binary format. -/
def eighths : Ticking where
  count n := n / 8
  mono _ _ h := Nat.div_le_div_right h
  slow n := by omega
  shown count register := if register = 0x00 then count % 60 else 1
  statusA _ := 0
  statusB := 4
  seconds _ := rfl

end Ticking

end Eris.Drivers.Rtc
