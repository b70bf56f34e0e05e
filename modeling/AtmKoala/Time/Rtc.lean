import AtmKoala.Time.Civil
import Mathlib.Logic.Function.Iterate

/-!
The hardware clock of `rtc.c`: seven CMOS registers and a register that says how they are
written.

* `rtcEncode` is what `rtc_write_datetime` stores and `rtcDecode` what `rtc_read_datetime` makes
  of it; `rtcDecode_rtcEncode` puts one after the other. In the mode of two-digit bytes and
  twelve hours the reader cuts off the afternoon bit before it looks at it.
* The CMOS memory is a device `Cmos` on a state of its own. `Shows` says that reading gives the
  registers and changes none of them, `Stores` that writing a register sets it.
-/

namespace AtmKoala.Time

/-! ### The codec -/

/-- `valid` of `rtc.c`; the days of a month are those of `mdays`. -/
def RtcValid (t : Datetime) : Prop :=
  (2000 ≤ t.year ∧ t.year ≤ 2099) ∧ (1 ≤ t.month ∧ t.month ≤ 12) ∧
  (1 ≤ t.day ∧ t.day ≤ mdays t.year t.month) ∧ (0 ≤ t.hour ∧ t.hour < 24) ∧
  (0 ≤ t.minute ∧ t.minute < 60) ∧ (0 ≤ t.second ∧ t.second < 60)

instance (t : Datetime) : Decidable (RtcValid t) := inferInstanceAs (Decidable (_ ∧ _))

/-- `bcd_to_bin`. -/
def bcdToBin (v : UInt8) : UInt8 := (v &&& (0x0F : UInt8)) + (v >>> (4 : UInt8)) * 10

/-- `bin_to_bcd`. -/
def binToBcd (v : UInt8) : UInt8 := ((v / 10) <<< (4 : UInt8)) ||| (v % 10)

/-- The bytes of the seven registers, `raw` of `rtc_encode`. -/
structure Raw where
  sec : UInt8
  min : UInt8
  hour : UInt8
  day : UInt8
  mon : UInt8
  year : UInt8
  cent : UInt8
deriving DecidableEq

/-- Bit 2 of register B is clear: two decimal digits to a byte. -/
def bcdMode (regB : UInt8) : Bool := regB &&& 0x04 = 0

/-- Bit 1 of register B is clear: hours go from 1 to 12. -/
def halfMode (regB : UInt8) : Bool := regB &&& 0x02 = 0

/-- A register of `rtc_encode` other than the hour. -/
def putByte (bcd : Bool) (v : Int) : UInt8 := if bcd then binToBcd (.ofInt v) else .ofInt v

/-- A register of `rtc_read_datetime` other than the hour. -/
def getByte (bcd : Bool) (v : UInt8) : UInt8 := if bcd then bcdToBin v else v

/-- The hour register of `rtc_encode`. -/
def encodeHour (bcd half : Bool) (hour : Int) : UInt8 :=
  let pm := half && 12 ≤ hour
  let hour := if half then (if hour % 12 = 0 then 12 else hour % 12) else hour
  if pm then putByte bcd hour ||| 0x80 else putByte bcd hour

/-- `rtc_encode`. -/
def rtcEncode (t : Datetime) (regB : UInt8) : Option Raw :=
  let bcd := bcdMode regB
  if RtcValid t then
    some {
      sec := putByte bcd t.second, min := putByte bcd t.minute
      hour := encodeHour bcd (halfMode regB) t.hour, day := putByte bcd t.day
      mon := putByte bcd t.month, year := putByte bcd (t.year % 100), cent := putByte bcd (t.year / 100) }
  else none

/-- The hour of `rtc_read_datetime`: `hour & 0x7F` comes before `hour & 0x80` is looked at. -/
def decodeHour (bcd half : Bool) (hour : UInt8) : UInt8 :=
  let hour := if bcd then bcdToBin (hour &&& 0x7F) else hour
  if half then
    let pm := hour &&& 0x80
    let hour := hour &&& 0x7F
    if pm ≠ 0 then (if hour ≠ 12 then hour + 12 else hour) else if hour = 12 then 0 else hour
  else hour

/-- The date and time `rtc_read_datetime` makes of the registers. -/
def rtcDecode (regB : UInt8) (raw : Raw) : Datetime :=
  let bcd := bcdMode regB
  let year := getByte bcd raw.year
  let cent := getByte bcd raw.cent
  { year := if 20 ≤ cent ∧ cent ≤ 21 then cent.toNat * 100 + year.toNat else 2000 + year.toNat
    month := (getByte bcd raw.mon).toNat
    day := (getByte bcd raw.day).toNat
    hour := (decodeHour bcd (halfMode regB) raw.hour).toNat
    minute := (getByte bcd raw.min).toNat
    second := (getByte bcd raw.sec).toNat }

/-! ### The device -/

/-- `cmos_read` and `cmos_write` on a state of the device. -/
structure Cmos (σ : Type) where
  read : σ → UInt8 → σ × UInt8
  write : σ → UInt8 → UInt8 → σ

def rtcRegA : UInt8 := 0x0A
def rtcRegB : UInt8 := 0x0B
def rtcSec : UInt8 := 0x00
def rtcMin : UInt8 := 0x02
def rtcHour : UInt8 := 0x04
def rtcDay : UInt8 := 0x07
def rtcMonth : UInt8 := 0x08
def rtcYear : UInt8 := 0x09
def rtcCentury : UInt8 := 0x32

section Driver

variable {σ : Type} (dev : Cmos σ)

/-- The loop of `rtc_not_updating`, with the turns that are left. -/
def notUpdatingLoop : Nat → σ → σ × Bool
  | 0, s => (s, false)
  | n + 1, s =>
    let (s, a) := dev.read s rtcRegA
    if a &&& 0x80 = 0 then (s, true) else notUpdatingLoop n s

/-- `rtc_not_updating`. -/
def rtcNotUpdating (s : σ) : σ × Bool := notUpdatingLoop dev 100000 s

/-- One reading of the seven registers. -/
def readRaw (s : σ) : σ × Raw :=
  let (s, sec) := dev.read s rtcSec
  let (s, min) := dev.read s rtcMin
  let (s, hour) := dev.read s rtcHour
  let (s, day) := dev.read s rtcDay
  let (s, mon) := dev.read s rtcMonth
  let (s, year) := dev.read s rtcYear
  let (s, cent) := dev.read s rtcCentury
  (s, { sec, min, hour, day, mon, year, cent })

/-- The attempts of `rtc_read_datetime` that are left; `none` is `-1`. -/
def readAttempts : Nat → σ → σ × Option Datetime
  | 0, s => (s, none)
  | n + 1, s =>
    let (s, ready) := rtcNotUpdating dev s
    if !ready then (s, none)
    else
      let (s, b) := dev.read s rtcRegB
      let (s, raw) := readRaw dev s
      let (s, ready) := rtcNotUpdating dev s
      if !ready then readAttempts n s
      else
        let (s, raw') := readRaw dev s
        if raw ≠ raw' then readAttempts n s
        else
          let t := rtcDecode b raw
          (s, if RtcValid t then some t else none)

/-- `rtc_read_datetime`. -/
def rtcReadDatetime (s : σ) : σ × Option Datetime := readAttempts dev 4 s

/-- The register writes of `rtc_write_datetime`. -/
def writeRaw (s : σ) (b : UInt8) (raw : Raw) : σ :=
  let s := dev.write s rtcRegB (b ||| 0x80)
  let s := dev.write s rtcSec raw.sec
  let s := dev.write s rtcMin raw.min
  let s := dev.write s rtcHour raw.hour
  let s := dev.write s rtcDay raw.day
  let s := dev.write s rtcMonth raw.mon
  let s := dev.write s rtcYear raw.year
  let s := dev.write s rtcCentury raw.cent
  dev.write s rtcRegB b

/-- `rtc_write_datetime`. The seconds are not compared. -/
def rtcWriteDatetime (s : σ) (t : Datetime) : σ × Int :=
  if ¬RtcValid t then (s, -1)
  else
    let (s, ready) := rtcNotUpdating dev s
    if !ready then (s, -1)
    else
      let (s, b) := dev.read s rtcRegB
      match rtcEncode t b with
      | none => (s, -1)
      | some raw =>
        match rtcReadDatetime dev (writeRaw dev s b raw) with
        | (s, none) => (s, -1)
        | (s, some check) =>
          (s, if check.year = t.year ∧ check.month = t.month ∧ check.day = t.day ∧
            check.hour = t.hour ∧ check.minute = t.minute then 0 else -1)

end Driver

/-! ### There and back -/

theorem toNat_ofInt {v : Int} (low : 0 ≤ v) (high : v < 256) : (UInt8.ofInt v).toNat = v := by
  unfold UInt8.ofInt
  rw [UInt8.toNat_ofNat']
  omega

/-- A number of two digits survives its byte. -/
theorem getByte_putByte (bcd : Bool) {v : Int} (low : 0 ≤ v) (high : v < 100) :
    getByte bcd (putByte bcd v) = UInt8.ofInt v := by
  have all : ∀ bcd : Bool, ∀ n : Fin 100,
      getByte bcd (putByte bcd (n : Nat)) = UInt8.ofInt (n : Nat) := by decide
  obtain ⟨n, rfl⟩ := Int.eq_ofNat_of_zero_le low
  exact all bcd ⟨n, by omega⟩

/-- The hours of the afternoon lose twelve where both modes meet. -/
def DropsPm (regB : UInt8) (t : Datetime) : Prop := bcdMode regB ∧ halfMode regB ∧ 12 ≤ t.hour

instance (regB : UInt8) (t : Datetime) : Decidable (DropsPm regB t) :=
  inferInstanceAs (Decidable (_ ∧ _))

/-- The time as it is read back. -/
def heard (regB : UInt8) (t : Datetime) : Datetime :=
  { t with hour := if DropsPm regB t then t.hour - 12 else t.hour }

theorem heard_hour_iff (regB : UInt8) (t : Datetime) :
    (heard regB t).hour = t.hour ↔ ¬DropsPm regB t := by
  unfold heard
  dsimp only
  split <;> simp_all

theorem heard_valid {t : Datetime} (valid : RtcValid t) (regB : UInt8) : RtcValid (heard regB t) := by
  obtain ⟨year, month, day, hour, minute, second⟩ := valid
  refine ⟨year, month, day, ?_, minute, second⟩
  unfold heard
  dsimp only
  split
  · rename_i drops
    have late := drops.2.2
    omega
  · exact hour

theorem decodeHour_encodeHour (bcd half : Bool) {hour : Int} (low : 0 ≤ hour) (high : hour < 24) :
    (decodeHour bcd half (encodeHour bcd half hour)).toNat =
      if bcd ∧ half ∧ 12 ≤ hour then hour - 12 else hour := by
  have all : ∀ bcd half : Bool, ∀ n : Fin 24,
      ((decodeHour bcd half (encodeHour bcd half (n : Nat))).toNat : Int) =
        if bcd ∧ half ∧ 12 ≤ ((n : Nat) : Int) then ((n : Nat) : Int) - 12 else (n : Nat) := by decide
  obtain ⟨n, rfl⟩ := Int.eq_ofNat_of_zero_le low
  exact all bcd half ⟨n, by omega⟩

theorem mdays_le (y m : Int) : mdays y m ≤ 31 := by
  unfold mdays
  split
  · rename_i inside
    have month : m = 1 ∨ m = 2 ∨ m = 3 ∨ m = 4 ∨ m = 5 ∨ m = 6 ∨ m = 7 ∨ m = 8 ∨ m = 9 ∨
        m = 10 ∨ m = 11 ∨ m = 12 := by omega
    rcases month with rfl | rfl | rfl | rfl | rfl | rfl | rfl | rfl | rfl | rfl | rfl | rfl <;>
      by_cases leaps : leap y <;> simp [monthDays, leaps]
  · decide

/-- **What the reader makes of an encoded time.** -/
theorem rtcDecode_rtcEncode {t : Datetime} {regB : UInt8} {raw : Raw}
    (encoded : rtcEncode t regB = some raw) :
    rtcDecode regB raw = heard regB t := by
  unfold rtcEncode at encoded
  dsimp only at encoded
  split at encoded
  · rename_i valid
    obtain ⟨year, month, day, hour, minute, second⟩ := valid
    have long := mdays_le t.year t.month
    have century : t.year / 100 = 20 := by omega
    have back (v : Int) (low : 0 ≤ v) (high : v < 100) :
        (getByte (bcdMode regB) (putByte (bcdMode regB) v)).toNat = v := by
      rw [getByte_putByte _ low high, toNat_ofInt low (by omega)]
    have cent : getByte (bcdMode regB) (putByte (bcdMode regB) (t.year / 100)) = 20 := by
      rw [getByte_putByte _ (by omega) (by omega), century]
      rfl
    obtain rfl := Option.some.inj encoded
    unfold rtcDecode
    simp only [cent, back _ (show 0 ≤ t.year % 100 by omega) (by omega),
      back t.month (by omega) (by omega), back t.day (by omega) (by omega),
      back t.minute minute.1 (by omega), back t.second second.1 (by omega),
      decodeHour_encodeHour _ _ hour.1 hour.2]
    refine Datetime.mk.injEq .. ▸ ⟨?_, rfl, rfl, rfl, rfl, rfl⟩
    show ((20 : Nat) : Int) * 100 + t.year % 100 = t.year
    omega
  · cases encoded

/-! ### A clock that stores what it is given -/

/-- The registers a state of the device shows. Reading them changes none, and an update of the
clock ends before the driver gives up. -/
structure Shows {σ : Type} (dev : Cmos σ) (regs : σ → UInt8 → UInt8) : Prop where
  shown : ∀ s r, r ≠ rtcRegA → (dev.read s r).2 = regs s r
  kept : ∀ s r, regs (dev.read s r).1 = regs s
  settles : ∀ s, ∃ n, n < 100000 ∧
    (dev.read ((fun s => (dev.read s rtcRegA).1)^[n] s) rtcRegA).2 &&& 0x80 = 0

/-- Writing a register sets it and no other. -/
def Stores {σ : Type} (dev : Cmos σ) (regs : σ → UInt8 → UInt8) : Prop :=
  ∀ s r v, regs (dev.write s r v) = Function.update (regs s) r v

/-- The seven registers. -/
def rawOf (regs : UInt8 → UInt8) : Raw :=
  { sec := regs rtcSec, min := regs rtcMin, hour := regs rtcHour, day := regs rtcDay,
    mon := regs rtcMonth, year := regs rtcYear, cent := regs rtcCentury }

section Device

variable {σ : Type} {dev : Cmos σ} {regs : σ → UInt8 → UInt8}

theorem notUpdatingLoop_kept (shows : Shows dev regs) (n : Nat) (s : σ) :
    regs (notUpdatingLoop dev n s).1 = regs s := by
  induction n generalizing s with
  | zero => rfl
  | succ n ih =>
    unfold notUpdatingLoop
    dsimp only
    split
    · exact shows.kept s rtcRegA
    · rw [ih, shows.kept]

theorem notUpdatingLoop_ready {n k : Nat} {s : σ} (inside : n < k)
    (settled : (dev.read ((fun s => (dev.read s rtcRegA).1)^[n] s) rtcRegA).2 &&& 0x80 = 0) :
    (notUpdatingLoop dev k s).2 = true := by
  induction n generalizing k s with
  | zero =>
    obtain ⟨k, rfl⟩ : ∃ m, k = m + 1 := ⟨k - 1, by omega⟩
    exact congrArg Prod.snd (if_pos settled)
  | succ n ih =>
    obtain ⟨k, rfl⟩ : ∃ m, k = m + 1 := ⟨k - 1, by omega⟩
    unfold notUpdatingLoop
    dsimp only
    split
    · rfl
    · exact ih (by omega) settled

theorem rtcNotUpdating_spec (shows : Shows dev regs) (s : σ) :
    ∃ s', rtcNotUpdating dev s = (s', true) ∧ regs s' = regs s := by
  obtain ⟨n, inside, settled⟩ := shows.settles s
  exact ⟨_, Prod.ext rfl (notUpdatingLoop_ready inside settled), notUpdatingLoop_kept shows _ s⟩

theorem readRaw_spec (shows : Shows dev regs) (s : σ) :
    ∃ s', readRaw dev s = (s', rawOf (regs s)) ∧ regs s' = regs s := by
  refine ⟨_, Prod.ext rfl ?_, ?_⟩
  · unfold readRaw rawOf
    dsimp only
    rw [shows.shown _ rtcSec (by decide), shows.shown _ rtcMin (by decide),
      shows.shown _ rtcHour (by decide), shows.shown _ rtcDay (by decide),
      shows.shown _ rtcMonth (by decide), shows.shown _ rtcYear (by decide),
      shows.shown _ rtcCentury (by decide)]
    simp only [shows.kept]
  · unfold readRaw
    simp only [shows.kept]

/-- **The reader** sees the registers in its first attempt. -/
theorem rtcReadDatetime_eq (shows : Shows dev regs) (s : σ) :
    (rtcReadDatetime dev s).2 =
      if RtcValid (rtcDecode (regs s rtcRegB) (rawOf (regs s))) then
        some (rtcDecode (regs s rtcRegB) (rawOf (regs s)))
      else none := by
  obtain ⟨s₁, ready₁, regs₁⟩ := rtcNotUpdating_spec shows s
  obtain ⟨s₂, read₂, regs₂⟩ := readRaw_spec shows (dev.read s₁ rtcRegB).1
  obtain ⟨s₃, ready₃, regs₃⟩ := rtcNotUpdating_spec shows s₂
  obtain ⟨s₄, read₄, regs₄⟩ := readRaw_spec shows s₃
  have mode : (dev.read s₁ rtcRegB).2 = regs s rtcRegB := by
    rw [shows.shown _ _ (by decide), regs₁]
  have same : regs (dev.read s₁ rtcRegB).1 = regs s := by rw [shows.kept, regs₁]
  unfold rtcReadDatetime readAttempts
  simp only [ready₁, read₂, ready₃, read₄, regs₃, regs₂, same, mode, Bool.not_true, ne_eq,
    not_true_eq_false, if_false, Bool.false_eq_true]

/-- The writer leaves the encoded time in the registers, and the mode as it was. -/
theorem writeRaw_spec (stores : Stores dev regs) (s : σ) (raw : Raw) :
    rawOf (regs (writeRaw dev s (regs s rtcRegB) raw)) = raw ∧
      regs (writeRaw dev s (regs s rtcRegB) raw) rtcRegB = regs s rtcRegB := by
  unfold writeRaw
  simp only [stores _ _ _]
  exact ⟨by rfl, by rfl⟩

theorem rtcReadDatetime_encoded (shows : Shows dev regs) {t : Datetime} (valid : RtcValid t) {s : σ}
    (encoded : rtcEncode t (regs s rtcRegB) = some (rawOf (regs s))) :
    (rtcReadDatetime dev s).2 = some (heard (regs s rtcRegB) t) := by
  rw [rtcReadDatetime_eq shows, rtcDecode_rtcEncode encoded, if_pos (heard_valid valid _)]

theorem rtcWriteDatetime_spec (shows : Shows dev regs) (stores : Stores dev regs) {t : Datetime}
    (valid : RtcValid t) (s : σ) :
    (rtcWriteDatetime dev s t).2 = 0 ↔ (heard (regs s rtcRegB) t).hour = t.hour := by
  obtain ⟨s₁, ready, regs₁⟩ := rtcNotUpdating_spec shows s
  have mode : (dev.read s₁ rtcRegB).2 = regs s rtcRegB := by
    rw [shows.shown _ _ (by decide), regs₁]
  have same : regs (dev.read s₁ rtcRegB).1 = regs s := by rw [shows.kept, regs₁]
  obtain ⟨raw, encoded⟩ : ∃ raw, rtcEncode t (regs s rtcRegB) = some raw := by
    unfold rtcEncode
    exact ⟨_, if_pos valid⟩
  obtain ⟨written, kept⟩ := writeRaw_spec stores (dev.read s₁ rtcRegB).1 raw
  rw [same] at written kept
  have read := rtcReadDatetime_encoded shows valid (show rtcEncode t
    (regs (writeRaw dev (dev.read s₁ rtcRegB).1 (regs s rtcRegB) raw) rtcRegB) = some (rawOf _) by
      rw [kept, encoded, written])
  rw [kept] at read
  obtain ⟨s₂, done⟩ : ∃ s₂, rtcReadDatetime dev
      (writeRaw dev (dev.read s₁ rtcRegB).1 (regs s rtcRegB) raw) =
        (s₂, some (heard (regs s rtcRegB) t)) := ⟨_, Prod.ext rfl read⟩
  unfold rtcWriteDatetime
  rw [if_neg (not_not_intro valid)]
  simp only [ready, Bool.not_true, Bool.false_eq_true, if_false, mode, encoded, done]
  have compared : (heard (regs s rtcRegB) t).year = t.year ∧ (heard (regs s rtcRegB) t).month = t.month ∧
      (heard (regs s rtcRegB) t).day = t.day ∧ (heard (regs s rtcRegB) t).minute = t.minute :=
    ⟨rfl, rfl, rfl, rfl⟩
  simp [compared]

/-- **The hardware clock keeps a time** of the years 2000 to 2099, unless it is in the afternoon
and the mode one of two-digit bytes and twelve hours. -/
theorem rtc_keeps_iff (shows : Shows dev regs) {t : Datetime} (valid : RtcValid t) (s : σ) :
    (rtcEncode t (regs s rtcRegB) = some (rawOf (regs s)) →
      ((rtcReadDatetime dev s).2 = some t ↔ ¬DropsPm (regs s rtcRegB) t)) ∧
    (Stores dev regs → ((rtcWriteDatetime dev s t).2 = 0 ↔ ¬DropsPm (regs s rtcRegB) t)) := by
  rw [← heard_hour_iff]
  refine ⟨fun encoded => ?_, fun stores => rtcWriteDatetime_spec shows stores valid s⟩
  rw [rtcReadDatetime_encoded shows valid encoded, Option.some.injEq]
  constructor
  · intro same
    rw [same]
  · intro hour
    exact congrArg (fun h => { t with hour := h }) hour

end Device

/-! ### Plain registers -/

/-- CMOS registers without a clock behind them: they are never in an update. -/
def plain : Cmos (UInt8 → UInt8) where
  read s r := (s, if r = rtcRegA then 0 else s r)
  write := Function.update

theorem plain_shows : Shows plain id where
  shown _ _ other := if_neg other
  kept _ _ := rfl
  settles s := ⟨0, by decide, by simp [plain]⟩

/-- The time of `rtc_write_selftest`. -/
def selftestTime : Datetime := ⟨2026, 2, 3, 13, 4, 5⟩

/-- The bytes `rtc_write_selftest` expects with register B at 0. -/
def selftestRegs : UInt8 → UInt8 :=
  writeRaw plain (fun _ => 0) 0 ⟨0x05, 0x04, 0x81, 0x03, 0x02, 0x26, 0x20⟩

/-- One in the afternoon is read as one in the morning, and writing it fails. -/
theorem rtc_drops_pm : RtcValid selftestTime ∧
    rtcEncode selftestTime (selftestRegs rtcRegB) = some (rawOf selftestRegs) ∧
    (rtcReadDatetime plain selftestRegs).2 = some { selftestTime with hour := 1 } ∧
    (rtcWriteDatetime plain selftestRegs selftestTime).2 = -1 := by
  decide

/-- In the mode of 24 hours the same time is kept. -/
theorem rtc_keeps_selftest :
    (rtcReadDatetime plain (writeRaw plain (fun _ => 0) 6 ⟨5, 4, 13, 3, 2, 26, 20⟩)).2 =
      some selftestTime ∧
    (rtcWriteDatetime plain (Function.update (fun _ => 0) rtcRegB 6) selftestTime).2 = 0 :=
  ⟨((rtc_keeps_iff plain_shows (by decide) _).1 (by decide)).mpr (by decide),
    ((rtc_keeps_iff plain_shows (by decide) _).2 fun _ _ _ => rfl).mpr (by decide)⟩

end AtmKoala.Time
