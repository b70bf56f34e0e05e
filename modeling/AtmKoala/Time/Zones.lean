import AtmKoala.Time.Tzif

/-!
Civil time and the zones of `atm_time.c`.

* `civilOf` is `seconds_to_civil`, whose loops run as far as the days go. From 1970 on it and
  the clock `rtcUnixSeconds` are inverse to one another (`civilOf_spec`,
  `civilOf_rtcUnixSeconds`), and the clock keeps the order of the dates
  (`rtcUnixSeconds_lt_iff`).
* `atmTimezoneConvert` is the conversion by the table of zones. Its result denotes the shifted
  instant always; it is a date exactly if that instant is not before 1970
  (`atmTimezoneConvert_iff`).
-/

namespace AtmKoala.Time

open Lib

/-! ### The way back -/

/-- The date `seconds_to_civil` counts off, were `year` an unbounded number. -/
def civilOf (seconds : Int) : Datetime :=
  let days := seconds.tdiv 86400
  let rem := seconds.tmod 86400
  let (days, rem) := if rem < 0 then (days - 1, rem + 86400) else (days, rem)
  let (days, year) := countOff yearDays days.toNat days 1970
  let (days, month) := countOff (mdays year) 12 days 1
  { year, month, day := days + 1,
    hour := rem.tdiv 3600, minute := (rem.tdiv 60).tmod 60, second := rem.tmod 60 }

/-- The largest `int`. -/
def intMax : Int := 2147483647

/-- `seconds_to_civil`: `none` if `year++` leaves the range of `int`, which C leaves undefined. -/
def atmSecondsToCivil (seconds : Int) : Option Datetime :=
  if intMax < (civilOf seconds).year then none else some (civilOf seconds)

/-- A date and time from 1970 on. -/
structure Civil (t : Datetime) : Prop where
  year : 1970 ≤ t.year
  month : 1 ≤ t.month ∧ t.month ≤ 12
  day : 1 ≤ t.day ∧ t.day ≤ mdays t.year t.month
  hour : 0 ≤ t.hour ∧ t.hour < 24
  minute : 0 ≤ t.minute ∧ t.minute < 60
  second : 0 ≤ t.second ∧ t.second < 60

theorem Valid.civil {t : Datetime} (valid : Valid t) : Civil t where
  year := valid.year.1
  month := valid.month
  day := valid.day
  hour := valid.hour
  minute := valid.minute
  second := valid.second

/-- The order of the dates: year, month, day, hour, minute, second. -/
def Datetime.Earlier (t t' : Datetime) : Prop :=
  t.year < t'.year ∨ t.year = t'.year ∧ (t.month < t'.month ∨ t.month = t'.month ∧
    (t.day < t'.day ∨ t.day = t'.day ∧ (t.hour < t'.hour ∨ t.hour = t'.hour ∧
      (t.minute < t'.minute ∨ t.minute = t'.minute ∧ t.second < t'.second))))

/-! ### The zones -/

/-- `tz_rule_t`. -/
inductive TzRule where
  | fixed
  | eu
  | us
  | au
  | nz
  | chile
  | egypt
  | israel

/-- `tz_entry_t`. -/
structure TzEntry where
  name : String
  standardMinutes : Int
  dstMinutes : Int
  rule : TzRule

/-- `tz_table`. -/
def tzTable : List TzEntry :=
  [⟨"UTC", 0, 0, .fixed⟩, ⟨"Europe/London", 0, 60, .eu⟩, ⟨"Europe/Dublin", 0, 60, .eu⟩,
   ⟨"Atlantic/Reykjavik", 0, 0, .fixed⟩, ⟨"Europe/Lisbon", 0, 60, .eu⟩,
   ⟨"Europe/Madrid", 60, 120, .eu⟩, ⟨"Europe/Paris", 60, 120, .eu⟩,
   ⟨"Europe/Brussels", 60, 120, .eu⟩, ⟨"Europe/Amsterdam", 60, 120, .eu⟩,
   ⟨"Europe/Berlin", 60, 120, .eu⟩, ⟨"Europe/Copenhagen", 60, 120, .eu⟩,
   ⟨"Europe/Oslo", 60, 120, .eu⟩, ⟨"Europe/Stockholm", 60, 120, .eu⟩,
   ⟨"Europe/Rome", 60, 120, .eu⟩, ⟨"Europe/Vienna", 60, 120, .eu⟩,
   ⟨"Europe/Prague", 60, 120, .eu⟩, ⟨"Europe/Warsaw", 60, 120, .eu⟩,
   ⟨"Europe/Budapest", 60, 120, .eu⟩, ⟨"Europe/Athens", 120, 180, .eu⟩,
   ⟨"Europe/Bucharest", 120, 180, .eu⟩, ⟨"Europe/Helsinki", 120, 180, .eu⟩,
   ⟨"Europe/Kyiv", 120, 180, .eu⟩, ⟨"Europe/Riga", 120, 180, .eu⟩,
   ⟨"Europe/Vilnius", 120, 180, .eu⟩, ⟨"Europe/Moscow", 180, 180, .fixed⟩,
   ⟨"Europe/Istanbul", 180, 180, .fixed⟩, ⟨"Africa/Casablanca", 60, 60, .fixed⟩,
   ⟨"Africa/Algiers", 60, 60, .fixed⟩, ⟨"Africa/Lagos", 60, 60, .fixed⟩,
   ⟨"Africa/Cairo", 120, 180, .egypt⟩, ⟨"Africa/Johannesburg", 120, 120, .fixed⟩,
   ⟨"Africa/Nairobi", 180, 180, .fixed⟩, ⟨"Africa/Addis_Ababa", 180, 180, .fixed⟩,
   ⟨"Asia/Jerusalem", 120, 180, .israel⟩, ⟨"Asia/Riyadh", 180, 180, .fixed⟩,
   ⟨"Asia/Dubai", 240, 240, .fixed⟩, ⟨"Asia/Tehran", 210, 210, .fixed⟩,
   ⟨"Asia/Kabul", 270, 270, .fixed⟩, ⟨"Asia/Karachi", 300, 300, .fixed⟩,
   ⟨"Asia/Tashkent", 300, 300, .fixed⟩, ⟨"Asia/Yekaterinburg", 300, 300, .fixed⟩,
   ⟨"Asia/Omsk", 360, 360, .fixed⟩, ⟨"Asia/Novosibirsk", 420, 420, .fixed⟩,
   ⟨"Asia/Krasnoyarsk", 420, 420, .fixed⟩, ⟨"Asia/Irkutsk", 480, 480, .fixed⟩,
   ⟨"Asia/Yakutsk", 540, 540, .fixed⟩, ⟨"Asia/Vladivostok", 600, 600, .fixed⟩,
   ⟨"Asia/Magadan", 660, 660, .fixed⟩, ⟨"Asia/Kamchatka", 720, 720, .fixed⟩,
   ⟨"Asia/Kolkata", 330, 330, .fixed⟩, ⟨"Asia/Kathmandu", 345, 345, .fixed⟩,
   ⟨"Asia/Colombo", 330, 330, .fixed⟩, ⟨"Asia/Dhaka", 360, 360, .fixed⟩,
   ⟨"Asia/Yangon", 390, 390, .fixed⟩, ⟨"Asia/Bangkok", 420, 420, .fixed⟩,
   ⟨"Asia/Ho_Chi_Minh", 420, 420, .fixed⟩, ⟨"Asia/Jakarta", 420, 420, .fixed⟩,
   ⟨"Asia/Kuala_Lumpur", 480, 480, .fixed⟩, ⟨"Asia/Singapore", 480, 480, .fixed⟩,
   ⟨"Asia/Manila", 480, 480, .fixed⟩, ⟨"Asia/Shanghai", 480, 480, .fixed⟩,
   ⟨"Asia/Hong_Kong", 480, 480, .fixed⟩, ⟨"Asia/Taipei", 480, 480, .fixed⟩,
   ⟨"Asia/Ulaanbaatar", 480, 480, .fixed⟩, ⟨"Asia/Seoul", 540, 540, .fixed⟩,
   ⟨"Asia/Tokyo", 540, 540, .fixed⟩, ⟨"Australia/Perth", 480, 480, .fixed⟩,
   ⟨"Australia/Darwin", 570, 570, .fixed⟩, ⟨"Australia/Adelaide", 570, 630, .au⟩,
   ⟨"Australia/Brisbane", 600, 600, .fixed⟩, ⟨"Australia/Sydney", 600, 660, .au⟩,
   ⟨"Australia/Hobart", 600, 660, .au⟩, ⟨"Pacific/Port_Moresby", 600, 600, .fixed⟩,
   ⟨"Pacific/Guam", 600, 600, .fixed⟩, ⟨"Pacific/Fiji", 720, 720, .fixed⟩,
   ⟨"Pacific/Auckland", 720, 780, .nz⟩, ⟨"Pacific/Honolulu", -600, -600, .fixed⟩,
   ⟨"Pacific/Pago_Pago", -660, -660, .fixed⟩, ⟨"America/St_Johns", -210, -150, .us⟩,
   ⟨"America/Halifax", -240, -180, .us⟩, ⟨"America/Toronto", -300, -240, .us⟩,
   ⟨"America/New_York", -300, -240, .us⟩, ⟨"America/Detroit", -300, -240, .us⟩,
   ⟨"America/Indiana/Indianapolis", -300, -240, .us⟩, ⟨"America/Chicago", -360, -300, .us⟩,
   ⟨"America/Winnipeg", -360, -300, .us⟩, ⟨"America/Mexico_City", -360, -360, .fixed⟩,
   ⟨"America/Guatemala", -360, -360, .fixed⟩, ⟨"America/Costa_Rica", -360, -360, .fixed⟩,
   ⟨"America/Panama", -300, -300, .fixed⟩, ⟨"America/Bogota", -300, -300, .fixed⟩,
   ⟨"America/Lima", -300, -300, .fixed⟩, ⟨"America/Caracas", -240, -240, .fixed⟩,
   ⟨"America/La_Paz", -240, -240, .fixed⟩, ⟨"America/Santiago", -240, -180, .chile⟩,
   ⟨"America/Asuncion", -180, -180, .fixed⟩, ⟨"America/Montevideo", -180, -180, .fixed⟩,
   ⟨"America/Argentina/Buenos_Aires", -180, -180, .fixed⟩,
   ⟨"America/Sao_Paulo", -180, -180, .fixed⟩, ⟨"America/Phoenix", -420, -420, .fixed⟩,
   ⟨"America/Denver", -420, -360, .us⟩, ⟨"America/Edmonton", -360, -360, .fixed⟩,
   ⟨"America/Los_Angeles", -480, -420, .us⟩, ⟨"America/Vancouver", -480, -420, .us⟩,
   ⟨"America/Anchorage", -540, -480, .us⟩]

/-- `tz_find`. -/
def tzFind (name : String) : Option TzEntry :=
  tzTable.find? fun z => z.name = if name = "" then "UTC" else name

/-- `civil_seconds` of `atm_time.c`. -/
def secondsOf (year month day hour : Int) : Int := rtcUnixSeconds ⟨year, month, day, hour, 0, 0⟩

/-- `civil_weekday`. -/
def civilWeekday (year month day : Int) : Int :=
  ((secondsOf year month day 0).tdiv 86400 + 4).tmod 7

/-- `nth_weekday`. -/
def nthWeekday (year month weekday nth : Int) : Int :=
  let day := 1 + (weekday - civilWeekday year month 1 + 7).tmod 7 + 7 * (nth - 1)
  if day ≤ mdays year month then day else 0

/-- `last_weekday`. -/
def lastWeekday (year month weekday : Int) : Int :=
  let day := mdays year month
  day - (civilWeekday year month day - weekday + 7).tmod 7

/-- `between`. -/
def between (now start finish : Int) : Bool := start ≤ now ∧ now < finish

/-- One turn of the loop of `south_dst`: the summer that starts in the year `base`. -/
def southSummer (now base : Int) (rule : TzRule) (stdMin dstMin : Int) : Bool :=
  let (startMonth, startDay, startHour, endHour) : Int × Int × Int × Int :=
    match rule with
    | .au => (10, nthWeekday base 10 0 1, 2, 3)
    | .nz => (9, lastWeekday base 9 0, 2, 3)
    | _ => (9, nthWeekday base 9 0 1, 0, 0)
  between now (secondsOf base startMonth startDay startHour - stdMin * 60)
    (secondsOf (base + 1) 4 (nthWeekday (base + 1) 4 0 1) endHour - dstMin * 60)

/-- `south_dst`. -/
def southDst (now year : Int) (rule : TzRule) (stdMin dstMin : Int) : Bool :=
  southSummer now (year - 1) rule stdMin dstMin || southSummer now year rule stdMin dstMin

/-- `timezone_dst`. -/
def timezoneDst (z : TzEntry) (utc : Datetime) : Bool :=
  let y := utc.year
  let now := rtcUnixSeconds utc
  match z.rule with
  | .fixed => false
  | .eu =>
    between now (secondsOf y 3 (lastWeekday y 3 0) 1) (secondsOf y 10 (lastWeekday y 10 0) 1)
  | .us =>
    between now (secondsOf y 3 (nthWeekday y 3 0 2) 2 - z.standardMinutes * 60)
      (secondsOf y 11 (nthWeekday y 11 0 1) 2 - z.dstMinutes * 60)
  | .egypt =>
    between now (secondsOf y 4 (lastWeekday y 4 5) 0 - z.standardMinutes * 60)
      (secondsOf y 10 (lastWeekday y 10 4) 24 - z.dstMinutes * 60)
  | .israel =>
    between now (secondsOf y 3 (lastWeekday y 3 0 - 2) 2 - z.standardMinutes * 60)
      (secondsOf y 10 (lastWeekday y 10 0) 2 - z.dstMinutes * 60)
  | rule => southDst now y rule z.standardMinutes z.dstMinutes

/-- The minutes `atm_timezone_convert` adds in the zone. -/
def TzEntry.offset (z : TzEntry) (utc : Datetime) : Int :=
  if timezoneDst z utc then z.dstMinutes else z.standardMinutes

/-- `tzif_is_loaded`. -/
def tzifIsLoaded (active : Option Zone) (zone : String) : Bool :=
  active.any fun z => z.name = zone

/-- `atm_timezone_convert`; `none` is an error. -/
def atmTimezoneConvert (active : Option Zone) (load : String → Option Rules) (zone : String)
    (utc : Datetime) : Option Converted :=
  if tzifIsLoaded active zone then tzifConvert active load zone utc
  else if ¬Valid utc then none
  else
    (tzFind zone).bind fun z =>
      (atmSecondsToCivil (rtcUnixSeconds utc + z.offset utc * 60)).map fun time =>
        ⟨time, z.offset utc, timezoneDst z utc⟩

/-! ### From seconds to dates -/

theorem yearDays_pos (y : Int) : 365 ≤ yearDays y ∧ yearDays y ≤ 366 := by
  unfold yearDays
  split <;> omega

theorem total_yearDays (x : Int) (k : Nat) :
    (k : Int) ≤ total yearDays x k ∧ total yearDays x k ≤ 366 * k := by
  induction k generalizing x with
  | zero => exact ⟨le_refl _, le_refl _⟩
  | succ k ih =>
    have rest := ih (x + 1)
    have first := yearDays_pos x
    rw [total]
    omega

/-- The twelve months make up the year. -/
theorem total_mdays (y : Int) : total (mdays y) 1 12 = yearDays y := by
  by_cases leaps : leap y <;> simp [total, mdays, monthDays, yearDays, leaps]

/-- `civilOf` with the days and the seconds of the day apart. -/
theorem civilOf_eq (seconds : Int) :
    civilOf seconds =
      let days := seconds / 86400
      let years := countOff yearDays days.toNat days 1970
      let months := countOff (mdays years.2) 12 years.1 1
      { year := years.2, month := months.2, day := months.1 + 1,
        hour := seconds % 86400 / 3600, minute := seconds % 86400 / 60 % 60,
        second := seconds % 86400 % 60 } := by
  obtain ⟨hour, minute, second⟩ := split_day (Int.emod_nonneg seconds (by omega : (86400 : Int) ≠ 0))
  unfold civilOf
  simp only [split_seconds, hour, minute, second]

/-- **Seconds from 1970 on become a date, and the clock gives them back.** -/
theorem civilOf_spec {seconds : Int} (start : 0 ≤ seconds) :
    Civil (civilOf seconds) ∧ rtcUnixSeconds (civilOf seconds) = seconds := by
  rw [civilOf_eq]
  dsimp only
  generalize days_eq : seconds / 86400 = days
  have someDays : 0 ≤ days := by omega
  have fits : days < total yearDays 1970 (days.toNat + 1) := by
    have := total_yearDays 1970 (days.toNat + 1)
    omega
  obtain ⟨k, -, year, years, left, inside⟩ := countOff_within someDays fits (le_refl _)
  rw [year]
  generalize (countOff yearDays days.toNat days 1970).1 = dayOf at *
  have months := total_mdays (1970 + (k : Int))
  rw [← months] at inside
  obtain ⟨j, below, month, whole, left', inside'⟩ :=
    countOff_within (n := 12) left inside (by omega)
  rw [month]
  generalize (countOff (mdays (1970 + (k : Int))) 12 dayOf 1).1 = rest at *
  have count : (1970 + (k : Int) - 1970).toNat = k := by omega
  have count' : (1 + (j : Int) - 1).toNat = j := by omega
  constructor
  · constructor
    all_goals
      dsimp only
      omega
  · unfold rtcUnixSeconds daysOfYears daysOfMonths
    dsimp only
    rw [count, count']
    omega

/-! ### The order of the dates -/

theorem Civil.dayOfYear {t : Datetime} (civil : Civil t) :
    0 ≤ daysOfMonths t.year t.month + (t.day - 1) ∧
      daysOfMonths t.year t.month + (t.day - 1) < yearDays t.year := by
  have months : 0 ≤ daysOfMonths t.year t.month := total_nonneg (mdays_nonneg t.year) _ _
  have year := daysOfMonths_add_mdays (y := t.year) civil.month
  have day := civil.day
  omega

theorem Civil.nonneg {t : Datetime} (civil : Civil t) : 0 ≤ rtcUnixSeconds t := by
  have day := civil.dayOfYear
  have years : 0 ≤ daysOfYears t.year := total_nonneg yearDays_nonneg _ _
  obtain ⟨hour, minute, second⟩ := And.intro civil.hour (And.intro civil.minute civil.second)
  unfold rtcUnixSeconds
  dsimp only
  omega

/-- The clock runs forward. -/
theorem Datetime.Earlier.lt {t t' : Datetime} (earlier : t.Earlier t') (civil : Civil t)
    (civil' : Civil t') : rtcUnixSeconds t < rtcUnixSeconds t' := by
  obtain ⟨hour, minute, second⟩ := And.intro civil.hour (And.intro civil.minute civil.second)
  obtain ⟨hour', minute', second'⟩ := And.intro civil'.hour (And.intro civil'.minute civil'.second)
  have day := civil.dayOfYear
  have day' := civil'.dayOfYear
  rcases earlier with year | ⟨year, earlier⟩
  · have start := civil.year
    have years := total_add_size_le (x := 1970) yearDays_nonneg
      (j := (t.year - 1970).toNat) (k := (t'.year - 1970).toNat) (by omega)
    have here : 1970 + ((t.year - 1970).toNat : Int) = t.year := by omega
    rw [here] at years
    unfold rtcUnixSeconds daysOfYears
    dsimp only
    omega
  · rw [← year] at day'
    unfold rtcUnixSeconds
    dsimp only
    rw [← year]
    rcases earlier with month | ⟨month, earlier⟩
    · have start := civil.month
      have months := total_add_size_le (x := 1) (mdays_nonneg t.year)
        (j := (t.month - 1).toNat) (k := (t'.month - 1).toNat) (by omega)
      have here : 1 + ((t.month - 1).toNat : Int) = t.month := by omega
      rw [here] at months
      have last := civil.day
      have first := civil'.day
      unfold daysOfMonths
      omega
    · rw [← month]
      omega

/-- Of two dates, one is earlier or they are the same. -/
theorem Datetime.earlier_or {t t' : Datetime} (notEarlier : ¬t.Earlier t') :
    t'.Earlier t ∨ t' = t := by
  unfold Datetime.Earlier at *
  rcases lt_trichotomy t.year t'.year with year | year | year
  · omega
  · rcases lt_trichotomy t.month t'.month with month | month | month
    · omega
    · by_cases same : t'.day = t.day ∧ t'.hour = t.hour ∧ t'.minute = t.minute ∧
          t'.second = t.second
      · obtain ⟨day, hour, minute, second⟩ := same
        right
        cases t
        cases t'
        simp_all
      · omega
    · omega
  · omega

/-- **The clock keeps the order.** -/
theorem rtcUnixSeconds_lt_iff {t t' : Datetime} (civil : Civil t) (civil' : Civil t') :
    rtcUnixSeconds t < rtcUnixSeconds t' ↔ t.Earlier t' := by
  constructor
  · intro less
    by_contra notEarlier
    rcases Datetime.earlier_or notEarlier with later | rfl
    · exact absurd less (not_lt.mpr (later.lt civil' civil).le)
    · exact absurd less (lt_irrefl _)
  · intro earlier
    exact earlier.lt civil civil'

/-- **The date of its seconds is the date.** -/
theorem civilOf_rtcUnixSeconds {t : Datetime} (civil : Civil t) : civilOf (rtcUnixSeconds t) = t := by
  obtain ⟨civil', same⟩ := civilOf_spec civil.nonneg
  by_contra ne
  have notEarlier : ¬t.Earlier (civilOf (rtcUnixSeconds t)) := by
    intro earlier
    have := earlier.lt civil civil'
    omega
  rcases Datetime.earlier_or notEarlier with later | same'
  · have := later.lt civil' civil
    omega
  · exact ne same'

/-! ### The range of `int` -/

/-- The first second of the year behind the last one that is an `int`. -/
def intEnd : Datetime := ⟨intMax + 1, 1, 1, 0, 0, 0⟩

theorem intEnd_civil : Civil intEnd := by
  constructor <;> decide

theorem year_le_intMax_iff {t : Datetime} (civil : Civil t) :
    t.year ≤ intMax ↔ rtcUnixSeconds t < rtcUnixSeconds intEnd := by
  rw [rtcUnixSeconds_lt_iff civil intEnd_civil]
  obtain ⟨hour, minute, second⟩ := And.intro civil.hour (And.intro civil.minute civil.second)
  obtain ⟨month, day⟩ := And.intro civil.month civil.day
  unfold Datetime.Earlier intEnd
  dsimp only
  omega

/-- **Seconds and dates.** A count from 1970 on becomes a date that stands for it exactly as long
as the year is an `int`. -/
theorem atmSecondsToCivil_iff {seconds : Int} (start : 0 ≤ seconds) :
    (∃ t, atmSecondsToCivil seconds = some t ∧ Civil t ∧ rtcUnixSeconds t = seconds) ↔
      seconds < rtcUnixSeconds intEnd := by
  obtain ⟨civil, same⟩ := civilOf_spec start
  have range := year_le_intMax_iff civil
  rw [same] at range
  unfold atmSecondsToCivil
  by_cases far : intMax < (civilOf seconds).year
  · rw [if_pos far]
    constructor
    · rintro ⟨t, none, -⟩
      cases none
    · intro less
      exact absurd (range.mpr less) (not_le.mpr far)
  · rw [if_neg far]
    constructor
    · intro _
      exact range.mp (not_lt.mp far)
    · intro _
      exact ⟨_, rfl, civil, same⟩

/-! ### Conversion -/

set_option maxRecDepth 4096 in
theorem tzTable_offsets : ∀ z ∈ tzTable, z.standardMinutes ≤ 1000 ∧ z.dstMinutes ≤ 1000 := by decide

/-- The seconds of a valid time, and what a zone adds, end long before the range does. -/
theorem shifted_lt {z : TzEntry} (mem : z ∈ tzTable) {utc : Datetime} (valid : Valid utc) :
    rtcUnixSeconds utc + z.offset utc * 60 < rtcUnixSeconds intEnd := by
  have offset : z.offset utc ≤ 1000 := by
    unfold TzEntry.offset
    split
    · exact (tzTable_offsets z mem).2
    · exact (tzTable_offsets z mem).1
  have last : Civil ⟨2100, 1, 1, 0, 0, 0⟩ := by constructor <;> decide
  have before : utc.Earlier ⟨2100, 1, 1, 0, 0, 0⟩ := by
    have year := valid.year
    unfold Datetime.Earlier
    dsimp only
    omega
  have less := before.lt valid.civil last
  have near : daysOfYears 2100 ≤ 366 * ((2100 - 1970 : Int).toNat : Int) := (total_yearDays 1970 _).2
  have count : rtcUnixSeconds ⟨2100, 1, 1, 0, 0, 0⟩ = daysOfYears 2100 * 86400 := by
    unfold rtcUnixSeconds daysOfMonths
    simp [total]
  have far : ((2147483648 - 1970 : Int).toNat : Int) ≤ daysOfYears 2147483648 :=
    (total_yearDays 1970 _).1
  have finish : rtcUnixSeconds intEnd = daysOfYears 2147483648 * 86400 := by
    unfold rtcUnixSeconds intEnd daysOfMonths
    simp [intMax, total]
  omega

/-- **Conversion by the table.** The result is a date that stands for the shifted instant exactly
if that instant is not before 1970. -/
theorem atmTimezoneConvert_iff {active : Option Zone} {load : String → Option Rules} {zone : String}
    {utc : Datetime} {z : TzEntry} (noFile : tzifIsLoaded active zone = false)
    (valid : Valid utc) (found : tzFind zone = some z) :
    (∃ c, atmTimezoneConvert active load zone utc = some c ∧ Civil c.time ∧
      rtcUnixSeconds c.time = rtcUnixSeconds utc + c.offsetMinutes * 60) ↔
      0 ≤ rtcUnixSeconds utc + z.offset utc * 60 := by
  have less := shifted_lt (List.mem_of_find?_eq_some found) valid
  have converted : atmTimezoneConvert active load zone utc =
      (atmSecondsToCivil (rtcUnixSeconds utc + z.offset utc * 60)).map fun time =>
        ⟨time, z.offset utc, timezoneDst z utc⟩ := by
    unfold atmTimezoneConvert
    rw [noFile, if_neg Bool.false_ne_true, if_neg (not_not.mpr valid), found]
    rfl
  rw [converted]
  constructor
  · rintro ⟨c, done, civil, same⟩
    obtain ⟨time, -, rfl⟩ := Option.map_eq_some_iff.mp done
    exact same ▸ civil.nonneg
  · intro start
    obtain ⟨time, done, civil, same⟩ := (atmSecondsToCivil_iff start).mpr less
    refine ⟨⟨time, z.offset utc, timezoneDst z utc⟩, ?_, civil, same⟩
    rw [done]
    rfl

/-- **Civil time.** The two conversions are inverse to one another and keep the order, as far as
the year is an `int`; a conversion by the table is right exactly for instants from 1970 on. -/
theorem civil_time (seconds : Int) (t t' : Datetime) (active : Option Zone)
    (load : String → Option Rules) (zone : String) (utc : Datetime) (z : TzEntry) :
    (0 ≤ seconds →
      ((∃ t, atmSecondsToCivil seconds = some t ∧ Civil t ∧ rtcUnixSeconds t = seconds) ↔
        seconds < rtcUnixSeconds intEnd)) ∧
    (Civil t → t.year ≤ intMax →
      0 ≤ rtcUnixSeconds t ∧ atmSecondsToCivil (rtcUnixSeconds t) = some t) ∧
    (Civil t → Civil t' → (rtcUnixSeconds t < rtcUnixSeconds t' ↔ t.Earlier t')) ∧
    (tzifIsLoaded active zone = false → Valid utc → tzFind zone = some z →
      ((∃ c, atmTimezoneConvert active load zone utc = some c ∧ Civil c.time ∧
        rtcUnixSeconds c.time = rtcUnixSeconds utc + c.offsetMinutes * 60) ↔
        0 ≤ rtcUnixSeconds utc + z.offset utc * 60)) := by
  refine ⟨?_, ?_, ?_, ?_⟩
  · intro start
    exact atmSecondsToCivil_iff start
  · intro civil year
    refine ⟨civil.nonneg, ?_⟩
    unfold atmSecondsToCivil
    rw [civilOf_rtcUnixSeconds civil, if_neg (not_lt.mpr year)]
  · intro civil civil'
    exact rtcUnixSeconds_lt_iff civil civil'
  · intro noFile valid found
    exact atmTimezoneConvert_iff noFile valid found

/-- **Before 1970 there is no way back**: the first midnight of 1970 is a day 0 in Honolulu. -/
theorem day_zero :
    Valid ⟨1970, 1, 1, 0, 0, 0⟩ ∧ (tzFind "Pacific/Honolulu").isSome ∧
      (atmTimezoneConvert none (fun _ => none) "Pacific/Honolulu" ⟨1970, 1, 1, 0, 0, 0⟩).map
        Converted.time = some ⟨1970, 1, 0, 14, 0, 0⟩ ∧ ¬Civil ⟨1970, 1, 0, 14, 0, 0⟩ := by
  refine ⟨by decide, by decide, by decide, ?_⟩
  intro civil
  exact absurd civil.day.1 (by decide)

end AtmKoala.Time
