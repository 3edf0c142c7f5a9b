import WebSearch.Library.Gregorian
import WebSearch.Base.Bytes

/-! `base/time_posix.cc`: times taken apart and put together again. The clock of the C library
is a parameter; integers that overflow are none, and so is what is taken from a `tm` that
the C library has not filled. -/
namespace WebSearch.Time
open Library.Gregorian

structure Tm where
  sec : Int
  min : Int
  hour : Int
  mday : Int
  mon : Int
  year : Int
  wday : Int
  yday : Int
  isdst : Int
  deriving DecidableEq

structure Clock where
  gmtimeR : Int → Option Tm
  localtimeR : Int → Option Tm
  timegm : Tm → Int
  mktime : Tm → Int

structure Exploded where
  year : Int
  month : Int
  dayOfWeek : Int
  dayOfMonth : Int
  hour : Int
  minute : Int
  second : Int
  millisecond : Int
  deriving DecidableEq

def kMillisecondsPerSecond : Int := 1000
def kMicrosecondsPerMillisecond : Int := 1000
def kWindowsEpochDeltaSeconds : Int := 11644473600
def kWindowsEpochDeltaMicroseconds : Int := kWindowsEpochDeltaSeconds * (kMicrosecondsPerMillisecond * kMillisecondsPerSecond)

def int64 (n : Int) : Option Int := if -2^63 ≤ n ∧ n < 2^63 then some n else none
def int32 (n : Int) : Option Int := if -2^31 ≤ n ∧ n < 2^31 then some n else none

/-- Division and remainder go towards zero. -/
def explode (clock : Clock) (isLocal : Bool) (time : Int64) : Option Exploded := do
  let microseconds ← int64 (time.toInt - kWindowsEpochDeltaMicroseconds)
  let milliseconds := microseconds.tdiv kMicrosecondsPerMillisecond
  let seconds := milliseconds.tdiv kMillisecondsPerSecond
  let timestruct ← if isLocal then clock.localtimeR seconds else clock.gmtimeR seconds
  let year ← int32 (timestruct.year + 1900)
  let month ← int32 (timestruct.mon + 1)
  return ⟨year,month,timestruct.wday,timestruct.mday,timestruct.hour,timestruct.min,timestruct.sec,
    milliseconds.tmod kMillisecondsPerSecond⟩

def utcExplode (clock : Clock) (time : Int64) : Option Exploded := explode clock false time

/-- The milliseconds of what `mktime` or `timegm` has returned, where -1 may be a failure. -/
def toMilliseconds (seconds : Int) (exploded : Exploded) : Option Int :=
  if seconds = -1 ∧ (exploded.year < 1969 ∨ 1970 < exploded.year) then
    if exploded.year < 1969 then int64 (-2^63 * kMillisecondsPerSecond)
    else do
      let farthest ← int64 ((2^63 - 1) * kMillisecondsPerSecond)
      int64 (farthest + kMillisecondsPerSecond - 1)
  else do
    let whole ← int64 (seconds * kMillisecondsPerSecond)
    int64 (whole + exploded.millisecond)

def fromExploded (clock : Clock) (isLocal : Bool) (exploded : Exploded) : Option Int64 := do
  let mon ← int32 (exploded.month - 1)
  let year ← int32 (exploded.year - 1900)
  let timestruct : Tm := ⟨exploded.second,exploded.minute,exploded.hour,exploded.dayOfMonth,mon,year,exploded.dayOfWeek,0,-1⟩
  let seconds := if isLocal then clock.mktime timestruct else clock.timegm timestruct
  let milliseconds ← toMilliseconds seconds exploded
  let microseconds ← int64 (milliseconds * kMicrosecondsPerMillisecond)
  let us ← int64 (microseconds + kWindowsEpochDeltaMicroseconds)
  return Int64.ofInt us

def fromUtcExploded (clock : Clock) (exploded : Exploded) : Option Int64 := fromExploded clock false exploded

/-- The ranges that `time.h` gives for the fields. -/
structure InRange (exploded : Exploded) : Prop where
  month : 1 ≤ exploded.month ∧ exploded.month ≤ 12
  dayOfWeek : 0 ≤ exploded.dayOfWeek ∧ exploded.dayOfWeek ≤ 6
  dayOfMonth : 1 ≤ exploded.dayOfMonth ∧ exploded.dayOfMonth ≤ 31
  hour : 0 ≤ exploded.hour ∧ exploded.hour ≤ 23
  minute : 0 ≤ exploded.minute ∧ exploded.minute ≤ 59
  second : 0 ≤ exploded.second ∧ exploded.second ≤ 60
  millisecond : 0 ≤ exploded.millisecond ∧ exploded.millisecond ≤ 999

/-- The fields of a `tm`, with a year that `Exploded` has room for. -/
structure Tm.Valid (tm : Tm) : Prop where
  sec : 0 ≤ tm.sec ∧ tm.sec ≤ 60
  min : 0 ≤ tm.min ∧ tm.min ≤ 59
  hour : 0 ≤ tm.hour ∧ tm.hour ≤ 23
  mday : 1 ≤ tm.mday ∧ tm.mday ≤ 31
  mon : 0 ≤ tm.mon ∧ tm.mon ≤ 11
  year : -2^31 ≤ tm.year ∧ tm.year + 1900 < 2^31
  wday : 0 ≤ tm.wday ∧ tm.wday ≤ 6

/-- A clock with the seconds whose year fits: there `timegm` undoes `gmtime_r`, and it reads
neither the day of the year nor the flag for daylight saving. -/
structure Calendar extends Clock where
  first : Int
  last : Int
  early : first ≤ -1
  late : 0 ≤ last
  known : ∀ seconds, first ≤ seconds → seconds ≤ last → ∃ tm, gmtimeR seconds = some tm ∧ tm.Valid ∧
    ∀ yday isdst, timegm {tm with yday, isdst} = seconds
  before : ∀ tm, gmtimeR (-1) = some tm → tm.year = 69

/-- Microseconds since 1970. -/
def unix (time : Int64) : Int := time.toInt - kWindowsEpochDeltaMicroseconds

def Calendar.Fits (calendar : Calendar) (time : Int64) : Prop :=
  calendar.first ≤ unix time / 1000000 ∧ unix time / 1000000 ≤ calendar.last

instance (calendar : Calendar) (time : Int64) : Decidable (calendar.Fits time) := inferInstanceAs (Decidable (_ ∧ _))

/-- The fields are in their ranges, and together they are the time rounded down to a whole
millisecond. -/
def Exact (clock : Clock) (time : Int64) : Prop :=
  ∃ exploded, utcExplode clock time = some exploded ∧ InRange exploded ∧
    ∃ back, fromUtcExploded clock exploded = some back ∧ back.toInt = time.toInt - time.toInt % 1000

/-! Two divisions towards zero. -/

theorem tdiv_thousand (n : Int) : n.tdiv 1000 = if 0 ≤ n ∨ 1000 ∣ n then n / 1000 else n / 1000 + 1 := by
  rw [Int.tdiv_eq_ediv]
  split
  · exact Int.add_zero _
  · rfl

theorem tmod_thousand (n : Int) : n.tdiv 1000 * 1000 + n.tmod 1000 = n := by
  rw [Int.mul_comm]
  exact Int.mul_tdiv_add_tmod n 1000

/-- Nothing is rounded up, and no remainder is negative, from the epoch on and at whole
seconds. -/
theorem rounded_iff (n : Int) : (0 ≤ (n.tdiv 1000).tmod 1000 ∧ (n.tdiv 1000).tmod 1000 ≤ 999) ∧
    n.tdiv 1000 * 1000 = n - n % 1000 ↔ 0 ≤ n ∨ 1000000 ∣ n := by
  have remainder := tmod_thousand (n.tdiv 1000)
  rw [tdiv_thousand (n.tdiv 1000)] at remainder
  have quotient := tdiv_thousand n
  generalize (n.tdiv 1000).tmod 1000 = rest at remainder ⊢
  generalize n.tdiv 1000 = milliseconds at remainder quotient ⊢
  split at quotient <;> split at remainder <;> omega

theorem seconds_bounds {n first last : Int} (early : first ≤ n / 1000000) (late : n / 1000000 ≤ last) (epoch : 0 ≤ last) :
    first ≤ (n.tdiv 1000).tdiv 1000 ∧ (n.tdiv 1000).tdiv 1000 ≤ last := by
  have seconds := tdiv_thousand (n.tdiv 1000)
  have milliseconds := tdiv_thousand n
  generalize (n.tdiv 1000).tdiv 1000 = s at seconds ⊢
  generalize n.tdiv 1000 = ms at seconds milliseconds
  split at milliseconds <;> split at seconds <;> omega

theorem milliseconds_bounds (n : Int) : (0 ≤ n → 0 ≤ n.tdiv 1000 * 1000 ∧ n.tdiv 1000 * 1000 ≤ n) ∧
    (n < 0 → n ≤ n.tdiv 1000 * 1000 ∧ n.tdiv 1000 * 1000 ≤ 0) := by
  have quotient := tdiv_thousand n
  generalize n.tdiv 1000 = ms at quotient
  split at quotient <;> omega

theorem int64_some {n : Int} (low : -2^63 ≤ n) (high : n < 2^63) : int64 n = some n := if_pos ⟨low,high⟩

theorem int32_some {n : Int} (low : -2^31 ≤ n) (high : n < 2^31) : int32 n = some n := if_pos ⟨low,high⟩

/-! There and back. -/

section Calendar
variable (calendar : Calendar) {time : Int64}

theorem unix_lt (time : Int64) : unix time < 2^63 := by
  have bound := time.toInt_lt
  unfold unix kWindowsEpochDeltaMicroseconds kWindowsEpochDeltaSeconds kMicrosecondsPerMillisecond kMillisecondsPerSecond
  omega

/-- What the time is taken apart into. -/
def exploded (tm : Tm) (millisecond : Int) : Exploded :=
  ⟨tm.year + 1900,tm.mon + 1,tm.wday,tm.mday,tm.hour,tm.min,tm.sec,millisecond⟩

theorem explode_eq (fits : calendar.Fits time) (room : -2^63 ≤ unix time) : ∃ tm,
    calendar.gmtimeR (((unix time).tdiv 1000).tdiv 1000) = some tm ∧ tm.Valid ∧
      (∀ yday isdst, calendar.timegm {tm with yday, isdst} = ((unix time).tdiv 1000).tdiv 1000) ∧
      utcExplode calendar.toClock time = some (exploded tm (((unix time).tdiv 1000).tmod 1000)) := by
  obtain ⟨early,late⟩ := seconds_bounds fits.1 fits.2 calendar.late
  obtain ⟨tm,found,valid,inverse⟩ := calendar.known _ early late
  refine ⟨tm,found,valid,inverse,?_⟩
  have microseconds : int64 (time.toInt - kWindowsEpochDeltaMicroseconds) = some (unix time) := int64_some room (unix_lt time)
  have year : int32 (tm.year + 1900) = some (tm.year + 1900) := int32_some (by have := valid.year; omega) valid.year.2
  have month : int32 (tm.mon + 1) = some (tm.mon + 1) := by
    have range := valid.mon
    exact int32_some (by omega) (by omega)
  change explode calendar.toClock false time = _
  simp only [explode,microseconds,Option.bind_eq_bind,Option.bind_some,Bool.false_eq_true,if_false,kMicrosecondsPerMillisecond,
    kMillisecondsPerSecond,found,year,month]
  rfl

theorem toMilliseconds_eq {seconds milliseconds : Int} {exploded : Exploded} (before : seconds = -1 → exploded.year = 1969)
    (whole : seconds * 1000 + exploded.millisecond = milliseconds) (low : -2^63 ≤ seconds * 1000) (high : seconds * 1000 < 2^63)
    (low' : -2^63 ≤ milliseconds) (high' : milliseconds < 2^63) : toMilliseconds seconds exploded = some milliseconds := by
  have plain : ¬(seconds = -1 ∧ (exploded.year < 1969 ∨ 1970 < exploded.year)) := by
    rintro ⟨last,far⟩
    have year := before last
    omega
  rw [toMilliseconds,if_neg plain,kMillisecondsPerSecond,int64_some low high,Option.bind_eq_bind,Option.bind_some,whole]
  exact int64_some low' high'

theorem fromExploded_eq {tm : Tm} {seconds milliseconds millisecond : Int} (valid : tm.Valid)
    (inverse : ∀ yday isdst, calendar.timegm {tm with yday, isdst} = seconds)
    (read : toMilliseconds seconds (exploded tm millisecond) = some milliseconds) (low : -2^63 ≤ milliseconds * 1000)
    (high : milliseconds * 1000 + kWindowsEpochDeltaMicroseconds < 2^63) :
    fromUtcExploded calendar.toClock (exploded tm millisecond) =
      some (Int64.ofInt (milliseconds * 1000 + kWindowsEpochDeltaMicroseconds)) := by
  have month : int32 (tm.mon + 1 - 1) = some tm.mon := by
    have range := valid.mon
    rw [Int.add_sub_cancel]
    exact int32_some (by omega) (by omega)
  have year : int32 (tm.year + 1900 - 1900) = some tm.year := by
    have range := valid.year
    rw [Int.add_sub_cancel]
    exact int32_some range.1 (by omega)
  have delta : (0 : Int) ≤ kWindowsEpochDeltaMicroseconds := by decide
  have microseconds : int64 (milliseconds * 1000) = some (milliseconds * 1000) := int64_some low (by omega)
  have us := @int64_some (milliseconds * 1000 + kWindowsEpochDeltaMicroseconds) (by omega) high
  have back := inverse 0 (-1)
  change fromExploded calendar.toClock false _ = _
  simp only [fromExploded,exploded,month,year,Option.bind_eq_bind,Option.bind_some,Bool.false_eq_true,if_false,
    kMicrosecondsPerMillisecond]
  rw [back]
  change (toMilliseconds seconds (exploded tm millisecond)).bind _ = _
  rw [read,Option.bind_some,microseconds,Option.bind_some,us]
  rfl

theorem utcExplode_overflow (clock : Clock) (low : ¬-2^63 ≤ unix time) : utcExplode clock time = none := by
  have none : int64 (time.toInt - kWindowsEpochDeltaMicroseconds) = Option.none := if_neg fun range => low range.1
  rw [utcExplode,explode,none]
  rfl

theorem inRange_iff {tm : Tm} (valid : tm.Valid) (millisecond : Int) :
    InRange (exploded tm millisecond) ↔ 0 ≤ millisecond ∧ millisecond ≤ 999 := by
  refine ⟨InRange.millisecond,fun range => ⟨?_,valid.wday,valid.mday,valid.hour,valid.min,valid.sec,range⟩⟩
  have month := valid.mon
  change 1 ≤ tm.mon + 1 ∧ tm.mon + 1 ≤ 12
  omega

/-- Together again the fields are the milliseconds that the first division has left. -/
theorem explode_back (fits : calendar.Fits time) (room : -2^63 ≤ unix time) : ∃ tm : Tm, tm.Valid ∧
    utcExplode calendar.toClock time = some (exploded tm (((unix time).tdiv 1000).tmod 1000)) ∧
    ∃ back, fromUtcExploded calendar.toClock (exploded tm (((unix time).tdiv 1000).tmod 1000)) = some back ∧
      back.toInt = (unix time).tdiv 1000 * 1000 + kWindowsEpochDeltaMicroseconds := by
  obtain ⟨tm,found,valid,inverse,taken⟩ := explode_eq calendar fits room
  have whole := tmod_thousand ((unix time).tdiv 1000)
  have seconds := milliseconds_bounds ((unix time).tdiv 1000)
  have range := milliseconds_bounds (unix time)
  have high := unix_lt time
  have top := time.toInt_lt
  have delta : kWindowsEpochDeltaMicroseconds = 11644473600000000 := rfl
  have unix_eq : unix time = time.toInt - kWindowsEpochDeltaMicroseconds := rfl
  have before : ((unix time).tdiv 1000).tdiv 1000 = -1 → tm.year + 1900 = 1969 := by
    intro last
    rw [last] at found
    rw [calendar.before tm found]
    rfl
  generalize unix time = n at *
  generalize n.tdiv 1000 = milliseconds at *
  have read := @toMilliseconds_eq (milliseconds.tdiv 1000) milliseconds (exploded tm (milliseconds.tmod 1000)) before whole
    (by omega) (by omega) (by omega) (by omega)
  refine ⟨tm,valid,taken,_,fromExploded_eq calendar valid inverse read (by omega) (by omega),?_⟩
  exact Int64.toInt_ofInt_of_le (by omega) (by omega)

/-- From 1970 on, and before that at whole seconds. -/
theorem exact_iff (calendar : Calendar) (time : Int64) (fits : calendar.Fits time) :
    Exact calendar.toClock time ↔ -2^63 ≤ unix time ∧ (0 ≤ unix time ∨ 1000000 ∣ unix time) := by
  by_cases room : -2^63 ≤ unix time
  · obtain ⟨tm,valid,taken,back,together,value⟩ := explode_back calendar fits room
    have delta : kWindowsEpochDeltaMicroseconds = 11644473600000000 := rfl
    have unix_eq : unix time = time.toInt - kWindowsEpochDeltaMicroseconds := rfl
    rw [← rounded_iff,and_iff_right room]
    constructor
    · rintro ⟨fields,parts,inside,other,again,rounded⟩
      obtain rfl := Option.some.inj (taken.symm.trans parts)
      obtain rfl := Option.some.inj (together.symm.trans again)
      exact ⟨(inRange_iff valid _).mp inside,by omega⟩
    · rintro ⟨inside,rounded⟩
      exact ⟨_,taken,(inRange_iff valid _).mpr inside,back,together,by omega⟩
  · refine iff_of_false ?_ fun both => room both.1
    rintro ⟨fields,parts,-⟩
    rw [utcExplode_overflow calendar.toClock room] at parts
    exact absurd parts (by simp)

end Calendar

/-! The Gregorian calendar is one. -/

/-- 1970-01-01 as a day of the calendar. -/
def epoch : Int := 719468

def secondOf (date : Date) : Int := (dayOf date - epoch) * 86400

/-- The years are those of an `int` that can be a `tm_year` as well. -/
def gmtime (seconds : Int) : Option Tm :=
  let date := dateOf (seconds / 86400 + epoch)
  if -2^31 ≤ date.year - 1900 ∧ date.year < 2^31 then
    some {
      sec := seconds % 60
      min := seconds / 60 % 60
      hour := seconds / 3600 % 24
      mday := date.day
      mon := date.month - 1
      year := date.year - 1900
      wday := (seconds / 86400 + 4) % 7
      yday := seconds / 86400 + epoch - dayOf ⟨date.year,1,1⟩
      isdst := 0}
  else none

def timegm (tm : Tm) : Int := secondOf ⟨tm.year + 1900,tm.mon + 1,tm.mday⟩ + tm.hour * 3600 + tm.min * 60 + tm.sec

theorem gmtime_known {seconds : Int} (early : secondOf ⟨-2^31 + 1900,1,1⟩ ≤ seconds) (late : seconds ≤ secondOf ⟨2^31,1,1⟩ - 1) :
    ∃ tm, gmtime seconds = some tm ∧ tm.Valid ∧ ∀ yday isdst, timegm {tm with yday, isdst} = seconds := by
  have low := @year_lt_iff (seconds / 86400 + epoch) (-2^31 + 1900)
  have high := @year_lt_iff (seconds / 86400 + epoch) (2^31)
  have bounds := dateOf_bounds (seconds / 86400 + epoch)
  have back := dayOf_dateOf (seconds / 86400 + epoch)
  unfold secondOf at early late
  unfold gmtime timegm secondOf
  generalize dateOf (seconds / 86400 + epoch) = date at *
  have inside : -2^31 ≤ date.year - 1900 ∧ date.year < 2^31 := by
    constructor
    · by_contra outside
      have before := low.mp (by omega)
      omega
    · exact high.mpr (by omega)
  refine ⟨_,if_pos inside,⟨?_,?_,?_,?_,?_,?_,?_⟩,fun yday isdst => ?_⟩
  all_goals dsimp only
  · omega
  · omega
  · omega
  · exact bounds.2.2
  · omega
  · omega
  · omega
  · rw [Int.sub_add_cancel,Int.sub_add_cancel,back]
    omega

/-- The clock of a machine whose local time is UTC. -/
def gregorian : Calendar where
  gmtimeR := gmtime
  localtimeR := gmtime
  timegm := timegm
  mktime := timegm
  first := secondOf ⟨-2^31 + 1900,1,1⟩
  last := secondOf ⟨2^31,1,1⟩ - 1
  early := by decide
  late := by decide
  known _ early late := gmtime_known early late
  before tm found := by
    have eve : gmtime (-1) = some ⟨59,59,23,31,11,69,3,364,0⟩ := by decide
    rw [← Option.some.inj (eve.symm.trans found)]

/-- A second and a part of one behind the epoch, and two seconds before it. -/
theorem exact_gregorian : Exact gregorian.toClock 11644473601234567 ∧ Exact gregorian.toClock 11644473598000000 :=
  ⟨(exact_iff gregorian 11644473601234567 (by decide)).mpr (by decide),
    (exact_iff gregorian 11644473598000000 (by decide)).mpr (by decide)⟩

/-- Four and a half milliseconds before 1970. -/
theorem before_epoch_not_exact : gregorian.Fits 11644473599995500 ∧
    utcExplode gregorian.toClock 11644473599995500 = some ⟨1970,1,4,1,0,0,0,-4⟩ ∧ ¬Exact gregorian.toClock 11644473599995500 := by
  have parts : utcExplode gregorian.toClock 11644473599995500 = some ⟨1970,1,4,1,0,0,0,-4⟩ := by decide
  refine ⟨by decide,parts,?_⟩
  rintro ⟨fields,taken,inside,-⟩
  obtain rfl := Option.some.inj (parts.symm.trans taken)
  exact absurd inside.millisecond (by decide)

end WebSearch.Time
