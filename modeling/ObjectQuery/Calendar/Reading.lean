import ObjectQuery.Calendar.Moment

/-!
# Reading moments

The forms of ISO 8601 that are taken: a year with a month and a day, a month alone, a day of the
year, or a week with or without a day; then, after a `T`, a `t` or a space, hours with minutes,
seconds and a fraction as far as they are given, and a zone. Extended forms have hyphens and colons,
basic ones have neither, and one text keeps to one of them. Hour 24 stands for the midnight that
ends a day. Digits of a fraction after the sixth are dropped.

The shape of the whole text is checked first and the ranges of the numbers after it. Each function
that checks a piece of the shape takes characters off the front of the text and gives what it read
with the characters after it; it is told the length of the whole text, so that it knows where it
stands. A null character ends a text like its end does, and is reported where all before it has the
right shape.
-/

set_option autoImplicit false

namespace ObjectQuery.Moment

/-- The pieces of a text that messages name. -/
inductive Part
  | year | month | day | ordinalDay | week | weekday | dateSeparator | timeStart
  | hour | minute | timeSeparator | second | fraction | zoneHour | zoneMinute
deriving DecidableEq, Repr

def Part.name : Part → String
  | year => "year"
  | month => "month"
  | day => "day"
  | ordinalDay => "ordinal day"
  | week => "iso_week"
  | weekday => "iso_day"
  | dateSeparator => "date separator ('-')"
  | timeStart => "date and time separator (i.e., 'T', 't', or ' ')"
  | hour => "hour"
  | minute => "minute"
  | timeSeparator => "time separator (':')"
  | second => "second"
  | fraction => "subsecond"
  | zoneHour => "tz hour"
  | zoneMinute => "tz minute"

inductive Misreading
  | ended (part : Part) (missing : Nat)
  | unexpected (part : Part) (c : Char) (index : Nat)
  | mixed (extendedDate : Bool)
  | noSuchWeek
  | noSuchDayOfYear (day year : Nat)
  | left (rest : List Char)
  | nullLeft
  | zoneMinuteRange
  | zoneRange (minutes : Int)
  | yearRange (year : Nat)
  | monthRange
  | dayRange
  | hourRange
  | minuteRange
  | secondRange
  /-- The midnight that ends the last day of the calendar. -/
  | pastCalendar
deriving DecidableEq, Repr

/-- A distance in whole minutes, as days and the seconds left over. -/
def distanceText (minutes : Int) : String :=
  let days := minutes.fdiv 1440
  let seconds := minutes.fmod 1440 * 60
  if seconds = 0 then s!"datetime.timedelta(days={days})"
  else if days = 0 then s!"datetime.timedelta(seconds={seconds})"
  else s!"datetime.timedelta(days={days}, seconds={seconds})"

namespace Misreading

def mixedText (first second : String) : String :=
  s!"Cannot combine \"{first}\" date format with \"{second}\" time format " ++
    "(Should be either `YYYY-MM-DDThh:mm:ss` or `YYYYMMDDThhmmss`)."

def unexpectedText (part : Part) (c : Char) (index : Nat) : String :=
  let message := s!"Invalid character while parsing {part.name} ('{c}', Index: {index})"
  if part = .year ∧ c = '-' ∧ index = 0 then
    message ++ ". While valid ISO 8601 years, BCE years are not supported by Python's " ++
      "`datetime` objects."
  else message

def message : Misreading → String
  | ended part missing =>
    let plural := if missing = 1 then "" else "s"
    s!"Unexpected end of string while parsing {part.name}. Expected {missing} more character" ++
      plural
  | unexpected part c index => unexpectedText part c index
  | mixed true => mixedText "extended" "basic"
  | mixed false => mixedText "basic" "extended"
  | noSuchWeek => "Invalid ISO Calendar date"
  | noSuchDayOfYear day year =>
    let size := if day = 0 then "small" else "large"
    s!"Invalid ordinal day: {day} is too {size} for year {year}"
  | left rest => s!"unconverted data remains: '{String.ofList rest}'"
  | nullLeft => "unconverted data remains: embedded null byte"
  | zoneMinuteRange => "tzminute must be in 0..59"
  | zoneRange minutes =>
    let distance := distanceText minutes
    "offset must be a timedelta strictly between -timedelta(hours=24) and timedelta(hours=24), " ++
      s!"not {distance}."
  | yearRange year => s!"year {year} is out of range"
  | monthRange => "month must be in 1..12"
  | dayRange => "day is out of range for month"
  | hourRange => "hour must be in 0..23"
  | minuteRange => "minute must be in 0..59"
  | secondRange => "second must be in 0..59"
  | pastCalendar => "date value out of range"

end Misreading

/-- Refuses the next character, or the end, as a part that has so many characters still to come. -/
def refuse {α : Type} (size : Nat) (part : Part) (missing : Nat) : List Char → Except Misreading α
  | [] => .error (.ended part missing)
  | c :: rest => .error (.unexpected part c (size - (rest.length + 1)))

/-- Reads exactly so many digits behind those read already. -/
def readDigits (size : Nat) (part : Part) :
    Nat → Nat → List Char → Except Misreading (Nat × List Char)
  | 0, value, cs => .ok (value, cs)
  | count + 1, value, cs =>
    match cs with
    | [] => refuse size part (count + 1) []
    | c :: rest =>
      if c.isDigit then readDigits size part count (value * 10 + (c.toNat - 48)) rest
      else refuse size part (count + 1) (c :: rest)

def isTimeStart (c : Char) : Bool := c == 'T' || c == 't' || c == ' '

def isZoneStart (c : Char) : Bool := c == 'Z' || c == 'z' || c == '+' || c == '-'

def dateEnds (cs : List Char) : Bool := cs.head?.all isTimeStart

def timeEnds (cs : List Char) : Bool := cs.head?.all isZoneStart

/-- A date as it is written: a year, a month and a day, which need not exist. -/
structure WrittenDate where
  year : Nat
  month : Nat
  day : Nat
  extended : Bool

def ofDayOfYear (extended : Bool) (year day : Nat) : Except Misreading WrittenDate :=
  if 1 ≤ day ∧ day ≤ Date.daysInYear year then
    let (month, day) := Date.ofDayOfYear year day
    .ok ⟨year, month, day, extended⟩
  else .error (.noSuchDayOfYear day year)

def ofWeek (extended : Bool) (year week day : Nat) : Except Misreading WrittenDate :=
  match Date.ofWeek? year week day with
  | some (year, day) =>
    let (month, day) := Date.ofDayOfYear year day
    .ok ⟨year, month, day, extended⟩
  | none => .error .noSuchWeek

def readExtendedDate (size year : Nat) : List Char → Except Misreading (WrittenDate × List Char)
  | 'W' :: cs => do
    let (week, cs) ← readDigits size .week 2 0 cs
    if dateEnds cs then
      return (← ofWeek true year week 1, cs)
    match cs with
    | '-' :: cs =>
      let (day, cs) ← readDigits size .weekday 1 0 cs
      return (← ofWeek true year week day, cs)
    | cs => refuse size .dateSeparator 1 cs
  | cs => do
    let (month, cs) ← readDigits size .month 2 0 cs
    if dateEnds cs then
      return (⟨year, month, 1, true⟩, cs)
    match cs with
    | '-' :: cs =>
      let (day, cs) ← readDigits size .day 2 0 cs
      return (⟨year, month, day, true⟩, cs)
    | cs =>
      let (day, cs) ← readDigits size .ordinalDay 1 month cs
      return (← ofDayOfYear true year day, cs)

def readBasicDate (size year : Nat) : List Char → Except Misreading (WrittenDate × List Char)
  | 'W' :: cs => do
    let (week, cs) ← readDigits size .week 2 0 cs
    if dateEnds cs then
      return (← ofWeek false year week 1, cs)
    let (day, cs) ← readDigits size .weekday 1 0 cs
    return (← ofWeek false year week day, cs)
  | cs => do
    let (month, cs) ← readDigits size .month 2 0 cs
    let (digit, cs) ← readDigits size .ordinalDay 1 0 cs
    if dateEnds cs then
      return (← ofDayOfYear false year (month * 10 + digit), cs)
    let (day, cs) ← readDigits size .day 1 digit cs
    return (⟨year, month, day, false⟩, cs)

def readDate (size : Nat) (cs : List Char) : Except Misreading (WrittenDate × List Char) := do
  let (year, cs) ← readDigits size .year 4 0 cs
  match cs with
  | '-' :: cs => readExtendedDate size year cs
  | cs => readBasicDate size year cs

/-- The millionths that the digits of a fraction stand for. -/
def millionths (digits : List Char) : Nat :=
  ((digits ++ List.replicate 6 '0').take 6).foldl (fun n c => n * 10 + (c.toNat - 48)) 0

def readFraction (size : Nat) : List Char → Except Misreading (Nat × List Char)
  | [] => .ok (0, [])
  | mark :: cs =>
    if mark = '.' ∨ mark = ',' then
      match cs.takeWhile Char.isDigit with
      | [] => refuse size .fraction 1 cs
      | digits => .ok (millionths digits, cs.dropWhile Char.isDigit)
    else .ok (0, mark :: cs)

structure WrittenTime where
  hour : Nat
  minute : Nat
  second : Nat
  microsecond : Nat

def readExtendedTime (size hour : Nat) (cs : List Char) :
    Except Misreading (WrittenTime × List Char) := do
  let (minute, cs) ← readDigits size .minute 2 0 cs
  if timeEnds cs then
    return (⟨hour, minute, 0, 0⟩, cs)
  match cs with
  | ':' :: cs =>
    let (second, cs) ← readDigits size .second 2 0 cs
    let (microsecond, cs) ← readFraction size cs
    return (⟨hour, minute, second, microsecond⟩, cs)
  | cs => refuse size .timeSeparator 1 cs

def readBasicTime (size hour : Nat) (cs : List Char) :
    Except Misreading (WrittenTime × List Char) := do
  let (minute, cs) ← readDigits size .minute 2 0 cs
  if timeEnds cs then
    return (⟨hour, minute, 0, 0⟩, cs)
  let (second, cs) ← readDigits size .second 2 0 cs
  let (microsecond, cs) ← readFraction size cs
  return (⟨hour, minute, second, microsecond⟩, cs)

/-- Reads a time of day, in the form of the date before it. -/
def readTime (size : Nat) (extended : Bool) (cs : List Char) :
    Except Misreading (WrittenTime × List Char) := do
  let (hour, cs) ← readDigits size .hour 2 0 cs
  if timeEnds cs then
    return (⟨hour, 0, 0, 0⟩, cs)
  match cs with
  | ':' :: cs =>
    let time ← readExtendedTime size hour cs
    if extended then return time else .error (.mixed false)
  | cs =>
    let time ← readBasicTime size hour cs
    if extended then .error (.mixed true) else return time

/-- Reads the hours and minutes of a zone. The colon between them is optional in either form. -/
def readZoneMinutes (size : Nat) (cs : List Char) : Except Misreading (Nat × List Char) := do
  let (hours, cs) ← readDigits size .zoneHour 2 0 cs
  match cs with
  | [] => return (hours * 60, [])
  | c :: rest =>
    let (minutes, cs) ← readDigits size .zoneMinute 2 0 (if c = ':' then rest else c :: rest)
    if 59 < minutes then .error .zoneMinuteRange else return (hours * 60 + minutes, cs)

def zoneOf (minutes : Int) : Except Misreading Int :=
  if minutes.natAbs < 1440 then .ok minutes else .error (.zoneRange minutes)

def readZone (size : Nat) : List Char → Except Misreading (Option Int × List Char)
  | [] => .ok (none, [])
  | c :: cs => do
    if c = 'Z' ∨ c = 'z' then
      return (some 0, cs)
    else if c = '+' then
      let (minutes, cs) ← readZoneMinutes size cs
      return (some (← zoneOf minutes), cs)
    else if c = '-' then
      let (minutes, cs) ← readZoneMinutes size cs
      return (some (← zoneOf (-minutes)), cs)
    else
      return (none, c :: cs)

structure Written where
  date : WrittenDate
  time : WrittenTime
  zone : Option Int

def readWritten (cs : List Char) : Except Misreading Written := do
  let size := cs.length
  let (date, cs) ← readDate size cs
  match cs with
  | [] => return ⟨date, ⟨0, 0, 0, 0⟩, none⟩
  | c :: rest =>
    if isTimeStart c then
      let (time, cs) ← readTime size date.extended rest
      let (zone, cs) ← readZone size cs
      if cs.isEmpty then return ⟨date, time, zone⟩ else .error (.left cs)
    else refuse size .timeStart 1 (c :: rest)

def WrittenDate.check (d : WrittenDate) : Except Misreading Date :=
  match Date.of? d.year d.month d.day with
  | some date => .ok date
  | none =>
    if d.year < 1 ∨ Date.lastYear < d.year then .error (.yearRange d.year)
    else if d.month < 1 ∨ 12 < d.month then .error .monthRange
    else .error .dayRange

def WrittenTime.check (t : WrittenTime) : Except Misreading TimeOfDay :=
  match TimeOfDay.of? t.hour t.minute t.second t.microsecond with
  | some time => .ok time
  | none =>
    if 23 < t.hour then .error .hourRange
    else if 59 < t.minute then .error .minuteRange
    else .error .secondRange

/-- Whether a time is the midnight that ends a day. -/
def WrittenTime.endsDay (t : WrittenTime) : Bool :=
  t.hour = 24 && t.minute = 0 && t.second = 0 && t.microsecond = 0

def Written.check (w : Written) : Except Misreading Moment := do
  let date ← w.date.check
  if w.time.endsDay then
    match date.next? with
    | some date => return ⟨date, .midnight, w.zone⟩
    | none => .error .pastCalendar
  else
    return ⟨date, ← w.time.check, w.zone⟩

def isNull (c : Char) : Bool := c == '\x00'

def read (s : String) : Except Misreading Moment := do
  let written ← readWritten (s.toList.takeWhile (!isNull ·))
  if s.toList.any isNull then .error .nullLeft else written.check

end ObjectQuery.Moment
