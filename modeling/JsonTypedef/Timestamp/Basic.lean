import JsonTypedef.Text.Blank
import JsonTypedef.Text.Quotation
import JsonTypedef.Json.Numeral
import JsonTypedef.Timestamp.Calendar

/-!
# Timestamps

A timestamp is an instant of UTC in milliseconds.  A leap second is kept as a
second thousand milliseconds of the second before it, so it sorts behind that
second and before the next one.  `Timestamp.read` accepts RFC 3339 date-times
with any offset and `Timestamp.text` writes UTC with three decimals.
-/

namespace JsonTypedef

/-- An instant: whole seconds since 1970-01-01 and milliseconds, which reach
from 1000 on into a leap second. -/
structure Timestamp where
  seconds : Int
  millis : Nat
deriving DecidableEq

namespace Timestamp

/-- Why a text is no timestamp. -/
inductive Fault where
  | premature
  | outOfRange
  | invalid
  | trailing
deriving DecidableEq

/-- The wording of a fault. -/
def Fault.message : Fault → String
  | .premature => "premature end of input"
  | .outOfRange => "input is out of range"
  | .invalid => "input contains invalid characters"
  | .trailing => "trailing input"

/-- The number of UTF-8 bytes of a text. -/
def byteCount (cs : List Char) : Nat :=
  cs.foldr (fun c n => c.utf8Size + n) 0

/-- A fixed character. -/
def readMark (c : Char) : List Char → Except Fault (List Char)
  | [] => .error .premature
  | d :: rest => if d = c then .ok rest else .error .invalid

/-- A fixed number of digits, appended to the digits of `n`. -/
def readDigits (n : Nat) : Nat → List Char → Except Fault (Nat × List Char)
  | 0, cs => .ok (n, cs)
  | _ + 1, [] => .error .premature
  | count + 1, c :: rest =>
    if Numeral.isDigit c then readDigits (n * 10 + Numeral.digitValue c) count rest
    else .error .invalid

/-- A full date; that the calendar has it is settled before anything behind it
is looked at. -/
def readDate (cs : List Char) : Except Fault (Date × List Char) := do
  let (year, cs) ← readDigits 0 4 cs
  let cs ← readMark '-' cs
  let (month, cs) ← readDigits 0 2 cs
  let cs ← readMark '-' cs
  let (day, cs) ← readDigits 0 2 cs
  let date : Date := ⟨year, month, day⟩
  if date.isValid then .ok (date, cs) else .error .outOfRange

/-- The character between date and time. -/
def readSeparator : List Char → Except Fault (List Char)
  | [] => .error .premature
  | c :: rest => if c = 'T' ∨ c = 't' ∨ c = ' ' then .ok rest else .error .invalid

/-- A time of day as written. -/
structure Clock where
  hour : Nat
  minute : Nat
  second : Nat

/-- The hours, minutes and seconds of a time. -/
def readClock (cs : List Char) : Except Fault (Clock × List Char) := do
  let (hour, cs) ← readDigits 0 2 cs
  let cs ← readMark ':' cs
  let (minute, cs) ← readDigits 0 2 cs
  let cs ← readMark ':' cs
  let (second, cs) ← readDigits 0 2 cs
  .ok (⟨hour, minute, second⟩, cs)

/-- The fraction of a second in milliseconds; further digits are dropped. -/
def readFraction : List Char → Except Fault (Nat × List Char)
  | '.' :: rest =>
    match Numeral.spanDigits rest with
    | ([], []) => .error .premature
    | ([], _ :: _) => .error .invalid
    | (ds, tail) => .ok (Numeral.digitsValue ((ds ++ ['0', '0']).take 3), tail)
  | cs => .ok (0, cs)

/-- Two digits of an offset, which may be cut short by the end of the text. -/
def readOffsetDigits (cs : List Char) : Except Fault (Nat × List Char) :=
  if byteCount cs < 2 then .error .premature
  else
    match cs with
    | a :: b :: rest =>
      if Numeral.isDigit a && Numeral.isDigit b then
        .ok (Numeral.digitValue a * 10 + Numeral.digitValue b, rest)
      else .error .invalid
    | _ => .error .invalid

/-- The hours and minutes of an offset, in minutes. -/
def readOffsetClock (cs : List Char) : Except Fault (Nat × List Char) := do
  let (hours, cs) ← readOffsetDigits cs
  let cs ← readMark ':' cs
  let (minutes, cs) ← readOffsetDigits cs
  if minutes < 60 then .ok (hours * 60 + minutes, cs) else .error .outOfRange

/-- The offset from UTC in minutes; the minus sign may be U+2212. -/
def readOffset : List Char → Except Fault (Int × List Char)
  | [] => .error .premature
  | c :: rest =>
    if c = 'Z' ∨ c = 'z' then .ok (0, rest)
    else if c = '+' then (readOffsetClock rest).map fun (n, tail) => ((n : Int), tail)
    else if c = '-' ∨ c = '\u2212' then
      (readOffsetClock rest).map fun (n, tail) => (-(n : Int), tail)
    else .error .invalid

/-- The length of the part of a date-time before its fraction. -/
def fixedLength : Nat :=
  19

/-- The instant of a local date-time at an offset. -/
def instant (date : Date) (clock : Clock) (millis : Nat) (offset : Int) : Timestamp :=
  let leap := clock.second = 60
  let second : Int := if leap then 59 else clock.second
  ⟨date.dayNumber * 86400 + clock.hour * 3600 + clock.minute * 60 + second - offset * 60,
    if leap then millis + 1000 else millis⟩

/-- Fail unless a condition holds. -/
def require (condition : Bool) (fault : Fault) : Except Fault Unit :=
  if condition then .ok () else .error fault

/-- The hours, minutes and seconds exist; second 60 is a leap second. -/
def Clock.isValid (clock : Clock) : Bool :=
  clock.hour < 24 && clock.minute < 60 && clock.second ≤ 60

/-- Read an RFC 3339 date-time from a list of characters. -/
def readChars (cs : List Char) : Except Fault Timestamp := do
  require (fixedLength ≤ byteCount cs) .premature
  let (date, cs) ← readDate cs
  let cs ← readSeparator cs
  let (clock, cs) ← readClock cs
  let (millis, cs) ← readFraction cs
  require clock.isValid .outOfRange
  let (offset, cs) ← readOffset cs
  require cs.isEmpty .trailing
  require (offset.natAbs < 1440) .outOfRange
  .ok (instant date clock millis offset)

/-- Read an RFC 3339 date-time. -/
def read (text : String) : Except Fault Timestamp :=
  readChars text.toList

/-- The wording of the refusal of a text. -/
def refusal (text : String) (fault : Fault) : String :=
  "invalid RFC 3339 timestamp " ++ Text.quoted text ++ ": " ++ fault.message

/-- A natural number with zeros in front up to a width. -/
def padded (width n : Nat) : List Char :=
  let ds := Nat.toDigits 10 n
  List.replicate (width - ds.length) '0' ++ ds

/-- A year has four digits; outside of those it has a sign as well. -/
def yearText (year : Int) : List Char :=
  if 0 ≤ year ∧ year ≤ 9999 then padded 4 year.natAbs
  else (if year < 0 then '-' else '+') :: padded 4 year.natAbs

/-- The text of a timestamp in UTC with three decimals. -/
def text (t : Timestamp) : String :=
  let date := Date.ofDayNumber (t.seconds / 86400)
  let clock := (t.seconds % 86400).toNat
  String.ofList
    (yearText date.year ++ '-' :: padded 2 date.month ++ '-' :: padded 2 date.day ++
      'T' :: padded 2 (clock / 3600) ++ ':' :: padded 2 (clock / 60 % 60) ++
      ':' :: padded 2 (clock % 60 + t.millis / 1000) ++
      '.' :: padded 3 (t.millis % 1000) ++ ['Z'])

/-- Milliseconds since 1970-01-01. -/
def unixMillis (t : Timestamp) : Int :=
  t.seconds * 1000 + t.millis

/-- Order of instants, a leap second behind the second before it. -/
def order (s t : Timestamp) : Ordering :=
  (compare s.seconds t.seconds).then (compare s.millis t.millis)

/-- The length of a bare date in bytes. -/
def dateLength : Nat :=
  10

/-- At least one digit, `most` at most, behind blanks that may precede them. -/
def readShortNumber (most : Nat) (cs : List Char) : Option (Nat × List Char) :=
  let start := cs.dropWhile Text.isBlank
  let ds := (Numeral.spanDigits start).1.take most
  if ds.isEmpty then none else some (Numeral.digitsValue ds, start.drop ds.length)

/-- A year of up to four digits, or a sign and digits of any number. -/
def readYear (cs : List Char) : Option (Int × List Char) :=
  match cs.dropWhile Text.isBlank with
  | '-' :: rest =>
    match Numeral.spanDigits rest with
    | ([], _) => none
    | (ds, tail) => some (-(Numeral.digitsValue ds : Int), tail)
  | '+' :: rest =>
    match Numeral.spanDigits rest with
    | ([], _) => none
    | (ds, tail) => some ((Numeral.digitsValue ds : Int), tail)
  | start => (readShortNumber 4 start).map fun (n, tail) => ((n : Int), tail)

/-- Read a bare date: year, month and day with hyphens between. -/
def readBareDate (cs : List Char) : Option Date := do
  let (year, cs) ← readYear cs
  let cs ← (readMark '-' cs).toOption
  let (month, cs) ← readShortNumber 2 cs
  let cs ← (readMark '-' cs).toOption
  let (day, cs) ← readShortNumber 2 cs
  let date : Date := ⟨year, month, day⟩
  if cs.isEmpty && date.isValid then some date else none

/-- The text is an RFC 3339 date-time or, where bare dates are allowed, a date
of ten bytes. -/
def accepts (allowDate : Bool) (text : String) : Bool :=
  (read text).toBool ||
    (allowDate && byteCount text.toList = dateLength && (readBareDate text.toList).isSome)

end Timestamp

end JsonTypedef
