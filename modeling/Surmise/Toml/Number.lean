import Surmise.Toml.Basic
import Surmise.Toml.Scan

/-!
# Numbers, dates and times of TOML

Digits may be grouped by single underscores. A decimal number has no leading zero, an integer fits into
64 bits, and a float is not too large for a double. A date is one of the calendar, and seconds go up to
sixty.
-/

namespace Surmise.Toml

/-! ## Digits -/

/-- Single underscores only between digits. -/
def isGrouped : List Char → Bool
  | [] => false
  | ['_'] => false
  | '_' :: '_' :: _ => false
  | [_] => true
  | _ :: rest => isGrouped rest

/-- A run of digits, without the underscores between them. -/
def digitRun (isDigit : Char → Bool) : Scan (List Char) := do
  let run ← Scan.takeWhile fun c => isDigit c || c == '_'
  if run.head? == some '_' || !isGrouped run then Scan.fail
  return run.filter (· != '_')

def digitValue (c : Char) : Nat :=
  if isDecimal c then c.toNat - '0'.toNat else c.toLower.toNat - 'a'.toNat + 10

def numberOf (base : Nat) (digits : List Char) : Nat :=
  digits.foldl (fun value c => value * base + digitValue c) 0

/-! ## Numbers -/

def fitted (value : Int) : Scan Toml :=
  if Int64.minValue.toInt ≤ value && value ≤ Int64.maxValue.toInt then return .integer value else Scan.fail

/-- The least number that is rounded to an infinite double. -/
def overflow : Nat := Nat.pow 2 1024 - Nat.pow 2 970

/-- Whether digits with an exponent of ten make a number that is too large for a double. -/
def isTooLarge (digits : List Char) (exponent : Int) : Bool :=
  let digits := digits.dropWhile (· == '0')
  let magnitude := digits.length + exponent
  if digits.isEmpty || magnitude < 309 then false
  else if 309 < magnitude then true
  else if 0 ≤ exponent then overflow ≤ numberOf 10 digits * Nat.pow 10 exponent.toNat
  else overflow * Nat.pow 10 (-exponent).toNat ≤ numberOf 10 digits

/-- The digits behind a point, if there is one. -/
def fraction? : Scan (Option (List Char)) := do
  if ← Scan.accept "." then return some (← digitRun isDecimal)
  return none

/-- The exponent of ten behind a mark, if there is one. -/
def exponent? : Scan (Option Int) := do
  unless ← Scan.acceptAny ["e", "E"] do return none
  let negative ← Scan.accept "-"
  unless negative do discard (Scan.accept "+")
  let size : Int := numberOf 10 (← digitRun isDecimal)
  return some (if negative then -size else size)

/-- A decimal number behind its sign. -/
def decimal (negative : Bool) : Scan Toml := do
  let whole ← digitRun isDecimal
  if whole.head? == some '0' && whole.length != 1 then Scan.fail
  match ← fraction?, ← exponent? with
  | none, none =>
    let size : Int := numberOf 10 whole
    fitted (if negative then -size else size)
  | fraction, exponent =>
    let fraction := fraction.getD []
    if !negative && isTooLarge (whole ++ fraction) (exponent.getD 0 - fraction.length) then Scan.fail
    return .float

def number : Scan Toml := do
  if ← Scan.accept "0x" then
    return ← fitted (numberOf 16 (← digitRun fun c => isDecimal c || ('a' ≤ c.toLower && c.toLower ≤ 'f')))
  if ← Scan.accept "0o" then return ← fitted (numberOf 8 (← digitRun fun c => '0' ≤ c && c ≤ '7'))
  if ← Scan.accept "0b" then return ← fitted (numberOf 2 (← digitRun fun c => c == '0' || c == '1'))
  let negative ← Scan.accept "-"
  unless negative do discard (Scan.accept "+")
  if ← Scan.acceptAny ["inf", "nan"] then return .float
  decimal negative

/-! ## Dates and times -/

def fixedNumber (width : Nat) : Scan Nat := fun text =>
  let digits := text.take width
  if digits.length == width && digits.all isDecimal then some (numberOf 10 digits, text.drop width) else none

def numberBetween (width low high : Nat) : Scan Nat := do
  let n ← fixedNumber width
  if low ≤ n && n ≤ high then return n else Scan.fail

/-- A number with zeros in front. -/
def padded (width n : Nat) : String :=
  let digits := toString n
  String.ofList (List.replicate (width - digits.length) '0') ++ digits

def isLeapYear (year : Nat) : Bool :=
  year % 4 == 0 && (year % 100 != 0 || year % 400 == 0)

def daysOfMonth (year : Nat) : Nat → Nat
  | 2 => if isLeapYear year then 29 else 28
  | 4 | 6 | 9 | 11 => 30
  | _ => 31

/-- A date behind its year. -/
def dateIn (year : Nat) : Scan String := do
  let month ← numberBetween 2 1 12
  Scan.expect "-"
  let day ← numberBetween 2 1 (daysOfMonth year month)
  return padded 4 year ++ "-" ++ padded 2 month ++ "-" ++ padded 2 day

/-- The digits of a fraction of a second, of which nine count, without zeros at the end. -/
def fractionText (digits : List Char) : String :=
  match ((digits.take 9).reverse.dropWhile (· == '0')).reverse with
  | [] => ""
  | shown => "." ++ String.ofList shown

/-- A time of day behind its hour. -/
def timeIn (hour : Nat) : Scan String := do
  let minute ← numberBetween 2 0 59
  Scan.expect ":"
  let second ← numberBetween 2 0 60
  let fraction ← if ← Scan.accept "." then do
      match ← Scan.takeWhile isDecimal with
      | [] => Scan.fail
      | digits => pure (fractionText digits)
    else pure ""
  return padded 2 hour ++ ":" ++ padded 2 minute ++ ":" ++ padded 2 second ++ fraction

/-- The hour that opens a time of day. -/
def hourMark? : Scan (Option Nat) :=
  Scan.attempt do
    let hour ← numberBetween 2 0 23
    Scan.expect ":"
    return hour

/-- How far local time is from universal time, if that is written. -/
def offset : Scan String := do
  if ← Scan.acceptAny ["Z", "z"] then return "Z"
  let sign ← if ← Scan.accept "+" then pure "+" else if ← Scan.accept "-" then pure "-" else return ""
  let hours ← numberBetween 2 0 23
  Scan.expect ":"
  let minutes ← numberBetween 2 0 59
  return (if hours = 0 && minutes = 0 then "+" else sign) ++ padded 2 hours ++ ":" ++ padded 2 minutes

/-- The time of day behind a date, if there is one. -/
def timeBehindDate : Scan String := do
  let found ← Scan.attempt do
    unless ← Scan.acceptAny ["T", "t", " "] do Scan.fail
    let some hour ← hourMark? | Scan.fail
    return hour
  match found with
  | some hour => return "T" ++ (← timeIn hour) ++ (← offset)
  | none => return ""

/-- A date or a time of day, if the text starts like one. -/
def moment? : Scan (Option Toml) := do
  let year ← Scan.attempt do
    let year ← fixedNumber 4
    Scan.expect "-"
    return year
  match year with
  | some year => return some (.moment ((← dateIn year) ++ (← timeBehindDate)))
  | none =>
    match ← hourMark? with
    | some hour => return some (.moment (← timeIn hour))
    | none => return none

end Surmise.Toml
