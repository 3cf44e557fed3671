/-!
# Sizes and times as text

How reports show a number of bytes and a point in time.
-/

namespace XmlStore.Report

def kilobyte : Nat := 1024
def megabyte : Nat := 1024 * kilobyte
def gigabyte : Nat := 1024 * megabyte

/-- How many units a number of bytes is, rounded to the nearest whole number, a half up. -/
def inUnits (bytes unit : Nat) : Nat := (bytes + unit / 2) / unit

/-- A size in the largest unit that it exceeds. -/
def size (bytes : Nat) : String :=
  if bytes > gigabyte then toString (inUnits bytes gigabyte) ++ " GB"
  else if bytes > megabyte then toString (inUnits bytes megabyte) ++ " MB"
  else if bytes > kilobyte then toString (inUnits bytes kilobyte) ++ " KB"
  else toString bytes ++ " Bytes"

/-- A day of the Gregorian calendar, which is continued to all years; the year 0 precedes the
year 1. -/
structure Date where
  year : Int
  month : Nat
  day : Nat
  deriving DecidableEq, Repr

/-- The date of a day, counted from the first of January 1970. The count is moved to the first of
March of the year 0, so that a leap day ends a year, and is split into eras of 400 years. -/
def Date.ofDay (day : Int) : Date :=
  let shifted := day + 719468
  let era := shifted.fdiv 146097
  let dayOfEra := (shifted.fmod 146097).toNat
  let yearOfEra := (dayOfEra - dayOfEra / 1460 + dayOfEra / 36524 - dayOfEra / 146096) / 365
  let dayOfYear := dayOfEra - (365 * yearOfEra + yearOfEra / 4 - yearOfEra / 100)
  let month := (5 * dayOfYear + 2) / 153
  let year := (yearOfEra : Int) + era * 400
  { year := if month < 10 then year else year + 1
    month := if month < 10 then month + 3 else month - 9
    day := dayOfYear - (153 * month + 2) / 5 + 1 }

def firstYear : Int := -262143
def lastYear : Int := 262142

def padded (width n : Nat) : String :=
  let digits := (toString n).toList
  String.ofList (List.replicate (width - digits.length) '0' ++ digits)

def year (y : Int) : String :=
  let digits := padded 4 y.natAbs
  if y < 0 then "-" ++ digits else if y > 9999 then "+" ++ digits else digits

/-- A time in milliseconds since the start of 1970, to the second, in universal time; empty for
years that cannot be shown. -/
def time (milliseconds : Int) : String :=
  let seconds := milliseconds.fdiv 1000
  let date := Date.ofDay (seconds.fdiv 86400)
  let second := (seconds.fmod 86400).toNat
  if firstYear ≤ date.year && date.year ≤ lastYear then
    padded 2 date.day ++ "." ++ padded 2 date.month ++ "." ++ year date.year ++ " " ++
      padded 2 (second / 3600) ++ ":" ++ padded 2 (second / 60 % 60) ++ ":" ++
      padded 2 (second % 60)
  else ""

end XmlStore.Report
