/-!
# Time

The time of a script is a number of microseconds since the start of 1970. Every instruction takes
one, and sleeping takes as many as it is told; nothing else makes time pass.
-/

namespace HostScript

/-- A point in time, in microseconds. -/
abbrev Micros := Nat

/-- What an instruction takes. -/
def instructionTime : Micros := 1

/-- A duration given in seconds; what is negative or no number takes no time. -/
def microsOfSeconds (seconds : Float) : Micros :=
  if 0.0 < seconds then (seconds * 1e6).toUInt64.toNat else 0

def secondsOf (t : Micros) : Float := Float.ofNat t / 1e6

/-- A number with zeros before it. -/
def padded (width n : Nat) : String :=
  let digits := Nat.toDigits 10 n
  String.ofList (List.replicate (width - digits.length) '0' ++ digits)

/-- A duration in seconds with three decimals. -/
def secondsText (t : Micros) : String :=
  let millis := (t + 500) / 1000
  toString (millis / 1000) ++ "." ++ padded 3 (millis % 1000) ++ " s"

/-- Time of day, `HH:MM:SS`. -/
def timeText (t : Micros) : String :=
  let seconds := t / 1000000 % 86400
  padded 2 (seconds / 3600) ++ ":" ++ padded 2 (seconds / 60 % 60) ++ ":" ++ padded 2 (seconds % 60)

/-- Year, month and day of a number of days after the first of March of the year 0. A year that
starts in March has its leap day at its end, and its months follow a line. -/
def civil (days : Nat) : Nat × Nat × Nat :=
  let era := days / 146097
  let day := days % 146097
  let year := (day - day / 1460 + day / 36524 - day / 146096) / 365
  let dayOfYear := day - (365 * year + year / 4 - year / 100)
  let month := (5 * dayOfYear + 2) / 153
  let dayOfMonth := dayOfYear - (153 * month + 2) / 5 + 1
  let january := 10 ≤ month
  (era * 400 + year + (if january then 1 else 0), if january then month - 9 else month + 3, dayOfMonth)

/-- Date, `YYYY-MM-DD`. -/
def dateText (t : Micros) : String :=
  let (year, month, day) := civil (t / 86400000000 + 719468)
  padded 4 year ++ "-" ++ padded 2 month ++ "-" ++ padded 2 day

end HostScript
