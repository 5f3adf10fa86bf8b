import HeaderLex.Number.Word

/-!
# Dates and times

* `Moment`      a day, a time of day, or both with an optional distance from the prime meridian;
* `daysIn`      the length of a month;
* `moment?`     the moment at the start of a text.
-/

namespace HeaderLex.Toml

structure Date where
  year : Nat
  month : Nat
  day : Nat
deriving DecidableEq, Repr

/-- A time of day.  A minute may end with a leap second. -/
structure Clock where
  hour : Nat
  minute : Nat
  second : Nat
  nanosecond : Nat
deriving DecidableEq, Repr

inductive Moment where
  | day (date : Date)
  | time (clock : Clock)
  /-- A day with a time, and its distance in minutes from universal time. -/
  | both (date : Date) (clock : Clock) (offset : Option Int)
deriving DecidableEq, Repr

def isLeapYear (year : Nat) : Bool := year % 4 == 0 && (year % 100 != 0 || year % 400 == 0)

def daysIn (year month : Nat) : Nat :=
  if month = 2 then if isLeapYear year then 29 else 28
  else if [4, 6, 9, 11].contains month then 30
  else 31

/-- The text after a character. -/
def after? (c : Char) : List Char → Option (List Char)
  | d :: cs => if d = c then some cs else none
  | [] => none

/-- The number in the next `width` digits, if it lies between `low` and `high`. -/
def field? (width low high : Nat) (cs : List Char) : Option (Nat × List Char) := do
  let digits := cs.take width
  let n ← if digits.length = width then Number.readDigits? 10 digits else none
  if low ≤ n ∧ n ≤ high then some (n, cs.drop width) else none

/-- A date: year, month and day with dashes between them. -/
def date? (cs : List Char) : Option (Date × List Char) := do
  let (year, cs) ← field? 4 0 9999 cs
  let (month, cs) ← field? 2 1 12 (← after? '-' cs)
  let (day, cs) ← field? 2 1 (daysIn year month) (← after? '-' cs)
  return (⟨year, month, day⟩, cs)

/-- The nanoseconds that a fraction of a second stands for; digits after the ninth do not count. -/
def nanoseconds (digits : List Char) : Nat :=
  let kept := digits.take 9
  (Number.readDigits? 10 kept).getD 0 * Nat.pow 10 (9 - kept.length)

/-- The fraction of a second; zero if there is none. -/
def fraction (cs : List Char) : Nat × List Char :=
  match cs with
  | '.' :: rest =>
    let digits := rest.takeWhile Char.isDigit
    if digits.isEmpty then (0, cs) else (nanoseconds digits, rest.dropWhile Char.isDigit)
  | _ => (0, cs)

/-- A time of day: hour, minute and second with colons between them, and a fraction. -/
def clock? (cs : List Char) : Option (Clock × List Char) := do
  let (hour, cs) ← field? 2 0 23 cs
  let (minute, cs) ← field? 2 0 59 (← after? ':' cs)
  let (second, cs) ← field? 2 0 60 (← after? ':' cs)
  let (nanosecond, cs) := fraction cs
  return (⟨hour, minute, second, nanosecond⟩, cs)

/-- A time of day behind a date: a letter or a blank divides them. -/
def dividedClock? : List Char → Option (Clock × List Char)
  | c :: cs => if c = 'T' ∨ c = 't' ∨ c = ' ' then clock? cs else none
  | [] => none

/-- A distance from universal time in minutes. -/
def offset? (cs : List Char) : Option (Int × List Char) :=
  match cs with
  | 'Z' :: rest => some (0, rest)
  | 'z' :: rest => some (0, rest)
  | c :: rest =>
    if c = '+' ∨ c = '-' then do
      let (hour, rest) ← field? 2 0 23 rest
      let (minute, rest) ← field? 2 0 59 (← after? ':' rest)
      return (Number.signed (c == '-') (hour * 60 + minute), rest)
    else none
  | [] => none

/-- The moment at the start of a text.  Only a time with a date has an offset. -/
def moment? (cs : List Char) : Option (Moment × List Char) :=
  match date? cs with
  | none => (clock? cs).map fun (clock, rest) => (.time clock, rest)
  | some (date, rest) =>
    match dividedClock? rest with
    | none => some (.day date, rest)
    | some (clock, rest) =>
      match offset? rest with
      | none => some (.both date clock none, rest)
      | some (minutes, rest) => some (.both date clock (some minutes), rest)

end HeaderLex.Toml
