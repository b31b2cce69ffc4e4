import ChainIndent.Toml.Number

/-!
# ChainIndent.Toml.Moment

Dates and times, read off a whole word: a date, a time, or both with an
offset from UTC behind them if wanted.

1. A date is four digits, two and two, parted by hyphens, and must exist in
   the Gregorian calendar.
2. A time is three times two digits, parted by colons, with a fraction of at
   least one digit if wanted.  The 60th second is allowed.
3. `T`, `t` or one space stands between a date and a time.
4. The offset is `Z`, `z`, or a signed time of day without seconds.
-/

namespace ChainIndent.Toml

/-- A number of exactly `n` decimal digits. -/
def fixed? (n : Nat) (cs : List Char) : Option (Nat × List Char) :=
  match (cs.take n).mapM (digit? 10) with
  | some ds => if ds.length = n then some (ofDigits 10 ds, cs.drop n) else none
  | none => none

/-- The text behind a character, if it begins with it. -/
def eat? (c : Char) : List Char → Option (List Char)
  | d :: r => if d = c then some r else none
  | [] => none

def isLeapYear (y : Nat) : Bool := y % 4 = 0 && (y % 100 ≠ 0 || y % 400 = 0)

/-- The number of days of a month. -/
def daysIn (year month : Nat) : Nat :=
  if month = 2 then if isLeapYear year then 29 else 28
  else if month = 4 ∨ month = 6 ∨ month = 9 ∨ month = 11 then 30
  else 31

/-- The text behind a date. -/
def skipDate? (cs : List Char) : Option (List Char) := do
  let (year, r) ← fixed? 4 cs
  let (month, r) ← fixed? 2 (← eat? '-' r)
  let (day, r) ← fixed? 2 (← eat? '-' r)
  if 1 ≤ month ∧ month ≤ 12 ∧ 1 ≤ day ∧ day ≤ daysIn year month then some r else none

/-- The text behind hours and minutes. -/
def skipClock? (cs : List Char) : Option (List Char) := do
  let (hour, r) ← fixed? 2 cs
  let (minute, r) ← fixed? 2 (← eat? ':' r)
  if hour ≤ 23 ∧ minute ≤ 59 then some r else none

/-- The text behind a time. -/
def skipTime? (cs : List Char) : Option (List Char) := do
  let (second, r) ← fixed? 2 (← eat? ':' (← skipClock? cs))
  if second > 60 then none
  else match r with
    | '.' :: c :: r' =>
      if (digit? 10 c).isSome then some (r'.dropWhile fun d => (digit? 10 d).isSome) else none
    | ['.'] => none
    | _ => some r

/-- The text behind an offset, or the text itself if it begins with none. -/
def skipOffset? : List Char → Option (List Char)
  | 'Z' :: r | 'z' :: r => some r
  | '+' :: r | '-' :: r => skipClock? r
  | r => some r

/-- Whether a word writes a date. -/
def isDate (w : List Char) : Bool := skipDate? w = some []

/-- Whether a word writes a moment. -/
def isMoment (w : List Char) : Bool :=
  match skipDate? w with
  | some [] => true
  | some (c :: r) =>
    (c = 'T' || c = 't' || c = ' ') && (skipTime? r).bind skipOffset? = some []
  | none => skipTime? w = some []

end ChainIndent.Toml
