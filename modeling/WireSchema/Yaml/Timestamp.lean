import WireSchema.Text.Basic

/-!
# Timestamps

Which plain scalars are points in time: a date, or a date and a time of day. Months, days, hours,
minutes and seconds have one or two digits.
-/

namespace WireSchema.Yaml.Timestamp

/-- Reads a number of one or two digits. -/
def short? : Text → Option (Nat × Text)
  | a :: b :: rest =>
    if !Text.isDigit a then none
    else if Text.isDigit b then some ((a.toNat - 0x30) * 10 + (b.toNat - 0x30), rest)
    else some (a.toNat - 0x30, b :: rest)
  | [a] => if Text.isDigit a then some (a.toNat - 0x30, []) else none
  | [] => none

/-- Reads a number of one or two digits that is at most `limit`. -/
def upTo? (limit : Nat) (t : Text) : Option Text :=
  (short? t).bind fun (n, rest) => if n ≤ limit then some rest else none

def byte? (b : UInt8) : Text → Option Text
  | c :: rest => if b == c then some rest else none
  | [] => none

def daysIn (year month : Nat) : Nat :=
  if month == 2 then
    if year % 4 == 0 && (year % 100 != 0 || year % 400 == 0) then 29 else 28
  else if month == 4 || month == 6 || month == 9 || month == 11 then 30
  else 31

/-- Reads a date: a year of four digits, a month and a day. -/
def date? (t : Text) : Option Text := do
  let digits := t.takeWhile Text.isDigit
  if digits.length != 4 then none
  else
    let year := digits.foldl (fun n d => n * 10 + (d.toNat - 0x30)) 0
    let (month, t) ← short? (← byte? 0x2D (t.drop 4))
    let (day, t) ← short? (← byte? 0x2D t)
    if month < 1 || 12 < month || day < 1 || daysIn year month < day then none else some t

def skipFraction : Text → Text
  | b :: d :: rest =>
    if (b == 0x2E || b == 0x2C) && Text.isDigit d then rest.dropWhile Text.isDigit
    else b :: d :: rest
  | t => t

def time? (t : Text) : Option Text := do
  let t ← byte? 0x3A (← upTo? 23 t)
  let t ← byte? 0x3A (← upTo? 59 t)
  return skipFraction (← upTo? 59 t)

/-- Reads a number of exactly two digits that is at most `limit`. -/
def two? (limit : Nat) (t : Text) : Option Text :=
  match t with
  | a :: b :: _ => if Text.isDigit a && Text.isDigit b then upTo? limit t else none
  | _ => none

/-- Reads a time zone: `Z`, or a sign, hours and minutes. -/
def zone? : Text → Option Text
  | 0x5A :: rest => some rest
  | s :: rest =>
    if s == 0x2B || s == 0x2D then do
      let t ← byte? 0x3A (← two? 24 rest)
      two? 60 t
    else none
  | [] => none

/-- Is the text a timestamp? After the date there may be nothing, blanks and a time, or a `T`, a time
and its zone. -/
def accepts (t : Text) : Bool :=
  match date? t with
  | none => false
  | some [] => true
  | some (b :: rest) =>
    if b == 0x54 || b == 0x74 then ((time? rest).bind zone?) == some []
    else if b == 0x20 then time? (rest.dropWhile (· == 0x20)) == some []
    else false

end WireSchema.Yaml.Timestamp
