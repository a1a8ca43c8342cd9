import TableParsing.Toml.Quoted

/-!
# TOML numbers and dates

Integers of 64 bits in four bases, floats, and dates and times. Underscores separate digits only
where digits stand on both sides.
-/
namespace TableParsing.Toml

def isDigit (c : Char) : Bool := decide ('0' ≤ c ∧ c ≤ '9')

/-- Further digits of a number, in front of the reversed `read`. -/
def moreDigits (isDigit : Char → Bool) (read : List Char) : Reader (List Char)
  | '_' :: c :: rest => if isDigit c then moreDigits isDigit (c :: read) rest else none
  | ['_'] => none
  | c :: rest =>
    if isDigit c then moreDigits isDigit (c :: read) rest else some (read.reverse, c :: rest)
  | [] => some (read.reverse, [])

/-- One or more digits. -/
def digits (isDigit : Char → Bool) : Reader (List Char)
  | c :: rest => if isDigit c then moreDigits isDigit [c] rest else none
  | [] => none

/-- Decimal digits without a leading zero. -/
def wholeDigits : Reader (List Char)
  | '0' :: rest => some (['0'], rest)
  | cs => digits isDigit cs

def isInt64 (n : Int) : Bool := decide (-0x8000000000000000 ≤ n ∧ n < 0x8000000000000000)

def numberIn (base : Nat) (cs : List Char) : Nat :=
  cs.foldl (fun n c => base * n + (hexValue? c).getD 0) 0

def integerValue? (negative : Bool) (base : Nat) (ds : List Char) : Option Value :=
  let n : Int := if negative then -(numberIn base ds : Int) else numberIn base ds
  if isInt64 n then some (.integer n) else none

/-- An integer behind a base mark. -/
def basedInteger (base : Nat) : Reader Value := fun cs =>
  (digits (fun c => (hexValue? c).any (· < base)) cs).bind fun (ds, rest) =>
    (integerValue? false base ds).map (·, rest)

/-- Whether the digits scaled by a power of ten round to a finite float. -/
def isFinite (mantissa : Nat) (exponent : Int) : Bool :=
  let magnitude := (toString mantissa).length + exponent
  mantissa == 0 || magnitude < 309 ||
    (magnitude ≤ 309 &&
      if 0 ≤ exponent then mantissa * Nat.pow 10 exponent.toNat < Nat.pow 2 1024 - Nat.pow 2 970
      else mantissa < (Nat.pow 2 1024 - Nat.pow 2 970) * Nat.pow 10 (-exponent).toNat)

/-- An optional sign: whether it is a minus. -/
def sign : List Char → Bool × List Char
  | '-' :: rest => (true, rest)
  | '+' :: rest => (false, rest)
  | cs => (false, cs)

/-- The digits behind a decimal point; none if there is no point. -/
def fractionDigits : Reader (List Char)
  | '.' :: rest => digits isDigit rest
  | cs => some ([], cs)

/-- The exponent behind its mark. -/
def exponentPart : Reader (Option Int)
  | 'e' :: rest | 'E' :: rest =>
    let (negative, rest) := sign rest
    (digits isDigit rest).map fun (ds, rest) =>
      (some (if negative then -(numberIn 10 ds : Int) else numberIn 10 ds), rest)
  | cs => some (none, cs)

/-- A decimal integer, or a float if a point or an exponent follows. -/
def decimal (negative : Bool) : Reader Value := fun cs => do
  let (whole, rest) ← wholeDigits cs
  let (fraction, rest) ← fractionDigits rest
  let (exponent, rest) ← exponentPart rest
  if fraction.isEmpty && exponent.isNone then
    (integerValue? negative 10 whole).map (·, rest)
  else
    let scaled := exponent.getD 0 - fraction.length
    if negative || isFinite (numberIn 10 (whole ++ fraction)) scaled then
      some (.float s!"{numberIn 10 (whole ++ fraction)}e{scaled}", rest)
    else none

def special (negative : Bool) : Reader Value
  | 'i' :: 'n' :: 'f' :: rest => some (.float (if negative then "-inf" else "inf"), rest)
  | 'n' :: 'a' :: 'n' :: rest => some (.float "nan", rest)
  | _ => none

/-- Exactly `count` digits, as a number in a range. -/
def fixedDigits (count lo hi : Nat) : Reader Nat := fun cs =>
  let ds := cs.take count
  let n := numberIn 10 ds
  if ds.length = count ∧ ds.all isDigit ∧ lo ≤ n ∧ n ≤ hi then some (n, cs.drop count) else none

def expect (c : Char) : List Char → Option (List Char)
  | d :: rest => if d = c then some rest else none
  | [] => none

def isLeapYear (year : Nat) : Bool := (year % 4 == 0 && year % 100 != 0) || year % 400 == 0

def daysIn (year month : Nat) : Nat :=
  if month = 2 then (if isLeapYear year then 29 else 28)
  else if month = 4 ∨ month = 6 ∨ month = 9 ∨ month = 11 then 30 else 31

/-- What is behind a date. -/
def date? (cs : List Char) : Option (List Char) := do
  let (year, cs) ← fixedDigits 4 0 9999 cs
  let cs ← expect '-' cs
  let (month, cs) ← fixedDigits 2 1 12 cs
  let cs ← expect '-' cs
  let (_, cs) ← fixedDigits 2 1 (daysIn year month) cs
  some cs

/-- What is behind a time of day; a leap second counts. -/
def time? (cs : List Char) : Option (List Char) := do
  let (_, cs) ← fixedDigits 2 0 23 cs
  let cs ← expect ':' cs
  let (_, cs) ← fixedDigits 2 0 59 cs
  let cs ← expect ':' cs
  let (_, cs) ← fixedDigits 2 0 60 cs
  match cs with
  | '.' :: rest => if rest.head?.any isDigit then some (rest.dropWhile isDigit) else some cs
  | _ => some cs

/-- What is behind an offset from universal time, if one follows. -/
def offset? : List Char → Option (List Char)
  | 'Z' :: rest | 'z' :: rest => some rest
  | '+' :: cs | '-' :: cs => do
    let (_, cs) ← fixedDigits 2 0 23 cs
    let cs ← expect ':' cs
    let (_, cs) ← fixedDigits 2 0 59 cs
    some cs
  | cs => some cs

/-- Two digits and a colon begin a time. -/
def beginsTime : List Char → Bool
  | a :: b :: ':' :: _ => isDigit a && isDigit b
  | _ => false

/-- Four digits and a hyphen begin a date. -/
def beginsDate : List Char → Bool
  | a :: b :: c :: d :: '-' :: _ => isDigit a && isDigit b && isDigit c && isDigit d
  | _ => false

/-- What is behind a date and the time that may follow it. -/
def dateTime? (cs : List Char) : Option (List Char) :=
  (date? cs).bind fun rest =>
    match rest with
    | c :: time =>
      if (c == 'T' || c == 't' || c == ' ') && beginsTime time then (time? time).bind offset?
      else some rest
    | [] => some []

def dateValue (cs : List Char) (rest : Option (List Char)) : Option (Value × List Char) :=
  rest.map fun rest => (.dateTime (String.ofList (cs.take (cs.length - rest.length))), rest)

def number : Reader Value := fun cs =>
  if beginsDate cs then dateValue cs (dateTime? cs)
  else if beginsTime cs then dateValue cs (time? cs)
  else
    match cs with
    | '0' :: 'x' :: rest => basedInteger 16 rest
    | '0' :: 'o' :: rest => basedInteger 8 rest
    | '0' :: 'b' :: rest => basedInteger 2 rest
    | _ =>
      let (negative, rest) := sign cs
      (special negative rest).or (decimal negative rest)

end TableParsing.Toml
