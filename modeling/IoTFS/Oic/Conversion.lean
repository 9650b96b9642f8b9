import IoTFS.Oic.Resource
import Mathlib.Algebra.Group.Int.Defs

/-!
# Token extraction and lexical conversions

The text handed to a file is read as one white-space delimited token. An integer
attribute is converted by the decimal reader of the cast library, a Boolean one by
the case-insensitive specialisation of `utils.h`; both reject by throwing, modelled
as the absence of a value.
-/

namespace IoTFS.Oic

/-- `isspace` of the classic locale. -/
def isSpace (c : Char) : Bool :=
  c = ' ' || c = '\t' || c = '\n' || c = '\x0b' || c = '\x0c' || c = '\r'

/-- `is >> result`: skip white space, then read up to the next white space. -/
def token (input : Str) : Str :=
  (input.dropWhile isSpace).takeWhile fun c => !isSpace c

/-- A decimal digit's value. -/
def digit (c : Char) : Option Nat :=
  if '0' ≤ c ∧ c ≤ '9' then some (c.toNat - '0'.toNat) else none

/-- Accumulate decimal digits from the left. -/
def readDigits : Nat → Str → Option Nat
  | n, [] => some n
  | n, c :: cs => (digit c).bind fun d => readDigits (10 * n + d) cs

/-- A nonempty run of decimal digits. -/
def readDecimal (s : Str) : Option Nat := if s = [] then none else readDigits 0 s

/-- Accept an integer that fits the machine type. -/
def narrowInt (i : Int) : Option Int32 :=
  if -2 ^ 31 ≤ i ∧ i < 2 ^ 31 then some (Int32.ofInt i) else none

/-- `boost::lexical_cast<int>`: an optional sign and decimal digits within range. -/
def lexicalCastInt (arg : Str) : Option Int32 :=
  match arg with
  | '-' :: ds => (readDecimal ds).bind fun n => narrowInt (-n)
  | '+' :: ds => (readDecimal ds).bind fun n => narrowInt n
  | ds => (readDecimal ds).bind fun n => narrowInt n

/-- `boost::iequals`: equality of text up to letter case. -/
def iequals (a b : Str) : Bool := a.map Char.toLower = b.map Char.toLower

/-- `boost::lexical_cast<bool, std::string>` as specialised in `utils.h`. -/
def lexicalCastBool (arg : Str) : Option Bool :=
  if iequals arg ['t', 'r', 'u', 'e'] then some true
  else if iequals arg ['f', 'a', 'l', 's', 'e'] then some false
  else none

example : token [' ', '7', ' ', '8', '\n'] = ['7'] := by decide

example : lexicalCastInt ['-', '4', '2'] = some (-42) := by decide

end IoTFS.Oic
