/-!
# Binary floating point of 64 bits

A value is kept as its sign, its mantissa and its exponent, so that products, comparisons and
texts are computed with whole numbers and every step can be followed by a proof. A result that
fits no such number exactly goes to the nearest one, and of two equally near ones to the one with
the even mantissa.
-/

namespace GramCensus

/-- A 64-bit binary floating-point value. A finite value is `mantissa * 2 ^ exponent`, negated if
`negative`, with the smallest exponent that leaves the mantissa below `2 ^ 53` and is at least
`-1074`. -/
inductive Binary64 where
  | nan
  | infinite (negative : Bool)
  | finite (negative : Bool) (mantissa : Nat) (exponent : Int)
  deriving DecidableEq, Repr, Inhabited

namespace Binary64

/-! ## Rounding -/

/-- The numerator and the denominator of `num / den` after division by `2 ^ exponent`. -/
def scaleDown (num den : Nat) : Int → Nat × Nat
  | .ofNat e => (num, den <<< e)
  | .negSucc e => (num <<< (e + 1), den)

/-- The whole number nearest to `num / den`, the even one of two equally near. -/
def nearestEven (num den : Nat) : Nat :=
  let floor := num / den
  let twice := 2 * (num % den)
  if twice < den then floor
  else if den < twice then floor + 1
  else if floor % 2 = 0 then floor
  else floor + 1

/-- The smallest exponent, not below `-1074`, at which `num / den` is below `2 ^ 53`. -/
def exponentFor (num den : Nat) : Int :=
  let estimate : Int := (Nat.log2 num : Int) - (Nat.log2 den : Int) - 53
  let fits (e : Int) : Bool :=
    let (n, d) := scaleDown num den e
    n < d <<< 53
  let least := if fits estimate then estimate else if fits (estimate + 1) then estimate + 1
    else estimate + 2
  max (-1074) least

/-- The value nearest to `num / den`, negated if `negative`; infinite from half a step above the
largest finite value on. -/
def ofRatio (negative : Bool) (num den : Nat) : Binary64 :=
  if num = 0 then .finite negative 0 (-1074)
  else
    let exponent := exponentFor num den
    let (n, d) := scaleDown num den exponent
    let mantissa := nearestEven n d
    let (mantissa, exponent) :=
      if mantissa = 1 <<< 53 then (1 <<< 52, exponent + 1) else (mantissa, exponent)
    if 971 < exponent then .infinite negative else .finite negative mantissa exponent

/-- The value nearest to a whole number. -/
def ofNat (value : Nat) : Binary64 :=
  ofRatio false value 1

/-- The value nearest to `digits * 10 ^ power`. Powers far outside the range are decided by the
number of digits alone. -/
def ofDecimal (negative : Bool) (digits : Nat) (power : Int) : Binary64 :=
  let magnitude : Int := (Nat.log2 digits : Int) / 4 + power
  let ceiling : Int := (Nat.log2 digits : Int) + power
  if digits = 0 then .finite negative 0 (-1074)
  else if 400 < magnitude then .infinite negative
  else if ceiling < -400 then .finite negative 0 (-1074)
  else match power with
    | .ofNat p => ofRatio negative (digits * Nat.pow 10 p) 1
    | .negSucc p => ofRatio negative digits (Nat.pow 10 (p + 1))

/-! ## Arithmetic -/

/-- The product, rounded once. Zero times an infinite value is no number. -/
def mul : Binary64 → Binary64 → Binary64
  | .nan, _ => .nan
  | _, .nan => .nan
  | .infinite s, .infinite t => .infinite (s != t)
  | .infinite s, .finite t m _ => if m = 0 then .nan else .infinite (s != t)
  | .finite s m _, .infinite t => if m = 0 then .nan else .infinite (s != t)
  | .finite s m e, .finite t n f =>
    match e + f with
    | .ofNat p => ofRatio (s != t) ((m * n) <<< p) 1
    | .negSucc p => ofRatio (s != t) (m * n) (1 <<< (p + 1))

/-- Neither infinite nor without a value. -/
def isFinite : Binary64 → Bool
  | .finite .. => true
  | _ => false

/-- Not smaller than one. -/
def atLeastOne : Binary64 → Bool
  | .nan => false
  | .infinite negative => !negative
  | .finite true _ _ => false
  | .finite false mantissa (.ofNat _) => 0 < mantissa
  | .finite false mantissa (.negSucc e) => 1 <<< (e + 1) ≤ mantissa

/-- The smallest whole number that is not below the value, kept between zero and `limit`; zero
where there is no value. -/
def ceiling (limit : Nat) : Binary64 → Nat
  | .nan => 0
  | .infinite negative => if negative then 0 else limit
  | .finite true _ _ => 0
  | .finite false mantissa (.ofNat e) => min limit (mantissa <<< e)
  | .finite false mantissa (.negSucc e) =>
    min limit ((mantissa + (1 <<< (e + 1)) - 1) / (1 <<< (e + 1)))

/-! ## Reading a text -/

/-- A decimal literal: its digits as one number and the power of ten that scales them. -/
structure Literal where
  digits : Nat
  power : Int

private def decimalValue (digits : List Char) : Nat :=
  digits.foldl (fun value c => 10 * value + (c.toNat - 48)) 0

/-- A sign and at least one digit, to the end of the text. -/
private def power? (text : List Char) : Option Int :=
  let (negative, digits) := match text with
    | '-' :: rest => (true, rest)
    | '+' :: rest => (false, rest)
    | rest => (false, rest)
  if digits.isEmpty || !digits.all Char.isDigit then none
  else some (if negative then -(decimalValue digits : Int) else decimalValue digits)

/-- Digits, a point and digits, with a digit on at least one side; then, after `e` or `E`, a
power of ten. -/
def literal? (text : List Char) : Option Literal :=
  let whole := text.takeWhile Char.isDigit
  let afterWhole := text.dropWhile Char.isDigit
  let (fraction, rest) := match afterWhole with
    | '.' :: more => (more.takeWhile Char.isDigit, more.dropWhile Char.isDigit)
    | other => ([], other)
  if whole.isEmpty && fraction.isEmpty then none
  else
    let digits := decimalValue (whole ++ fraction)
    let shift : Int := -(fraction.length : Int)
    match rest with
    | [] => some ⟨digits, shift⟩
    | c :: more =>
      if c = 'e' ∨ c = 'E' then (power? more).map fun p => ⟨digits, p + shift⟩ else none

/-- Reads an optional sign and then `inf`, `infinity` or `nan` in any case, or a decimal
literal, to the end of the text. -/
def read? (text : List Char) : Option Binary64 :=
  let (negative, body) := match text with
    | '-' :: rest => (true, rest)
    | '+' :: rest => (false, rest)
    | rest => (false, rest)
  let lower := String.ofList (body.map Char.toLower)
  if lower = "nan" then some .nan
  else if lower = "inf" ∨ lower = "infinity" then some (.infinite negative)
  else (literal? body).map fun l => ofDecimal negative l.digits l.power

/-! ## Writing a text -/

/-- The two sides of `j * 10 ^ power` against `quarters * 2 ^ exponent`, as whole numbers: the
first is multiplied by `j`, the second stands alone. -/
private def gridSides (quarters : Nat) (exponent power : Int) : Nat × Nat :=
  let (unit, value) := match exponent with
    | .ofNat e => (1, quarters <<< e)
    | .negSucc e => (1 <<< (e + 1), quarters)
  match power with
  | .ofNat p => (unit * Nat.pow 10 p, value)
  | .negSucc p => (unit, value * Nat.pow 10 (p + 1))

/-- The point of the grid of step `10 ^ power` that reads back as `mantissa * 2 ^ exponent`, if there
is one: the nearer of two, and the upper one of two equally near. -/
private def gridPoint? (mantissa : Nat) (exponent power : Int) : Option Nat :=
  let below := if mantissa = 1 <<< 52 ∧ -1074 < exponent then 1 else 2
  let (step, value) := gridSides (4 * mantissa) (exponent - 2) power
  let (_, low) := gridSides (4 * mantissa - below) (exponent - 2) power
  let (_, high) := gridSides (4 * mantissa + 2) (exponent - 2) power
  let readsBack (point : Nat) : Bool :=
    if mantissa % 2 = 0 then low ≤ point * step && point * step ≤ high
    else low < point * step && point * step < high
  let floor := value / step
  match readsBack floor, readsBack (floor + 1) with
  | true, true => some (if value - floor * step < (floor + 1) * step - value then floor else floor + 1)
  | true, false => some floor
  | false, true => some (floor + 1)
  | false, false => none

/-- The point of the coarsest grid of a power of ten that reads back, and that power, looked for
from `power` downwards. -/
private def coarsest (mantissa : Nat) (exponent : Int) : Nat → Int → Nat × Int
  | 0, power => (mantissa, power)
  | rounds + 1, power =>
    match gridPoint? mantissa exponent power with
    | some point => (point, power)
    | none => coarsest mantissa exponent rounds (power - 1)

/-- The digits of `point * 10 ^ power` in positional notation. -/
private def positional (point : Nat) : Int → List Char
  | .ofNat p => Nat.toDigits 10 point ++ List.replicate p '0'
  | .negSucc p =>
    let digits := Nat.toDigits 10 point
    let places := p + 1
    if places < digits.length then
      digits.take (digits.length - places) ++ '.' :: digits.drop (digits.length - places)
    else '0' :: '.' :: (List.replicate (places - digits.length) '0' ++ digits)

/-- The fewest digits that read back as the value, written without an exponent and, for a whole
number, without a point. -/
def text : Binary64 → String
  | .nan => "NaN"
  | .infinite negative => if negative then "-inf" else "inf"
  | .finite negative mantissa exponent =>
    let body :=
      if mantissa = 0 then ['0']
      else
        let (point, power) := coarsest mantissa exponent 700 310
        positional point power
    String.ofList (if negative then '-' :: body else body)

end Binary64

end GramCensus
