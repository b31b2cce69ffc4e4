import ChainIndent.Toml.Quoted

/-!
# ChainIndent.Toml.Number

Integers and floats, read off a whole word.

1. A run of digits may be parted by single underscores, each between two
   digits.  A decimal number has no leading zero and may have a sign.
2. Behind `0x`, `0o` and `0b` stand digits to the base 16, 8 and 2, without a
   sign and with leading zeros allowed.
3. An integer has to fit into 64 bits, signed.
4. A float is a decimal integer with a fraction, an exponent or both, or
   `inf` or `nan` with an optional sign.  A positive one that rounds to
   infinity is refused.
-/

namespace ChainIndent.Toml

/-- The value of a digit to a base of at most 16. -/
def digit? (base : Nat) (c : Char) : Option Nat := (hexDigit? c).filter (· < base)

/-- The digits of a run that single underscores may part; `afterDigit` tells
that a digit stands right before. -/
def parted? (base : Nat) (afterDigit : Bool) : List Char → Option (List Nat)
  | [] => if afterDigit then some [] else none
  | c :: r =>
    match digit? base c with
    | some d => (parted? base true r).map (d :: ·)
    | none => if c = '_' && afterDigit then parted? base false r else none

/-- The number that some digits write. -/
def ofDigits (base : Nat) (ds : List Nat) : Nat := ds.foldl (fun n d => base * n + d) 0

/-- The sign of a number, and the word behind it.  `true` is minus. -/
def splitSign : List Char → Bool × List Char
  | '+' :: r => (false, r)
  | '-' :: r => (true, r)
  | r => (false, r)

/-- Decimal digits without a leading zero. -/
def decimal? (w : List Char) : Option (List Nat) :=
  match parted? 10 false w with
  | some (0 :: _ :: _) => none
  | ds => ds

/-- A number that fits into a signed word of 64 bits. -/
def fitting? (n : Int) : Option Int :=
  if Int64.minValue.toInt ≤ n ∧ n ≤ Int64.maxValue.toInt then some n else none

/-- The integer that a word writes. -/
def integer? (w : List Char) : Option Int :=
  match w with
  | '0' :: 'x' :: r => (parted? 16 false r).bind fun ds => fitting? (ofDigits 16 ds)
  | '0' :: 'o' :: r => (parted? 8 false r).bind fun ds => fitting? (ofDigits 8 ds)
  | '0' :: 'b' :: r => (parted? 2 false r).bind fun ds => fitting? (ofDigits 2 ds)
  | _ =>
    let (minus, r) := splitSign w
    (decimal? r).bind fun ds => fitting? (if minus then -ofDigits 10 ds else ofDigits 10 ds)

/-! ## Floats -/

/-- A decimal number with an exponent: `mantissa · 10 ^ exponent`. -/
structure Scientific where
  mantissa : Nat
  exponent : Int
  deriving DecidableEq, Repr

/-- The exponent behind its letter. -/
def exponent? (w : List Char) : Option Int :=
  let (minus, r) := splitSign w
  (parted? 10 false r).map fun ds => if minus then -ofDigits 10 ds else ofDigits 10 ds

/-- The decimal number that a word without its sign writes, if it has a
fraction or an exponent. -/
def scientific? (w : List Char) : Option Scientific :=
  let isMark := fun c => c = '.' || c = 'e' || c = 'E'
  let isExp := fun c => c = 'e' || c = 'E'
  match decimal? (w.takeWhile fun c => !isMark c), w.dropWhile fun c => !isMark c with
  | some ds, '.' :: r =>
    match parted? 10 false (r.takeWhile fun c => !isExp c), r.dropWhile fun c => !isExp c with
    | some fs, [] => some ⟨ofDigits 10 (ds ++ fs), -fs.length⟩
    | some fs, _ :: r => (exponent? r).map fun e => ⟨ofDigits 10 (ds ++ fs), e - fs.length⟩
    | none, _ => none
  | some ds, _ :: r => (exponent? r).map fun e => ⟨ofDigits 10 ds, e⟩
  | _, _ => none

/-- The least number that rounds to infinity in binary64: half a unit above
the largest finite one. -/
def firstInfinite : Nat := 1 <<< 1024 - 1 <<< 970

/-- Whether a decimal number rounds to infinity in binary64.  Only few
exponents need the exact comparison: a mantissa of `d` digits other than
zero lies between `10 ^ (d - 1)` and `10 ^ d`. -/
def Scientific.isInfinite (x : Scientific) : Bool :=
  let d : Int := (Nat.toDigits 10 x.mantissa).length
  if x.mantissa = 0 then false
  else if d + x.exponent < 300 then false
  else if d + x.exponent > 320 then true
  else if 0 ≤ x.exponent then firstInfinite ≤ x.mantissa * Nat.pow 10 x.exponent.toNat
  else firstInfinite * Nat.pow 10 (-x.exponent).toNat ≤ x.mantissa

/-- Whether a word writes a float. -/
def isFloat (w : List Char) : Bool :=
  let (minus, r) := splitSign w
  if r = "inf".toList ∨ r = "nan".toList then true
  else match scientific? r with
    | none => false
    | some x => minus || !x.isInfinite

end ChainIndent.Toml
