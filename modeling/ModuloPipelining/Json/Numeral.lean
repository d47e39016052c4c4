import ModuloPipelining.Word

/-!
# The float reading of a numeral

A numeral that is no integer of the format is read as a binary64 float, and a numeral whose
reading overflows is refused. The reading is done in exact natural arithmetic:

* **Decimal scan.** Digits are appended to a significand while it stays an unsigned 64-bit
  word. Once an integer digit does not fit, it and every later integer digit only raise the
  decimal exponent by one. Fraction digits are appended while they fit and lower the exponent
  by one each; the first that does not fit ends the scan, and it and the rest are dropped.
* **Exponent.** An exponent whose digits exceed the largest signed 32-bit word reads as an
  overflow when it is positive and the significand is not zero, and as zero otherwise. Any
  other exponent is added to the decimal exponent, saturating at the 32-bit bounds.
* **Scaling.** A zero significand, or a negative decimal exponent, never overflows. A decimal
  exponent above 308 overflows. Otherwise the significand and the power of ten are each rounded
  to the nearest binary64 value, and their product overflows when it reaches the point halfway
  between the largest finite binary64 value and `2 ^ 1024`, where rounding goes up.
-/

namespace ModuloPipelining

namespace Json

/-- The value of a decimal digit character. -/
def digitValue (c : Char) : Nat := c.toNat - 48

/-- A decimal significand that fits an unsigned 64-bit word, with its decimal exponent. -/
structure DecimalScan where
  significand : Nat
  exponent : Int
  /-- An integer digit did not fit; later integer digits only scale. -/
  full : Bool
  deriving DecidableEq, Repr

namespace DecimalScan

/-- Scan integer digits. -/
def integerDigits : DecimalScan → List Char → DecimalScan
  | s, [] => s
  | s, d :: rest =>
    let next := s.significand * 10 + digitValue d
    if !s.full && next < u64Bound then integerDigits { s with significand := next } rest
    else integerDigits { s with exponent := s.exponent + 1, full := true } rest

/-- Scan fraction digits, stopping at the first that does not fit. -/
def fractionDigits : DecimalScan → List Char → DecimalScan
  | s, [] => s
  | s, d :: rest =>
    let next := s.significand * 10 + digitValue d
    if next < u64Bound then fractionDigits { s with significand := next, exponent := s.exponent - 1 } rest
    else s

end DecimalScan

/-- The largest signed 32-bit word, `2 ^ 31 - 1`. -/
def i32Max : Int := 2147483647

/-- The least signed 32-bit word, `-2 ^ 31`. -/
def i32Min : Int := -2147483648

/-- The nearest binary64 value to a natural number, as `m * 2 ^ shift`; ties go to the even
significand. -/
def nearestBinary64 (n : Nat) : Nat × Nat :=
  if n < Nat.pow 2 53 then (n, 0)
  else
    let shift := Nat.log2 n + 1 - 53
    let m := n / Nat.pow 2 shift
    let r := n % Nat.pow 2 shift
    let half := Nat.pow 2 (shift - 1)
    if half < r ∨ (r = half ∧ m % 2 = 1) then (m + 1, shift) else (m, shift)

/-- Whether `m * 2 ^ shift` rounds to infinity: it reaches the midpoint `2 ^ 1024 - 2 ^ 970`
between the largest finite binary64 value and `2 ^ 1024`. -/
def overflowsBinary64 (m shift : Nat) : Bool :=
  decide (Nat.pow 2 970 * (Nat.pow 2 54 - 1) ≤ m * Nat.pow 2 shift)

/-- Whether `significand * 10 ^ exponent`, read as described above, overflows. -/
def scaleOverflows (significand : Nat) (exponent : Int) : Bool :=
  if significand = 0 ∨ exponent < 0 then false
  else if 308 < exponent then true
  else
    let (m₁, s₁) := nearestBinary64 significand
    let (m₂, s₂) := nearestBinary64 (Nat.pow 10 exponent.toNat)
    overflowsBinary64 (m₁ * m₂) (s₁ + s₂)

/-- Whether a numeral with these integer digits, fraction digits and exponent overflows when
read as a binary64 float. -/
def numeralOverflows (integer fraction : List Char) (negativeExponent : Bool)
    (exponentDigits : List Char) : Bool :=
  let scan := (DecimalScan.integerDigits ⟨0, 0, false⟩ integer).fractionDigits fraction
  let e : Nat := exponentDigits.foldl (fun n d => n * 10 + digitValue d) 0
  if i32Max < e then scan.significand ≠ 0 && !negativeExponent
  else
    let shifted := if negativeExponent then scan.exponent - e else scan.exponent + e
    scaleOverflows scan.significand (max i32Min (min i32Max shifted))

theorem nearestBinary64_of_lt (n : Nat) (h : n < Nat.pow 2 53) : nearestBinary64 n = (n, 0) := by
  unfold nearestBinary64
  rw [if_pos h]

example : numeralOverflows ['1'] [] false ['3', '0', '9'] = true := by decide
example : numeralOverflows ['1'] [] true ['9', '9', '9'] = false := by decide
example : numeralOverflows ['0'] [] false ['9', '9', '9', '9', '9', '9', '9', '9', '9', '9', '9'] = false := by
  decide

end Json

end ModuloPipelining
