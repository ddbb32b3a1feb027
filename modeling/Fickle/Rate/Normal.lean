import Fickle.Scalar

/-! # The normal distribution

Closed approximations of the distribution function and of its inverse.
-/

namespace Fickle.Normal

variable {α : Type} [Scalar α]

/-- The value of a polynomial whose coefficients are given from the highest one down. -/
def polynomial (first : α) (rest : List α) (x : α) : α := rest.foldl (fun acc c => acc * x + c) first

/-- The distribution function, within 1.5e-7. -/
def cdf (x : α) : α :=
  let sign : α := if x < 0.0 then -1.0 else 1.0
  let z := Scalar.abs x / 1.4142135623730951
  let t : α := 1.0 / (1.0 + 0.3275911 * z)
  let tail := polynomial 1.061405429 [-1.453152027, 1.421413741, -0.284496736, 0.254829592] t
  let y := 1.0 - tail * t * Scalar.exp (-z * z)
  0.5 * (1.0 + sign * y)

/-- Numerator and denominator of the inverse in a tail. -/
def tailQuantile (q : α) : α × α :=
  (polynomial (-7.784894002430293e-3) [-3.223964580411365e-1, -2.400758277161838e0,
      -2.549732539343734e0, 4.374664141464968e0, 2.938163982698783e0] q,
    polynomial 7.784695709041462e-3 [3.224671290700398e-1, 2.445134137142996e0,
      3.754408661907416e0, 1.0] q)

/-- The inverse of the distribution function, for a probability strictly between zero and one. -/
def quantile (p : α) : α :=
  let low : α := 0.02425
  if p < low then
    match tailQuantile (Scalar.sqrt (-2.0 * Scalar.log p)) with
    | (num, den) => num / den
  else if p ≤ 1.0 - low then
    let q := p - 0.5
    let r := q * q
    polynomial (-3.969683028665376e1) [2.209460984245205e2, -2.759285104469687e2,
        1.383577518672690e2, -3.066479806614716e1, 2.506628277459239e0] r * q
      / polynomial (-5.447609879822406e1) [1.615858368580409e2, -1.556989798598866e2,
        6.680131188771972e1, -1.328068155288572e1, 1.0] r
  else
    match tailQuantile (Scalar.sqrt (-2.0 * Scalar.log (1.0 - p))) with
    | (num, den) => -num / den

/-- The two-sided critical value of a confidence level strictly between zero and one. -/
def criticalValue (confidence : α) : α := quantile (1.0 - (1.0 - confidence) / 2.0)

end Fickle.Normal
