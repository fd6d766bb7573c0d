/-!
# Binary floating point with 53 bits

A number `± m · 2^q` with `m < 2^53` and `-1074 ≤ q ≤ 971`, kept as integers. Rounding goes to the
nearest such number, a tie to the even one. `shortest` gives the fewest decimal digits that read
back as the same number.
-/

namespace ModuleAtlas.Json

/-- The number `± mantissa · 2^exponent`. -/
structure Binary64 where
  negative : Bool
  mantissa : Nat
  exponent : Int
deriving DecidableEq, Repr

namespace Binary64

/-- The least exponent. -/
def minExponent : Int := -1074

/-- The greatest exponent. -/
def maxExponent : Int := 971

/-- `num / den` times `2^(-q)` as a quotient of naturals. -/
def scaled (num den : Nat) (q : Int) : Nat × Nat :=
  if q < 0 then (num * Nat.pow 2 q.natAbs, den) else (num, den * Nat.pow 2 q.natAbs)

/-- The quotient rounded to a natural number, a half to the even one. -/
def roundQuotient (num den : Nat) : Nat :=
  let floor := num / den
  let twice := 2 * (num % den)
  if twice < den then floor
  else if den < twice then floor + 1
  else if floor % 2 = 0 then floor
  else floor + 1

/-- The exponent at which `num / den` has 53 bits before the point, but at least the least. -/
def exponentFor (num den : Nat) : Int :=
  let guess : Int := (Nat.log2 num : Int) - (Nat.log2 den : Int) - 52
  let (n, d) := scaled num den guess
  let exact := if n < d * Nat.pow 2 52 then guess - 1 else guess
  max exact minExponent

/-- The number nearest to `num / den`; none when it is beyond the greatest. -/
def ofQuotient? (num den : Nat) : Option Binary64 :=
  if num = 0 then some ⟨false, 0, minExponent⟩
  else
    let q := exponentFor num den
    let (n, d) := scaled num den q
    let m := roundQuotient n d
    let (m, q) := if m = Nat.pow 2 53 then (Nat.pow 2 52, q + 1) else (m, q)
    if maxExponent < q then none else some ⟨false, m, q⟩

/-- The number nearest to a natural number. -/
def ofNat? (n : Nat) : Option Binary64 := ofQuotient? n 1

/-- The absolute value as a quotient of naturals. -/
def quotient (x : Binary64) : Nat × Nat :=
  if x.exponent < 0 then (x.mantissa, Nat.pow 2 x.exponent.natAbs)
  else (x.mantissa * Nat.pow 2 x.exponent.natAbs, 1)

/-- The absolute value of the product, rounded. -/
def mul? (x y : Binary64) : Option Binary64 :=
  let (a, b) := x.quotient
  let (c, d) := y.quotient
  ofQuotient? (a * c) (b * d)

/-- The absolute value of the quotient, rounded; `y` is not zero. -/
def div? (x y : Binary64) : Option Binary64 :=
  let (a, b) := x.quotient
  let (c, d) := y.quotient
  ofQuotient? (a * d) (b * c)

/-- The power of ten, rounded. -/
def pow10? (k : Nat) : Option Binary64 := ofNat? (Nat.pow 10 k)

/-! ## Shortest digits -/

/-- Whether a decimal `digits · 10^k` rounds to `x`: it lies between the midpoints to the two
neighbours, which belong to `x` when its mantissa is even. -/
def readsBack (x : Binary64) (digits : Nat) (k : Int) : Bool :=
  -- Everything is compared as a multiple of `2^(exponent - 2)`.
  let low := if x.mantissa = Nat.pow 2 52 ∧ minExponent < x.exponent then 4 * x.mantissa - 1
    else 4 * x.mantissa - 2
  let high := 4 * x.mantissa + 2
  let q := x.exponent - 2
  let left := digits * (if 0 ≤ k then Nat.pow 10 k.natAbs else 1) *
    (if q < 0 then Nat.pow 2 q.natAbs else 1)
  let right := (if k < 0 then Nat.pow 10 k.natAbs else 1) *
    (if 0 ≤ q then Nat.pow 2 q.natAbs else 1)
  if x.mantissa % 2 = 0 then low * right ≤ left && left ≤ high * right
  else low * right < left && left < high * right

/-- The floor of `|x| / 10^k`, and the remainder against the divisor. -/
def floorAt (x : Binary64) (k : Int) : Nat × Nat × Nat :=
  let (n, d) := x.quotient
  let (n, d) := if 0 ≤ k then (n, d * Nat.pow 10 k.natAbs) else (n * Nat.pow 10 k.natAbs, d)
  (n / d, n % d, d)

/-- The number of decimal digits before the point, counted from the first digit that is not zero;
zero and below for numbers less than one. -/
def decimalPoint (x : Binary64) : Int :=
  let (n, d) := x.quotient
  if d ≤ n then (Nat.toDigits 10 (n / d)).length
  else 1 - (Nat.toDigits 10 ((d - 1) / n)).length

/-- The first grid of `count`, `count + 1`, … digits with a point that reads back as `x`: its
digits and the power of ten of the last digit. -/
def shortestFrom (x : Binary64) (point : Int) : (fuel count : Nat) → Nat × Int
  | 0, count =>
    let k := point - count
    ((floorAt x k).1, k)
  | fuel + 1, count =>
    let k := point - count
    let (low, rest, d) := floorAt x k
    let lowFits := x.readsBack low k
    let highFits := x.readsBack (low + 1) k
    if lowFits && (!highFits || 2 * rest < d || (2 * rest = d && low % 2 = 0)) then (low, k)
    else if highFits then if low + 1 = Nat.pow 10 count then (1, point) else (low + 1, k)
    else shortestFrom x point fuel (count + 1)

/-- The fewest decimal digits that read back as `|x|`, and the power of ten of the last one. -/
def shortest (x : Binary64) : Nat × Int :=
  if x.mantissa = 0 then (0, 0)
  else shortestFrom x x.decimalPoint 18 1

end Binary64

end ModuleAtlas.Json
