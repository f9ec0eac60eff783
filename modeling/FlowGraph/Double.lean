/-!
Fractions in double precision: a fraction is rounded to the nearest one with
53 binary digits. A rounded fraction is again a numerator and a denominator.
-/

namespace FlowGraph.Double

/-- A quotient rounded to the nearest whole number, and halfway to the even one. -/
def roundQuotient (n d : Nat) : Nat :=
  let q := n / d
  let r := n % d
  if 2 * r < d then q else if d < 2 * r then q + 1 else q + q % 2

/-- A positive fraction rounded to 53 binary digits, if it does not come out too large. -/
def round? (n d : Nat) : Option (Nat × Nat) :=
  let guess : Int := (n.log2 : Int) - d.log2 - 52
  let scaled (e : Int) : Nat × Nat :=
    if e < 0 then (n * Nat.pow 2 (-e).toNat, d) else (n, d * Nat.pow 2 e.toNat)
  let low (e : Int) : Bool := let (a, b) := scaled e; a < Nat.pow 2 52 * b
  let e := if low guess then guess - 1 else guess
  let e := max e (-1074)
  let (a, b) := scaled e
  let m := roundQuotient a b
  if e < 0 then some (m, Nat.pow 2 (-e).toNat)
  else if m * Nat.pow 2 e.toNat < Nat.pow 2 1024 then some (m * Nat.pow 2 e.toNat, 1) else none

/-- A positive fraction below the largest, rounded. -/
def round (n d : Nat) : Nat × Nat := (round? n d).getD (n, d)

/-- The rounded sum of two fractions. -/
def add (x y : Nat × Nat) : Nat × Nat := round (x.1 * y.2 + y.1 * x.2) (x.2 * y.2)

def atMost (x y : Nat × Nat) : Bool := x.1 * y.2 ≤ y.1 * x.2

end FlowGraph.Double
