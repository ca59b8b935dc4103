/-!
# ResourceAudit.Decimal.Shortest

The fewest decimal digits that read back as the same floating point number, and
among these the nearest.  The number is taken apart into `m * 2 ^ q`; the reals
that round to it lie between the halves of the ways to its neighbours, and the
two grid points of each decimal grid around it are tested exactly.
-/

namespace ResourceAudit.Decimal

/-- A positive rational as a quotient. -/
structure Ratio where
  num : Nat
  den : Nat
  deriving Repr

/-- The number `m * 2 ^ q * 10 ^ (-e)`. -/
def Ratio.scaled (m : Nat) (q e : Int) : Ratio :=
  ⟨m * Nat.pow 2 q.toNat * Nat.pow 10 (-e).toNat, Nat.pow 2 (-q).toNat * Nat.pow 10 e.toNat⟩

/-- The positive finite number `m * 2 ^ q`, and whether the number below it is
only half as far as the one above it. -/
structure Binary where
  m : Nat
  q : Int
  narrowBelow : Bool
  deriving Repr

/-- The number that the bits of a positive finite floating point number mean. -/
def Binary.ofBits (bits : UInt64) : Binary :=
  let fraction : Nat := bits.toNat % Nat.pow 2 52
  let exponent : Nat := bits.toNat / Nat.pow 2 52 % Nat.pow 2 11
  if exponent = 0 then ⟨fraction, -1074, false⟩
  else ⟨fraction + Nat.pow 2 52, (exponent : Int) - 1075, fraction == 0 && decide (1 < exponent)⟩

/-- Whether the integer `d` on the grid of `10 ^ e` rounds to the number.  The
ends of its interval do when its own digits are even. -/
def Binary.admits (b : Binary) (d : Nat) (e : Int) : Bool :=
  let low := Ratio.scaled (if b.narrowBelow then 4 * b.m - 1 else 4 * b.m - 2) (b.q - 2) e
  let high := Ratio.scaled (4 * b.m + 2) (b.q - 2) e
  if b.m % 2 = 0 then low.num ≤ d * low.den && d * high.den ≤ high.num
  else low.num < d * low.den && d * high.den < high.num

/-- The nearest integer on the grid of `10 ^ e` that rounds to the number. -/
def Binary.onGrid (b : Binary) (e : Int) : Option Nat :=
  let exact := Ratio.scaled b.m b.q e
  let below := exact.num / exact.den
  let nearer := if 2 * (exact.num % exact.den) ≤ exact.den then below else below + 1
  let farther := if nearer = below then below + 1 else below
  [nearer, farther].find? fun d => 0 < d && b.admits d e

/-- The digits and the exponent on the coarsest of the grids from `10 ^ e` down
on which a point rounds to the number. -/
def Binary.shortestFrom (b : Binary) : Nat → Int → Nat × Int
  | 0, e => (0, e)
  | fuel + 1, e =>
    match b.onGrid e with
    | some d => (d, e)
    | none => b.shortestFrom fuel (e - 1)

/-- The shortest digits of a positive number and the exponent of the last one. -/
def Binary.shortest (b : Binary) : Nat × Int :=
  let magnitude := (Nat.toDigits 10 (b.m * Nat.pow 2 b.q.toNat / Nat.pow 2 (-b.q).toNat)).length
  b.shortestFrom 800 (if b.q < 0 ∧ magnitude = 1 then 1 else magnitude)

end ResourceAudit.Decimal
