/-
Binary64 numbers as their bit patterns, and the one way they come into
being here: `ofDecimal` turns `m · 10^e` into a number the fast way. It
takes the number nearest to `m` and multiplies or divides it by the one
nearest to a power of ten, so the answer is rounded twice and need not be
the nearest one. Every single operation does round to the nearest number,
ties to the even significand. The rounding is exact arithmetic on natural
numbers, so a number in a document is a value that a proof can compute
with; nothing rests on machine floating point.

A magnitude that rounds past the largest finite number has no value; one
too small to tell from zero is zero. The patterns that stand for no number
are not in the type, so every number is the same as itself.
-/
namespace ScopeRules

/-- The magnitude at which the finite numbers end. It stands for infinity,
and what is beyond it stands for no number. -/
def Binary64.overflowMagnitude : Nat := 0x7ff0000000000000

/-- A binary64 number, by its sixty-four bits: sign, eleven bits of
exponent, fifty-two of fraction. -/
structure Binary64 where
  bits : UInt64
  isNumber : bits.toNat % 0x8000000000000000 ≤ Binary64.overflowMagnitude
  deriving DecidableEq, Repr

instance : Inhabited Binary64 := ⟨⟨0, by decide⟩⟩

namespace Binary64

-- ============================================================ rounding

/-- The quotient `num / den` rounded to the nearest natural number, a tie
going to the even one. -/
def divNearest (num den : Nat) : Nat :=
  let q := num / den
  let twice := 2 * (num % den)
  if twice < den then q
  else if twice = den then q + q % 2
  else q + 1

/-- The exponent `k` with `2^k ≤ num / den < 2^(k+1)`, for a positive
quotient. The difference of the two logarithms is it or one more. -/
def quotientLog2 (num den : Nat) : Int :=
  let k : Int := (num.log2 : Int) - (den.log2 : Int)
  let reaches := if 0 ≤ k then den <<< k.toNat ≤ num else den ≤ num <<< (-k).toNat
  if reaches then k else k - 1

/-- The bits of the magnitude nearest to `num / den`, not yet checked for
overflow. The unit in the last place is `2^u`, where `u` is 52 below the
leading bit but never below `-1074`; a significand that rounds up to
`2^53` carries into the exponent field, which is the next number up. -/
def magnitude (num den : Nat) : Nat :=
  if num = 0 then 0
  else
    let u : Int := max (quotientLog2 num den - 52) (-1074)
    let significand :=
      if 0 ≤ u then divNearest num (den <<< u.toNat)
      else divNearest (num <<< (-u).toNat) den
    (u + 1074).toNat <<< 52 + significand

/-- The bits of a sign and a magnitude. -/
def signed (negative : Bool) (magnitude : Nat) : UInt64 :=
  UInt64.ofNat (if negative then 1 <<< 63 + magnitude else magnitude)

theorem magnitude_signed (negative : Bool) {magnitude : Nat} (h : magnitude ≤ overflowMagnitude) :
    (signed negative magnitude).toNat % 0x8000000000000000 = magnitude := by
  have hsign : (1 <<< 63 : Nat) = 0x8000000000000000 := by decide
  unfold overflowMagnitude at h
  unfold signed
  rw [UInt64.toNat_ofNat', hsign]
  cases negative <;> simp <;> omega

/-- A number from its sign and magnitude. -/
def ofMagnitude (negative : Bool) (magnitude : Nat) (h : magnitude ≤ overflowMagnitude) :
    Binary64 where
  bits := signed negative magnitude
  isNumber := (magnitude_signed negative h).symm ▸ h

-- ========================================================== arithmetic

/-- What the bits of a finite magnitude stand for, in units of the smallest
positive one, `2^-1074`. -/
def units (bits : Nat) : Nat :=
  let field := bits >>> 52
  let fraction := bits % (1 <<< 52)
  if field = 0 then fraction else (1 <<< 52 + fraction) <<< (field - 1)

/-- The product of two finite magnitudes, rounded. -/
def product (x y : Nat) : Nat := magnitude (units x * units y) (1 <<< 2148)

/-- The quotient of two finite magnitudes, rounded. -/
def quotient (x y : Nat) : Nat := magnitude (units x) (units y)

-- ============================================================ decimals

/-- The exponent of the largest power of ten that is finite. -/
def maxPower : Nat := 308

/-- The magnitude nearest to `10^k`. -/
def power (k : Nat) : Nat := magnitude (Nat.pow 10 k) 1

/-- The magnitude `x` divided by the largest power of ten time and again,
for as long as something of it is left. -/
def shrink (x : Nat) : Nat → Nat
  | 0 => x
  | times + 1 => if x = 0 then 0 else shrink (quotient x (power maxPower)) times

/-- The magnitude `x` divided by `10^k`, for a positive `k`. A power beyond
the finite ones is taken off in portions, the largest first. -/
def divided (x k : Nat) : Nat :=
  let portions := (k - 1) / maxPower
  quotient (shrink x portions) (power (k - portions * maxPower))

/-- The number that stands for `m · 10^e`, with the given sign; `none` if
that is not finite. It is the nearest one where `m` and the power of ten
are themselves numbers, and need not be where they are not. -/
def ofDecimal (negative : Bool) (m : Nat) (e : Int) : Option Binary64 :=
  let x := magnitude m 1
  let bits :=
    if e < 0 then divided x (-e).toNat
    else if e ≤ maxPower then product x (power e.toNat)
    else if x = 0 then 0
    else overflowMagnitude
  if h : bits < overflowMagnitude then some (ofMagnitude negative bits (Nat.le_of_lt h)) else none

-- ========================================================== comparison

/-- Zero of either sign. -/
def isZero (x : Binary64) : Bool := x.bits = 0 ∨ x.bits = 0x8000000000000000

/-- Equality of the numbers meant: the two zeros are one number, and apart
from them equal numbers have equal bits. -/
def same (x y : Binary64) : Bool := x.bits = y.bits ∨ (x.isZero ∧ y.isZero)

end Binary64

end ScopeRules
