import SmlnjLlvm.Support.APIntRounding
import SmlnjLlvm.Support.APIntSqrt

/-!
# The first wrap of a quadratic

`SolveQuadraticEquationWrap`, in three times the width of its coefficients. An
assertion that fails is no result of the outer option, an equation without a
solution none of the inner one.
-/

namespace SmlnjLlvm.APIntOps

variable {n w : Nat}

def sext (V : BitVec n) (Width : Nat) : Option (BitVec Width) :=
  if n ≤ Width then some (V.signExtend Width) else none

def sextOrTrunc (V : BitVec n) (Width : Nat) : BitVec Width :=
  if n < Width then V.signExtend Width else V.setWidth Width

namespace SolveQuadraticEquationWrap

def RoundUp (V A : BitVec w) : Option (BitVec w) :=
  if A.msb ∨ A = 0 then none
  else do
    let T ← urem V.abs A
    some (if T = 0 then V else if V.msb then V + T else V + (A - T))

def normalize (A B C : BitVec w) : BitVec w × BitVec w × BitVec w :=
  if A.msb then (-A, -B, -C) else (A, B, C)

def shift (A B C R : BitVec w) : Option (BitVec w × Bool) :=
  let TwoA := 2 * A
  let SqrB := B * B
  if B.msb = false then do
    let C ← srem C R
    some (if C.msb = false ∧ C ≠ 0 then C - R else C, false)
  else do
    let LowkR := C - (← udiv SqrB (2 * TwoA))
    let LowkR ← RoundUp LowkR R
    if LowkR.slt C then
      let RoundedUp ← RoundUp (-C) R
      some (C - -RoundedUp, true)
    else some (C - LowkR, false)

def formula (A B SQ : BitVec w) (InexactSQ PickLow : Bool) : Option (BitVec w × BitVec w) :=
  let TwoA := 2 * A
  if PickLow then sdivrem (-B - (SQ + if InexactSQ then 1 else 0)) TwoA
  else sdivrem (-B + SQ) TwoA

def next (A B C X : BitVec w) : Option (BitVec w) :=
  let TwoA := 2 * A
  let VX := (A * X + B) * X + C
  let VY := VX + TwoA * X + A + B
  let SignChange := VX.msb ≠ VY.msb ∨ decide (VX = 0) ≠ decide (VY = 0)
  if SignChange then some (X + 1) else none

def root (roundSqrt : Nat → Nat) (turns : Nat) (A B C : BitVec w) (PickLow : Bool) :
    Option (Option (BitVec w)) :=
  let D := B * B - 4 * A * C
  if D.msb then none
  else do
    let SQ ← sqrt roundSqrt turns D
    let Q := SQ * SQ
    let InexactSQ := Q != D
    let SQ := if D.slt Q then SQ - 1 else SQ
    let (X, Rem) ← formula A B SQ InexactSQ PickLow
    if X.msb then none
    else if InexactSQ = false ∧ Rem = 0 then some (some X)
    else if ¬ (SQ * SQ).sle D then none
    else some (next A B C X)

end SolveQuadraticEquationWrap

open SolveQuadraticEquationWrap

def SolveQuadraticEquationWrap (roundSqrt : Nat → Nat) (turns : Nat) (A B C : BitVec n)
    (RangeWidth : Nat) : Option (Option (Σ Width, BitVec Width)) :=
  if ¬ RangeWidth ≤ n then none
  else if ¬ 1 < RangeWidth then none
  else if sextOrTrunc C RangeWidth = 0 then some (some ⟨n, 0⟩)
  else do
    let CoeffWidth := n * 3 % 2 ^ 32
    let A ← sext A CoeffWidth
    let B ← sext B CoeffWidth
    let C ← sext C CoeffWidth
    let (A, B, C) := normalize A B C
    let R := (1 : BitVec CoeffWidth) <<< RangeWidth
    let (C, PickLow) ← shift A B C R
    let X ← root roundSqrt turns A B C PickLow
    some (X.map fun X => ⟨CoeffWidth, X⟩)

end SmlnjLlvm.APIntOps
