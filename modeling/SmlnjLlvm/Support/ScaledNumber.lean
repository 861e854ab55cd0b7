import SmlnjLlvm.Library.Loop
import SmlnjLlvm.Support.IntRange

/-!
# Scaled numbers

Digits with a binary scale: products and quotients that keep as many bits as
the digits have, comparison, logarithms, sums and differences. Assertions and
the bound on the turns of the long division make a result absent.
-/

namespace SmlnjLlvm.ScaledNumbers

open Support Loop

def int16 (x : Int) : Int := x.bmod (2 ^ 16)

def MinScale : Int := -16382

def MaxScale : Int := 16383

def INT16_MAX : Int := 32767

def INT32_MIN : Int := -2 ^ 31

def UINT32_MAX : Nat := 2 ^ 32 - 1

abbrev Scaled (w : Nat) : Type := BitVec w × Int

def getRounded {w : Nat} (Digits : BitVec w) (Scale : Int) (ShouldRound : Bool) : Scaled w :=
  if ShouldRound then
    if Digits + 1 = 0 then ((1 : BitVec w) <<< (w - 1), int16 (Scale + 1)) else (Digits + 1, Scale)
  else (Digits, Scale)

def bit_width (Value : BitVec 64) : Nat := 64 - countl_zero Value

def getAdjusted (w : Nat) (Digits : BitVec 64) (Scale : Int) : Scaled w :=
  if w = 64 ∨ Digits.toNat ≤ 2 ^ w - 1 then (Digits.setWidth w, Scale)
  else
    let Shift := bit_width Digits - w
    getRounded ((Digits >>> Shift).setWidth w) (int16 (Scale + Shift))
      (Digits &&& (1 : BitVec 64) <<< (Shift - 1) != 0)

def getU (N : BitVec 64) : BitVec 64 := N >>> 32

def getL (N : BitVec 64) : BitVec 64 := N &&& BitVec.ofNat 64 UINT32_MAX

def addWithCarry (Upper Lower N : BitVec 64) : BitVec 64 × BitVec 64 :=
  let NewLower := Lower + getL N <<< 32
  (Upper + (getU N + if NewLower < Lower then 1 else 0), NewLower)

def multiply64 (LHS RHS : BitVec 64) : Scaled 64 :=
  let UL := getU LHS
  let LL := getL LHS
  let UR := getU RHS
  let LR := getL RHS
  let P1 := UL * UR
  let P2 := UL * LR
  let P3 := LL * UR
  let P4 := LL * LR
  let first := addWithCarry P1 P4 P2
  let sum := addWithCarry first.1 first.2 P3
  let Upper := sum.1
  let Lower := sum.2
  if Upper = 0 then (Lower, 0)
  else
    let LeadingZeros := countl_zero Upper
    let Shift := 64 - LeadingZeros
    let Upper := if LeadingZeros ≠ 0 then Upper <<< LeadingZeros ||| Lower >>> Shift else Upper
    getRounded Upper (int16 Shift) (Shift != 0 && Lower &&& (1 : BitVec 64) <<< (Shift - 1) != 0)

def getProduct {w : Nat} (LHS RHS : BitVec w) : Scaled w :=
  if w ≤ 32 ∨ (LHS.toNat ≤ UINT32_MAX ∧ RHS.toNat ≤ UINT32_MAX) then
    getAdjusted w (LHS.setWidth 64 * RHS.setWidth 64) 0
  else
    let r := multiply64 (LHS.setWidth 64) (RHS.setWidth 64)
    (r.1.setWidth w, r.2)

def getHalf (N : BitVec 64) : BitVec 64 := N >>> 1 + (N &&& 1)

def divide32 (Dividend Divisor : BitVec 32) : Option (Scaled 32) := do
  guard (Dividend ≠ 0)
  guard (Divisor ≠ 0)
  let Zeros := countl_zero (Dividend.setWidth 64)
  let Shift : Int := -Zeros
  let Dividend64 := Dividend.setWidth 64 <<< Zeros
  let Quotient := Dividend64 / Divisor.setWidth 64
  let Remainder := Dividend64 % Divisor.setWidth 64
  some (if Quotient.toNat > UINT32_MAX then getAdjusted 32 Quotient (int16 Shift)
    else getRounded (Quotient.setWidth 32) (int16 Shift)
      (decide (getHalf (Divisor.setWidth 64) ≤ Remainder)))

/-- What changes in the long division. -/
structure LongDivision where
  Quotient : BitVec 64
  Dividend : BitVec 64
  Shift : Int

def divideTurn (Divisor : BitVec 64) (s : LongDivision) : Option (Turn LongDivision LongDivision) :=
  if s.Quotient >>> 63 = 0 ∧ s.Dividend ≠ 0 then
    let IsOverflow := s.Dividend >>> 63 != 0
    let Dividend := s.Dividend <<< 1
    let Shift := s.Shift - 1
    let Quotient := s.Quotient <<< 1
    if IsOverflow ∨ Divisor ≤ Dividend then
      some (.next ⟨Quotient ||| 1, Dividend - Divisor, Shift⟩)
    else some (.next ⟨Quotient, Dividend, Shift⟩)
  else some (.exit s)

def divide64 (turns : Nat) (Dividend Divisor : BitVec 64) : Option (Scaled 64) := do
  guard (Dividend ≠ 0)
  guard (Divisor ≠ 0)
  let Zeros := countr_zero Divisor
  let Shift : Int := -Zeros
  let Divisor := Divisor >>> Zeros
  if Divisor = 1 then some (Dividend, int16 Shift)
  else do
    let Zeros := countl_zero Dividend
    let Shift := Shift - Zeros
    let Dividend := Dividend <<< Zeros
    let s ← loop (divideTurn Divisor) turns ⟨Dividend / Divisor, Dividend % Divisor, Shift⟩
    some (getRounded s.Quotient (int16 s.Shift) (decide (getHalf Divisor ≤ s.Dividend)))

def getQuotient {w : Nat} (turns : Nat) (Dividend Divisor : BitVec w) : Option (Scaled w) :=
  if Dividend = 0 then some (0, 0)
  else if Divisor = 0 then some (BitVec.allOnes w, MaxScale)
  else if w = 64 then do
    let r ← divide64 turns (Dividend.setWidth 64) (Divisor.setWidth 64)
    some (r.1.setWidth w, r.2)
  else do
    let r ← divide32 (Dividend.setWidth 32) (Divisor.setWidth 32)
    some (r.1.setWidth w, r.2)

def getLgImpl {w : Nat} (Digits : BitVec w) (Scale : Int) : Option (Int × Int) :=
  if Digits = 0 then some (INT32_MIN, 0)
  else
    let LocalFloor := Log2_64 (Digits.setWidth 64)
    let Floor := Scale + LocalFloor
    if Digits.setWidth 64 = (1 : BitVec 64) <<< LocalFloor then some (Floor, 0)
    else do
      guard (1 ≤ LocalFloor)
      if Digits.setWidth 64 &&& (1 : BitVec 64) <<< (LocalFloor - 1) ≠ 0 then some (Floor + 1, 1)
      else some (Floor, -1)

def getLgFloor {w : Nat} (Digits : BitVec w) (Scale : Int) : Option Int := do
  let Lg ← getLgImpl Digits Scale
  some (Lg.1 - if Lg.2 > 0 then 1 else 0)

def getLgCeiling {w : Nat} (Digits : BitVec w) (Scale : Int) : Option Int := do
  let Lg ← getLgImpl Digits Scale
  some (Lg.1 + if Lg.2 < 0 then 1 else 0)

def compareImpl (L R : BitVec 64) (ScaleDiff : Int) : Option Int := do
  guard (0 ≤ ScaleDiff)
  guard (ScaleDiff < 64)
  let L_adjusted := L >>> ScaleDiff.toNat
  some (if L_adjusted < R then -1
    else if R < L_adjusted then 1
    else if L_adjusted <<< ScaleDiff.toNat < L then 1 else 0)

def compare {w : Nat} (LDigits : BitVec w) (LScale : Int) (RDigits : BitVec w) (RScale : Int) :
    Option Int :=
  if LDigits = 0 then some (if RDigits ≠ 0 then -1 else 0)
  else if RDigits = 0 then some 1
  else do
    let lgL ← getLgFloor LDigits LScale
    let lgR ← getLgFloor RDigits RScale
    if lgL ≠ lgR then some (if lgL < lgR then -1 else 1)
    else if LScale < RScale then
      compareImpl (LDigits.setWidth 64) (RDigits.setWidth 64) (RScale - LScale)
    else do
      let c ← compareImpl (RDigits.setWidth 64) (LDigits.setWidth 64) (LScale - RScale)
      some (-c)

/-- The arguments that `matchScales` changes in place. -/
structure Operands (w : Nat) where
  LDigits : BitVec w
  LScale : Int
  RDigits : BitVec w
  RScale : Int

def Operands.swap {w : Nat} (s : Operands w) : Operands w :=
  ⟨s.RDigits, s.RScale, s.LDigits, s.LScale⟩

/-- `matchScales` for a left scale that is not the smaller one, with the scale it returns. -/
def matchOrdered {w : Nat} (s : Operands w) : Option (Int × Operands w) :=
  if s.LDigits = 0 then some (s.RScale, s)
  else if s.RDigits = 0 ∨ s.LScale = s.RScale then some (s.LScale, s)
  else
    let ScaleDiff := s.LScale - s.RScale
    if ScaleDiff ≥ 2 * w then some (s.LScale, { s with RDigits := 0 })
    else do
      let ShiftL : Int := min (countl_zero s.LDigits : Int) ScaleDiff
      guard (ShiftL < w)
      let ShiftR := ScaleDiff - ShiftL
      if ShiftR ≥ w then some (s.LScale, { s with RDigits := 0 })
      else do
        let LScale := int16 (s.LScale - ShiftL)
        let RScale := int16 (s.RScale + ShiftR)
        guard (LScale = RScale)
        some (LScale, ⟨s.LDigits <<< ShiftL.toNat, LScale, s.RDigits >>> ShiftR.toNat, RScale⟩)

def matchScales {w : Nat} (s : Operands w) : Option (Int × Operands w) :=
  if s.LScale < s.RScale then do
    let r ← matchOrdered s.swap
    some (r.1, r.2.swap)
  else matchOrdered s

def getSum {w : Nat} (LDigits : BitVec w) (LScale : Int) (RDigits : BitVec w) (RScale : Int) :
    Option (Scaled w) := do
  guard (LScale < INT16_MAX)
  guard (RScale < INT16_MAX)
  let (Scale, s) ← matchScales ⟨LDigits, LScale, RDigits, RScale⟩
  let Sum := s.LDigits + s.RDigits
  if s.RDigits ≤ Sum then some (Sum, Scale)
  else some ((1 : BitVec w) <<< (w - 1) ||| Sum >>> 1, int16 (Scale + 1))

def getDifference {w : Nat} (LDigits : BitVec w) (LScale : Int) (RDigits : BitVec w)
    (RScale : Int) : Option (Scaled w) := do
  let (_, s) ← matchScales ⟨LDigits, LScale, RDigits, RScale⟩
  if s.LDigits ≤ s.RDigits then some (0, 0)
  else if s.RDigits ≠ 0 ∨ RDigits = 0 then some (s.LDigits - s.RDigits, s.LScale)
  else do
    let RLgFloor ← getLgFloor RDigits RScale
    let c ← compare s.LDigits s.LScale 1 (int16 (RLgFloor + w))
    if c = 0 then some (BitVec.allOnes w, int16 RLgFloor)
    else some (s.LDigits, s.LScale)

end SmlnjLlvm.ScaledNumbers
