import SmlnjLlvm.Library.Words

/-!
# Ranges of constants

`ConstantRange` is a half-open range on the circle of the words of one width.
Equal bounds are the full set at the largest value and the empty set at the
smallest; no other equal bounds can be built. An assertion that fails is no
result.
-/

namespace SmlnjLlvm

/-- The bounds `[Lower, Upper)`, which may wrap around. -/
structure ConstantRange (w : Nat) where
  Lower : BitVec w
  Upper : BitVec w
  bounds : Lower = Upper → Lower = BitVec.allOnes w ∨ Lower = 0
  deriving DecidableEq, Repr

namespace ConstantRange

variable {w : Nat}

def ofFull (w : Nat) (Full : Bool) : ConstantRange w :=
  if Full then ⟨BitVec.allOnes w, BitVec.allOnes w, fun _ => Or.inl rfl⟩
  else ⟨0, 0, fun _ => Or.inr rfl⟩

def getFull : ConstantRange w := ofFull w true

def getEmpty : ConstantRange w := ofFull w false

theorem ne_add_one_or_zero (V : BitVec w) (h : V = V + 1) : V = BitVec.allOnes w ∨ V = 0 := by
  rcases Nat.eq_zero_or_pos w with rfl | hw
  · exact Or.inr (Subsingleton.elim _ _)
  · exfalso
    have hone : (1 : BitVec w) = 0 := by
      calc
        (1 : BitVec w) = V + 1 - V := by rw [BitVec.add_comm, BitVec.add_sub_cancel]
        _ = V - V := by rw [← h]
        _ = 0 := BitVec.sub_self V
    have hnat := congrArg BitVec.toNat hone
    rw [Words.toNat_one hw] at hnat
    exact absurd hnat (by simp)

def ofAPInt (V : BitVec w) : ConstantRange w := ⟨V, V + 1, ne_add_one_or_zero V⟩

def ofBounds (L U : BitVec w) : Option (ConstantRange w) :=
  if h : L = U → L = BitVec.allOnes w ∨ L = 0 then some ⟨L, U, h⟩ else none

def getNonEmpty (Lower Upper : BitVec w) : ConstantRange w :=
  if h : Lower = Upper then getFull else ⟨Lower, Upper, fun heq => absurd heq h⟩

def isFullSet (R : ConstantRange w) : Bool :=
  decide (R.Lower = R.Upper) && decide (R.Lower = BitVec.allOnes w)

def isEmptySet (R : ConstantRange w) : Bool :=
  decide (R.Lower = R.Upper) && decide (R.Lower = 0)

def isWrappedSet (R : ConstantRange w) : Bool :=
  R.Upper.ult R.Lower && decide (R.Upper ≠ 0)

def isUpperWrapped (R : ConstantRange w) : Bool := R.Upper.ult R.Lower

def isSignWrappedSet (R : ConstantRange w) : Bool :=
  R.Upper.slt R.Lower && decide (R.Upper ≠ BitVec.intMin w)

def isUpperSignWrapped (R : ConstantRange w) : Bool := R.Upper.slt R.Lower

def isSizeStrictlySmallerThan (R Other : ConstantRange w) : Bool :=
  if R.isFullSet then false
  else if Other.isFullSet then true
  else (R.Upper - R.Lower).ult (Other.Upper - Other.Lower)

def getSingleElement (R : ConstantRange w) : Option (BitVec w) :=
  if R.Upper = R.Lower + 1 then some R.Lower else none

def getSingleMissingElement (R : ConstantRange w) : Option (BitVec w) :=
  if R.Lower = R.Upper + 1 then some R.Upper else none

def isSingleElement (R : ConstantRange w) : Bool := R.getSingleElement.isSome

def getUnsignedMax (R : ConstantRange w) : BitVec w :=
  if R.isFullSet || R.isUpperWrapped then BitVec.allOnes w else R.Upper - 1

def getUnsignedMin (R : ConstantRange w) : BitVec w :=
  if R.isFullSet || R.isWrappedSet then 0 else R.Lower

def getSignedMax (R : ConstantRange w) : BitVec w :=
  if R.isFullSet || R.isUpperSignWrapped then BitVec.intMax w else R.Upper - 1

def getSignedMin (R : ConstantRange w) : BitVec w :=
  if R.isFullSet || R.isSignWrappedSet then BitVec.intMin w else R.Lower

def contains (R : ConstantRange w) (V : BitVec w) : Bool :=
  if R.Lower = R.Upper then R.isFullSet
  else if !R.isUpperWrapped then R.Lower.ule V && V.ult R.Upper
  else R.Lower.ule V || V.ult R.Upper

def containsRange (R Other : ConstantRange w) : Bool :=
  if R.isFullSet || Other.isEmptySet then true
  else if R.isEmptySet || Other.isFullSet then false
  else if !R.isUpperWrapped then
    if Other.isUpperWrapped then false
    else R.Lower.ule Other.Lower && Other.Upper.ule R.Upper
  else if !Other.isUpperWrapped then Other.Upper.ule R.Upper || R.Lower.ule Other.Lower
  else Other.Upper.ule R.Upper && R.Lower.ule Other.Lower

def inverse (R : ConstantRange w) : ConstantRange w :=
  if R.isFullSet then getEmpty
  else if R.isEmptySet then getFull
  else ⟨R.Upper, R.Lower, fun heq => heq ▸ R.bounds heq.symm⟩

/-! ## Intersection and union -/

inductive PreferredRangeType where
  | Smallest
  | Unsigned
  | Signed
  deriving DecidableEq, Repr

def getSmallerRange (CR1 CR2 : ConstantRange w) : ConstantRange w :=
  if CR1.isSizeStrictlySmallerThan CR2 then CR1 else CR2

def getPreferredRange (CR1 CR2 : ConstantRange w) : PreferredRangeType → ConstantRange w
  | .Unsigned =>
    if !CR1.isWrappedSet && CR2.isWrappedSet then CR1
    else if CR1.isWrappedSet && !CR2.isWrappedSet then CR2
    else getSmallerRange CR1 CR2
  | .Signed =>
    if !CR1.isSignWrappedSet && CR2.isSignWrappedSet then CR1
    else if CR1.isSignWrappedSet && !CR2.isSignWrappedSet then CR2
    else getSmallerRange CR1 CR2
  | .Smallest => getSmallerRange CR1 CR2

/--
`intersectWith` for operands that are neither empty nor full, the first of
which is wrapped when only one of them is. The comments draw `R` above `CR`.
-/
def intersectOrdered (R CR : ConstantRange w) (PrefType : PreferredRangeType) :
    Option (ConstantRange w) :=
  if !R.isUpperWrapped && !CR.isUpperWrapped then
    if R.Lower.ult CR.Lower then
      -- L---U
      --       L---U
      if R.Upper.ule CR.Lower then some getEmpty
      -- L---U
      --   L---U
      else if R.Upper.ult CR.Upper then ofBounds CR.Lower R.Upper
      -- L-------U
      --   L---U
      else some CR
    --   L---U
    -- L-------U
    else if R.Upper.ult CR.Upper then some R
    --   L-----U
    -- L-----U
    else if R.Lower.ult CR.Upper then ofBounds R.Lower CR.Upper
    --       L---U
    -- L---U
    else some getEmpty
  else if R.isUpperWrapped && !CR.isUpperWrapped then
    if CR.Lower.ult R.Upper then
      -- ------U   L---
      --  L--U
      if CR.Upper.ult R.Upper then some CR
      -- ------U   L---
      --  L------U
      else if CR.Upper.ule R.Lower then ofBounds CR.Lower R.Upper
      -- ------U   L---
      --  L----------U
      else some (getPreferredRange R CR PrefType)
    else if CR.Lower.ult R.Lower then
      -- --U      L----
      --     L--U
      if CR.Upper.ule R.Lower then some getEmpty
      -- --U      L----
      --     L------U
      else ofBounds R.Lower CR.Upper
    -- --U  L------
    --        L--U
    else some CR
  else if CR.Upper.ult R.Upper then
    -- ------U L--
    -- --U L------
    if CR.Lower.ult R.Upper then some (getPreferredRange R CR PrefType)
    -- ----U   L--
    -- --U   L----
    else if CR.Lower.ult R.Lower then ofBounds R.Lower CR.Upper
    -- ----U L----
    -- --U     L--
    else some CR
  else if CR.Upper.ule R.Lower then
    -- --U     L--
    -- ----U L----
    if CR.Lower.ult R.Lower then some R
    -- --U   L----
    -- ----U   L--
    else ofBounds CR.Lower R.Upper
  -- --U L------
  -- ------U L--
  else some (getPreferredRange R CR PrefType)

def intersectWith (R CR : ConstantRange w) (PrefType : PreferredRangeType) :
    Option (ConstantRange w) :=
  if R.isEmptySet || CR.isFullSet then some R
  else if CR.isEmptySet || R.isFullSet then some CR
  -- The recursive call passes the tests above and is not swapped again.
  else if !R.isUpperWrapped && CR.isUpperWrapped then intersectOrdered CR R PrefType
  else intersectOrdered R CR PrefType

def unionOrdered (R CR : ConstantRange w) (PrefType : PreferredRangeType) :
    Option (ConstantRange w) :=
  if !R.isUpperWrapped && !CR.isUpperWrapped then
    --        L---U  and  L---U
    --  L---U                   L---U
    if CR.Upper.ult R.Lower || R.Upper.ult CR.Lower then do
      let CR1 ← ofBounds R.Lower CR.Upper
      let CR2 ← ofBounds CR.Lower R.Upper
      some (getPreferredRange CR1 CR2 PrefType)
    else
      let L := if CR.Lower.ult R.Lower then CR.Lower else R.Lower
      let U := if (R.Upper - 1).ult (CR.Upper - 1) then CR.Upper else R.Upper
      if L = 0 ∧ U = 0 then some getFull else ofBounds L U
  else if !CR.isUpperWrapped then
    -- ------U   L-----  and  ------U   L-----
    --   L--U                            L--U
    if CR.Upper.ule R.Upper || R.Lower.ule CR.Lower then some R
    -- ------U   L-----
    --    L---------U
    else if CR.Lower.ule R.Upper && R.Lower.ule CR.Upper then some getFull
    -- ----U       L----
    --       L---U
    else if R.Upper.ult CR.Lower && CR.Upper.ult R.Lower then do
      let CR1 ← ofBounds R.Lower CR.Upper
      let CR2 ← ofBounds CR.Lower R.Upper
      some (getPreferredRange CR1 CR2 PrefType)
    -- ----U     L-----
    --        L----U
    else if R.Upper.ult CR.Lower && R.Lower.ule CR.Upper then ofBounds CR.Lower R.Upper
    -- ------U    L----
    --    L-----U
    else do
      guard (CR.Lower.ule R.Upper && CR.Upper.ult R.Lower)
      ofBounds R.Lower CR.Upper
  else
    -- ------U    L----  and  ------U    L----
    -- -U  L-----------  and  ------------U  L
    if CR.Lower.ule R.Upper || R.Lower.ule CR.Upper then some getFull
    else
      let L := if CR.Lower.ult R.Lower then CR.Lower else R.Lower
      let U := if R.Upper.ult CR.Upper then CR.Upper else R.Upper
      ofBounds L U

def unionWith (R CR : ConstantRange w) (PrefType : PreferredRangeType) : Option (ConstantRange w) :=
  if R.isFullSet || CR.isEmptySet then some R
  else if CR.isFullSet || R.isEmptySet then some CR
  else if !R.isUpperWrapped && CR.isUpperWrapped then unionOrdered CR R PrefType
  else unionOrdered R CR PrefType

def exactIntersectWith (R CR : ConstantRange w) : Option (Option (ConstantRange w)) := do
  let Result ← R.intersectWith CR .Smallest
  let Union ← R.inverse.unionWith CR.inverse .Smallest
  return if Result = Union.inverse then some Result else none

def exactUnionWith (R CR : ConstantRange w) : Option (Option (ConstantRange w)) := do
  let Result ← R.unionWith CR .Smallest
  let Intersection ← R.inverse.intersectWith CR.inverse .Smallest
  return if Result = Intersection.inverse then some Result else none

end ConstantRange

end SmlnjLlvm
