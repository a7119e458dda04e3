import Lifeguard.Names

/-!
# Constructor records

The methods a call of a class can dispatch to, as the map phase records them
(`cache/artifact.rs`): a mask over the candidate names on the metaclass and on the class
itself, and the callees the mask cannot name.
-/

namespace Lifeguard

/-- `CONSTRUCTOR_METHODS`. -/
def constructorMethods : List Str :=
  ["__new__".toList, "__init__".toList, "__post_init__".toList]

/-- `ConstructorCallees`. -/
structure ConstructorCallees where
  metaclass : Option ModuleName := none
  mask : BitVec 8 := 0
  extra : List ModuleName := []
  deriving DecidableEq

namespace ConstructorCallees

/-- `ConstructorCallees::OWN_BITS`: the bits of the class's own methods. -/
def ownBits : BitVec 8 := ((1 <<< constructorMethods.length) - 1) <<< constructorMethods.length

/-- `ConstructorCallees::is_empty`: the record names no callee. -/
def isEmpty (self : ConstructorCallees) : Bool :=
  decide (self.mask = 0) && self.extra.isEmpty

/-- The metaclass two records agree on, or the only one recorded. -/
def mergedMetaclass (a b : Option ModuleName) : Option ModuleName :=
  match a, b with
  | some a, some b => if a ≠ b then none else some a
  | a, b => a.or b

/-- `ConstructorCallees::merged_with`: conflicting metaclasses drop to the own bits. -/
def mergedWith (self other : ConstructorCallees) : ConstructorCallees :=
  let metaclass := mergedMetaclass self.metaclass other.metaclass
  let mask := self.mask ||| other.mask
  { metaclass
    mask := if metaclass.isNone then mask &&& ownBits else mask
    extra := other.extra.foldl
      (fun extra callee => if callee ∈ extra then extra else extra ++ [callee]) self.extra }

/-- `ConstructorCallees::selected`: the methods whose bit above `baseBit` is set. -/
def selected (mask : BitVec 8) (baseBit : Nat) (methods : List Str) : List Str :=
  (methods.zipIdx.filter fun p => mask.getLsbD (baseBit + p.2)).map Prod.fst

/-- `ConstructorCallees::iter`: each callee the mask names, as its owner and method. -/
def iter (self : ConstructorCallees) (classFqn : ModuleName) : List (ModuleName × Str) :=
  (self.metaclass.toList.flatMap fun metaclass =>
    (selected self.mask 0 constructorMethods).map fun method => (metaclass, method)) ++
  (selected self.mask constructorMethods.length constructorMethods).map
    fun method => (classFqn, method)

end ConstructorCallees

/-- `constructor_mask_bits`: the bit of each method the class or metaclass resolves. -/
def constructorMaskBits (owner : ModuleName) (baseBit : Nat) (methods : List Str)
    (resolves : ModuleName → Bool) : BitVec 8 :=
  ((methods.zipIdx.filter fun p => resolves (appendStr owner p.1)).map
    fun p => (1 : BitVec 8) <<< (baseBit + p.2)).foldl (· ||| ·) 0

end Lifeguard
