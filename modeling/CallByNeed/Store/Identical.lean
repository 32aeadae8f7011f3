import CallByNeed.Store.Text

/-!
Structural equality. Vectors are compared by contents and by attributes in any order, closures by
definition and environment, quoted code by its text, and everything else by identity.
-/
namespace CallByNeed

def Attributes.identical (same : Value → Value → Bool) (a b : Attributes) : Bool :=
  a.entries.length == b.entries.length &&
    a.entries.all fun (name, v) => (b.get? name).any fun w => same w v

namespace Store

/-- Equality of values, with vectors compared by `vectors`. -/
def identicalWith (s : Store) (vectors : VectorId → VectorId → Bool) : Value → Value → Bool
  | .vector a, .vector b => vectors a b
  | .closure _ f e, .closure _ g d => f.node = g.node && e = d
  | .language a, .language b => a.id = b.id || s.exprText a == s.exprText b
  | a, b => a.same b

/-- Equality of vectors, following vectors inside them to the given depth. -/
def vectorsIdentical (s : Store) : Nat → VectorId → VectorId → Bool
  | 0, a, b => a = b
  | depth + 1, a, b =>
    a = b ||
      (Elements.identical (s.identicalWith (s.vectorsIdentical depth)) (s.elements a) (s.elements b)
        && Attributes.identical (s.identicalWith (s.vectorsIdentical depth))
          (s.container a).attributes (s.container b).attributes)

def identical (s : Store) (a b : Value) : Bool :=
  s.identicalWith (s.vectorsIdentical s.depthBound) a b

end Store
end CallByNeed
