import TensorTyping.Dim.Basic

namespace TensorTyping

/-- By id, then by name. -/
instance : Ord SizeVar where
  compare v w := (compare v.id w.id).then (compare v.name w.name)

instance : Ord DimOp where
  compare a b := compare a.ctorIdx b.ctorIdx

namespace Dim

/-- The place of a dimension's form among the four forms. -/
def rank : Dim → Nat
  | const _ => 0
  | var _ => 1
  | any => 2
  | binary .. => 3

/-- Lexicographic comparison by form, then by parts. Normal forms and conditions put off are kept in
    this order. -/
def cmp : Dim → Dim → Ordering
  | const m, const n => compare m n
  | var v, var w => compare v w
  | binary op a b, binary op' a' b' => (compare op op').then ((a.cmp a').then (b.cmp b'))
  | a, b => compare a.rank b.rank

instance : Ord Dim := ⟨cmp⟩

end Dim

end TensorTyping
