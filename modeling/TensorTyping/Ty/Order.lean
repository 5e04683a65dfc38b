import TensorTyping.Ty.Basic

namespace TensorTyping

/-- By id, then kind. -/
instance : Ord Placeholder where
  compare p q := (compare p.id q.id).then (compare p.kind q.kind)

/-- By id, then name, then kind. -/
instance : Ord TypeVar where
  compare v w := (compare v.id w.id).then ((compare v.name w.name).then (compare v.kind w.kind))

namespace GlobalVar

/-- Names decide whether two definitions are the same. -/
instance : BEq GlobalVar where
  beq g h := g.name == h.name

/-- By name. -/
instance : Ord GlobalVar where
  compare g h := compare g.name h.name

end GlobalVar

namespace Ty

/-- The place of a type's form among the eight forms. -/
def rank : Ty → Nat
  | tensor _ => 0
  | tuple _ => 1
  | ref _ => 2
  | call .. => 3
  | hole _ => 4
  | func .. => 5
  | var _ => 6
  | global _ => 7

mutual

/-- Equality of types, up to the kinds of definitions. -/
def same : Ty → Ty → Bool
  | tensor t, tensor u => t = u
  | tuple ts, tuple us => sameAll ts us
  | ref t, ref u => t.same u
  | call f ts, call g us => f.same g && sameAll ts us
  | hole p, hole q => p = q
  | func ts r vs, func us s ws => sameAll ts us && (r.same s && vs = ws)
  | var v, var w => v = w
  | global g, global h => g == h
  | _, _ => false

/-- Equality of lists of types, member by member. -/
def sameAll : List Ty → List Ty → Bool
  | [], [] => true
  | t :: ts, u :: us => t.same u && sameAll ts us
  | _, _ => false

end

instance : BEq Ty := ⟨same⟩

mutual

/-- Lexicographic comparison by form, then by parts. -/
def cmp : Ty → Ty → Ordering
  | tensor t, tensor u => compare t u
  | tuple ts, tuple us => cmpAll ts us
  | ref t, ref u => t.cmp u
  | call f ts, call g us => (f.cmp g).then (cmpAll ts us)
  | hole p, hole q => compare p q
  | func ts r vs, func us s ws => (cmpAll ts us).then ((r.cmp s).then (compare vs ws))
  | var v, var w => compare v w
  | global g, global h => compare g h
  | t, u => compare t.rank u.rank

/-- Lexicographic comparison of lists of types, a shorter list first. -/
def cmpAll : List Ty → List Ty → Ordering
  | [], [] => .eq
  | [], _ :: _ => .lt
  | _ :: _, [] => .gt
  | t :: ts, u :: us => (t.cmp u).then (cmpAll ts us)

end

instance : Ord Ty := ⟨cmp⟩

end Ty

end TensorTyping
