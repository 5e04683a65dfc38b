import TensorTyping.Dim.Fold
import TensorTyping.Dim.Order

namespace TensorTyping

/-- A sorted product of atoms; the empty one is `1`. -/
abbrev Monomial := List Dim

namespace Monomial

/-- The product of two monomials. -/
def mul (m n : Monomial) : Monomial := (m ++ n).mergeSort fun a b => (compare a b).isLE

/-- The value under an assignment, if all atoms have one. -/
def eval (σ : Assignment) : Monomial → Option Int
  | [] => some 1
  | a :: m => do
    let x ← a.eval σ
    let y ← eval σ m
    some (x * y)

/-- The monomial as a dimension, multiplied from left to right. -/
def toDim : Monomial → Dim
  | [] => .const 1
  | a :: m => m.foldl (Dim.combine .mul) a

/-- Whether a size variable occurs in some atom. -/
def mentions (m : Monomial) (x : SizeVar) : Bool := m.any fun a => x ∈ a.freeVars

end Monomial

/-- A coefficient and what it multiplies. -/
abbrev Term := Monomial × Word

/-- A sum of terms. Every operation below keeps the terms in strictly increasing order of their
    monomials and without zero coefficients. -/
structure NormalForm where
  terms : List Term
  deriving DecidableEq

namespace NormalForm

/-- A constant. -/
def constant (n : Word) : NormalForm := ⟨if n = 0 then [] else [([], n)]⟩

/-- A single atom with coefficient `1`. -/
def atom (d : Dim) : NormalForm := ⟨[([d], 1)]⟩

/-- An operation that was rebuilt: a literal if it folded to one, else an atom. -/
def ofFolded : Dim → NormalForm
  | .const n => constant n
  | d => atom d

/-- The value of a normal form without symbolic terms. -/
def const? (p : NormalForm) : Option Word :=
  match p.terms with
  | [] => some 0
  | [([], c)] => some c
  | _ => none

/-- The coefficient of the empty monomial. -/
def constantTerm (p : NormalForm) : Word :=
  ((p.terms.find? (·.1.isEmpty)).map (·.2)).getD 0

/-- The value under an assignment, if all atoms have one. -/
def eval (σ : Assignment) (p : NormalForm) : Option Int :=
  p.terms.foldr (fun t total => do
    let x ← t.1.eval σ
    let y ← total
    some (t.2.toInt * x + y)) (some 0)

/-- Adds a term to a sorted list of terms. A term that cancels is dropped; there is no result when
    the new coefficient does not fit. -/
def insert? (m : Monomial) (c : Word) : List Term → Option (List Term)
  | [] => some (if c = 0 then [] else [(m, c)])
  | t :: rest =>
    match compare m t.1 with
    | .lt => some (if c = 0 then t :: rest else (m, c) :: t :: rest)
    | .eq => (Word.add? t.2 c).map fun s => if s = 0 then rest else (t.1, s) :: rest
    | .gt => (insert? m c rest).map (t :: ·)

/-- The sum, with the terms of `q` added to `p` one at a time. -/
def add? (p q : NormalForm) : Option NormalForm :=
  (q.terms.foldlM (fun acc t => insert? t.1 t.2 acc) p.terms).map mk

/-- The opposite. -/
def neg? (p : NormalForm) : Option NormalForm :=
  (p.terms.mapM fun t => (Word.neg? t.2).map (t.1, ·)).map mk

/-- The difference. -/
def sub? (p q : NormalForm) : Option NormalForm := do
  let q' ← q.neg?
  p.add? q'

/-- The product, with the products of terms added one at a time. -/
def mul? (p q : NormalForm) : Option NormalForm :=
  (p.terms.foldlM (fun acc (t : Term) => q.terms.foldlM (fun acc (u : Term) => do
    let c ← Word.mul? t.2 u.2
    insert? (t.1.mul u.1) c acc) acc) []).map mk

/-- The quotient by a constant, if that divides every coefficient. -/
def divExact? (p : NormalForm) (d : Word) : Option NormalForm :=
  if d = 0 then none
  else (p.terms.mapM fun t =>
    if d.toInt ∣ t.2.toInt then (Word.ofInt? (t.2.toInt / d.toInt)).map (t.1, ·) else none).map mk

/-- Splits off the multiple of `x`: a coefficient, and a rest in which `x` does not occur. There is
    no split if `x` occurs in another way. -/
def splitLinear? (p : NormalForm) (x : SizeVar) : Option (Word × NormalForm) :=
  let (occurring, rest) := p.terms.partition (·.1.mentions x)
  match occurring with
  | [] => some (0, ⟨rest⟩)
  | [([.var _], c)] => some (c, ⟨rest⟩)
  | _ => none

/-- Whether a coefficient is to be subtracted, and the literal to write for it. The least word has
    no opposite and stays as it is. -/
def signed (c : Word) : Bool × Word :=
  if c < 0 then
    match Word.neg? c with
    | some k => (true, k)
    | none => (false, c)
  else (false, c)

/-- Adds a printed term to what stands before it, as a difference if its coefficient is
    negative. -/
def append (before : Option Dim) (c : Word) (term : Word → Dim) : Dim :=
  let (negative, k) := signed c
  match before with
  | none => if negative then .combine .sub (.const 0) (term k) else term k
  | some d => .combine (if negative then .sub else .add) d (term k)

/-- The normal form as a dimension: the symbolic terms in order, then the constant. -/
def toDim (p : NormalForm) : Dim :=
  let symbolic := (p.terms.filter (!·.1.isEmpty)).foldl (fun before t =>
    some (append before t.2 fun k => .combine .mul t.1.toDim (.const k))) none
  append symbolic p.constantTerm .const

/-- Floor division: exact where both are constant or a positive constant divides everything, and
    an atom otherwise. -/
def floorDiv (p q : NormalForm) : NormalForm :=
  let kept := ofFolded (.combine .floorDiv p.toDim q.toDim)
  match p.const?, q.const? with
  | some m, some n => ((Word.floorDiv? m n).map constant).getD kept
  | none, some n => if 0 < n then (p.divExact? n).getD kept else kept
  | _, none => kept

/-- Remainder of floor division, under the same conditions as `floorDiv`. -/
def floorMod (p q : NormalForm) : NormalForm :=
  let kept := ofFolded (.combine .floorMod p.toDim q.toDim)
  match p.const?, q.const? with
  | some m, some n => ((Word.floorMod? m n).map constant).getD kept
  | none, some n => if 0 < n ∧ (p.divExact? n).isSome then constant 0 else kept
  | _, none => kept

/-- The smaller or larger of two, with `pickLeft` deciding by their difference when that is
    constant. An atom otherwise, with its operands in order. -/
def extremum (op : DimOp) (pickLeft : Word → Bool) (p q : NormalForm) : NormalForm :=
  match (p.sub? q).bind const? with
  | some d => if pickLeft d then p else q
  | none =>
    let a := p.toDim
    let b := q.toDim
    ofFolded (if (compare a b).isLE then .combine op a b else .combine op b a)

/-- An operation on normal forms. -/
def combine? (op : DimOp) (p q : NormalForm) : Option NormalForm :=
  match op with
  | .add => p.add? q
  | .sub => p.sub? q
  | .mul => p.mul? q
  | .floorDiv => some (p.floorDiv q)
  | .floorMod => some (p.floorMod q)
  | .min => some (extremum .min (· ≤ 0) p q)
  | .max => some (extremum .max (0 ≤ ·) p q)

/-- The normal form of a dimension. There is none where `?` occurs or a coefficient does not fit a
    word. An operation that cannot be eliminated is an atom, kept with its operands in normal form, so
    that equal operands written differently still meet. -/
def ofDim? : Dim → Option NormalForm
  | .const n => some (constant n)
  | .var v => some (atom (.var v))
  | .any => none
  | .binary op a b => do
    let p ← ofDim? a
    let q ← ofDim? b
    combine? op p q

end NormalForm

end TensorTyping
