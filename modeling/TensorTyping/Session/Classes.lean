import TensorTyping.Ty.Replace

namespace TensorTyping

/-- What is kept for a placeholder. The rank, the least member, the binding and the users describe
    the whole class and count only where the placeholder leads it. -/
structure Cell where
  placeholder : Placeholder
  /-- The id of the leader. -/
  leader : UInt32
  /-- Of two classes that are joined, the leader of higher rank leads. -/
  rank : Nat
  /-- The member with the smallest id. -/
  least : Placeholder
  binding : Option Ty
  /-- The numbers of the relations that mention a member, each once. -/
  users : List Nat

/-- A class of its own for one placeholder. -/
def Cell.single (p : Placeholder) : Cell := ⟨p, p.id, 0, p, none, []⟩

/-- Adds numbers to a list without repeating any. -/
def addUsers (users new : List Nat) : List Nat :=
  new.foldl (fun acc i => if i ∈ acc then acc else acc ++ [i]) users

/-- The placeholders of a session, divided into classes. A class may be bound to the type that all its
    members stand for. Every member points directly to the leader of its class, which keeps what is
    known of it. Bindings are kept resolved: whenever a class is bound or two are joined, all bindings
    are brought up to date, so that resolving a type is a single replacement. -/
structure Classes where
  cells : List Cell

namespace Classes

/-- No placeholders. -/
def empty : Classes := ⟨[]⟩

/-- What is kept for a placeholder. -/
def cell? (c : Classes) (id : UInt32) : Option Cell := c.cells.find? (·.placeholder.id = id)

/-- The id of the leader of a placeholder's class. A placeholder not seen before leads its own. -/
def leader (c : Classes) (id : UInt32) : UInt32 := ((c.cell? id).map (·.leader)).getD id

/-- What is known of a placeholder's class; none for a placeholder not seen before. -/
def class? (c : Classes) (id : UInt32) : Option Cell := (c.cell? id).bind fun x => c.cell? x.leader

/-- The type that a placeholder's class is bound to. -/
def binding? (c : Classes) (id : UInt32) : Option Ty := (c.class? id).bind (·.binding)

/-- The relations that mention a member of a placeholder's class. -/
def users (c : Classes) (id : UInt32) : List Nat := ((c.class? id).map (·.users)).getD []

/-- The member of the smallest id in a placeholder's class. -/
def least (c : Classes) (p : Placeholder) : Placeholder := ((c.class? p.id).map (·.least)).getD p

/-- The placeholders seen so far, in that order. -/
def placeholders (c : Classes) : List Placeholder := c.cells.map (·.placeholder)

/-- What replaces a placeholder: the binding of its class, or else the least member, unless that is
    the placeholder itself. -/
def image? (c : Classes) (p : Placeholder) : Option Ty :=
  match c.class? p.id with
  | none => none
  | some x =>
    match x.binding with
    | some t => some t
    | none => if x.least.id = p.id then none else some (.hole x.least)

/-- Puts everything known into a type. -/
def resolve (c : Classes) (t : Ty) : Ty := t.replace c.image?

/-- Registers a placeholder. One that was seen before keeps the kind it had then. -/
def ensure (c : Classes) (p : Placeholder) : Classes :=
  if (c.cell? p.id).isSome then c else ⟨c.cells ++ [.single p]⟩

/-- Registers several placeholders in order. -/
def ensureAll (c : Classes) (ps : List Placeholder) : Classes := ps.foldl ensure c

/-- Changes the cell of an id. -/
def modify (c : Classes) (id : UInt32) (f : Cell → Cell) : Classes :=
  ⟨c.cells.map fun x => if x.placeholder.id = id then f x else x⟩

/-- Adds users to the class that an id leads. -/
def use (c : Classes) (leader : UInt32) (new : List Nat) : Classes :=
  c.modify leader fun x => { x with users := addUsers x.users new }

/-- Brings all bindings up to date with a classes' own replacements. -/
def refresh (c : Classes) : Classes :=
  ⟨c.cells.map fun x => { x with binding := x.binding.map c.resolve }⟩

/-- Binds the class that an id leads. -/
def bind (c : Classes) (leader : UInt32) (t : Ty) : Classes :=
  (c.modify leader fun x => { x with binding := some t }).refresh

/-- Puts the members of one class under the leader of another, and the users of the one behind those
    of the other. -/
def absorb (c : Classes) (root child : Cell) (rank : Nat) : Classes :=
  let joined := { root with
    rank
    least := if child.least.id < root.least.id then child.least else root.least
    binding := root.binding.or child.binding
    users := addUsers root.users child.users }
  refresh ⟨c.cells.map fun x =>
    if x.placeholder.id = root.placeholder.id then joined
    else if x.leader = child.placeholder.id then { x with leader := root.placeholder.id, users := [] }
    else x⟩

/-- Joins the classes that two ids lead. The leader of higher rank leads; between equals it is the
    first, which then rises by one. -/
def join (c : Classes) (a b : UInt32) : Classes :=
  match c.cell? a, c.cell? b with
  | some x, some y =>
    if x.rank < y.rank then c.absorb y x y.rank
    else if y.rank < x.rank then c.absorb x y x.rank
    else c.absorb x y (x.rank + 1)
  | _, _ => c

end Classes

end TensorTyping
