import Mathlib.Data.Finset.Card
import Mathlib.Logic.Relation
import TensorTyping.Session.Classes

namespace TensorTyping

/-- What is kept for a placeholder. The least member, the binding and the users describe the whole
class and count only at its root. -/
structure Slot where
  placeholder : Placeholder
  /-- The number of the slot above; a root's own number. -/
  parent : Nat
  rank : UInt8
  least : Placeholder
  binding : Option Ty
  /-- The numbers of the relations that mention a member, each once. -/
  users : List Nat

namespace Slot

/-- A class of its own for one placeholder. -/
def single (p : Placeholder) (number : Nat) : Slot := ⟨p, number, 0, p, none, []⟩

/-- A root after the class of another has been put under it. -/
def absorb (root child : Slot) (rank : UInt8) : Slot :=
  { root with
    rank
    least := if child.least.id < root.least.id then child.least else root.least
    binding := root.binding.or child.binding
    users := addUsers root.users child.users }

/-- A root that has been put under another and keeps nothing of its class. -/
def under (child : Slot) (root : Nat) : Slot :=
  { child with parent := root, binding := none, users := [] }

end Slot

/-- A rank raised by one; the highest stays. -/
def risen (rank : UInt8) : UInt8 := if rank = 255 then rank else rank + 1

/-- The placeholders of a session, numbered as they were registered. -/
structure Forest where
  slots : List Slot

namespace Forest

/-- No placeholders. -/
def empty : Forest := ⟨[]⟩

/-- The placeholder of a number. -/
def name? (f : Forest) (i : Nat) : Option Placeholder := (f.slots[i]?).map (·.placeholder)

/-- The number of a placeholder that was registered. -/
def slot? (f : Forest) (id : UInt32) : Option Nat := f.slots.findIdx? (·.placeholder.id = id)

/-- Registers a placeholder, unless it is registered, and gives its number. -/
def ensure (f : Forest) (p : Placeholder) : Nat × Forest :=
  match f.slot? p.id with
  | some i => (i, f)
  | none => (f.slots.length, ⟨f.slots ++ [.single p f.slots.length]⟩)

/-- The root above a slot. -/
def root? (f : Forest) (i : Nat) : Option Nat := do
  let x ← f.slots[i]?
  -- `apply` puts the call in without its place in the text, which a call written out keeps
  if x.parent = i then some i else by apply root?; exacts [f, x.parent]
partial_fixpoint

/-- Lets a slot point to another one. -/
def point (f : Forest) (i root : Nat) : Forest :=
  ⟨f.slots.modify i fun x => { x with parent := root }⟩

/-- Lets all slots on the way up to a root point to it. -/
def compress? (f : Forest) (root i : Nat) : Option Forest := do
  let x ← f.slots[i]?
  if x.parent = root then some f else by apply compress?; exacts [f.point i root, root, x.parent]
partial_fixpoint

/-- Finds the root above a slot and shortens the way to it. -/
def find? (f : Forest) (i : Nat) : Option (Nat × Forest) := do
  let root ← f.root? i
  let f ← f.compress? root i
  some (root, f)

/-- Puts one root under another. -/
def attach (f : Forest) (root child : Nat) (x y : Slot) (rank : UInt8) : Forest :=
  ⟨(f.slots.set child (y.under root)).set root (x.absorb y rank)⟩

/-- Joins the classes of two slots and gives the joint root. The root of higher rank stays one;
between equals it is the first, whose rank is raised. -/
def union? (f : Forest) (i j : Nat) : Option (Nat × Forest) := do
  let (a, f) ← f.find? i
  let (b, f) ← f.find? j
  if a = b then some (a, f)
  else
    let x ← f.slots[a]?
    let y ← f.slots[b]?
    if x.rank < y.rank then some (b, f.attach b a y x y.rank)
    else if y.rank < x.rank then some (a, f.attach a b x y x.rank)
    else some (a, f.attach a b x y (risen x.rank))

/-- Adds a user to a slot, unless it has it. -/
def use? (f : Forest) (i user : Nat) : Option Forest := do
  let x ← f.slots[i]?
  some ⟨f.slots.set i { x with users := addUsers x.users [user] }⟩

/-- Binds a slot. -/
def bind? (f : Forest) (i : Nat) (t : Ty) : Option Forest := do
  let x ← f.slots[i]?
  some ⟨f.slots.set i { x with binding := some t }⟩

/-- What can be done to a forest. -/
inductive Op where
  | ensure (p : Placeholder)
  | find (i : Nat)
  | use (i user : Nat)
  | bind (i : Nat) (t : Ty)
  | union (i j : Nat)

/-- Carries out an operation. -/
def perform? (f : Forest) : Op → Option Forest
  | .ensure p => some (f.ensure p).2
  | .find i => (f.find? i).map (·.2)
  | .use i user => f.use? i user
  | .bind i t => f.bind? i t
  | .union i j => (f.union? i j).map (·.2)

/-- A slot that nothing is above. -/
def Root (f : Forest) (r : Nat) (x : Slot) : Prop := f.slots[r]? = some x ∧ x.parent = r

/-- The root of a slot, with what it keeps of its class. -/
def class? (f : Forest) (i : Nat) : Option Slot := (f.root? i).bind (f.slots[·]?)

/-- Users are added to roots, roots are bound once, and two classes are joined only if they are of
one kind and not bound. -/
def Allows (f : Forest) : Op → Prop
  | .ensure _ => True
  | .find i => i < f.slots.length
  | .use i _ => ∃ x, f.Root i x
  | .bind i _ => ∃ x, f.Root i x ∧ x.binding = none
  | .union i j => ∃ x y, f.class? i = some x ∧ f.class? j = some y ∧ x.binding = none ∧
      y.binding = none ∧ x.least.kind = y.least.kind

/-- What an operation does to classes whose members point directly to their leaders. -/
def Op.carry (f : Forest) (c : Classes) : Op → Classes
  | .ensure p => c.ensure p
  | .find _ => c
  | .use i user => (f.name? i).elim c fun p => c.use p.id [user]
  | .bind i t => (f.name? i).elim c fun p => c.bind p.id t
  | .union i j =>
    match f.name? i, f.name? j with
    | some p, some q =>
      if c.leader p.id = c.leader q.id then c else c.join (c.leader p.id) (c.leader q.id)
    | _, _ => c

/-- The forests that allowed operations build, with the operations so far and with the classes that
they build of the same placeholders. -/
inductive Built : List Op → Forest → Classes → Prop where
  | empty : Built [] .empty .empty
  | step {ops : List Op} {f f' : Forest} {c : Classes} {op : Op} : Built ops f c →
    f.Allows op → f.perform? op = some f' → Built (ops ++ [op]) f' (op.carry f c)

/-- The unions so far connect two slots. -/
def Connected (ops : List Op) : Nat → Nat → Prop :=
  Relation.EqvGen fun i j => Op.union i j ∈ ops

/-- The slots below a root, with the root itself. -/
def members (f : Forest) (r : Nat) : Finset Nat :=
  (Finset.range f.slots.length).filter fun i => f.root? i = some r

end Forest

end TensorTyping
