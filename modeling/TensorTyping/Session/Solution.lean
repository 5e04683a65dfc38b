import TensorTyping.Cond
import TensorTyping.Ty.Replace

namespace TensorTyping

/-- A type for every placeholder, by increasing id, and in increasing order the conditions that
    could be neither proven nor refuted. -/
structure Solution where
  bindings : List (UInt32 × Ty)
  deferred : List Cond

namespace Solution

/-- The type of a placeholder. -/
def find? (s : Solution) (id : UInt32) : Option Ty := s.bindings.lookup id

/-- Puts the types found into a type. -/
def apply (s : Solution) (t : Ty) : Ty := t.replace fun p => s.find? p.id

end Solution

end TensorTyping
