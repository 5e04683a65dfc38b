import TensorTyping.Ty.Basic

namespace TensorTyping.Ty

mutual

/-- Every occurrence of a placeholder, in the order of the walk. -/
def occurrences : Ty → List Placeholder
  | tensor _ | var _ | global _ => []
  | hole p => [p]
  | tuple fields => occurrencesAll fields
  | ref value => value.occurrences
  | call callee args => callee.occurrences ++ occurrencesAll args
  | func params result _ => occurrencesAll params ++ result.occurrences

/-- The occurrences in a list of types. -/
def occurrencesAll : List Ty → List Placeholder
  | [] => []
  | t :: ts => t.occurrences ++ occurrencesAll ts

end

mutual

/-- Adds the placeholders of a type to those already met, each id once. -/
def collect : Ty → List Placeholder → List Placeholder
  | tensor _, seen | var _, seen | global _, seen => seen
  | hole p, seen => if seen.any (·.id = p.id) then seen else seen ++ [p]
  | tuple fields, seen => collectAll fields seen
  | ref value, seen => value.collect seen
  | call callee args, seen => collectAll args (callee.collect seen)
  | func params result _, seen => result.collect (collectAll params seen)

/-- Adds the placeholders of a list of types to those already met. -/
def collectAll : List Ty → List Placeholder → List Placeholder
  | [], seen => seen
  | t :: ts, seen => collectAll ts (t.collect seen)

end

/-- The ids of the placeholders that occur, as often as they occur. -/
def ids (t : Ty) : List UInt32 := t.occurrences.map (·.id)

/-- The placeholders of a type, each id once, in order of first occurrence. -/
def holes (t : Ty) : List Placeholder := t.collect []

mutual

/-- Whether no placeholder occurs. -/
def isComplete : Ty → Bool
  | hole _ => false
  | tensor _ | var _ | global _ => true
  | tuple fields => allComplete fields
  | ref value => value.isComplete
  | call callee args => callee.isComplete && allComplete args
  | func params result _ => allComplete params && result.isComplete

/-- Whether no placeholder occurs in a list of types. -/
def allComplete : List Ty → Bool
  | [] => true
  | t :: ts => t.isComplete && allComplete ts

end

mutual

/-- Whether a placeholder with this id occurs. -/
def mentions (id : UInt32) : Ty → Bool
  | hole p => p.id = id
  | tensor _ | var _ | global _ => false
  | tuple fields => anyMentions id fields
  | ref value => value.mentions id
  | call callee args => callee.mentions id || anyMentions id args
  | func params result _ => anyMentions id params || result.mentions id

/-- Whether a placeholder with this id occurs in a list of types. -/
def anyMentions (id : UInt32) : List Ty → Bool
  | [] => false
  | t :: ts => t.mentions id || anyMentions id ts

end

theorem occurrencesAll_eq_flatMap (ts : List Ty) : occurrencesAll ts = ts.flatMap occurrences := by
  induction ts with
  | nil => rfl
  | cons t ts ih => simp [occurrencesAll, ih]

theorem allComplete_eq_all (ts : List Ty) : allComplete ts = ts.all isComplete := by
  induction ts with
  | nil => rfl
  | cons t ts ih => simp [allComplete, ih]

theorem anyMentions_eq_any (id : UInt32) (ts : List Ty) :
    anyMentions id ts = ts.any (mentions id) := by
  induction ts with
  | nil => rfl
  | cons t ts ih => simp [anyMentions, ih]

theorem collectAll_eq_foldl (ts : List Ty) (seen : List Placeholder) :
    collectAll ts seen = ts.foldl (fun acc t => t.collect acc) seen := by
  induction ts generalizing seen with
  | nil => rfl
  | cons t ts ih => simp [collectAll, ih]

end TensorTyping.Ty
