import TensorTyping.Config.Basic
import TensorTyping.Rule.Basic
import TensorTyping.Session.Unify

namespace TensorTyping

/-- A relation of a session, and whether it is resolved. -/
structure Entry where
  relation : Relation
  resolved : Bool

/-- One invocation of a rule: the arguments it was given, its requests, and whether it declared
    itself resolved. -/
structure Invocation where
  rule : String
  args : List Ty
  reports : List Report
  resolved : Bool

/-- The state of a session. -/
structure Session where
  globals : Globals
  config : Config
  known : Ranges
  classes : Classes
  entries : List Entry
  /-- The numbers of the relations to look at, each once. -/
  queue : List Nat
  /-- The id of the next fresh placeholder. -/
  nextId : UInt32
  /-- The conditions put off so far, each once. -/
  deferred : List Cond
  /-- The location of the failures that follow. -/
  location : Span
  failure : Option TypeError
  /-- All invocations so far, in order. -/
  trace : List Invocation

/-- What a session came to. -/
abbrev Result := Except (List TypeError) Solution

namespace Session

/-- A session without relations. A configuration that would not let any relation run is raised. -/
def start (globals : Globals) (config : Config) : Session where
  globals
  config := config.raised
  known := .none
  classes := .empty
  entries := []
  queue := []
  nextId := 0
  deferred := []
  location := .dummy
  failure := none
  trace := []

/-- Adds the knowledge that a size variable lies in a range. -/
def bindRange (s : Session) (x : SizeVar) (r : Range) : Session :=
  { s with known := s.known.bind x r }

/-- The id after another; the largest id has none and stands for its own successor. -/
def successor (id : UInt32) : UInt32 := if id = 4294967295 then id else id + 1

/-- Registers a placeholder and keeps fresh ones clear of its id. -/
def register (s : Session) (p : Placeholder) : Session :=
  { s with
    classes := s.classes.ensure p
    nextId := if s.nextId ≤ successor p.id then successor p.id else s.nextId }

/-- A new placeholder. -/
def fresh (s : Session) (kind : Kind) : Placeholder × Session :=
  let p := ⟨s.nextId, kind⟩
  (p, s.register p)

/-- Registers a placeholder that a relation mentions. -/
def registerUse (number : Nat) (s : Session) (p : Placeholder) : Session :=
  let s := s.register p
  { s with classes := s.classes.use (s.classes.leader p.id) [number] }

/-- Adds a relation behind all others. -/
def add (s : Session) (r : Relation) : Session :=
  let number := s.entries.length
  let s := (r.args.flatMap Ty.holes).foldl (registerUse number) s
  { s with entries := s.entries ++ [⟨r, false⟩], queue := s.queue ++ [number] }

/-- Puts everything known into a type. -/
def resolve (s : Session) (t : Ty) : Ty := s.classes.resolve t

/-- Whether a relation exists and is not resolved. -/
def isPending (s : Session) (number : Nat) : Bool := (s.entries[number]?).any (!·.resolved)

/-- Queues a relation, unless it is resolved or queued already. -/
def wake (s : Session) (number : Nat) : Session :=
  if s.isPending number && number ∉ s.queue then { s with queue := s.queue ++ [number] } else s

/-- Records a failure and keeps the first. -/
def fail (s : Session) (e : TypeError) : Session := { s with failure := s.failure.or (some e) }

/-- Makes two types equal. After a failure nothing happens any more. -/
def assign (dst src : Ty) (s : Session) : Session :=
  if s.failure.isSome then s
  else
    let site : Site := ⟨s.known, s.config.strictShapes, s.location⟩
    match site.unify ⟨s.classes, s.deferred, []⟩ dst src with
    | .error e => s.fail e
    | .ok p => p.woken.foldl wake { s with classes := p.classes, deferred := p.deferred }

/-- Answers whether a condition may hold. One that is not decided is put off, and one that cannot
    hold is a failure. After a failure no condition may hold. -/
def assert (cond : Cond) (s : Session) : Bool × Session :=
  if s.failure.isSome then (false, s)
  else
    match s.known.prove cond with
    | .proven => (true, s)
    | .unknown =>
      (true, if cond ∈ s.deferred then s else { s with deferred := s.deferred ++ [cond] })
    | .refuted => (false, s.fail (.assertionFailed cond s.location))

/-- Carries out the requests of rules. -/
def reporter : Reporter Session where
  assign := assign
  assert := assert
  locate span s := { s with location := span }

/-- Marks a relation as resolved. -/
def retire (s : Session) (number : Nat) : Session :=
  { s with entries := s.entries.modify number fun e => { e with resolved := true } }

/-- Runs a relation on its arguments. -/
def invoke (s : Session) (number : Nat) (r : Relation) : Session :=
  let args := r.args.map s.resolve
  let query : Query := ⟨args, r.numInputs, r.attrs, s.globals⟩
  let o := (r.rule.resolve query).run reporter { s with location := r.span }
  let s := { o.state with trace := o.state.trace ++ [⟨r.rule.name, args, o.reports, o.resolved⟩] }
  if o.resolved then s.retire number else s

/-- The first relation of the worklist that is not resolved, taken off it with all before it. -/
def next? (s : Session) : Option (Nat × Relation × Session) :=
  match s.queue.dropWhile (!s.isPending ·) with
  | [] => none
  | number :: queue =>
    (s.entries[number]?).map fun e => (number, e.relation, { s with queue })

/-- An error for every relation that is not resolved, in the order in which they were added. -/
def stuckErrors (s : Session) (diverged : Bool) : List TypeError :=
  (s.entries.filter (!·.resolved)).map fun e =>
    .stuck e.relation.rule.name (e.relation.args.map s.resolve) diverged e.relation.span

/-- Adds placeholders to a list, each id once. -/
def addLeftovers (found new : List Placeholder) : List Placeholder :=
  new.foldl (fun acc p => if acc.any (·.id = p.id) then acc else acc ++ [p]) found

/-- What a session comes to when all relations are resolved: a type for every placeholder, or the
    placeholders that nothing determines. -/
def conclude (s : Session) : Result :=
  let byId := fun (p q : Placeholder) => decide (p.id ≤ q.id)
  let found := (s.classes.placeholders.mergeSort byId).map fun p => (p.id, s.resolve (.hole p))
  match found.foldl (fun acc e => addLeftovers acc e.2.holes) [] with
  | [] =>
    .ok {
      bindings := found.filter (·.2.isComplete)
      deferred := s.deferred.mergeSort fun a b => (compare a b).isLE }
  | leftovers => .error [.unresolved (leftovers.mergeSort byId)]

/-- What a session comes to when nothing is left to do. -/
def finish (s : Session) : Result :=
  match s.stuckErrors false with
  | [] => s.conclude
  | errors => .error errors

/-- Runs relations until nothing is left to do, something fails, or the budget is used up. -/
def run : Nat → Session → Session × Result
  | budget, s =>
    match s.next? with
    | none => (s, s.finish)
    | some (number, relation, s) =>
      match budget with
      | 0 => (s, .error (s.stuckErrors true))
      | budget + 1 =>
        let s := s.invoke number relation
        match s.failure with
        | some e => (s, .error [e])
        | none => run budget s

/-- Runs a session to its end: the last state, with the trace of all invocations, and what it came
    to. The first failure ends it; otherwise it ends when the worklist is empty, or when the budget
    of invocations is used up. -/
def solve (s : Session) : Session × Result := s.run (s.config.budget s.entries.length)

end Session

end TensorTyping
