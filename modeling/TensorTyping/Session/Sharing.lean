import TensorTyping.Session.Basic

namespace TensorTyping

namespace Site

/-- What a step left in the classes. -/
def Step.progress : Step → Progress
  | solved s => s
  | parts s _ => s
  | eliminated s _ _ => s

/-- The equations that are left when the first of them has come to something. -/
def Step.remaining (rest : Equations) : Step → Equations
  | solved _ => rest
  | parts _ eqs => eqs ++ rest
  | eliminated _ id image => Equations.eliminate id image rest

/-- What an equation may come to. Both sides may be one node, which is not looked into; `step` is what
    becomes of two nodes. Types do not say which nodes they share, so any two sides that are the same
    type may be one node. -/
inductive Steps (site : Site) (s : Progress) : Ty → Ty → Except TypeError Step → Prop where
  | shared (t : Ty) : Steps site s t t (.ok (.solved s))
  | separate (t u : Ty) : Steps site s t u (site.step s t u)

/-- What equations may come to, over all ways to share nodes. -/
inductive Solves (site : Site) : Progress → Equations → Except TypeError Progress → Prop where
  | done (s : Progress) : Solves site s [] (.ok s)
  | failed {s : Progress} {t u : Ty} {e : TypeError} (rest : Equations)
    (h : site.Steps s t u (.error e)) : Solves site s ((t, u) :: rest) (.error e)
  | next {s : Progress} {t u : Ty} {rest : Equations} {result : Step} {r : Except TypeError Progress}
    (h : site.Steps s t u (.ok result))
    (hrest : Solves site result.progress (result.remaining rest) r) :
    Solves site s ((t, u) :: rest) r

/-- What making two types equal may come to. -/
def Unifies (site : Site) (s : Progress) (t u : Ty) (r : Except TypeError Progress) : Prop :=
  site.Solves s [(s.classes.resolve t, s.classes.resolve u)] r

end Site

namespace Session

/-- The place where a session unifies. -/
def site (s : Session) : Site := ⟨s.known, s.config.strictShapes, s.location⟩

/-- A session after a unification. -/
def settle (s : Session) : Except TypeError Progress → Session
  | .error e => s.fail e
  | .ok p => p.woken.foldl wake { s with classes := p.classes, deferred := p.deferred }

/-- What declaring two types equal may come to. -/
inductive Assigns (dst src : Ty) (s : Session) : Session → Prop where
  | ignored (h : s.failure ≠ none) : Assigns dst src s s
  | unified {r : Except TypeError Progress} (hnone : s.failure = none)
    (h : s.site.Unifies ⟨s.classes, s.deferred, []⟩ dst src r) : Assigns dst src s (s.settle r)

/-- What carrying out a resolution may come to. -/
inductive Performs : Resolution → Session → Outcome Session → Prop where
  | done (resolved : Bool) (s : Session) : Performs (.done resolved) s ⟨s, [], resolved⟩
  | assign {dst src : Ty} {next : Resolution} {s s' : Session} {o : Outcome Session}
    (h : s.Assigns dst src s') (hnext : Performs next s' o) :
    Performs (.assign dst src next) s { o with reports := .assigned dst src :: o.reports }
  | assert {cond : Cond} {next : Bool → Resolution} {s : Session} {o : Outcome Session}
    (hnext : Performs (next (s.assert cond).1) (s.assert cond).2 o) :
    Performs (.assert cond next) s
      { o with reports := .asserted cond (s.assert cond).1 :: o.reports }
  | locate {span : Span} {next : Resolution} {s : Session} {o : Outcome Session}
    (hnext : Performs next { s with location := span } o) :
    Performs (.locate span next) s { o with reports := .located span :: o.reports }

/-- What a relation asks its rule. -/
def query (s : Session) (r : Relation) : Query :=
  ⟨r.args.map s.resolve, r.numInputs, r.attrs, s.globals⟩

/-- A session after a rule was carried out, with the invocation in the trace. -/
def log (number : Nat) (r : Relation) (args : List Ty) (o : Outcome Session) : Session :=
  let s := { o.state with trace := o.state.trace ++ [⟨r.rule.name, args, o.reports, o.resolved⟩] }
  if o.resolved then s.retire number else s

/-- What running a relation may come to. -/
def Invokes (number : Nat) (r : Relation) (s s' : Session) : Prop :=
  ∃ o, Performs (r.rule.resolve (s.query r)) { s with location := r.span } o ∧
    s' = log number r (r.args.map s.resolve) o

/-- What running relations may come to. -/
inductive Runs : Nat → Session → Session × Result → Prop where
  | finished {budget : Nat} {s : Session} (h : s.next? = none) : Runs budget s (s, s.finish)
  | capped {s rest : Session} {number : Nat} {r : Relation} (h : s.next? = some (number, r, rest)) :
    Runs 0 s (rest, .error (rest.stuckErrors true))
  | failed {budget : Nat} {s rest s' : Session} {number : Nat} {r : Relation} {e : TypeError}
    (h : s.next? = some (number, r, rest)) (hinvoke : rest.Invokes number r s')
    (hfailure : s'.failure = some e) : Runs (budget + 1) s (s', .error [e])
  | continued {budget : Nat} {s rest s' : Session} {number : Nat} {r : Relation}
    {result : Session × Result} (h : s.next? = some (number, r, rest))
    (hinvoke : rest.Invokes number r s') (hnone : s'.failure = none)
    (hrest : Runs budget s' result) : Runs (budget + 1) s result

/-- What a session may come to, over all ways to share the nodes of its types. -/
def Solves (s : Session) (result : Session × Result) : Prop :=
  Runs (s.config.budget s.entries.length) s result

end Session

end TensorTyping
