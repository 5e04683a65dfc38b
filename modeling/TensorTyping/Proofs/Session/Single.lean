import TensorTyping.Proofs.Session.Budget

namespace TensorTyping.Session

variable {s s' : Session} {r : Relation} {resolved : Bool}

/-- The state and the verdict that a resolution comes to. -/
def upshot (s : Session) (r : Resolution) : Session × Bool :=
  ((r.run reporter s).state, (r.run reporter s).resolved)

theorem upshot_require_proven {cond : Cond} {next : Resolution} (hs : s.failure = none)
    (h : s.known.prove cond = .proven) : s.upshot (.require cond next) = s.upshot next := by
  have hassert : s.assert cond = (true, s) := by
    rw [assert, hs, h]
    rfl
  rw [upshot, Resolution.require, run_assert, hassert]
  rfl

theorem upshot_require_refuted {cond : Cond} {next : Resolution} (hs : s.failure = none)
    (h : s.known.prove cond = .refuted) :
    s.upshot (.require cond next) = (s.fail (.assertionFailed cond s.location), false) := by
  rw [upshot, Resolution.require, run_assert, assert_of_refuted hs h]
  rfl

theorem invoke_of_upshot (number : Nat)
    (h : upshot { s with location := r.span } (r.rule.resolve (s.query r)) = (s', resolved)) :
    ∃ trace, s.invoke number r =
      if resolved then retire { s' with trace } number else { s' with trace } := by
  cases h
  exact ⟨_, invoke_eq s number r⟩

/-- A session of one relation, with one placeholder that it watches. -/
def single (globals : Globals) (config : Config) (known : Ranges) (kind : Kind) (r : Relation) :
    Session where
  globals
  config
  known
  classes := ⟨[⟨⟨0, kind⟩, 0, 0, ⟨0, kind⟩, none, [0]⟩]⟩
  entries := [⟨r, false⟩]
  queue := [0]
  nextId := 1
  deferred := []
  location := .dummy
  failure := none
  trace := []

/-- The same session when its relation is run. -/
def running (globals : Globals) (config : Config) (known : Ranges) (kind : Kind) (r : Relation) :
    Session :=
  { single globals config known kind r with queue := [], location := r.span }

variable {globals : Globals} {config : Config} {known : Ranges} {kind : Kind}

/-- The relation is run first, whatever the session goes on with. -/
theorem solve_single (hbudget : 0 < config.budget 1)
    (h : (running globals config known kind r).upshot
      (r.rule.resolve ((running globals config known kind r).query r)) = (s', resolved)) :
    ∃ n trace, (single globals config known kind r).solve =
      let s' := if resolved then retire { s' with trace } 0 else { s' with trace }
      match s'.failure with
      | some e => (s', .error [e])
      | none => s'.run n := by
  obtain ⟨n, hn⟩ := Nat.exists_eq_add_of_lt hbudget
  obtain ⟨trace, hinvoke⟩ :=
    invoke_of_upshot (s := { single globals config known kind r with queue := [] }) 0 h
  have hsolve : (single globals config known kind r).solve =
      (single globals config known kind r).run (config.budget 1) := rfl
  refine ⟨0 + n, trace, ?_⟩
  rw [hsolve, hn, ← hinvoke]
  rfl

theorem unify_single {site : Site} {t : TensorType} {users : List Nat} :
    site.unify ⟨⟨[⟨⟨0, kind⟩, 0, 0, ⟨0, kind⟩, none, users⟩]⟩, [], []⟩ (.hole ⟨0, kind⟩) (.tensor t) =
      .ok ⟨⟨[⟨⟨0, kind⟩, 0, 0, ⟨0, kind⟩, some (.tensor t), users⟩]⟩, [], users⟩ := by
  cbv

/-- The placeholder is bound, and the relation that watches it is on the worklist again. -/
theorem upshot_conclude_single (t : TensorType) :
    (running globals config known kind r).upshot (.conclude (.hole ⟨0, kind⟩) (.tensor t)) =
      ({ running globals config known kind r with
        classes := ⟨[⟨⟨0, kind⟩, 0, 0, ⟨0, kind⟩, some (.tensor t), [0]⟩]⟩, queue := [0] }, true) := by
  have hassign : (running globals config known kind r).assign (.hole ⟨0, kind⟩) (.tensor t) =
      { running globals config known kind r with
        classes := ⟨[⟨⟨0, kind⟩, 0, 0, ⟨0, kind⟩, some (.tensor t), [0]⟩]⟩, queue := [0] } := by
    rw [assign_of_ok rfl unify_single]
    rfl
  exact congrArg (·, true) hassign

theorem solve_single_failed (hbudget : 0 < config.budget 1) {e : TypeError}
    (h : (running globals config known kind r).upshot
      (r.rule.resolve ((running globals config known kind r).query r)) = (s', resolved))
    (hfailure : s'.failure = some e) : (single globals config known kind r).solve.2 = .error [e] := by
  obtain ⟨n, trace, hsolve⟩ := solve_single hbudget h
  rw [hsolve]
  cases resolved <;> simp [retire, hfailure]

theorem solve_single_assigned (hbudget : 0 < config.budget 1) {t : TensorType}
    (h : (running globals config known kind r).upshot
        (r.rule.resolve ((running globals config known kind r).query r)) =
      (running globals config known kind r).upshot (.conclude (.hole ⟨0, kind⟩) (.tensor t))) :
    (single globals config known kind r).solve.2 = .ok ⟨[(0, .tensor t)], []⟩ := by
  obtain ⟨n, trace, hsolve⟩ := solve_single hbudget (h.trans (upshot_conclude_single t))
  rw [hsolve]
  cases n <;> cbv

end TensorTyping.Session
