import TensorTyping.Proofs.Session.Feasible
import TensorTyping.Proofs.Session.Settings
import TensorTyping.Rule.Script

namespace TensorTyping

theorem Config.toNat_factor_raised (config : Config) :
    config.raised.factor.toNat = max config.factor.toNat 1 := by
  unfold raised
  split
  · rename_i hzero
    rw [hzero]
    rfl
  · rename_i hne
    have hpos : config.factor.toNat ≠ 0 := fun h => hne (UInt64.toNat_inj.mp h)
    omega

/-- Every session that has been started may make an invocation. -/
theorem Config.budget_raised_pos (config : Config) (relations : Nat) :
    0 < config.raised.budget relations := by
  have hfactor : 0 < config.raised.factor.toNat := by
    rw [config.toNat_factor_raised]
    omega
  have hmin : 0 < min (relations + 1) maxBudget := by
    unfold maxBudget
    omega
  exact Nat.lt_min.mpr ⟨Nat.mul_pos hfactor hmin, by decide⟩

/-- A larger factor never gives a smaller budget, also where the budget has to be the largest. -/
theorem Config.budget_raised_mono {config config' : Config} (hle : config.factor ≤ config'.factor)
    (relations : Nat) : config.raised.budget relations ≤ config'.raised.budget relations := by
  have hfactor : config.raised.factor.toNat ≤ config'.raised.factor.toNat := by
    have hnat := UInt64.le_iff_toNat_le.mp hle
    rw [toNat_factor_raised, toNat_factor_raised]
    omega
  have hmul := Nat.mul_le_mul_right (min (relations + 1) maxBudget) hfactor
  unfold budget
  omega

theorem Config.strictShapes_raised (config : Config) :
    config.raised.strictShapes = config.strictShapes := by
  unfold raised
  split <;> rfl

namespace Session

variable {config : Config}

/-- The settings are not read while a session runs, but for strictness. -/
theorem withConfig_run_budget {s : Session} (hstrict : config.strictShapes = s.config.strictShapes)
    (budget : Nat) :
    (s.withConfig config).run budget = ((s.run budget).1.withConfig config, (s.run budget).2) := by
  induction budget generalizing s with
  | zero =>
    rw [run, run, withConfig_next?]
    cases s.next? <;> rfl
  | succ budget ih =>
    rw [run, run, withConfig_next?]
    cases hnext : s.next? with
    | none => rfl
    | some next =>
      obtain ⟨number, r, rest⟩ := next
      obtain ⟨queue, rfl, -⟩ := next?_eq_some hnext
      have hinvoke := withConfig_invoke (s := { s with queue }) hstrict number r
      have hfailure : (withConfig (invoke { s with queue } number r) config).failure =
          (invoke { s with queue } number r).failure := rfl
      dsimp only [Option.map_some]
      rw [← hinvoke, hfailure]
      cases (invoke { s with queue } number r).failure with
      | some e => rfl
      | none => exact ih (hstrict.trans
        (congrArg (·.strictShapes) (config_invoke { s with queue } number r).symm))

/-- A run that ends before its budget is used up does not depend on the budget. It ends so also
when the last invocation was the last one allowed, if only resolved relations are left to look at. -/
theorem run_of_le {budget budget' : Nat} (hle : budget ≤ budget') (s : Session)
    (hcapped : ¬ (s.run budget).2.Capped) : s.run budget' = s.run budget := by
  induction budget generalizing s budget' with
  | zero =>
    cases hnext : s.next? with
    | none =>
      rw [run, run, hnext]
    | some next =>
      obtain ⟨number, r, rest⟩ := next
      obtain ⟨queue, rfl, hentry, -⟩ := next?_eq_some hnext
      rw [run, hnext] at hcapped
      exact absurd (capped_stuckErrors (List.mem_of_getElem? hentry)) hcapped
  | succ budget ih =>
    obtain ⟨larger, rfl⟩ := Nat.exists_eq_add_of_lt (Nat.lt_of_succ_le hle)
    rw [run] at hcapped
    rw [run, run]
    cases hnext : s.next? with
    | none => rfl
    | some next =>
      obtain ⟨number, r, rest⟩ := next
      rw [hnext] at hcapped
      dsimp only at hcapped ⊢
      cases hfailure : (rest.invoke number r).failure with
      | some e => rfl
      | none =>
        rw [hfailure] at hcapped
        exact ih (Nat.le_add_right budget larger) _ hcapped

/-- A larger factor changes nothing about a session that does not use up its budget: it makes the
same invocations and comes to the same, whatever its rules do. -/
theorem solve_of_factor_le (globals : Globals) (config : Config) (setup : List Setup)
    {factor factor' : UInt64} (hle : factor ≤ factor') :
    let small := prepared globals { config with factor } setup
    let large := prepared globals { config with factor := factor' } setup
    ¬ small.solve.2.Capped →
      large.solve.2 = small.solve.2 ∧ large.solve.1.trace = small.solve.1.trace := by
  intro small large hcapped
  have hsmall : small.config = ({ config with factor } : Config).raised :=
    (provides_prepared globals _ setup).config
  have hlarge : large.config = ({ config with factor := factor' } : Config).raised :=
    (provides_prepared globals _ setup).config
  have hsame : small.withConfig large.config = large := by
    rw [hlarge]
    exact withConfig_prepared globals _ _ setup
  have hstrict : large.config.strictShapes = small.config.strictShapes := by
    rw [hlarge, hsmall, Config.strictShapes_raised, Config.strictShapes_raised]
  have hentries : large.entries = small.entries := (congrArg Session.entries hsame.symm :)
  have hbudget : small.config.budget small.entries.length ≤
      large.config.budget large.entries.length := by
    rw [hentries, hsmall, hlarge]
    exact Config.budget_raised_mono hle _
  have hsolve : large.solve = (small.solve.1.withConfig large.config, small.solve.2) :=
    calc large.solve
      _ = (small.withConfig large.config).run (large.config.budget large.entries.length) := by
        rw [hsame, solve]
      _ = ((small.run (large.config.budget large.entries.length)).1.withConfig large.config,
          (small.run (large.config.budget large.entries.length)).2) :=
        withConfig_run_budget hstrict _
      _ = (small.solve.1.withConfig large.config, small.solve.2) := by
        rw [run_of_le hbudget small hcapped, solve]
  rw [hsolve]
  exact ⟨rfl, rfl⟩

/-- Two relations that take three invocations, which is all that a factor of one allows: the second
binds the placeholder that the first waits for, and is on the worklist again when it is resolved. -/
theorem solve_of_factor_le_exhausted :
    let x : Ty := .hole ⟨0, .type⟩
    let waiting : Relation :=
      ⟨.ofScript "wait" [.wait 0], [x], 0, .empty, .dummy, Nat.zero_le 1⟩
    let binding : Relation :=
      ⟨.ofScript "bind" [.assign (.arg 0) (.ty (.tuple []))], [x], 0, .empty, .dummy, Nat.zero_le 1⟩
    let setup : List Setup := [.relation waiting, .relation binding]
    let config : Config := .default
    let small := prepared .empty { config with factor := 1 } setup
    let large := prepared .empty { config with factor := 5 } setup
    (1 : UInt64) ≤ 5 ∧ small.solve.1.trace.length = small.config.budget 2 ∧
      small.solve.1.queue = [1] ∧ ¬ small.solve.2.Capped ∧
      large.solve.2 = small.solve.2 ∧ large.solve.1.trace = small.solve.1.trace := by
  intro x waiting binding setup config
  have hle : (1 : UInt64) ≤ 5 := by decide
  have hresult : (prepared .empty { config with factor := 1 } setup).solve.2 =
      .ok ⟨[(0, .tuple [])], []⟩ := by cbv
  have hcapped : ¬ (prepared .empty { config with factor := 1 } setup).solve.2.Capped := by
    rw [hresult]
    rintro ⟨errors, herrors, -⟩
    cases herrors
  exact ⟨hle, by cbv, by cbv, hcapped, solve_of_factor_le .empty config setup hle hcapped⟩

end Session

end TensorTyping
