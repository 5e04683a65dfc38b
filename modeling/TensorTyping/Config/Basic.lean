namespace TensorTyping

/-- The settings of a typing session: how many invocations there may be for each relation, whether
    undecided dimensions are errors, and the file that diagnostics point into. -/
structure Config where
  factor : UInt64
  strictShapes : Bool
  file : UInt32
  deriving DecidableEq

/-- What is wrong with a configuration. -/
inductive ConfigError where
  /-- The text does not describe a configuration. -/
  | malformed
  | zeroFactor
  deriving DecidableEq

/-- The wording of a configuration error. -/
def ConfigError.message : ConfigError → String
  | malformed => "invalid solver configuration"
  | zeroFactor => "`max_invocations_factor` must be greater than zero"

namespace Config

/-- The settings used where none are given. -/
def default : Config := ⟨64, false, 0⟩

instance : Inhabited Config := ⟨default⟩

/-- A factor of zero would not let any relation run. -/
def validate (c : Config) : Except ConfigError Unit :=
  if c.factor = 0 then .error .zeroFactor else .ok ()

/-- The least configuration that lets a session run: a factor of zero becomes one. -/
def raised (c : Config) : Config := if c.factor = 0 then { c with factor := 1 } else c

/-- The largest budget. -/
def maxBudget : Nat := 18446744073709551615

/-- How many invocations a session over `relations` relations may make; never more than
    `maxBudget`. -/
def budget (c : Config) (relations : Nat) : Nat :=
  min (c.factor.toNat * min (relations + 1) maxBudget) maxBudget

end Config

end TensorTyping
