namespace TensorTyping

/-- What could be shown about a condition. The connectives are Kleene's: an undecided part leaves the
    whole undecided unless the other part settles it alone. -/
inductive Verdict where
  | proven
  | refuted
  | unknown
  deriving DecidableEq

namespace Verdict

/-- A known truth value as a verdict. -/
def ofBool (b : Bool) : Verdict := if b then proven else refuted

/-- Conjunction: refuted as soon as one side is. -/
def and : Verdict → Verdict → Verdict
  | refuted, _ | _, refuted => refuted
  | proven, proven => proven
  | _, _ => unknown

/-- Disjunction: proven as soon as one side is. -/
def or : Verdict → Verdict → Verdict
  | proven, _ | _, proven => proven
  | refuted, refuted => refuted
  | _, _ => unknown

/-- Negation; what is unknown stays so. -/
def negate : Verdict → Verdict
  | proven => refuted
  | refuted => proven
  | unknown => unknown

/-- The printed form. -/
def render : Verdict → String
  | proven => "true"
  | refuted => "false"
  | unknown => "unknown"

instance : ToString Verdict := ⟨render⟩

/-- A verdict is right about a truth value unless it claims the opposite. -/
def Allows : Verdict → Bool → Prop
  | proven, b => b = true
  | refuted, b => b = false
  | unknown, _ => True

theorem allows_ofBool (b : Bool) : (ofBool b).Allows b := by
  cases b <;> rfl

theorem allows_negate {v : Verdict} {b : Bool} (h : v.Allows b) : v.negate.Allows (!b) := by
  cases v <;> simp_all [Allows, negate]

theorem allows_and {v w : Verdict} {a b : Bool} (ha : v.Allows a) (hb : w.Allows b) :
    (v.and w).Allows (a && b) := by
  cases v <;> cases w <;> simp_all [Allows, and]

theorem allows_or {v w : Verdict} {a b : Bool} (ha : v.Allows a) (hb : w.Allows b) :
    (v.or w).Allows (a || b) := by
  cases v <;> cases w <;> simp_all [Allows, or]

end Verdict

end TensorTyping
