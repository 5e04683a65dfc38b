import TensorTyping.Proofs.Rule.Meaning
import TensorTyping.Rule.Builtin

namespace TensorTyping

open Ty Resolution

namespace Ty

variable {θ : Grounding} {u : Ty}

end Ty

/-- Inputs and output of queries that ask the same. -/
theorem Query.Same.singleOutput? {θ : Grounding} {q q' : Query} (h : q.Same θ q')
    {xs : List Ty} {out : Ty} (hq : q.singleOutput? = some (xs, out)) :
    ∃ xs' out', q'.singleOutput? = some (xs', out') ∧
      List.Forall₂ (fun t u => (t.ground θ).Same (u.ground θ)) xs xs' ∧
      (out.ground θ).Same (out'.ground θ) ∧ (∀ x ∈ xs', x ∈ q'.args) ∧ out' ∈ q'.args ∧
      ∀ e ∈ xs'.zip xs, e ∈ q'.args.zip q.args := by
  have hargs := h.args
  have hdrop := List.forall₂_drop q.numInputs hargs
  have htake := List.forall₂_take q.numInputs hargs
  unfold Query.singleOutput? at hq
  split at hq
  · rename_i out₁ hout
    cases hq
    rw [hout] at hdrop
    obtain ⟨out', rest, hsame, hrest, hout'⟩ := List.forall₂_cons_left_iff.mp hdrop
    rw [List.forall₂_nil_left_iff] at hrest
    rw [hrest] at hout'
    refine ⟨q'.args.take q.numInputs, out', ?_, htake, hsame, fun x hx => List.mem_of_mem_take hx,
      List.mem_of_mem_drop (hout' ▸ List.mem_singleton_self out'), fun e he => ?_⟩
    · rw [Query.singleOutput?, h.numInputs, hout']
    · rw [List.zip, ← List.take_zipWith] at he
      exact List.mem_of_mem_take he
  · cases hq

namespace Rule

/-- What a rule does once it has what it waits for does not depend on how much more
is known: of a query that comes to the same it makes the same requests, or less is
known of an argument, and it waits. -/
def Stable (rule : Rule) : Prop := ∀ known θ q q', q.Same θ q' →
  (rule.resolve q).Accepts known θ →
    (rule.resolve q' = done false ∧ q'.Behind q) ∨
      Mirrors known θ q'.args (rule.resolve q) (rule.resolve q')

section tensor

variable {known : Ranges} {θ : Grounding} {args : List Ty} {r r' : Resolution}

end tensor

end Rule

end TensorTyping
