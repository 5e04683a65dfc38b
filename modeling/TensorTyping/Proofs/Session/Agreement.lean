import Mathlib.Data.List.Induction
import TensorTyping.Proofs.Session.Feasible

namespace TensorTyping

open Ty

/-- The choice of one reference for every placeholder. -/
def Grounding.reference : Grounding := ⟨fun _ => .ref .unit, fun _ => rfl⟩

namespace Classes

variable {c : Classes}

theorem exists_satisfies_of_settled (hc : c.Valid) {p : Placeholder} (hp : c.Settled p.id)
    (ρ : Grounding) : ∃ θ : Grounding, θ.Satisfies c ∧ (hole p).ground θ = ρ.ty p.id := by
  obtain ⟨θ, hθ, hground⟩ := Grounding.exists_satisfies hc ρ
  refine ⟨θ, hθ, ?_⟩
  rw [hground, resolve_hole, hp.image rfl, ground_hole]

/-- Nothing fixes the form of a placeholder that nothing stands for. -/
theorem not_same_of_settled (hc : c.Valid) {p : Placeholder} (hp : c.Settled p.id) {u : Ty}
    (hu : u.hole? = none) :
    ¬ ∀ θ : Grounding, θ.Satisfies c → ((hole p).ground θ).Same (u.ground θ) := by
  intro hsame
  obtain ⟨θ, hθ, hunit⟩ := exists_satisfies_of_settled hc hp .unit
  obtain ⟨θ', hθ', href⟩ := exists_satisfies_of_settled hc hp .reference
  have hsame₁ := hsame θ hθ
  have hsame₂ := hsame θ' hθ'
  rw [hunit] at hsame₁
  rw [href] at hsame₂
  cases u with
  | hole q => cases hu
  | tuple ts => simp [Grounding.reference, ground, Alike] at hsame₂
  | _ => simp [Grounding.unit, Ty.unit, ground, Alike] at hsame₁

end Classes

theorem Firing.mirrors {f g : Firing} {globals : Globals} {known : Ranges} {θ : Grounding}
    (hstable : f.relation.rule.Stable) (hrelation : g.relation = f.relation) (hf : f.before.Valid)
    (hg : g.before.Valid) (hfθ : θ.Satisfies f.before) (hgθ : θ.Satisfies g.before)
    (haccepts : (f.resolution globals).Accepts known θ) :
    (g.resolution globals = .done false ∧ (g.query globals).Behind (f.query globals)) ∨
      Resolution.Mirrors known θ (g.query globals).args (f.resolution globals)
        (g.resolution globals) := by
  have hsame : Query.Same θ (f.query globals) (g.query globals) := by
    rw [query, query, hrelation]
    refine ⟨?_, rfl, rfl, rfl⟩
    rw [List.forall₂_map_left_iff, List.forall₂_map_right_iff, List.forall₂_same]
    intro t _
    exact ((Grounding.satisfies_iff_resolve hf).mp hfθ t).symm.trans
      ((Grounding.satisfies_iff_resolve hg).mp hgθ t)
  have hresolution : g.resolution globals = f.relation.rule.resolve (g.query globals) := by
    rw [resolution, hrelation]
  rw [hresolution]
  exact hstable known θ _ _ hsame haccepts

namespace Session

variable {k : Kind} {S : Dim → Prop} {s₀ s : Session} {log : List Firing} {θ : Grounding}
  {f : Firing}

theorem Untouched.satisfies (h : s.Untouched) (θ : Grounding) : θ.Satisfies s.classes := by
  rw [Grounding.satisfies_iff h.valid]
  intro p
  rw [(h.settled p.id).image rfl, ground_hole]
  exact Same.refl _

/-- A session starts with the relations and placeholders of another, in some order. -/
structure Rearranges (s₀ s₀' : Session) : Prop where
  globals : s₀'.globals = s₀.globals
  known : s₀'.known = s₀.known
  relations : ∀ r, r ∈ s₀'.entries.map (·.relation) ↔ r ∈ s₀.entries.map (·.relation)
  registered : ∀ i, s₀'.classes.Registered i ↔ s₀.classes.Registered i

theorem Rearranges.symm {s₀' : Session} (h : Rearranges s₀ s₀') : Rearranges s₀' s₀ :=
  ⟨h.globals.symm, h.known.symm, fun r => (h.relations r).symm, fun i => (h.registered i).symm⟩

variable {s₀' s' : Session} {log' : List Firing}

theorem Untouched.registered_args (h : s.Untouched) {r : Relation}
    (hr : r ∈ s.entries.map (·.relation)) : ∀ t ∈ r.args, ∀ i ∈ t.ids, s.classes.Registered i := by
  intro t ht i hi
  obtain ⟨e, he, rfl⟩ := List.mem_map.mp hr
  obtain ⟨n, hn⟩ := List.mem_iff_getElem?.mp he
  exact Classes.registered_of_mem_users (h.watched n e hn i (List.mem_flatMap.mpr ⟨t, ht, hi⟩))

/-- All that one session knows is known in another, but for conditions of a kind. -/
structure Knows (E : Cond → Prop) (s s' : Session) : Prop where
  registered : ∀ i, s.classes.Registered i → s'.classes.Registered i
  satisfies : ∀ θ : Grounding, θ.Satisfies s'.classes → θ.Satisfies s.classes
  deferred : ∀ c ∈ s.deferred, ¬ E c → c ∈ s'.deferred

end Session

end TensorTyping
