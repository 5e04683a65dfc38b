import TensorTyping.Proofs.Exchange.Unify
import TensorTyping.Proofs.Session.MostGeneral

namespace TensorTyping

open Ty

/-- Resolving leaves the placeholders that were not seen before as they are written. -/
theorem Classes.Valid.registered_or_mem_occurrences {c : Classes} (h : c.Valid) {t : Ty}
    {p : Placeholder} (hp : p ∈ (c.resolve t).occurrences) :
    c.Registered p.id ∨ p ∈ t.occurrences := by
  rw [resolve_eq_fill] at hp
  obtain ⟨q, hq, hpq⟩ := mem_occurrences_fill.mp hp
  by_cases hregistered : c.Registered q.id
  · exact Or.inl (h.registered_image hregistered (mem_ids.mpr ⟨p, hpq, rfl⟩))
  · rw [(settled_of_not_registered hregistered).image rfl, occurrences, List.mem_singleton] at hpq
    exact Or.inr (hpq ▸ hq)

namespace Session

variable {s : Session}

/-- In every reachable state, two types unify exactly if they do the other way round. Every type
then resolves to the same in both results, and the same equalities of dimensions are put off, with
their sides exchanged. What is asked of the types is that overflow does not tell the sides of an
equality between their dimensions apart, and that both have an id that is new under one kind. -/
theorem unify_symmetric (hs : Reachable s) {t u : Ty}
    (hkinds : ∀ p ∈ t.occurrences, ∀ q ∈ u.occurrences, p.id = q.id →
      s.classes.Registered p.id ∨ p.kind = q.kind)
    (hbalanced : ∀ d ∈ (s.classes.resolve t).dims ++ (s.classes.resolve u).dims,
      ∀ e ∈ (s.classes.resolve t).dims ++ (s.classes.resolve u).dims, s.known.Balanced d e) :
    (∃ e e', s.site.unify ⟨s.classes, s.deferred, []⟩ t u = .error e ∧
      s.site.unify ⟨s.classes, s.deferred, []⟩ u t = .error e') ∨
    ∃ s₁ s₂ : Progress, s.site.unify ⟨s.classes, s.deferred, []⟩ t u = .ok s₁ ∧
      s.site.unify ⟨s.classes, s.deferred, []⟩ u t = .ok s₂ ∧
      (∀ v, s₁.classes.resolve v = s₂.classes.resolve v) ∧
      ∃ new : List (Dim × Dim), s₁.deferred = addConds s.deferred (new.map fun a => .eq a.1 a.2) ∧
        s₂.deferred = addConds s.deferred (new.map fun a => .eq a.2 a.1) := by
  have hvalid := hs.valid
  have hfair : s.classes.Fair (· ∈ (s.classes.resolve t).dims ++ (s.classes.resolve u).dims)
      (s.classes.resolve t) (s.classes.resolve u) := by
    refine ⟨fun p hp q hq hid => ?_, fun d hd => List.mem_append_left _ hd,
      fun d hd => List.mem_append_right _ hd⟩
    obtain hp | hp := hvalid.registered_or_mem_occurrences hp
    · exact Or.inl hp
    · obtain hq | hq := hvalid.registered_or_mem_occurrences hq
      · exact Or.inl (hid ▸ hq)
      · exact hkinds p hp q hq hid
  have hsame : Progress.Exchanged s.deferred ⟨s.classes, s.deferred, []⟩
      ⟨s.classes, s.deferred, []⟩ := ⟨.refl hvalid, [], rfl, rfl⟩
  have hunify : Parallel (Progress.Exchanged s.deferred)
      (s.site.unify ⟨s.classes, s.deferred, []⟩ t u)
      (s.site.unify ⟨s.classes, s.deferred, []⟩ u t) :=
    Site.unify_exchanged (fun d e hd he => hbalanced d hd e he) hsame hfair
  cases h : s.site.unify ⟨s.classes, s.deferred, []⟩ t u with
  | error e =>
    obtain ⟨e', h'⟩ := hunify.of_error h
    exact Or.inl ⟨e, e', rfl, h'⟩
  | ok s₁ =>
    obtain ⟨s₂, h', hexchanged⟩ := hunify.of_ok h
    exact Or.inr ⟨s₁, s₂, rfl, h', fun v => (hexchanged.classes.resolve v).symm,
      hexchanged.deferred⟩

/-- Two new placeholders are joined, and two lengths are put off as equal or the other way round. -/
theorem unify_symmetric_lengths :
    let n : Dim := .var ⟨0, "n"⟩
    let m : Dim := .var ⟨1, "m"⟩
    let s := start .empty .default
    let t : Ty := .tuple [.hole ⟨1, .type⟩, .tensor ⟨[n], .float 32⟩]
    let u : Ty := .tuple [.hole ⟨0, .type⟩, .tensor ⟨[m], .float 32⟩]
    ∃ s₁ s₂ : Progress, s.site.unify ⟨s.classes, s.deferred, []⟩ t u = .ok s₁ ∧
      s.site.unify ⟨s.classes, s.deferred, []⟩ u t = .ok s₂ ∧
      (∀ v, s₁.classes.resolve v = s₂.classes.resolve v) ∧
      ∃ new : List (Dim × Dim), s₁.deferred = addConds s.deferred (new.map fun a => .eq a.1 a.2) ∧
        s₂.deferred = addConds s.deferred (new.map fun a => .eq a.2 a.1) := by
  intro n m s t u
  have hs : Reachable s := .start .empty .default
  have hleft : Ranges.difference? n m = some ⟨[([n], 1), ([m], -1)]⟩ := by cbv
  have hright : Ranges.difference? m n = some ⟨[([n], -1), ([m], 1)]⟩ := by cbv
  have hreversible : ∀ c : Word, c = 1 ∨ c = -1 → s.known.Reversible ⟨[([n], c), ([m], -c)]⟩ := by
    rintro c (rfl | rfl)
    all_goals
      refine ⟨by decide, fun ts hts => ?_⟩
      obtain rfl | ⟨us, rfl, hus⟩ := List.prefix_cons_iff.mp hts
      · decide
      · obtain rfl | ⟨vs, rfl, hvs⟩ := List.prefix_cons_iff.mp hus
        · decide
        · rw [List.prefix_nil.mp hvs]
          decide
  have hnm : s.known.Balanced n m := by
    refine ⟨by rw [hleft, hright]; rfl, fun p hp => ?_⟩
    rw [hleft, hright, Option.some.injEq, Option.some.injEq] at hp
    obtain rfl | rfl := hp
    · exact hreversible 1 (Or.inl rfl)
    · exact hreversible (-1) (Or.inr rfl)
  have hbalanced : ∀ d ∈ (s.classes.resolve t).dims ++ (s.classes.resolve u).dims,
      ∀ e ∈ (s.classes.resolve t).dims ++ (s.classes.resolve u).dims, s.known.Balanced d e := by
    have hdims : (s.classes.resolve t).dims ++ (s.classes.resolve u).dims = [n, m] := by cbv
    rw [hdims]
    simp only [List.mem_cons, List.not_mem_nil, or_false]
    rintro d (rfl | rfl) e (rfl | rfl)
    exacts [Ranges.balanced_self n, hnm, hnm.symm, Ranges.balanced_self m]
  have hkinds : ∀ p ∈ t.occurrences, ∀ q ∈ u.occurrences, p.id = q.id →
      s.classes.Registered p.id ∨ p.kind = q.kind := by
    intro p hp q hq _
    obtain rfl : p = ⟨1, .type⟩ := List.mem_singleton.mp hp
    obtain rfl : q = ⟨0, .type⟩ := List.mem_singleton.mp hq
    exact Or.inr rfl
  have hsolved : (s.site.unify ⟨s.classes, s.deferred, []⟩ t u).isOk = true := by cbv
  obtain ⟨e, e', h, -⟩ | h := unify_symmetric hs hkinds hbalanced
  · rw [h] at hsolved
    cases hsolved
  · exact h

/-- The least literal has no opposite, so that another one is told from it in one order only; and a
placeholder with two kinds is registered under the first. -/
theorem unify_not_symmetric :
    let s := start .empty .default
    let unify := s.site.unify ⟨s.classes, s.deferred, []⟩
    let vector (n : Word) : Ty := .tensor ⟨[.const n], .float 32⟩
    let least : Word := -9223372036854775808
    let p : Ty := .hole ⟨0, .type⟩
    let q : Ty := .hole ⟨0, .shape⟩
    let r : Ty := .hole ⟨1, .type⟩
    Reachable s ∧
      (unify (vector 0) (vector least)).isOk = true ∧
      (unify (vector least) (vector 0)).isOk = false ∧
      (unify (.tuple [p, r]) (.tuple [q, p])).isOk = true ∧
      (unify (.tuple [q, p]) (.tuple [p, r])).isOk = false :=
  ⟨.start .empty .default, by cbv, by cbv, by cbv, by cbv⟩

end Session

end TensorTyping
