import TensorTyping.Proofs.Ranges
import TensorTyping.Proofs.Session.Run

namespace TensorTyping.Session

open Resolution (requireAll)

variable {s s' : Session} {c : Cond} {conds : List Cond} {next : Resolution}

/-- What is left of a question that was answered with yes. -/
def KeptCond (s : Session) (c : Cond) : Prop := (Report.asserted c true).Kept s

theorem failure_of_assert (h : (s.assert c).1 = true) : (s.assert c).2.failure = none := by
  by_cases hnone : s.failure = none
  · refine (failure_assert hnone c).resolve_right fun hrefuted => ?_
    rw [assert_of_refuted hnone hrefuted] at h
    cases h
  · rw [assert_of_failed hnone] at h
    cases h

theorem holds_of_keptCond {σ : Assignment} (hσ : s.known.Admits σ)
    (hdeferred : ∀ c ∈ s.deferred, ∀ t, c.eval σ = some t → t = true) (hc : s.KeptCond c) (t : Bool)
    (ht : c.eval σ = some t) : t = true := by
  obtain hproven | hmem := hc
  · have hallows := Ranges.allows_prove hσ ht
    rwa [hproven] at hallows
  · exact hdeferred c hmem t ht

/-- An answer that is yes changes at most what is put off, by the question. -/
theorem assert_of_yes (h : (s.assert c).1 = true) : ∃ deferred,
    (s.assert c).2 = { s with deferred } ∧ (deferred = s.deferred ∨ deferred = s.deferred ++ [c]) := by
  by_cases hnone : s.failure = none
  · rw [assert, if_neg (by simp [hnone])] at h ⊢
    cases hprove : s.known.prove c with
    | proven => exact ⟨s.deferred, rfl, Or.inl rfl⟩
    | unknown =>
      by_cases hmem : c ∈ s.deferred
      · exact ⟨s.deferred, if_pos hmem, Or.inl rfl⟩
      · exact ⟨s.deferred ++ [c], if_neg hmem, Or.inr rfl⟩
    | refuted =>
      rw [hprove] at h
      cases h
  · rw [assert_of_failed hnone] at h
    cases h

theorem failure_of_no (h : (s.assert c).1 = false) : (s.assert c).2.failure ≠ none := by
  intro hnone
  rw [(asserted_kept hnone).1] at h
  cases h

theorem assert_of_no (hs : s.failure = none) (h : (s.assert c).1 = false) :
    s.known.prove c = .refuted ∧ s.assert c = (false, s.fail (.assertionFailed c s.location)) := by
  have hrefuted := (failure_assert hs c).resolve_left (failure_of_no h)
  exact ⟨hrefuted, assert_of_refuted hs hrefuted⟩

theorem no_of_refuted (h : s.known.prove c = .refuted) : (s.assert c).1 = false := by
  by_cases hnone : s.failure = none
  · rw [assert_of_refuted hnone h]
  · rw [assert_of_failed hnone]

/-- All questions are answered with yes. -/
inductive Answered : Session → List Cond → Session → Prop where
  | nil (s : Session) : Answered s [] s
  | cons {s s' : Session} {c : Cond} {conds : List Cond} : (s.assert c).1 = true →
    Answered (s.assert c).2 conds s' → Answered s (c :: conds) s'

namespace Answered

theorem eq (h : Answered s conds s') : ∃ deferred, s' = { s with deferred } := by
  induction h with
  | nil s => exact ⟨s.deferred, rfl⟩
  | cons hyes _ ih =>
    obtain ⟨deferred, heq, -⟩ := assert_of_yes hyes
    obtain ⟨deferred', heq'⟩ := ih
    exact ⟨deferred', by rw [heq', heq]⟩

theorem grows (h : Answered s conds s') (hc : s.classes.Valid) : Grows s s' := by
  induction h with
  | nil s => exact .refl hc
  | @cons s _ c _ _ _ ih =>
    have hgrows := assert_grows hc c
    exact hgrows.trans (ih hgrows.valid)

theorem kept (h : Answered s conds s') (hc : s.classes.Valid) : ∀ c ∈ conds, s'.KeptCond c := by
  induction h with
  | nil s => exact nofun
  | @cons s _ c _ hyes hrest ih =>
    have hvalid := (assert_grows hc c).valid
    refine List.forall_mem_cons.mpr ⟨?_, ih hvalid⟩
    exact (hrest.grows hvalid).kept (asserted_kept (failure_of_assert hyes)).2

end Answered

/-- Asking for conditions: all answers are yes and the rule goes on, or the first answer that is no is
the last thing that happens. -/
theorem run_requireAll (s : Session) (conds : List Cond) (next : Resolution) :
    (∃ s', Answered s conds s' ∧ (requireAll conds next).run reporter s =
      { next.run reporter s' with
        reports := conds.map (.asserted · true) ++ (next.run reporter s').reports }) ∨
    ∃ before c after s', conds = before ++ c :: after ∧ Answered s before s' ∧
      (s'.assert c).1 = false ∧ (requireAll conds next).run reporter s =
        ⟨(s'.assert c).2, before.map (.asserted · true) ++ [.asserted c false], false⟩ := by
  induction conds generalizing s with
  | nil => exact Or.inl ⟨s, .nil s, rfl⟩
  | cons c conds ih =>
    have hrun := run_assert c (fun holds => if holds then requireAll conds next else .done false) s
    cases hanswer : (s.assert c).1 with
    | false =>
      rw [hanswer] at hrun
      exact Or.inr ⟨[], c, conds, s, rfl, .nil s, hanswer, hrun⟩
    | true =>
      rw [hanswer] at hrun
      obtain ⟨s', hyes, heq⟩ | ⟨before, d, after, s', rfl, hyes, hno, heq⟩ := ih (s.assert c).2
      · exact Or.inl ⟨s', .cons hanswer hyes, hrun.trans (by simp [heq])⟩
      · exact Or.inr ⟨c :: before, d, after, s', rfl, .cons hanswer hyes, hno,
          hrun.trans (by simp [heq])⟩

/-- A relation that asks for conditions and then declares two types equal. If it is resolved, it has made
all these requests, and the conditions are proven or put off. -/
theorem invoke_requireAll {r : Relation} {dst src : Ty} (hc : s.classes.Valid)
    (hresolve : r.rule.resolve (s.query r) = requireAll conds (.conclude dst src))
    (hresolved : (s.outcome r).resolved = true) (number : Nat) :
    (s.outcome r).reports = conds.map (.asserted · true) ++ [.assigned dst src] ∧
      ∀ c ∈ conds, (s.invoke number r).KeptCond c := by
  have houtcome : s.outcome r =
      (requireAll conds (.conclude dst src)).run reporter { s with location := r.span } :=
    congrArg (·.run reporter { s with location := r.span }) hresolve
  have hlocate := locate_grows hc r.span
  obtain ⟨s', hyes, heq⟩ | ⟨before, c, after, s', -, -, -, heq⟩ :=
    run_requireAll { s with location := r.span } conds (.conclude dst src)
  · have heq := houtcome.trans heq
    have hgrows := hyes.grows hlocate.valid
    have hassign := assign_grows hgrows.valid dst src
    have hstate : (s.outcome r).state = s'.assign dst src := congrArg (·.state) heq
    obtain ⟨-, hknown, hdeferred, -, -⟩ := invoke_fields s number r
    refine ⟨congrArg (·.reports) heq, fun c hmem => ?_⟩
    have hkept : (s'.assign dst src).KeptCond c := hassign.kept (hyes.kept hlocate.valid c hmem)
    refine hkept.imp (fun h => ?_) fun h => by rwa [hdeferred, hstate]
    rwa [hknown, ← show s'.known = s.known from hgrows.known, ← hassign.known]
  · rw [houtcome, heq] at hresolved
    cases hresolved

end TensorTyping.Session
