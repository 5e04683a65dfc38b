import TensorTyping.Proofs.Independence.Arrangement
import TensorTyping.Proofs.Session.Ending

namespace TensorTyping

open Ty

/-- A solution has the types of two others, for different placeholders, and the conditions of
both, in order and each once. -/
structure Solution.Joins (sol left right : Solution) : Prop where
  bindings : sol.bindings.Perm (left.bindings ++ right.bindings)
  disjoint : ∀ b ∈ left.bindings, ∀ b' ∈ right.bindings, b.1 ≠ b'.1
  increasing : (sol.bindings.map (·.1)).Pairwise (· < ·)
  deferred : ∀ c, c ∈ sol.deferred ↔ c ∈ left.deferred ∨ c ∈ right.deferred
  sorted : sol.deferred.Pairwise fun c d => compare c d = .lt

namespace Session

variable {G H : Group} {s₀ s s' a₀ a b₀ b : Session} {sol left right : Solution}

theorem rightUnique_turn : Relator.RightUnique Turn := by
  rintro s t u ⟨number, r, rest, hnext, rfl, -⟩ ⟨number', r', rest', hnext', rfl, -⟩
  rw [hnext] at hnext'
  cases hnext'
  rfl

/-- Where a session has nothing left to do, every run of it arrives in the end. -/
theorem turns_end (h : Turns s₀ s) (h' : Turns s₀ s') (hend : s'.next? = none) : Turns s s' := by
  obtain hturns | hturns := Relation.ReflTransGen.total_of_right_unique rightUnique_turn h h'
  · exact hturns
  · obtain rfl | ⟨_, ⟨number, r, rest, hnext, -⟩, -⟩ := hturns.cases_head
    · exact .refl
    · rw [hend] at hnext
      cases hnext

/-- No relation fails on the way to where nothing is left to do. -/
theorem failure_eq_none_of_end (h : Turns s₀ s) (h' : Turns s₀ s') (hend : s'.next? = none)
    {number : Nat} {r : Relation} {rest : Session} (hnext : s.next? = some (number, r, rest)) :
    (rest.invoke number r).failure = none := by
  obtain rfl | ⟨_, ⟨number', r', rest', hnext', rfl, hnone⟩, -⟩ := (turns_end h h' hend).cases_head
  · rw [hend] at hnext
    cases hnext
  · rw [hnext] at hnext'
    cases hnext'
    exact hnone

theorem solve_of_turns (h : Turns s₀ s) (hend : s.next? = none) (hcapped : ¬ s₀.solve.2.Capped) :
    s₀.solve.2 = s.finish := by
  obtain ⟨s', hturns, ⟨hnext, hrun⟩ | ⟨number, r, rest, hnext, hrun⟩ |
    ⟨number, r, rest, e, hnext, hfailure, hrun⟩⟩ := run_cases (s₀.config.budget s₀.entries.length) s₀
  · obtain rfl | ⟨_, ⟨number, r, rest, hnext', -⟩, -⟩ := (turns_end hturns h hend).cases_head
    · rw [solve, hrun]
    · rw [hnext] at hnext'
      cases hnext'
  · obtain ⟨queue, rfl, hentry, -⟩ := next?_eq_some hnext
    rw [solve, hrun] at hcapped
    exact absurd (capped_stuckErrors (List.mem_of_getElem? hentry)) hcapped
  · rw [failure_eq_none_of_end hturns h hend hnext] at hfailure
    cases hfailure

theorem finish_ok_iff : (∃ sol, s.finish = .ok sol) ↔
    (∀ e ∈ s.entries, e.resolved = true) ∧ s.Complete := by
  rw [← stuckErrors_eq_nil_iff s false]
  unfold finish
  split
  · rename_i hnil
    rw [and_iff_right hnil]
    exact ⟨fun ⟨_, h⟩ => complete_of_conclude h, conclude_of_complete⟩
  · rename_i errors hne
    exact iff_of_false (fun ⟨_, h⟩ => nomatch h) fun h => hne h.1

theorem conclude_of_finish (h : s.finish = .ok sol) : s.conclude = .ok sol := by
  unfold finish at h
  split at h
  · exact h
  · cases h

theorem mem_deferred_iff (h : s.conclude = .ok sol) {c : Cond} :
    c ∈ sol.deferred ↔ c ∈ s.deferred := by
  rw [(conclude_ok h).2.2, List.mem_mergeSort]

theorem reports_of_turns (hs₀ : s₀.Untouched) (h : Turns s₀ s) (hconclude : s.conclude = .ok sol) :
    sol.Reports s := by
  obtain ⟨bound, hlater⟩ := h.later hs₀.valid []
  exact reports_of_conclude (hlater.tracks (Classes.tracks_of_untouched hs₀))
    (undecided_of_turns hs₀ h) hconclude

theorem registered_of_binding? {c : Classes} {i : UInt32} {t : Ty} (h : c.binding? i = some t) :
    c.Registered i := by
  obtain ⟨x, hx, -⟩ := Option.bind_eq_some_iff.mp h
  exact Classes.registered_of_class? hx

theorem mem_bindings_iff (h : sol.Reports s) {i : UInt32} {t : Ty} :
    (i, t) ∈ sol.bindings ↔ s.classes.binding? i = some t := by
  refine ⟨h.bound _, fun ht => ?_⟩
  obtain ⟨⟨i, u⟩, hmem, rfl⟩ := List.mem_map.mp ((h.registered i).mpr (registered_of_binding? ht))
  obtain rfl : u = t := Option.some.inj ((h.bound _ hmem).symm.trans ht)
  exact hmem

theorem nodup_bindings (h : sol.Reports s) : sol.bindings.Nodup :=
  .of_map _ (h.increasing.imp fun hlt => UInt32.ne_of_lt hlt)

namespace Splits

theorem resolved_iff (h : Splits G H s a b) : (∀ e ∈ s.entries, e.resolved = true) ↔
    (∀ e ∈ a.entries, e.resolved = true) ∧ ∀ e ∈ b.entries, e.resolved = true := by
  constructor
  · intro hs
    refine ⟨fun e he => ?_, fun e he => ?_⟩
    · obtain ⟨n, hn⟩ := List.mem_iff_getElem?.mp he
      exact hs e (List.mem_of_getElem? ((h.left.entries n).trans hn))
    · obtain ⟨n, hn⟩ := List.mem_iff_getElem?.mp he
      exact hs e (List.mem_of_getElem? ((h.right.entries n).trans hn))
  · rintro ⟨ha, hb⟩ e he
    obtain ⟨k, hk⟩ := List.mem_iff_getElem?.mp he
    obtain ⟨n, rfl⟩ | ⟨n, rfl⟩ := h.covered k
    · exact ha e (List.mem_of_getElem? ((h.left.entries n).symm.trans hk))
    · exact hb e (List.mem_of_getElem? ((h.right.entries n).symm.trans hk))

theorem resolve_hole (h : Splits G H s a b) {p : Placeholder} (hp : G.mine p.id) :
    s.resolve (hole p) = a.resolve (hole p) :=
  h.classes.left.resolve fun i hi => by
    rw [ids_hole, List.mem_singleton] at hi
    exact hi ▸ hp

theorem complete_iff (h : Splits G H s a b) : s.Complete ↔ a.Complete ∧ b.Complete := by
  constructor
  · intro hs
    refine ⟨fun p hp => ?_, fun p hp => ?_⟩
    · have hmine := h.classes.left.mine hp
      rw [← h.resolve_hole hmine]
      exact hs p ((h.classes.left.registered hmine).mpr hp)
    · have hmine := h.classes.right.mine hp
      rw [← h.symm.resolve_hole hmine]
      exact hs p ((h.classes.right.registered hmine).mpr hp)
  · rintro ⟨ha, hb⟩ p hp
    obtain hmine | hmine := h.classes.owned hp
    · rw [h.resolve_hole hmine]
      exact ha p ((h.classes.left.registered hmine).mp hp)
    · rw [h.symm.resolve_hole hmine]
      exact hb p ((h.classes.right.registered hmine).mp hp)

/-- When nothing is left to do, a session comes to a solution if and only if those of both groups
do. -/
theorem finish_ok_iff (h : Splits G H s a b) : (∃ sol, s.finish = .ok sol) ↔
    (∃ left, a.finish = .ok left) ∧ ∃ right, b.finish = .ok right := by
  rw [Session.finish_ok_iff, Session.finish_ok_iff, Session.finish_ok_iff, h.resolved_iff,
    h.complete_iff, and_and_and_comm]

theorem binding?_iff (h : Splits G H s a b) {i : UInt32} {t : Ty} :
    s.classes.binding? i = some t ↔
      a.classes.binding? i = some t ∨ b.classes.binding? i = some t := by
  have hleft := h.classes.left
  have hright := h.classes.right
  constructor
  · intro ht
    obtain hi | hi := h.classes.owned (registered_of_binding? ht)
    · exact Or.inl (hleft.binding? hi ▸ ht)
    · exact Or.inr (hright.binding? hi ▸ ht)
  · rintro (ht | ht)
    · rw [hleft.binding? (hleft.mine (registered_of_binding? ht)), ht]
    · rw [hright.binding? (hright.mine (registered_of_binding? ht)), ht]

/-- The solution of the whole session joins those of the two groups. -/
theorem joins (h : Splits G H s a b) (hsol : sol.Reports s) (hleft : left.Reports a)
    (hright : right.Reports b) (hconclude : s.conclude = .ok sol)
    (hconclude' : a.conclude = .ok left) (hconclude'' : b.conclude = .ok right) :
    sol.Joins left right := by
  have hdisjoint : ∀ b ∈ left.bindings, ∀ b' ∈ right.bindings, b.1 ≠ b'.1 := by
    intro b hb b' hb' heq
    have hmine := h.classes.left.mine (registered_of_binding? (hleft.bound b hb))
    have hmine' := h.classes.right.mine (registered_of_binding? (hright.bound b' hb'))
    exact h.classes.apart hmine (heq ▸ hmine')
  refine ⟨?_, hdisjoint, hsol.increasing, fun c => ?_, hsol.sorted⟩
  · refine (List.perm_ext_iff_of_nodup (nodup_bindings hsol) ?_).mpr fun b => ?_
    · exact List.nodup_append.mpr ⟨nodup_bindings hleft, nodup_bindings hright,
        fun b hb b' hb' heq => hdisjoint b hb b' hb' (heq ▸ rfl)⟩
    · rw [List.mem_append, mem_bindings_iff hsol, mem_bindings_iff hleft, mem_bindings_iff hright,
        h.binding?_iff]
  · rw [mem_deferred_iff hconclude, mem_deferred_iff hconclude', mem_deferred_iff hconclude'',
      h.deferred]

/-- If the sessions of both groups come to a solution, nothing fails on the way to where the whole
session has nothing left to do. -/
theorem exists_end (h : Splits G H s₀ a₀ b₀) (hleft : a₀.solve.2 = .ok left)
    (hright : b₀.solve.2 = .ok right) (hs : ¬ s₀.solve.2.Capped) :
    ∃ s, Turns s₀ s ∧ s.next? = none := by
  obtain ⟨hturns, hend, -⟩ := turns_of_solve_ok hleft
  obtain ⟨hturns', hend', -⟩ := turns_of_solve_ok hright
  obtain ⟨s, hrun, ⟨hnext, -⟩ | ⟨k, r, rest, hnext, heq⟩ | ⟨k, r, rest, e, hnext, hfailure, -⟩⟩ :=
    run_cases (s₀.config.budget s₀.entries.length) s₀
  · exact ⟨s, hrun, hnext⟩
  · obtain ⟨queue, rfl, hentry, -⟩ := next?_eq_some hnext
    rw [Session.solve, heq] at hs
    exact absurd (capped_stuckErrors (List.mem_of_getElem? hentry)) hs
  · obtain ⟨a, b, ha, hb, hsplits⟩ := h.turns hrun
    obtain ⟨n, rest', hnext', hjoint⟩ | ⟨n, rest', hnext', hjoint⟩ := hsplits.next hnext
    · have hnone := failure_eq_none_of_end ha hturns hend hnext'
      rw [← hjoint.failure, hfailure] at hnone
      cases hnone
    · have hnone := failure_eq_none_of_end hb hturns' hend' hnext'
      rw [← hjoint.failure, hfailure] at hnone
      cases hnone

/-- Unless a budget is used up, a session comes to a solution if and only if those of both groups
do, and its solution joins theirs. -/
theorem solve (h : Splits G H s₀ a₀ b₀) (hs₀ : s₀.Untouched) (ha₀ : a₀.Untouched)
    (hb₀ : b₀.Untouched) (hs : ¬ s₀.solve.2.Capped) (ha : ¬ a₀.solve.2.Capped)
    (hb : ¬ b₀.solve.2.Capped) :
    ((∃ sol, s₀.solve.2 = .ok sol) ↔
      (∃ left, a₀.solve.2 = .ok left) ∧ ∃ right, b₀.solve.2 = .ok right) ∧
    ∀ sol left right, s₀.solve.2 = .ok sol → a₀.solve.2 = .ok left → b₀.solve.2 = .ok right →
      sol.Joins left right := by
  have harrive : ∀ {s}, Turns s₀ s → s.next? = none → ∃ a b, Splits G H s a b ∧ Turns a₀ a ∧
      Turns b₀ b ∧ s₀.solve.2 = s.finish ∧ a₀.solve.2 = a.finish ∧ b₀.solve.2 = b.finish := by
    intro s hturns hend
    obtain ⟨a, b, hturnsLeft, hturnsRight, hsplits⟩ := h.turns hturns
    obtain ⟨hendLeft, hendRight⟩ := hsplits.next?_eq_none_iff.mp hend
    exact ⟨a, b, hsplits, hturnsLeft, hturnsRight, solve_of_turns hturns hend hs,
      solve_of_turns hturnsLeft hendLeft ha, solve_of_turns hturnsRight hendRight hb⟩
  have hiff : ∀ {s}, Turns s₀ s → s.next? = none → ((∃ sol, s₀.solve.2 = .ok sol) ↔
      (∃ left, a₀.solve.2 = .ok left) ∧ ∃ right, b₀.solve.2 = .ok right) := by
    intro s hturns hend
    obtain ⟨a, b, hsplits, -, -, heq, heqLeft, heqRight⟩ := harrive hturns hend
    rw [heq, heqLeft, heqRight]
    exact hsplits.finish_ok_iff
  refine ⟨⟨fun hok => ?_, fun hok => ?_⟩, fun sol left right hsol hleft hright => ?_⟩
  · obtain ⟨hturns, hend, -⟩ := turns_of_solve_ok hok.choose_spec
    exact (hiff hturns hend).mp hok
  · obtain ⟨⟨left, hleft⟩, right, hright⟩ := hok
    obtain ⟨s, hturns, hend⟩ := h.exists_end hleft hright hs
    exact (hiff hturns hend).mpr ⟨⟨left, hleft⟩, right, hright⟩
  · obtain ⟨hturns, hend, -⟩ := turns_of_solve_ok hsol
    obtain ⟨a, b, hsplits, hturnsLeft, hturnsRight, heq, heqLeft, heqRight⟩ := harrive hturns hend
    have hconclude := conclude_of_finish (heq.symm.trans hsol)
    have hconclude' := conclude_of_finish (heqLeft.symm.trans hleft)
    have hconclude'' := conclude_of_finish (heqRight.symm.trans hright)
    exact hsplits.joins (reports_of_turns hs₀ hturns hconclude)
      (reports_of_turns ha₀ hturnsLeft hconclude') (reports_of_turns hb₀ hturnsRight hconclude'')
      hconclude hconclude' hconclude''

end Splits

/-- Groups of relations that share no placeholder do not interact: however they are interleaved, a
session of both comes to a solution if and only if the sessions of each do, and its solution joins
theirs. -/
theorem solve_interleaved {globals : Globals} (hclosed : globals.Closed) (config : Config)
    (ranges : List (SizeVar × Range)) {as bs cs : List Relation} (h : Interleaves as bs cs)
    (hrule : ∀ r ∈ cs, r.rule ∈ Rule.builtins)
    (hapart : ∀ r ∈ as, ∀ r' ∈ bs, ∀ i ∈ r.args.flatMap Ty.ids, i ∉ r'.args.flatMap Ty.ids) :
    let setup := ranges.map fun b => Setup.range b.1 b.2
    let whole := (arranged globals config setup cs).solve.2
    let left := (arranged globals config setup as).solve.2
    let right := (arranged globals config setup bs).solve.2
    ¬ whole.Capped → ¬ left.Capped → ¬ right.Capped →
      ((∃ sol, whole = .ok sol) ↔ (∃ solLeft, left = .ok solLeft) ∧
        ∃ solRight, right = .ok solRight) ∧
      ∀ sol solLeft solRight, whole = .ok sol → left = .ok solLeft → right = .ok solRight →
        sol.Joins solLeft solRight := by
  intro setup whole left right hwhole hleft hright
  obtain ⟨G, H, hsplits⟩ := exists_splits_arranged hclosed config ranges h hrule hapart
  exact hsplits.solve (untouched_prepared _ _ _) (untouched_prepared _ _ _)
    (untouched_prepared _ _ _) hwhole hleft hright

/-- In each group a sum waits for its input, and is woken by the relation that provides it. -/
theorem solve_interleaved_woken :
    let vector (n : SizeVar) : Ty := .tensor ⟨[.var n], .float 32⟩
    let sum (id out : UInt32) (n : SizeVar) : Relation :=
      ⟨.elemwise, [.hole ⟨id, .type⟩, vector n, .hole ⟨out, .type⟩], 2, .empty, .dummy, Nat.le_succ 2⟩
    let input (id : UInt32) (n : SizeVar) : Relation :=
      ⟨.identity, [vector n, .hole ⟨id, .type⟩], 1, .empty, .dummy, Nat.le_succ 1⟩
    let n : SizeVar := ⟨0, "n"⟩
    let m : SizeVar := ⟨1, "m"⟩
    let k : SizeVar := ⟨2, "k"⟩
    let as := [sum 0 1 m, input 0 n]
    let bs := [sum 2 3 k, input 2 n]
    let cs := [sum 0 1 m, sum 2 3 k, input 2 n, input 0 n]
    let left : Solution := ⟨[(0, vector n), (1, vector n)], [.eq (.var n) (.var m)]⟩
    let right : Solution := ⟨[(2, vector n), (3, vector n)], [.eq (.var n) (.var k)]⟩
    let sol : Solution := ⟨left.bindings ++ right.bindings, left.deferred ++ right.deferred⟩
    (arranged .empty .default [] cs).solve.2 = .ok sol ∧
      (arranged .empty .default [] as).solve.2 = .ok left ∧
      (arranged .empty .default [] bs).solve.2 = .ok right ∧ sol.Joins left right := by
  intro vector sum input n m k as bs cs left right sol
  have hwhole : (arranged .empty .default [] cs).solve.2 = .ok sol := by cbv
  have hleft : (arranged .empty .default [] as).solve.2 = .ok left := by cbv
  have hright : (arranged .empty .default [] bs).solve.2 = .ok right := by cbv
  have hinterleaves : Interleaves as bs cs := .left (.right (.right (.left .nil)))
  have hrule : ∀ r ∈ cs, r.rule ∈ Rule.builtins := by
    simp [cs, sum, input, Rule.builtins]
  have hlow : ∀ r ∈ as, ∀ i ∈ r.args.flatMap Ty.ids, i < 2 := by
    simp [as, sum, input, vector, Ty.ids, occurrences, forall_and]
  have hhigh : ∀ r ∈ bs, ∀ i ∈ r.args.flatMap Ty.ids, ¬ i < 2 := by
    simp [bs, sum, input, vector, Ty.ids, occurrences, forall_and]
  have hapart : ∀ r ∈ as, ∀ r' ∈ bs, ∀ i ∈ r.args.flatMap Ty.ids, i ∉ r'.args.flatMap Ty.ids :=
    fun r hr r' hr' i hi hi' => hhigh r' hr' i hi' (hlow r hr i hi)
  have hsolve := solve_interleaved Globals.closed_empty .default [] hinterleaves hrule
    hapart (hwhole ▸ not_capped_ok sol) (hleft ▸ not_capped_ok left) (hright ▸ not_capped_ok right)
  exact ⟨hwhole, hleft, hright, hsolve.2 sol left right hwhole hleft hright⟩

end Session

end TensorTyping
