import TensorTyping.Proofs.Broadcast.Shapes
import TensorTyping.Proofs.Reshape
import TensorTyping.Proofs.Session.Questions

namespace TensorTyping

/-- Tensors of different element types or ranks cannot be made equal. -/
theorem Site.unify_mismatch {site : Site} {s : Progress} {a b : TensorType}
    (h : a.dtype ≠ b.dtype ∨ a.rank ≠ b.rank) :
    ∃ e, site.unify s (.tensor a) (.tensor b) = .error e := by
  have hcompare : ∃ e, site.compareTensors s a b = .error e := by
    rw [compareTensors]
    split
    · exact ⟨_, rfl⟩
    · rename_i hdtype
      rw [if_pos (h.resolve_left hdtype)]
      exact ⟨_, rfl⟩
  obtain ⟨e, he⟩ := hcompare
  have hstep : site.step s (.tensor a) (.tensor b) = .error e := by
    rw [step, he]
    rfl
  have hunify : site.unify s (.tensor a) (.tensor b) = site.solve s [(.tensor a, .tensor b)] := rfl
  exact ⟨e, by rw [hunify, solve_cons, hstep]⟩

namespace Resolution

variable {next : Resolution}

/-- It is resolved in the end, or something has failed. -/
def Committed (r : Resolution) : Prop := ∀ s : Session,
  (r.run Session.reporter s).resolved = false → (r.run Session.reporter s).state.failure ≠ none

theorem committed_conclude (dst src : Ty) : (conclude dst src).Committed := fun _ h => nomatch h

theorem Committed.assign (h : next.Committed) (dst src : Ty) :
    (Resolution.assign dst src next).Committed :=
  fun s => h (s.assign dst src)

theorem Committed.requireAll (h : next.Committed) (conds : List Cond) :
    (requireAll conds next).Committed := by
  intro s hresolved
  obtain ⟨s', -, heq⟩ | ⟨before, c, after, s', -, -, hno, heq⟩ := Session.run_requireAll s conds next
  · rw [heq] at hresolved ⊢
    exact h s' hresolved
  · rw [heq]
    exact Session.failure_of_no hno

theorem Committed.require (h : next.Committed) (cond : Cond) : (require cond next).Committed :=
  h.requireAll [cond]

theorem committed_assert_done (cond : Cond) : (assert cond done).Committed := by
  intro s hresolved
  rw [Session.run_assert] at hresolved ⊢
  exact Session.failure_of_no hresolved

/-- A condition that never holds ends a rule with a failure. -/
theorem committed_of_refuted {cond : Cond} (h : ∀ known : Ranges, known.prove cond = .refuted)
    (next : Resolution) : (require cond next).Committed := by
  intro s _
  have hno := Session.no_of_refuted (h s.known)
  rw [require, Session.run_assert, hno]
  exact Session.failure_of_no hno

theorem committed_of_mismatch {a b : TensorType} (h : a.dtype ≠ b.dtype ∨ a.rank ≠ b.rank) :
    (Resolution.assign (.tensor a) (.tensor b) (done false)).Committed := by
  intro s _
  obtain ⟨e, he⟩ : ∃ e, s.site.unify ⟨s.classes, s.deferred, []⟩ (.tensor a) (.tensor b) = .error e :=
    Site.unify_mismatch h
  by_cases hnone : s.failure = none
  · have hassign : s.assign (.tensor a) (.tensor b) = s.fail e := Session.assign_of_error hnone he
    have hfailure := Session.failure_fail hnone e
    rw [← hassign] at hfailure
    exact fun h => nomatch hfailure.symm.trans h
  · have hassign : s.assign (.tensor a) (.tensor b) = s := Session.assign_of_failed hnone
    exact fun h => hnone (hassign ▸ h)

end Resolution

namespace Rule

open Resolution

variable {next : Resolution}

theorem committed_sameTensors (h : next.Committed) (first : TensorType) (ts : List TensorType) :
    (sameTensors first ts next).Committed := by
  induction ts with
  | nil => exact h
  | cons t ts ih =>
    rw [sameTensors]
    split
    · rename_i hdiffers
      exact committed_of_mismatch (hdiffers.imp Ne.symm Ne.symm)
    · exact ih.requireAll _

/-- A rank is looked at only if it is the one that was asked for. -/
theorem committed_requireRank {t : TensorType} {rank : Nat} (hrank : rank < 9223372036854775807)
    (h : t.rank = rank → next.Committed) : (requireRank t rank next).Committed := by
  by_cases heq : t.rank = rank
  · rw [requireRank, if_pos heq]
    exact (h heq).require _
  · refine committed_of_refuted (fun known => ?_) _
    obtain ⟨m, hm, hmvalue⟩ := count_eq t.rank
    obtain ⟨n, hn, hnvalue⟩ := count_eq rank
    have hne : m.toInt ≠ n.toInt := by omega
    rw [hm, hn, Ranges.prove, Ranges.compare_const (by omega) (by omega)]
    simp [Comparison.holds, Verdict.ofBool, hne]

/-- What a tuple index is asked for. -/
def indexInRange (index : Word) (n : Nat) : Cond :=
  .and (.le (.const 0) (.const index)) (.lt (.const index) (count n))

/-- An index that is not the least word and not that of a field is out of range. -/
theorem prove_indexInRange {known : Ranges} {index : Word} {n : Nat}
    (hleast : index.toInt ≠ -9223372036854775808) (h : index < 0 ∨ n ≤ index.toInt.toNat) :
    known.prove (indexInRange index n) = .refuted := by
  have hlo := Int64.le_toInt index
  have hhi := Int64.toInt_lt index
  obtain ⟨w, hw, hvalue⟩ := count_eq n
  have hzero : (0 : Word).toInt = 0 := Int64.toInt_zero
  rw [indexInRange, hw]
  have hlow : known.compare .le (.const 0) (.const index) = .ofBool (decide (0 ≤ index.toInt)) :=
    Ranges.compare_const_of_fits hleast (by omega) (by omega) .le
  by_cases hneg : index.toInt < 0
  · rw [Ranges.prove, Ranges.prove, hlow, decide_eq_false (by omega)]
    cases known.prove (.lt (.const index) (.const w)) <;> rfl
  · have hhigh : n ≤ index.toInt.toNat :=
      h.resolve_left fun h => hneg (by rwa [Int64.lt_iff_toInt_lt, hzero] at h)
    have hcount : known.compare .lt (.const index) (.const w) =
        .ofBool (decide (index.toInt < w.toInt)) :=
      Ranges.compare_const (by omega) (by omega) .lt
    rw [Ranges.prove, Ranges.prove, Ranges.prove, hcount, decide_eq_false (by omega)]
    cases known.compare .le (.const 0) (.const index) <;> rfl

/-- A tuple index that is the least word asks a question and gives up. -/
structure LeastIndex (rule : Rule) (q : Query) (cond : Cond) : Prop where
  rule : rule = tupleGet
  index : Attrs.int? q.attrs "index" = some (-9223372036854775808)
  input : ∃ fields out, q.singleOutput? = some ([.tuple fields], out) ∧
    cond = indexInRange (-9223372036854775808) fields.length

theorem committed_tupleGet (q : Query) : tupleGet.resolve q = done false ∨
    (tupleGet.resolve q).Committed ∨
    ∃ cond, LeastIndex tupleGet q cond ∧ tupleGet.resolve q = require cond (done false) := by
  unfold tupleGet
  dsimp only
  split
  · rename_i fields out index hq hindex
    by_cases hleast : index.toInt = -9223372036854775808
    · obtain rfl : index = -9223372036854775808 := Int64.toInt_inj.mp hleast
      exact Or.inr (Or.inr ⟨_, ⟨rfl, hindex, fields, out, hq, rfl⟩, rfl⟩)
    · refine Or.inr (Or.inl ?_)
      by_cases hrange : index < 0 ∨ fields.length ≤ index.toInt.toNat
      · exact committed_of_refuted (fun known => prove_indexInRange hleast hrange) _
      · obtain ⟨hneg, hlt⟩ := not_or.mp hrange
        rw [if_neg hneg, List.getElem?_eq_getElem (Nat.lt_of_not_le hlt)]
        exact (committed_conclude _ _).require _
  · exact Or.inl rfl

theorem committed_parameters (h : next.Committed) (args : List (Ty × Ty)) :
    (args.foldr (fun a next => assign a.2 a.1 next) next).Committed := by
  induction args with
  | nil => exact h
  | cons a args ih => exact ih.assign a.2 a.1

theorem committed_identity (q : Query) :
    identity.resolve q = done false ∨ (identity.resolve q).Committed := by
  unfold identity
  dsimp only
  split
  · exact Or.inr (committed_conclude _ _)
  · exact Or.inl rfl

theorem committed_makeTuple (q : Query) :
    makeTuple.resolve q = done false ∨ (makeTuple.resolve q).Committed := by
  unfold makeTuple
  dsimp only
  split
  · exact Or.inr (committed_conclude _ _)
  · exact Or.inl rfl

theorem committed_refNew (q : Query) :
    refNew.resolve q = done false ∨ (refNew.resolve q).Committed := by
  unfold refNew
  dsimp only
  split
  · exact Or.inr (committed_conclude _ _)
  · exact Or.inl rfl

theorem committed_elemwise (q : Query) :
    elemwise.resolve q = done false ∨ (elemwise.resolve q).Committed := by
  unfold elemwise
  dsimp only
  split
  · split
    · exact Or.inr (committed_sameTensors (committed_conclude _ _) _ _)
    · exact Or.inl rfl
  · exact Or.inl rfl

theorem committed_broadcast (q : Query) :
    broadcast.resolve q = done false ∨ (broadcast.resolve q).Committed := by
  obtain hdone | ⟨a, b, hdtype, hresolve⟩ | ⟨a, b, out, -, -, hresolve⟩ := resolve_broadcast_cases q
  · exact Or.inl hdone
  · rw [hresolve]
    exact Or.inr (committed_of_mismatch (Or.inl hdtype))
  · rw [hresolve]
    exact Or.inr ((committed_conclude _ _).requireAll _)

theorem committed_matmul (q : Query) :
    matmul.resolve q = done false ∨ (matmul.resolve q).Committed := by
  unfold matmul
  dsimp only
  split
  · rename_i a b out _
    refine Or.inr (committed_requireRank (by decide) fun ha => committed_requireRank (by decide) fun hb => ?_)
    split
    · rename_i hdtype
      exact committed_of_mismatch (Or.inl hdtype)
    · obtain ⟨m, k, ha⟩ := List.length_eq_two.mp ha
      obtain ⟨k', n, hb⟩ := List.length_eq_two.mp hb
      rw [ha, hb]
      exact (committed_conclude _ _).require _
  · exact Or.inl rfl

theorem committed_reshape (q : Query) :
    reshape.resolve q = done false ∨ (reshape.resolve q).Committed := by
  obtain hdone | ⟨t, out, newShape, -, -, hresolve⟩ := resolve_reshape_cases q
  · exact Or.inl hdone
  · rw [hresolve]
    exact Or.inr ((committed_conclude _ _).requireAll _)

theorem committed_refRead (q : Query) :
    refRead.resolve q = done false ∨ (refRead.resolve q).Committed := by
  unfold refRead
  dsimp only
  split
  · exact Or.inr (committed_conclude _ _)
  · exact Or.inr (committed_conclude _ _)
  · exact Or.inl rfl

theorem committed_adtCall (q : Query) :
    adtCall.resolve q = done false ∨ (adtCall.resolve q).Committed := by
  unfold adtCall
  dsimp only
  split
  · split
    · exact Or.inr (committed_assert_done _)
    · exact Or.inl rfl
  · exact Or.inl rfl

theorem committed_callGlobal (q : Query) :
    callGlobal.resolve q = done false ∨ (callGlobal.resolve q).Committed := by
  unfold callGlobal
  dsimp only
  split
  · split
    · exact Or.inl rfl
    · exact Or.inr ((committed_parameters (committed_conclude _ _) _).require _)
  · exact Or.inl rfl

/-- A built-in rule does nothing at all, or is resolved or fails, or is given the least word as a tuple
index. -/
theorem committed_of_mem_builtins {rule : Rule} (h : rule ∈ builtins) (q : Query) :
    rule.resolve q = done false ∨ (rule.resolve q).Committed ∨
      ∃ cond, LeastIndex rule q cond ∧ rule.resolve q = require cond (done false) := by
  simp only [builtins, List.mem_cons, List.not_mem_nil, or_false] at h
  obtain rfl | rfl | rfl | rfl | rfl | rfl | rfl | rfl | rfl | rfl | rfl := h
  · exact (committed_identity q).imp_right Or.inl
  · exact (committed_elemwise q).imp_right Or.inl
  · exact (committed_broadcast q).imp_right Or.inl
  · exact (committed_matmul q).imp_right Or.inl
  · exact (committed_reshape q).imp_right Or.inl
  · exact committed_tupleGet q
  · exact (committed_makeTuple q).imp_right Or.inl
  · exact (committed_refNew q).imp_right Or.inl
  · exact (committed_refRead q).imp_right Or.inl
  · exact (committed_adtCall q).imp_right Or.inl
  · exact (committed_callGlobal q).imp_right Or.inl

end Rule

namespace Session

variable {s : Session} {r : Relation}

/-- A session in which a relation was run that is to be looked at again. -/
def visited (s : Session) (r : Relation) (deferred : List Cond) : Session :=
  { s with
    location := r.span
    deferred
    trace := s.trace ++ [⟨r.rule.name, r.args.map s.resolve, (s.outcome r).reports, false⟩] }

theorem invoke_of_unresolved (number : Nat) {deferred : List Cond}
    (hresolved : (s.outcome r).resolved = false)
    (hstate : (s.outcome r).state = { s with location := r.span, deferred }) :
    s.invoke number r = s.visited r deferred := by
  rw [invoke_eq, hresolved, hstate]
  rfl

/-- A relation of a built-in rule that is run without being resolved or failing leaves everything but the
location and the trace as it was: no class is bound or joined, nothing is queued, and no condition is put
off. Only a tuple index that is the least word puts off that it is in range. -/
theorem invoke_unresolved (hrule : r.rule ∈ Rule.builtins) (number : Nat)
    (hresolved : (s.outcome r).resolved = false) (hnone : (s.invoke number r).failure = none) :
    ∃ deferred, s.invoke number r = s.visited r deferred ∧ (deferred = s.deferred ∨
      ∃ cond, Rule.LeastIndex r.rule (s.query r) cond ∧ deferred = s.deferred ++ [cond]) := by
  have hfailure : (s.outcome r).state.failure = none := by
    rw [← (invoke_fields s number r).2.2.2.1, hnone]
  obtain hdone | hcommitted | ⟨cond, hleast, hresolve⟩ :=
    Rule.committed_of_mem_builtins hrule (s.query r)
  · have hstate : (s.outcome r).state = { s with location := r.span } := by
      rw [outcome, hdone]
      rfl
    exact ⟨s.deferred, invoke_of_unresolved number hresolved hstate, Or.inl rfl⟩
  · exact absurd hfailure (hcommitted _ hresolved)
  · have houtcome : (s.outcome r).state = (assert cond { s with location := r.span }).2 := by
      rw [outcome, hresolve, Resolution.require, run_assert]
      cases (assert cond { s with location := r.span }).1 <;> rfl
    obtain ⟨deferred, hstate, hdeferred⟩ := assert_of_yes (s := { s with location := r.span }) (c := cond)
      (Bool.eq_true_of_not_eq_false fun hno => failure_of_no hno (houtcome ▸ hfailure))
    exact ⟨deferred, invoke_of_unresolved number hresolved (houtcome.trans hstate),
      hdeferred.imp_right fun h => ⟨cond, hleast, h⟩⟩

/-- A product of a matrix and something that is not known yet. -/
theorem invoke_unresolved_matmul :
    let a : TensorType := ⟨[.const 2, .const 3], .float 32⟩
    let r : Relation := ⟨.matmul, [.tensor a, .hole ⟨0, .type⟩, .hole ⟨1, .type⟩], 2, .empty, ⟨4, 9⟩,
      Nat.le_succ 2⟩
    let s : Session := [Kind.type, .type].foldl (fun s kind => (s.fresh kind).2) (start .empty .default)
    r.rule ∈ Rule.builtins ∧ (s.outcome r).resolved = false ∧ (s.invoke 0 r).failure = none ∧
      s.invoke 0 r = s.visited r [] := by
  intro a r s
  have hrule : r.rule ∈ Rule.builtins := by simp [Rule.builtins, r]
  have hresolved : (s.outcome r).resolved = false := by cbv
  have hnone : (s.invoke 0 r).failure = none := by cbv
  obtain ⟨deferred, hinvoke, hdeferred | ⟨cond, hleast, -⟩⟩ := invoke_unresolved hrule 0 hresolved hnone
  · rw [hdeferred] at hinvoke
    exact ⟨hrule, hresolved, hnone, hinvoke⟩
  · have hname : "matmul" = "tuple_get" := congrArg Rule.name hleast.rule
    exact absurd hname (by decide)

/-- The least word is not an index of any tuple, but that it is in range is put off. -/
theorem invoke_unresolved_ne :
    let least : Word := -9223372036854775808
    let r : Relation := ⟨.tupleGet, [.tuple [.unit], .hole ⟨0, .type⟩], 1,
      .ofList [("index", .int least)], .dummy, Nat.le_succ 1⟩
    let s : Session := ((start .empty .default).fresh .type).2.add r
    let rest := { s with queue := [] }
    s.next? = some (0, r, rest) ∧ (rest.outcome r).resolved = false ∧
      (rest.invoke 0 r).failure = none ∧ rest.deferred = [] ∧ (rest.invoke 0 r).deferred =
        [.and (.le (.const 0) (.const least)) (.lt (.const least) (.const 1))] := by
  intro least r s rest
  exact ⟨rfl, by cbv, by cbv, rfl, by cbv⟩

end Session

end TensorTyping
