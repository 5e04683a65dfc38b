import TensorTyping.Proofs.Ty.Fill
import TensorTyping.Rule.Builtin

namespace TensorTyping

open Ty Resolution

/-- No signature mentions a placeholder. -/
def Globals.Closed (g : Globals) : Prop := ∀ name s, g.function? name = some s →
  (∀ t ∈ s.params, t.isComplete = true) ∧ s.result.isComplete = true

theorem Globals.closed_empty : Globals.empty.Closed := nofun

/-- A placeholder of a signature. -/
def Globals.Mentions (g : Globals) (p : Placeholder) : Prop := ∃ name s, g.function? name = some s ∧
  ((∃ t ∈ s.params, p ∈ t.occurrences) ∨ p ∈ s.result.occurrences)

theorem Globals.Closed.not_mentions {g : Globals} (h : g.Closed) (p : Placeholder) :
    ¬ g.Mentions p := by
  rintro ⟨name, s, hs, ⟨t, ht, hp⟩ | hp⟩
  · rw [(isComplete_iff t).mp ((h name s hs).1 t ht)] at hp
    cases hp
  · rw [(isComplete_iff s.result).mp (h name s hs).2] at hp
    cases hp

/-- A placeholder of the arguments. -/
def Query.Mentions (q : Query) (p : Placeholder) : Prop := ∃ t ∈ q.args, p ∈ t.occurrences

theorem Query.args_of_singleOutput? {q : Query} {xs : List Ty} {out : Ty}
    (h : q.singleOutput? = some (xs, out)) : q.args = xs ++ [out] := by
  unfold singleOutput? at h
  split at h
  · rename_i hdrop
    cases h
    rw [← hdrop, List.take_append_drop]
  · cases h

theorem Query.numInputs_of_singleOutput? {q : Query} {xs : List Ty} {out : Ty}
    (h : q.singleOutput? = some (xs, out)) : q.numInputs = xs.length := by
  unfold singleOutput? at h
  split at h
  · rename_i hdrop
    cases h
    have hlength := congrArg List.length hdrop
    rw [List.length_drop, List.length_singleton] at hlength
    rw [List.length_take]
    omega
  · cases h

/-- A use has exactly one output, or its rule finds none. -/
theorem Query.singleOutput?_cases (q : Query) :
    (q.args.length ≠ q.numInputs + 1 ∧ q.singleOutput? = none) ∨
      ∃ xs out, q.args = xs ++ [out] ∧ q.numInputs = xs.length ∧ q.singleOutput? = some (xs, out) := by
  cases h : q.singleOutput? with
  | some found =>
    exact Or.inr ⟨found.1, found.2, args_of_singleOutput? h, numInputs_of_singleOutput? h, rfl⟩
  | none =>
    refine Or.inl ⟨fun hlength => ?_, rfl⟩
    obtain ⟨out, hout⟩ : ∃ out, q.args.drop q.numInputs = [out] :=
      List.length_eq_one_iff.mp (by rw [List.length_drop]; omega)
    rw [singleOutput?, hout] at h
    cases h

/-- A use has one output and a number of inputs, or its rule finds something else. -/
theorem Query.inputs_cases (q : Query) (n : Nat) :
    ((q.numInputs ≠ n ∨ q.args.length ≠ n + 1) ∧
      ∀ xs out, q.singleOutput? = some (xs, out) → xs.length ≠ n) ∨
    ∃ xs out, xs.length = n ∧ q.args = xs ++ [out] ∧ q.numInputs = n ∧
      q.singleOutput? = some (xs, out) := by
  obtain ⟨hlength, hnone⟩ | ⟨xs, out, hargs, hinputs, hq⟩ := q.singleOutput?_cases
  · exact Or.inl ⟨by omega, fun xs out h => by rw [hnone] at h; cases h⟩
  · by_cases hn : xs.length = n
    · exact Or.inr ⟨xs, out, hn, hargs, hinputs.trans hn, hq⟩
    · refine Or.inl ⟨Or.inl (hinputs ▸ hn), fun xs' out' h => ?_⟩
      rw [hq] at h
      cases h
      exact hn

theorem Query.mentions_iff {q : Query} {xs : List Ty} {out : Ty}
    (h : q.singleOutput? = some (xs, out)) {p : Placeholder} :
    q.Mentions p ↔ (∃ t ∈ xs, p ∈ t.occurrences) ∨ p ∈ out.occurrences := by
  simp [Mentions, args_of_singleOutput? h, or_and_right, exists_or]

namespace Resolution

/-- Whatever the answers are, all types that are declared equal hold only placeholders of a kind. -/
def Within (P : Placeholder → Prop) : Resolution → Prop
  | done _ => True
  | assign dst src next =>
    (∀ p ∈ dst.occurrences, P p) ∧ (∀ p ∈ src.occurrences, P p) ∧ next.Within P
  | assert _ next => ∀ answer, (next answer).Within P
  | locate _ next => next.Within P

theorem Within.mono {P Q : Placeholder → Prop} {r : Resolution} (h : r.Within P)
    (hPQ : ∀ p, P p → Q p) : r.Within Q := by
  induction r with
  | done resolved => trivial
  | assign dst src next ih =>
    exact ⟨fun p hp => hPQ p (h.1 p hp), fun p hp => hPQ p (h.2.1 p hp), ih h.2.2⟩
  | assert cond next ih => exact fun answer => ih answer (h answer)
  | locate span next ih => exact ih h

/-- Whatever the answers are, of two types that are declared equal one holds only placeholders of a
kind. -/
def Anchored (P : Placeholder → Prop) : Resolution → Prop
  | done _ => True
  | assign dst src next =>
    ((∀ p ∈ dst.occurrences, P p) ∨ ∀ p ∈ src.occurrences, P p) ∧ next.Anchored P
  | assert _ next => ∀ answer, (next answer).Anchored P
  | locate _ next => next.Anchored P

theorem Within.anchored {P : Placeholder → Prop} {r : Resolution} (h : r.Within P) :
    r.Anchored P := by
  induction r with
  | done resolved => trivial
  | assign dst src next ih => exact ⟨Or.inl h.1, ih h.2.2⟩
  | assert cond next ih => exact fun answer => ih answer (h answer)
  | locate span next ih => exact ih h

theorem Anchored.mono {P Q : Placeholder → Prop} {r : Resolution} (h : r.Anchored P)
    (hPQ : ∀ p, P p → Q p) : r.Anchored Q := by
  induction r with
  | done resolved => trivial
  | assign dst src next ih =>
    exact ⟨h.1.imp (fun h p hp => hPQ p (h p hp)) fun h p hp => hPQ p (h p hp), ih h.2⟩
  | assert cond next ih => exact fun answer => ih answer (h answer)
  | locate span next ih => exact ih h

section Within

variable {P : Placeholder → Prop} {next : Resolution}

theorem within_done (resolved : Bool) : (done resolved).Within P := trivial

theorem Within.require (h : next.Within P) (cond : Cond) : (require cond next).Within P := by
  intro answer
  cases answer
  · exact within_done false
  · exact h

theorem Within.requireAll (h : next.Within P) (conds : List Cond) :
    (requireAll conds next).Within P := by
  induction conds with
  | nil => exact h
  | cons cond conds ih => exact Within.require ih cond

theorem within_conclude {dst src : Ty} (hdst : ∀ p ∈ dst.occurrences, P p)
    (hsrc : ∀ p ∈ src.occurrences, P p) : (conclude dst src).Within P :=
  ⟨hdst, hsrc, within_done true⟩

end Within

end Resolution

namespace Rule

/-- A count is a literal that is not negative, and exact as far as words go. -/
theorem count_eq (n : Nat) :
    ∃ w : Word, count n = .const w ∧ w.toInt = min (n : Int) 9223372036854775807 := by
  refine ⟨_, rfl, ?_⟩
  cases h : Word.ofInt? n with
  | none =>
    have hlarge := Word.ofInt?_eq_none_iff.mp h
    have hmax : (9223372036854775807 : Word).toInt = 9223372036854775807 := rfl
    rw [Option.getD_none, hmax]
    omega
  | some w =>
    have hw := Word.ofInt?_eq_some_iff.mp h
    have hlt := Int64.toInt_lt w
    rw [Option.getD_some]
    omega

/-- A rule mentions only placeholders of its arguments. -/
def Local (rule : Rule) : Prop :=
  ∀ q : Query, q.globals.Closed → (rule.resolve q).Within q.Mentions

section singleOutput

variable {q : Query} {xs : List Ty} {out : Ty} (h : q.singleOutput? = some (xs, out))

include h

theorem mentions_out : ∀ p ∈ out.occurrences, q.Mentions p := fun _ hp =>
  (Query.mentions_iff h).mpr (Or.inr hp)

theorem mentions_inputs {t : Ty} (ht : t ∈ xs) : ∀ p ∈ t.occurrences, q.Mentions p := fun _ hp =>
  (Query.mentions_iff h).mpr (Or.inl ⟨t, ht, hp⟩)

end singleOutput

theorem occurrences_tensor {P : Placeholder → Prop} (t : TensorType) :
    ∀ p ∈ (tensor t).occurrences, P p := nofun

theorem local_identity : identity.Local := by
  intro q _
  simp only [identity]
  split
  · rename_i hq
    exact within_conclude (mentions_out hq) (mentions_inputs hq List.mem_cons_self)
  · exact within_done false

theorem local_makeTuple : makeTuple.Local := by
  intro q _
  simp only [makeTuple]
  split
  · rename_i hq
    refine within_conclude (mentions_out hq) fun p hp => (Query.mentions_iff hq).mpr (Or.inl ?_)
    simpa using hp
  · exact within_done false

theorem local_refNew : refNew.Local := by
  intro q _
  simp only [refNew]
  split
  · rename_i x out hq
    have hx : ∀ p ∈ x.occurrences, q.Mentions p := mentions_inputs hq List.mem_cons_self
    exact within_conclude (mentions_out hq) hx
  · exact within_done false

theorem local_refRead : refRead.Local := by
  intro q _
  simp only [refRead]
  split
  · rename_i value out hq
    have hvalue : ∀ p ∈ value.occurrences, q.Mentions p :=
      mentions_inputs hq (t := ref value) List.mem_cons_self
    exact within_conclude (mentions_out hq) hvalue
  · rename_i p out hq
    have hout : ∀ p ∈ out.occurrences, q.Mentions p := mentions_out hq
    exact within_conclude (mentions_inputs hq List.mem_cons_self) hout
  · exact within_done false

section tensor

variable {P : Placeholder → Prop} {next : Resolution}

theorem within_differentElements (t expected : TensorType) :
    (differentElements t expected).Within P :=
  ⟨occurrences_tensor _, occurrences_tensor _, within_done false⟩

theorem within_sameTensors (h : next.Within P) (first : TensorType) (ts : List TensorType) :
    (sameTensors first ts next).Within P := by
  induction ts with
  | nil => exact h
  | cons t ts ih =>
    rw [sameTensors]
    split
    · exact ⟨occurrences_tensor _, occurrences_tensor _, within_done false⟩
    · exact ih.requireAll _

theorem within_joinShapes {next : List Dim → Resolution} (h : ∀ shape, (next shape).Within P)
    (axes : List (Dim × Dim)) : (joinShapes axes next).Within P := by
  induction axes generalizing next with
  | nil => exact h []
  | cons axis axes ih =>
    rw [joinShapes]
    split
    · exact ih fun _ => h _
    · split
      · exact ih fun _ => h _
      · exact (ih fun _ => h _).require _

theorem within_requireRank (h : next.Within P) (t : TensorType) (rank : Nat) :
    (requireRank t rank next).Within P := by
  refine Within.require ?_ _
  split
  · exact h
  · exact within_done false

theorem local_elemwise : elemwise.Local := by
  intro q _
  simp only [elemwise]
  split
  · rename_i hq
    split
    · exact within_sameTensors
        (within_conclude (mentions_out hq) (mentions_inputs hq List.mem_cons_self)) _ _
    · exact within_done false
  · exact within_done false

theorem local_broadcast : broadcast.Local := by
  intro q _
  simp only [broadcast]
  split
  · rename_i hq
    split
    · exact within_differentElements _ _
    · exact within_joinShapes (fun _ => within_conclude (mentions_out hq) (occurrences_tensor _)) _
  · exact within_done false

theorem local_matmul : matmul.Local := by
  intro q _
  simp only [matmul]
  split
  · rename_i hq
    refine within_requireRank (within_requireRank ?_ _ _) _ _
    split
    · exact within_differentElements _ _
    · split
      · exact (within_conclude (mentions_out hq) (occurrences_tensor _)).require _
      · exact within_done false
  · exact within_done false

theorem local_reshape : reshape.Local := by
  intro q _
  simp only [reshape]
  split
  · rename_i hq _
    refine Within.require (Within.requireAll ?_ _) _
    split
    · refine Within.require (Within.require ?_ _) _
      exact within_conclude (mentions_out hq) (occurrences_tensor _)
    · exact (within_conclude (mentions_out hq) (occurrences_tensor _)).require _
  · exact within_done false

end tensor

theorem local_tupleGet : tupleGet.Local := by
  intro q _
  simp only [tupleGet]
  split
  · rename_i fields out index hq _
    refine Within.require ?_ _
    split
    · rename_i field hfield
      have hmem : field ∈ fields := by
        split at hfield
        · cases hfield
        · exact List.mem_of_getElem? hfield
      refine within_conclude (mentions_out hq) fun p hp => ?_
      refine mentions_inputs hq List.mem_cons_self p ?_
      rw [occurrences_tuple, List.mem_flatMap]
      exact ⟨field, hmem, hp⟩
    · exact within_done false
  · exact within_done false

theorem local_adtCall : adtCall.Local := by
  intro q _
  simp only [adtCall]
  split
  · split
    · exact fun answer => within_done answer
    · exact within_done false
  · exact within_done false

theorem within_parameters {P : Placeholder → Prop} {next : Resolution} (h : next.Within P)
    {params args : List Ty} (hparams : ∀ t ∈ params, ∀ p ∈ t.occurrences, P p)
    (hargs : ∀ t ∈ args, ∀ p ∈ t.occurrences, P p) :
    ((args.zip params).foldr (fun a next => assign a.2 a.1 next) next).Within P := by
  induction args generalizing params with
  | nil => exact h
  | cons t args ih =>
    cases params with
    | nil => exact h
    | cons param params =>
      rw [List.forall_mem_cons] at hparams hargs
      exact ⟨hparams.1, hargs.1, ih hparams.2 hargs.2⟩

/-- A call also mentions the placeholders of the signature that it looks up. -/
theorem within_callGlobal (q : Query) :
    (callGlobal.resolve q).Within fun p => q.Mentions p ∨ q.globals.Mentions p := by
  simp only [callGlobal]
  split
  · rename_i out s hq hs
    obtain ⟨name, -, hname⟩ := Option.bind_eq_some_iff.mp hs
    split
    · exact within_done false
    · refine (within_parameters ?_ (fun t ht p hp => ?_) fun t ht p hp => ?_).require _
      · refine within_conclude (fun p hp => Or.inl (mentions_out hq p hp)) fun p hp => ?_
        exact Or.inr ⟨name, s, hname, Or.inr hp⟩
      · exact Or.inr ⟨name, s, hname, Or.inl ⟨t, ht, hp⟩⟩
      · exact Or.inl ⟨t, ht, hp⟩
  · exact within_done false

theorem anchored_parameters {P : Placeholder → Prop} {next : Resolution} (h : next.Anchored P)
    (params : List Ty) {args : List Ty} (hargs : ∀ t ∈ args, ∀ p ∈ t.occurrences, P p) :
    ((args.zip params).foldr (fun a next => assign a.2 a.1 next) next).Anchored P := by
  induction args generalizing params with
  | nil => exact h
  | cons t args ih =>
    cases params with
    | nil => exact h
    | cons param params =>
      rw [List.forall_mem_cons] at hargs
      exact ⟨Or.inr hargs.1, ih params hargs.2⟩

/-- A call declares what the signature says equal only to its arguments. -/
theorem anchored_callGlobal (q : Query) : (callGlobal.resolve q).Anchored q.Mentions := by
  simp only [callGlobal]
  split
  · rename_i out s hq _
    split
    · trivial
    · intro answer
      cases answer
      · trivial
      · have hconclude : (conclude out s.result).Anchored q.Mentions :=
          ⟨Or.inl (mentions_out hq), trivial⟩
        exact anchored_parameters hconclude s.params fun t ht p hp => ⟨t, ht, hp⟩
  · trivial

theorem local_callGlobal : callGlobal.Local := fun q hclosed =>
  (within_callGlobal q).mono fun p hp => hp.resolve_right (hclosed.not_mentions p)

/-- Only a call looks up signatures. -/
theorem local_or_callGlobal {rule : Rule} (h : rule ∈ builtins) :
    (rule.Local ∧ ∀ q g, rule.resolve { q with globals := { q.globals with functions := g } } =
      rule.resolve q) ∨ rule = callGlobal := by
  simp only [builtins, List.mem_cons, List.not_mem_nil, or_false] at h
  obtain rfl | rfl | rfl | rfl | rfl | rfl | rfl | rfl | rfl | rfl | rfl := h
  · exact Or.inl ⟨local_identity, fun _ _ => rfl⟩
  · exact Or.inl ⟨local_elemwise, fun _ _ => rfl⟩
  · exact Or.inl ⟨local_broadcast, fun _ _ => rfl⟩
  · exact Or.inl ⟨local_matmul, fun _ _ => rfl⟩
  · exact Or.inl ⟨local_reshape, fun _ _ => rfl⟩
  · exact Or.inl ⟨local_tupleGet, fun _ _ => rfl⟩
  · exact Or.inl ⟨local_makeTuple, fun _ _ => rfl⟩
  · exact Or.inl ⟨local_refNew, fun _ _ => rfl⟩
  · exact Or.inl ⟨local_refRead, fun _ _ => rfl⟩
  · exact Or.inl ⟨local_adtCall, fun _ _ => rfl⟩
  · exact Or.inr rfl

theorem local_of_mem_builtins {rule : Rule} (h : rule ∈ builtins) : rule.Local := by
  obtain ⟨hlocal, -⟩ | rfl := local_or_callGlobal h
  · exact hlocal
  · exact local_callGlobal

/-- A built-in rule that looks up no signatures mentions only placeholders of its arguments. -/
theorem within_or_callGlobal {rule : Rule} (h : rule ∈ builtins) (q : Query) :
    (rule.resolve q).Within q.Mentions ∨ rule = callGlobal := by
  obtain ⟨hlocal, heq⟩ | rfl := local_or_callGlobal h
  · let q' : Query := { q with globals := { q.globals with functions := .empty } }
    have hclosed : q'.globals.Closed := fun name s hs => nomatch hs
    rw [← heq q .empty]
    exact Or.inl (hlocal q' hclosed)
  · exact Or.inr rfl

/-- A built-in rule mentions only placeholders of its arguments and of signatures. -/
theorem within_of_mem_builtins {rule : Rule} (h : rule ∈ builtins) (q : Query) :
    (rule.resolve q).Within fun p => q.Mentions p ∨ q.globals.Mentions p := by
  obtain hwithin | rfl := within_or_callGlobal h q
  · exact hwithin.mono fun p hp => Or.inl hp
  · exact within_callGlobal q

/-- Of two types that a built-in rule declares equal, one holds only placeholders of its
arguments. -/
theorem anchored_of_mem_builtins {rule : Rule} (h : rule ∈ builtins) (q : Query) :
    (rule.resolve q).Anchored q.Mentions := by
  obtain hwithin | rfl := within_or_callGlobal h q
  · exact hwithin.anchored
  · exact anchored_callGlobal q

end Rule

end TensorTyping
