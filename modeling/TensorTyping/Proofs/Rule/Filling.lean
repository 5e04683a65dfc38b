import TensorTyping.Proofs.Rule.Meaning
import TensorTyping.Proofs.Rule.Requests

namespace TensorTyping

open Ty Resolution

/-- A query with types put in place of all placeholders. -/
def Query.fill (image : Placeholder → Ty) (q : Query) : Query :=
  { q with args := q.args.map (Ty.fill image) }

namespace Resolution

/-- Requests with types put in place of all placeholders. -/
def fill (image : Placeholder → Ty) : Resolution → Resolution
  | done resolved => done resolved
  | assign dst src next => assign (dst.fill image) (src.fill image) (next.fill image)
  | assert cond next => assert cond fun answer => (next answer).fill image
  | locate span next => locate span (next.fill image)

/-- Filled requests are met where the requests are once they are filled. -/
theorem meets_fill {known : Ranges} {A : Ty → Ty → Prop} {image : Placeholder → Ty}
    {r : Resolution} :
    (r.fill image).Meets known A ↔ r.Meets known fun t u => A (t.fill image) (u.fill image) := by
  induction r with
  | done => rfl
  | assign dst src next ih => exact and_congr_right fun _ => ih
  | assert cond next ih => exact and_congr_right fun _ => ih true
  | locate span next ih => exact ih

/-- Met requests are met in another way as well if the types that they declare equal
are, which hold placeholders of a kind only. -/
theorem Meets.of_within {known : Ranges} {A B : Ty → Ty → Prop} {P : Placeholder → Prop}
    {r : Resolution} (h : r.Meets known A) (hwithin : r.Within P)
    (hAB : ∀ t u, A t u → (∀ p ∈ t.occurrences, P p) → (∀ p ∈ u.occurrences, P p) → B t u) :
    r.Meets known B := by
  induction r with
  | done => exact h
  | assign dst src next ih => exact ⟨hAB _ _ h.1 hwithin.1 hwithin.2.1, ih h.2 hwithin.2.2⟩
  | assert cond next ih => exact ⟨h.1, ih true h.2 (hwithin true)⟩
  | locate span next ih => exact ih h hwithin

section fill

variable (image : Placeholder → Ty) (next : Resolution)

@[simp] theorem fill_require (cond : Cond) :
    (require cond next).fill image = require cond (next.fill image) := by
  refine congrArg (assert cond) (funext fun answer => ?_)
  cases answer <;> rfl

@[simp] theorem fill_requireAll (conds : List Cond) :
    (requireAll conds next).fill image = requireAll conds (next.fill image) := by
  induction conds with
  | nil => rfl
  | cons cond conds ih => exact (fill_require image _ cond).trans (congrArg (require cond) ih)

@[simp] theorem fill_conclude (dst src : Ty) :
    (conclude dst src).fill image = conclude (dst.fill image) (src.fill image) := rfl

end fill

end Resolution

theorem Query.singleOutput?_fill (image : Placeholder → Ty) (q : Query) :
    (q.fill image).singleOutput? =
      q.singleOutput?.map fun e => (e.1.map (Ty.fill image), e.2.fill image) := by
  simp only [singleOutput?, Query.fill, ← List.map_drop, ← List.map_take]
  cases q.args.drop q.numInputs with
  | nil => rfl
  | cons out rest => cases rest <;> rfl

namespace Rule

/-- What a rule does with a query does not depend on what is put in place of
placeholders, once it does not wait any more. -/
def Natural (rule : Rule) : Prop := ∀ (image : Placeholder → Ty) (q : Query), q.globals.Closed →
  rule.resolve q = done false ∨ rule.resolve (q.fill image) = (rule.resolve q).fill image

theorem natural_identity : identity.Natural := by
  intro image q _
  simp only [identity, Query.singleOutput?_fill]
  split
  · rename_i hq
    exact Or.inr (by rw [hq]; rfl)
  · exact Or.inl rfl

theorem natural_makeTuple : makeTuple.Natural := by
  intro image q _
  simp only [makeTuple, Query.singleOutput?_fill]
  split
  · rename_i hq
    exact Or.inr (by simp [hq])
  · exact Or.inl rfl

theorem natural_refNew : refNew.Natural := by
  intro image q _
  simp only [refNew, Query.singleOutput?_fill]
  split
  · rename_i hq
    exact Or.inr (by rw [hq]; rfl)
  · exact Or.inl rfl

section tensor

variable (image : Placeholder → Ty) {xs : List Ty} {ts : List TensorType}

/-- Tensors have no placeholders. -/
theorem mapM_tensor?_fill (h : xs.mapM tensor? = some ts) :
    (xs.map (Ty.fill image)).mapM tensor? = some ts := by
  induction xs generalizing ts with
  | nil => exact h
  | cons x xs ih =>
    simp only [List.mapM_cons, Option.bind_eq_bind, Option.bind_eq_some_iff, Option.pure_def,
      Option.some.injEq] at h
    obtain ⟨t, ht, ts, hts, rfl⟩ := h
    cases x with
    | tensor a => simp [tensor?, ih hts, show t = a from (Option.some.inj ht).symm]
    | _ => cases ht

@[simp] theorem fill_differentElements (t expected : TensorType) :
    (differentElements t expected).fill image = differentElements t expected := rfl

@[simp] theorem fill_sameTensors (first : TensorType) (ts : List TensorType) (next : Resolution) :
    (sameTensors first ts next).fill image = sameTensors first ts (next.fill image) := by
  induction ts with
  | nil => rfl
  | cons t ts ih =>
    simp only [sameTensors]
    split
    · rfl
    · rw [fill_requireAll, ih]

@[simp] theorem fill_joinShapes (axes : List (Dim × Dim)) (next : List Dim → Resolution) :
    (joinShapes axes next).fill image = joinShapes axes fun shape => (next shape).fill image := by
  induction axes generalizing next with
  | nil => rfl
  | cons axis axes ih =>
    simp only [joinShapes]
    split
    · exact ih _
    · split
      · exact ih _
      · rw [fill_require, ih]

theorem natural_elemwise : elemwise.Natural := by
  intro image q _
  simp only [elemwise, Query.singleOutput?_fill]
  split
  · rename_i x xs out hq
    split
    · rename_i t ts ht hts
      cases x with
      | tensor a => exact Or.inr (by simp [hq, ht, mapM_tensor?_fill image hts])
      | _ => cases ht
    · exact Or.inl rfl
  · exact Or.inl rfl

theorem natural_broadcast : broadcast.Natural := by
  intro image q _
  simp only [broadcast, Query.singleOutput?_fill]
  split
  · rename_i a b out hq
    refine Or.inr ?_
    simp only [hq, Option.map_some, List.map_cons, List.map_nil, fill_tensor]
    split <;> simp
  · exact Or.inl rfl

@[simp] theorem fill_requireRank (t : TensorType) (rank : Nat) (next : Resolution) :
    (requireRank t rank next).fill image = requireRank t rank (next.fill image) := by
  unfold requireRank
  rw [fill_require]
  split <;> rfl

theorem natural_matmul : matmul.Natural := by
  intro image q _
  simp only [matmul, Query.singleOutput?_fill]
  split
  · rename_i a b out hq
    refine Or.inr ?_
    simp only [hq, Option.map_some, List.map_cons, List.map_nil, fill_tensor, fill_requireRank]
    split
    · rfl
    · split
      · simp
      · rfl
  · exact Or.inl rfl

theorem natural_reshape : reshape.Natural := by
  intro image q _
  simp only [reshape, Query.singleOutput?_fill]
  split
  · rename_i t out newShape hq hshape
    refine Or.inr ?_
    have hshape' : Attrs.dims? (q.fill image).attrs "newshape" = some newShape := hshape
    simp only [hq, hshape', Option.map_some, List.map_cons, List.map_nil, fill_tensor, fill_require,
      fill_requireAll]
    split <;> simp
  · exact Or.inl rfl

end tensor

theorem natural_tupleGet : tupleGet.Natural := by
  intro image q _
  simp only [tupleGet, Query.singleOutput?_fill]
  split
  · rename_i fields out index hq hindex
    refine Or.inr ?_
    have hindex' : Attrs.int? (q.fill image).attrs "index" = some index := hindex
    have hfield : (if index < 0 then none else (fields.map (Ty.fill image))[index.toInt.toNat]?) =
        (if index < 0 then none else fields[index.toInt.toNat]?).map (Ty.fill image) := by
      split
      · rfl
      · exact List.getElem?_map
    simp only [hq, hindex', Option.map_some, List.map_cons, List.map_nil, fill_tuple, fill_require,
      List.length_map, hfield]
    cases if index < 0 then none else fields[index.toInt.toNat]? <;> rfl
  · exact Or.inl rfl

theorem natural_adtCall : adtCall.Natural := by
  intro image q _
  simp only [adtCall]
  split
  · rename_i g args rest hq
    refine Or.inr ?_
    simp only [Query.fill, hq, List.map_cons, fill_call, fill_global, List.length_map]
    split <;> rfl
  · exact Or.inl rfl

/-- Declaring arguments equal to parameters that have no placeholders. -/
theorem fill_parameters (image : Placeholder → Ty) {params : List Ty}
    (hparams : ∀ t ∈ params, t.isComplete = true) (args : List Ty) (next : Resolution) :
    ((args.zip params).foldr (fun a next => assign a.2 a.1 next) next).fill image =
      ((args.map (Ty.fill image)).zip params).foldr (fun a next => assign a.2 a.1 next)
        (next.fill image) := by
  induction args generalizing params with
  | nil => rfl
  | cons t args ih =>
    cases params with
    | nil => rfl
    | cons param params =>
      simp only [List.forall_mem_cons] at hparams
      simp only [List.zip_cons_cons, List.foldr_cons, List.map_cons, Resolution.fill,
        ih hparams.2, fill_of_isComplete hparams.1]

theorem natural_callGlobal : callGlobal.Natural := by
  intro image q hclosed
  simp only [callGlobal, Query.singleOutput?_fill]
  split
  · rename_i xs out s hq hs
    refine Or.inr ?_
    have hs' : (Attrs.str? (q.fill image).attrs "callee").bind (q.fill image).globals.function? =
      some s := hs
    simp only [hq, hs', Option.map_some]
    split
    · rfl
    · obtain ⟨name, -, hname⟩ := Option.bind_eq_some_iff.mp hs
      obtain ⟨hparams, hresult⟩ := hclosed name s hname
      rw [fill_require, fill_parameters image hparams, fill_conclude, fill_of_isComplete hresult]
      rfl
  · exact Or.inl rfl

/-- All built-in rules but one are natural. What reads a reference infers the
reference as long as that is a placeholder, and takes it apart from then on. -/
theorem natural_of_mem_builtins {rule : Rule} (h : rule ∈ builtins) :
    rule = refRead ∨ rule.Natural := by
  simp only [builtins, List.mem_cons, List.not_mem_nil, or_false] at h
  obtain rfl | rfl | rfl | rfl | rfl | rfl | rfl | rfl | rfl | rfl | rfl := h
  · exact Or.inr natural_identity
  · exact Or.inr natural_elemwise
  · exact Or.inr natural_broadcast
  · exact Or.inr natural_matmul
  · exact Or.inr natural_reshape
  · exact Or.inr natural_tupleGet
  · exact Or.inr natural_makeTuple
  · exact Or.inr natural_refNew
  · exact Or.inl rfl
  · exact Or.inr natural_adtCall
  · exact Or.inr natural_callGlobal

/-- A query that a built-in rule was resolved by is one again when types are put in
place of placeholders that meet the requests. Where the rule only inferred a
reference, the type put in has to be that very reference. -/
theorem meets_resolve_fill {rule : Rule} (h : rule ∈ builtins) {known : Ranges}
    {A : Ty → Ty → Prop} (hA : ∀ t, A t t) {image : Placeholder → Ty} {q : Query}
    (hclosed : q.globals.Closed)
    (hmeets : (rule.resolve q).Meets known fun t u => A (t.fill image) (u.fill image))
    (hinferred : ∀ p u, hole p ∈ q.args → rule.resolve q = conclude (hole p) (ref u) →
      image p = (ref u).fill image) :
    (rule.resolve (q.fill image)).Meets known A := by
  obtain rfl | hnatural := natural_of_mem_builtins h
  · simp only [refRead, Query.singleOutput?_fill] at hmeets hinferred ⊢
    split at hmeets
    · rename_i value out hq
      rw [hq]
      exact hmeets
    · rename_i p out hq
      have himage := hinferred p out ?_ ?_
      · simp only [hq, Option.map_some, List.map_cons, List.map_nil, fill_hole, himage, fill_ref]
        exact ⟨hA _, rfl⟩
      · simp [Query.args_of_singleOutput? hq]
      · rw [hq]
    · cases hmeets
  · obtain hdone | hfill := hnatural image q hclosed
    · rw [hdone] at hmeets
      cases hmeets
    · rw [hfill]
      exact meets_fill.mpr hmeets

end Rule

end TensorTyping
