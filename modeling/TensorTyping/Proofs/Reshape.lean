import Mathlib.Algebra.BigOperators.Group.List.Basic
import Mathlib.Algebra.Order.BigOperators.GroupWithZero.List
import Mathlib.Algebra.Order.Ring.Int
import TensorTyping.Proofs.Dim.Product
import TensorTyping.Proofs.Rule.Requests
import TensorTyping.Proofs.Session.Questions
import TensorTyping.Proofs.Session.Setup

namespace TensorTyping

/-- Dimensions whose values are not negative and have a product. -/
def Dim.Extents (σ : Assignment) (dims : List Dim) (p : Int) : Prop :=
  ∃ ns : List Int, List.Forall₂ (fun d n => d.eval σ = some n) dims ns ∧ (∀ n ∈ ns, 0 ≤ n) ∧ ns.prod = p

namespace Dim.Extents

variable {σ : Assignment} {d : Dim} {dims dims' : List Dim} {n p : Int}

theorem nil : Extents σ [] 1 := ⟨[], .nil, nofun, rfl⟩

theorem cons (hd : d.eval σ = some n) (hn : 0 ≤ n) (h : Extents σ dims p) :
    Extents σ (d :: dims) (n * p) := by
  obtain ⟨ns, heval, hns, rfl⟩ := h
  exact ⟨n :: ns, .cons hd heval, List.forall_mem_cons.mpr ⟨hn, hns⟩, List.prod_cons⟩

theorem perm (h : Extents σ dims p) (hperm : dims'.Perm dims) : Extents σ dims' p := by
  obtain ⟨ns, heval, hns, rfl⟩ := h
  obtain ⟨ms, heval', hms⟩ := List.perm_comp_forall₂ hperm heval
  exact ⟨ms, heval', fun n hn => hns n (hms.mem_iff.mp hn), hms.prod_eq⟩

theorem nonneg (h : Extents σ dims p) : 0 ≤ p := by
  obtain ⟨ns, -, hns, rfl⟩ := h
  exact List.prod_nonneg hns

theorem eval_product (h : Extents σ dims p) : (product dims).eval σ = some p := by
  obtain ⟨ns, heval, -, rfl⟩ := h
  exact Dim.eval_product heval

end Dim.Extents

open Dim

namespace Cond

variable {σ : Assignment} {op : Comparison} {a b : Dim}

theorem eval_cmp_eq_true (h : (cmp op a b).eval σ = some true) :
    ∃ m n, a.eval σ = some m ∧ b.eval σ = some n ∧ op.holds m n = true := by
  simp only [Cond.eval, Option.bind_eq_bind, Option.bind_eq_some_iff, Option.some.injEq] at h
  obtain ⟨m, hm, n, hn, h⟩ := h
  exact ⟨m, n, hm, hn, h⟩

/-- Dimensions that are asked not to be negative. -/
theorem exists_extents {dims : List Dim}
    (h : ∀ d ∈ dims, (Cond.le (.const 0) d).eval σ = some true) : ∃ p, Extents σ dims p := by
  induction dims with
  | nil => exact ⟨1, .nil⟩
  | cons d dims ih =>
    obtain ⟨hd, hdims⟩ := List.forall_mem_cons.mp h
    obtain ⟨p, hp⟩ := ih hdims
    obtain ⟨m, n, hm, hn, hle⟩ := eval_cmp_eq_true hd
    cases hm
    exact ⟨n * p, hp.cons hn (of_decide_eq_true hle)⟩

end Cond

namespace Rule

variable {σ : Assignment} {d : Dim} {t : TensorType} {newShape : List Dim} {p : Int}

/-- One entry is left open, and filling it puts a dimension beside the others. -/
theorem perm_fillInferred (h : newShape.countP isInferred = 1) :
    (fillInferred d newShape).Perm (d :: newShape.filter (!isInferred ·)) := by
  induction newShape with
  | nil => cases h
  | cons e shape ih =>
    rw [fillInferred, List.filter_cons]
    by_cases he : isInferred e = true
    · rw [List.countP_cons_of_pos he] at h
      have hnone : ∀ e ∈ shape, ¬ isInferred e = true :=
        List.countP_eq_zero.mp (Nat.succ.inj h)
      have hfilter : shape.filter (!isInferred ·) = shape :=
        List.filter_eq_self.mpr fun e hmem => by simpa using hnone e hmem
      simp [he, hfilter]
    · rw [List.countP_cons_of_neg he] at h
      simp only [he, Bool.false_eq_true, if_false, Bool.not_false, if_true]
      exact ((ih h).cons e).trans (.swap d e _)

/-- The conditions that a new shape must meet. -/
def reshapeConds (t : TensorType) (newShape : List Dim) : List Cond :=
  let given := newShape.filter (!isInferred ·)
  .le (count (newShape.countP isInferred)) (.const 1) :: given.map (Cond.le (.const 0)) ++
    if newShape.any isInferred then
      [.lt (.const 0) (product given), .eq (.combine .floorMod t.size (product given)) (.const 0)]
    else [.eq t.size (product newShape)]

/-- A new shape with what is left open filled in. -/
def reshaped (t : TensorType) (newShape : List Dim) : List Dim :=
  if newShape.any isInferred then
    fillInferred (.combine .floorDiv t.size (product (newShape.filter (!isInferred ·)))) newShape
  else newShape

/-- What reshaping asks for: nothing, if there is no tensor or no new shape, or all conditions in order. -/
theorem resolve_reshape_cases (q : Query) : reshape.resolve q = .done false ∨
    ∃ t out newShape, q.singleOutput? = some ([.tensor t], out) ∧
      Attrs.dims? q.attrs "newshape" = some newShape ∧
      reshape.resolve q = .requireAll (reshapeConds t newShape)
        (.conclude out (.tensor ⟨reshaped t newShape, t.dtype⟩)) := by
  unfold reshape
  dsimp only
  split
  · rename_i t out newShape hq hattr
    refine Or.inr ⟨t, out, newShape, hq, hattr, ?_⟩
    rw [reshapeConds, reshaped]
    split <;> simp [Resolution.requireAll]
  · exact Or.inl rfl

theorem countP_eq_one (hany : newShape.any isInferred = true)
    (h : (Cond.le (count (newShape.countP isInferred)) (.const 1)).eval σ = some true) :
    newShape.countP isInferred = 1 := by
  have hpos := List.countP_pos_iff.mpr (List.any_eq_true.mp hany)
  obtain ⟨w, hw, hvalue⟩ := count_eq (newShape.countP isInferred)
  rw [hw] at h
  obtain ⟨m, n, hm, hn, hle⟩ := Cond.eval_cmp_eq_true h
  cases hm
  cases hn
  have hle : w.toInt ≤ 1 := of_decide_eq_true hle
  omega

/-- The quotient makes up for what is missing. -/
theorem extents_fillInferred {size known : Dim} {g : Int} (hcount : newShape.countP isInferred = 1)
    (hg : Extents σ (newShape.filter (!isInferred ·)) g) (hsize : size.eval σ = some p)
    (hknown : known.eval σ = some g) (hp : 0 ≤ p)
    (hpositive : (Cond.lt (.const 0) known).eval σ = some true)
    (hdivides : (Cond.eq (.combine .floorMod size known) (.const 0)).eval σ = some true) :
    Extents σ (fillInferred (.combine .floorDiv size known) newShape) p := by
  obtain ⟨z, g', hz, hg', hlt⟩ := Cond.eval_cmp_eq_true hpositive
  cases hz
  cases hknown.symm.trans hg'
  have hlt : 0 < g := of_decide_eq_true hlt
  have hdefined : ∀ op : DimOp, ∀ n, op.eval p g = some n →
      (Dim.combine op size known).eval σ = some n :=
    fun op n hn => eval_combine (eval_binary.mpr ⟨p, g, hsize, hknown, hn⟩)
  have hmod := hdefined .floorMod (p.fmod g) (if_neg hlt.ne')
  have hdiv := hdefined .floorDiv (p.fdiv g) (if_neg hlt.ne')
  obtain ⟨r, z, hr, hz, hrest⟩ := Cond.eval_cmp_eq_true hdivides
  cases hz
  cases hmod.symm.trans hr
  have hrest : p.fmod g = 0 := of_decide_eq_true hrest
  have hexact : p.fdiv g * g = p := by
    have hsplit := Int.mul_fdiv_add_fmod p g
    rwa [hrest, Int.add_zero, Int.mul_comm] at hsplit
  have hfilled := (hg.cons hdiv (Int.fdiv_nonneg hp hlt.le)).perm (perm_fillInferred hcount)
  rwa [hexact] at hfilled

/-- If the conditions are true, the new dimensions have the product of the old ones. -/
theorem extents_reshaped (hsize : Extents σ t.shape p)
    (hconds : ∀ c ∈ reshapeConds t newShape, c.eval σ = some true) :
    Extents σ (reshaped t newShape) p := by
  have hinput : t.size.eval σ = some p := hsize.eval_product
  rw [reshapeConds, List.cons_append, List.forall_mem_cons, List.forall_mem_append,
    List.forall_mem_map] at hconds
  obtain ⟨hcount, hgiven, hrest⟩ := hconds
  obtain ⟨g, hg⟩ := Cond.exists_extents hgiven
  rw [reshaped]
  by_cases hany : newShape.any isInferred = true
  · rw [if_pos hany, List.forall_mem_cons, List.forall_mem_singleton] at hrest
    rw [if_pos hany]
    exact extents_fillInferred (countP_eq_one hany hcount) hg hinput hg.eval_product hsize.nonneg
      hrest.1 hrest.2
  · rw [if_neg hany, List.forall_mem_singleton] at hrest
    rw [if_neg hany]
    have hall : newShape.filter (!isInferred ·) = newShape := by
      refine List.filter_eq_self.mpr fun e he => ?_
      simpa using fun h : isInferred e = true => hany (List.any_eq_true.mpr ⟨e, he, h⟩)
    rw [hall] at hg
    obtain ⟨m, n, hm, hn, heq⟩ := Cond.eval_cmp_eq_true hrest
    cases hinput.symm.trans hm
    cases hg.eval_product.symm.trans hn
    have heq : p = g := of_decide_eq_true heq
    rwa [heq]

end Rule

namespace Session

/-- A reshape that is resolved in a session. Take sizes within the registered ranges for which the
dimensions of the input have values that are not negative. If every condition that the rule asks for has a
truth value, and those that are put off are true, every dimension of the output has a value, none of the
values is negative, and their product is the product of the values of the input. -/
theorem reshape_preserves_size (globals : Globals) (config : Config) (setup : List Setup)
    {s rest : Session} {number : Nat} {r : Relation}
    (hturns : Turns (prepared globals config setup) s) (hnext : s.next? = some (number, r, rest))
    (hrule : r.rule = Rule.reshape) (hresolved : (rest.outcome r).resolved = true) :
    ∃ t out shape asked, (rest.query r).singleOutput? = some ([.tensor t], out) ∧
      (rest.outcome r).reports = asked ++ [.assigned out (.tensor ⟨shape, t.dtype⟩)] ∧
      ∀ σ : Assignment, (∀ x range, Setup.range x range ∈ setup → range.Contains (σ x)) →
        ∀ ms : List Int, List.Forall₂ (fun d m => d.eval σ = some m) t.shape ms → (∀ m ∈ ms, 0 ≤ m) →
          (∀ c answer, .asserted c answer ∈ (rest.outcome r).reports → (c.eval σ).isSome ∧
            (c ∈ (rest.invoke number r).deferred → c.eval σ = some true)) →
          ∃ ns : List Int, List.Forall₂ (fun d n => d.eval σ = some n) shape ns ∧ (∀ n ∈ ns, 0 ≤ n) ∧
            ns.prod = ms.prod := by
  have hgrows := hturns.grows (untouched_prepared globals config setup).valid
  obtain ⟨queue, rfl, -⟩ := next?_eq_some hnext
  obtain hdone | ⟨t, out, newShape, hq, -, hresolve⟩ :=
    Rule.resolve_reshape_cases (query { s with queue } r)
  · rw [outcome, hrule, hdone] at hresolved
    cases hresolved
  · rw [← hrule] at hresolve
    obtain ⟨hreports, hkept⟩ :=
      invoke_requireAll (s := { s with queue }) hgrows.valid hresolve hresolved number
    refine ⟨t, out, _, _, hq, hreports, fun σ hσ ms hms hnonneg hasked => ?_⟩
    have hadmits : s.known.Admits σ := Turns.admits hturns hσ
    obtain ⟨-, hknown, -⟩ := invoke_fields { s with queue } number r
    refine Rule.extents_reshaped ⟨ms, hms, hnonneg, rfl⟩ fun c hc => ?_
    have hreport : .asserted c true ∈ (outcome { s with queue } r).reports := by
      rw [hreports]
      exact List.mem_append_left _ (List.mem_map_of_mem hc)
    obtain ⟨hdefined, hdeferred⟩ := hasked c true hreport
    obtain hproven | hmem := hkept c hc
    · obtain ⟨b, hb⟩ := Option.isSome_iff_exists.mp hdefined
      have hallows := Ranges.allows_prove (hknown ▸ hadmits) hb
      rw [hproven] at hallows
      rwa [show b = true from hallows] at hb
    · exact hdeferred hmem

/-- Two rows of what is left of three columns, which is put off for a size that need not be even. -/
theorem reshape_preserves_size_rows :
    let n : SizeVar := ⟨0, "n"⟩
    let size : Dim := .binary .mul (.var n) (.const 3)
    let even : Cond := .eq (.binary .floorMod size (.const 2)) (.const 0)
    let shape : List Dim := [.const 2, .binary .floorDiv size (.const 2)]
    let r : Relation := ⟨.reshape, [.tensor ⟨[.var n, .const 3], .float 32⟩, .hole ⟨0, .type⟩], 1,
      .ofList [("newshape", .dims [.const 2, .const (-1)])], .dummy, Nat.le_succ 1⟩
    let s := prepared .empty .default [.range n ⟨1, 8⟩, .fresh .type, .relation r]
    let rest := { s with queue := [] }
    let σ : Assignment := fun _ => 4
    s.next? = some (0, r, rest) ∧ (rest.outcome r).resolved = true ∧
      (rest.outcome r).reports = [.asserted (.le (.const 1) (.const 1)) true,
        .asserted (.le (.const 0) (.const 2)) true, .asserted (.lt (.const 0) (.const 2)) true,
        .asserted even true, .assigned (.hole ⟨0, .type⟩) (.tensor ⟨shape, .float 32⟩)] ∧
      (rest.invoke 0 r).deferred = [even] ∧ even.eval σ = some true ∧
      ∃ ns : List Int, List.Forall₂ (fun d k => d.eval σ = some k) shape ns ∧ (∀ k ∈ ns, 0 ≤ k) ∧
        ns.prod = [4, 3].prod := by
  intro n size even shape r s rest σ
  have hnext : s.next? = some (0, r, rest) := rfl
  have hresolved : (rest.outcome r).resolved = true := by cbv
  have hdeferred : (rest.invoke 0 r).deferred = [even] := by cbv
  have heven : even.eval σ = some true := by decide +kernel
  have hreports : (rest.outcome r).reports = [.asserted (.le (.const 1) (.const 1)) true,
      .asserted (.le (.const 0) (.const 2)) true, .asserted (.lt (.const 0) (.const 2)) true,
      .asserted even true, .assigned (.hole ⟨0, .type⟩) (.tensor ⟨shape, .float 32⟩)] := by cbv
  obtain ⟨t, out, shape', asked, hq, hlast, hsize⟩ :=
    reshape_preserves_size .empty .default [.range n ⟨1, 8⟩, .fresh .type, .relation r] .refl hnext rfl
      hresolved
  have hquery : (rest.query r).singleOutput? =
      some ([.tensor ⟨[.var n, .const 3], .float 32⟩], .hole ⟨0, .type⟩) := rfl
  cases hquery.symm.trans hq
  have hshape : shape' = shape := by
    have hlast := congrArg List.getLast? (hreports.symm.trans hlast)
    rw [List.getLast?_concat] at hlast
    have hassigned : Ty.tensor ⟨shape, .float 32⟩ = .tensor ⟨shape', .float 32⟩ :=
      (Report.assigned.inj (Option.some.inj hlast)).2
    exact (congrArg TensorType.shape (Ty.tensor.inj hassigned)).symm
  have hranges : ∀ x range, Setup.range x range ∈ ([.range n ⟨1, 8⟩, .fresh .type, .relation r] :
      List Setup) → range.Contains (σ x) := by
    intro x range h
    simp only [List.mem_cons, Setup.range.injEq, reduceCtorEq, List.not_mem_nil, or_false] at h
    rw [h.2]
    decide
  have hms : List.Forall₂ (fun (d : Dim) k => d.eval σ = some k) [.var n, .const 3] [4, 3] :=
    .cons rfl (.cons (by decide) .nil)
  have hasked : ∀ c answer, .asserted c answer ∈ (rest.outcome r).reports → (c.eval σ).isSome ∧
      (c ∈ (rest.invoke 0 r).deferred → c.eval σ = some true) := by
    intro c answer hc
    rw [hreports] at hc
    rw [hdeferred, List.mem_singleton]
    refine ⟨?_, fun h => h ▸ heven⟩
    simp only [List.mem_cons, Report.asserted.injEq, reduceCtorEq, List.not_mem_nil, or_false] at hc
    obtain ⟨rfl, -⟩ | ⟨rfl, -⟩ | ⟨rfl, -⟩ | ⟨rfl, -⟩ := hc <;> decide +kernel
  rw [hshape] at hsize
  exact ⟨hnext, hresolved, hreports, hdeferred, heven, hsize σ hranges [4, 3] hms (by decide) hasked⟩

end Session

end TensorTyping
