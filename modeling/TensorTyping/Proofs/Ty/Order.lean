import TensorTyping.Proofs.Order
import TensorTyping.Ty.Order

open Std

namespace TensorTyping

instance : TransOrd TypeCode :=
  inferInstanceAs (TransCmp (compareOn TypeCode.ctorIdx))

instance : LawfulEqOrd TypeCode where
  eq_of_compare {a b} h := by
    have hidx : a.ctorIdx = b.ctorIdx := LawfulEqOrd.eq_of_compare (α := Nat) h
    cases a <;> cases b <;> first | rfl | cases hidx

instance : TransOrd DataType :=
  inferInstanceAs (TransCmp (compareLex (compareOn DataType.code)
    (compareLex (compareOn DataType.bits) (compareOn DataType.lanes))))

instance : LawfulEqOrd DataType where
  eq_of_compare {d e} h := by
    obtain ⟨code, bits, lanes⟩ := d
    obtain ⟨code', bits', lanes'⟩ := e
    change (compare code code').then ((compare bits bits').then (compare lanes lanes')) = .eq at h
    simp only [Ordering.then_eq_eq] at h
    rw [LawfulEqOrd.eq_of_compare h.1, LawfulEqOrd.eq_of_compare h.2.1,
      LawfulEqOrd.eq_of_compare h.2.2]

instance : TransOrd TensorType :=
  inferInstanceAs (TransCmp (compareLex (compareOn TensorType.shape) (compareOn TensorType.dtype)))

instance : LawfulEqOrd TensorType where
  eq_of_compare {t u} h := by
    obtain ⟨shape, dtype⟩ := t
    obtain ⟨shape', dtype'⟩ := u
    change (compare shape shape').then (compare dtype dtype') = .eq at h
    rw [Ordering.then_eq_eq] at h
    rw [LawfulEqOrd.eq_of_compare h.1, LawfulEqOrd.eq_of_compare h.2]

instance : TransOrd Kind :=
  inferInstanceAs (TransCmp (compareOn Kind.ctorIdx))

instance : LawfulEqOrd Kind where
  eq_of_compare {a b} h := by
    have hidx : a.ctorIdx = b.ctorIdx := LawfulEqOrd.eq_of_compare (α := Nat) h
    cases a <;> cases b <;> first | rfl | cases hidx

instance : TransOrd Placeholder :=
  inferInstanceAs (TransCmp (compareLex (compareOn Placeholder.id) (compareOn Placeholder.kind)))

instance : LawfulEqOrd Placeholder where
  eq_of_compare {p q} h := by
    obtain ⟨id, kind⟩ := p
    obtain ⟨id', kind'⟩ := q
    change (compare id id').then (compare kind kind') = .eq at h
    rw [Ordering.then_eq_eq] at h
    rw [LawfulEqOrd.eq_of_compare h.1, LawfulEqOrd.eq_of_compare h.2]

instance : TransOrd TypeVar :=
  inferInstanceAs (TransCmp (compareLex (compareOn TypeVar.id)
    (compareLex (compareOn TypeVar.name) (compareOn TypeVar.kind))))

instance : LawfulEqOrd TypeVar where
  eq_of_compare {v w} h := by
    obtain ⟨id, name, kind⟩ := v
    obtain ⟨id', name', kind'⟩ := w
    change (compare id id').then ((compare name name').then (compare kind kind')) = .eq at h
    simp only [Ordering.then_eq_eq] at h
    rw [LawfulEqOrd.eq_of_compare h.1, LawfulEqOrd.eq_of_compare h.2.1,
      LawfulEqOrd.eq_of_compare h.2.2]

instance : TransOrd GlobalVar :=
  inferInstanceAs (TransCmp (compareOn GlobalVar.name))

theorem GlobalVar.beq_iff {g h : GlobalVar} : (g == h) = true ↔ g.name = h.name :=
  beq_iff_eq (α := String)

theorem GlobalVar.compare_eq_iff {g h : GlobalVar} : compare g h = .eq ↔ g.name = h.name :=
  LawfulEqOrd.compare_eq_iff_eq (α := String)

namespace Ty

private theorem cmpAll_eq_swap {ts : List Ty} (h : ∀ t ∈ ts, ∀ u, t.cmp u = (u.cmp t).swap)
    (us : List Ty) : cmpAll ts us = (cmpAll us ts).swap := by
  induction ts generalizing us with
  | nil => cases us <;> rfl
  | cons t ts ih =>
    cases us with
    | nil => rfl
    | cons u us =>
      rw [cmpAll, cmpAll, Ordering.swap_then, h t List.mem_cons_self,
        ih fun v hv => h v (List.mem_cons_of_mem _ hv)]

theorem cmp_eq_swap (t u : Ty) : t.cmp u = (u.cmp t).swap := by
  induction t using Ty.induction generalizing u with
  | tensor | hole | var | global =>
    cases u <;> exact OrientedOrd.eq_swap
  | tuple ts ih =>
    cases u with
    | tuple us => exact cmpAll_eq_swap ih us
    | _ => rfl
  | ref t ih =>
    cases u with
    | ref u => exact ih u
    | _ => rfl
  | call f ts ihf ihts =>
    cases u with
    | call g us => rw [cmp, cmp, Ordering.swap_then, ihf, cmpAll_eq_swap ihts]
    | _ => rfl
  | func ts r vs ihts ihr =>
    cases u with
    | func us s ws =>
      rw [cmp, cmp, Ordering.swap_then, Ordering.swap_then, cmpAll_eq_swap ihts, ihr,
        OrientedOrd.eq_swap (a := vs)]
    | _ => rfl

theorem cmp_of_rank_ne {t u : Ty} (h : t.rank ≠ u.rank) : t.cmp u = compare t.rank u.rank := by
  cases t <;> cases u <;> first | rfl | exact absurd rfl h

private theorem cmpAll_chain {ts us vs : List Ty}
    (h : ∀ t ∈ ts, ∀ {u v}, (t.cmp u).isLE → (u.cmp v).isLE → t.cmp v = (t.cmp u).then (u.cmp v))
    (hab : (cmpAll ts us).isLE) (hbc : (cmpAll us vs).isLE) :
    cmpAll ts vs = (cmpAll ts us).then (cmpAll us vs) := by
  induction ts generalizing us vs with
  | nil => cases us <;> cases vs <;> first | rfl | cases hbc
  | cons t ts ih =>
    cases us with
    | nil => cases hab
    | cons u us =>
      cases vs with
      | nil => cases hbc
      | cons v vs =>
        exact Ordering.chain_then (h t List.mem_cons_self)
          (ih fun w hw => h w (List.mem_cons_of_mem _ hw)) hab hbc

theorem cmp_chain {t u v : Ty} (htu : (t.cmp u).isLE) (huv : (u.cmp v).isLE) :
    t.cmp v = (t.cmp u).then (u.cmp v) := by
  induction t using Ty.induction generalizing u v with
  | tensor | hole | var | global =>
    refine Ordering.chain_rank cmp_of_rank_ne cmp_of_rank_ne cmp_of_rank_ne ?_ htu huv
    intro hr₁ hr₂ htu huv
    cases u <;> cases hr₁
    cases v <;> cases hr₂
    exact compare_chain htu huv
  | tuple ts ih =>
    refine Ordering.chain_rank cmp_of_rank_ne cmp_of_rank_ne cmp_of_rank_ne ?_ htu huv
    intro hr₁ hr₂ htu huv
    cases u <;> cases hr₁
    cases v <;> cases hr₂
    exact cmpAll_chain ih htu huv
  | ref t ih =>
    refine Ordering.chain_rank cmp_of_rank_ne cmp_of_rank_ne cmp_of_rank_ne ?_ htu huv
    intro hr₁ hr₂ htu huv
    cases u <;> cases hr₁
    cases v <;> cases hr₂
    exact ih htu huv
  | call f ts ihf ihts =>
    refine Ordering.chain_rank cmp_of_rank_ne cmp_of_rank_ne cmp_of_rank_ne ?_ htu huv
    intro hr₁ hr₂ htu huv
    cases u <;> cases hr₁
    cases v <;> cases hr₂
    exact Ordering.chain_then ihf (cmpAll_chain ihts) htu huv
  | func ts r vs ihts ihr =>
    refine Ordering.chain_rank cmp_of_rank_ne cmp_of_rank_ne cmp_of_rank_ne ?_ htu huv
    intro hr₁ hr₂ htu huv
    cases u <;> cases hr₁
    cases v <;> cases hr₂
    exact Ordering.chain_then (cmpAll_chain ihts) (Ordering.chain_then ihr compare_chain) htu huv

instance : TransOrd Ty where
  eq_swap {t u} := cmp_eq_swap t u
  isLE_trans {t u v} htu huv := by
    change (t.cmp v).isLE
    rw [cmp_chain htu huv]
    exact Ordering.isLE_then_of_isLE htu huv

private theorem sameAll_iff_cmpAll {ts us : List Ty}
    (h : ∀ t ∈ ts, ∀ u, t.same u = true ↔ t.cmp u = .eq) :
    sameAll ts us = true ↔ cmpAll ts us = .eq := by
  induction ts generalizing us with
  | nil => cases us <;> simp [sameAll, cmpAll]
  | cons t ts ih =>
    cases us with
    | nil => simp [sameAll, cmpAll]
    | cons u us =>
      rw [sameAll, cmpAll, Bool.and_eq_true, Ordering.then_eq_eq, h t List.mem_cons_self,
        ih fun v hv => h v (List.mem_cons_of_mem _ hv)]

/-- The comparison answers with equality exactly where equality holds. -/
theorem same_iff_cmp {t u : Ty} : t.same u = true ↔ t.cmp u = .eq := by
  induction t using Ty.induction generalizing u with
  | tensor a =>
    cases u with
    | tensor b => rw [same, cmp, decide_eq_true_iff, LawfulEqOrd.compare_eq_iff_eq]
    | _ => exact ⟨nofun, nofun⟩
  | tuple ts ih =>
    cases u with
    | tuple us => exact sameAll_iff_cmpAll fun t ht u => ih t ht
    | _ => exact ⟨nofun, nofun⟩
  | ref t ih =>
    cases u with
    | ref u => exact ih
    | _ => exact ⟨nofun, nofun⟩
  | call f ts ihf ihts =>
    cases u with
    | call g us =>
      rw [same, cmp, Bool.and_eq_true, Ordering.then_eq_eq, ihf,
        sameAll_iff_cmpAll fun t ht u => ihts t ht]
    | _ => exact ⟨nofun, nofun⟩
  | hole p =>
    cases u with
    | hole q => rw [same, cmp, decide_eq_true_iff, LawfulEqOrd.compare_eq_iff_eq]
    | _ => exact ⟨nofun, nofun⟩
  | func ts r vs ihts ihr =>
    cases u with
    | func us s ws =>
      rw [same, cmp, Bool.and_eq_true, Bool.and_eq_true, Ordering.then_eq_eq, Ordering.then_eq_eq,
        sameAll_iff_cmpAll fun t ht u => ihts t ht, ihr, decide_eq_true_iff,
        LawfulEqOrd.compare_eq_iff_eq]
    | _ => exact ⟨nofun, nofun⟩
  | var v =>
    cases u with
    | var w => rw [same, cmp, decide_eq_true_iff, LawfulEqOrd.compare_eq_iff_eq]
    | _ => exact ⟨nofun, nofun⟩
  | global g =>
    cases u with
    | global h => exact GlobalVar.beq_iff.trans GlobalVar.compare_eq_iff.symm
    | _ => exact ⟨nofun, nofun⟩

mutual

/-- The type with one kind for all definitions. -/
def forgetKinds : Ty → Ty
  | tensor t => tensor t
  | tuple fields => tuple (forgetKindsAll fields)
  | ref value => ref value.forgetKinds
  | call callee args => call callee.forgetKinds (forgetKindsAll args)
  | hole p => hole p
  | func params result typeParams => func (forgetKindsAll params) result.forgetKinds typeParams
  | var v => var v
  | global g => global { g with kind := .type }

/-- The types of a list with one kind for all definitions. -/
def forgetKindsAll : List Ty → List Ty
  | [] => []
  | t :: ts => t.forgetKinds :: forgetKindsAll ts

end

private theorem sameAll_iff_forgetKindsAll {ts us : List Ty}
    (h : ∀ t ∈ ts, ∀ u, t.same u = true ↔ t.forgetKinds = u.forgetKinds) :
    sameAll ts us = true ↔ forgetKindsAll ts = forgetKindsAll us := by
  induction ts generalizing us with
  | nil => cases us <;> simp [sameAll, forgetKindsAll]
  | cons t ts ih =>
    cases us with
    | nil => simp [sameAll, forgetKindsAll]
    | cons u us =>
      rw [sameAll, forgetKindsAll, forgetKindsAll, List.cons.injEq, Bool.and_eq_true,
        h t List.mem_cons_self, ih fun v hv => h v (List.mem_cons_of_mem _ hv)]

/-- Equality is being identical once the kinds of definitions are forgotten. -/
theorem same_iff_forgetKinds {t u : Ty} : t.same u = true ↔ t.forgetKinds = u.forgetKinds := by
  induction t using Ty.induction generalizing u with
  | tensor a =>
    cases u with
    | tensor b => rw [same, forgetKinds, forgetKinds, tensor.injEq, decide_eq_true_iff]
    | _ => exact ⟨nofun, nofun⟩
  | tuple ts ih =>
    cases u with
    | tuple us =>
      rw [same, forgetKinds, forgetKinds, tuple.injEq,
        sameAll_iff_forgetKindsAll fun t ht u => ih t ht]
    | _ => exact ⟨nofun, nofun⟩
  | ref t ih =>
    cases u with
    | ref u => rw [same, forgetKinds, forgetKinds, ref.injEq, ih]
    | _ => exact ⟨nofun, nofun⟩
  | call f ts ihf ihts =>
    cases u with
    | call g us =>
      rw [same, forgetKinds, forgetKinds, call.injEq, Bool.and_eq_true, ihf,
        sameAll_iff_forgetKindsAll fun t ht u => ihts t ht]
    | _ => exact ⟨nofun, nofun⟩
  | hole p =>
    cases u with
    | hole q => rw [same, forgetKinds, forgetKinds, hole.injEq, decide_eq_true_iff]
    | _ => exact ⟨nofun, nofun⟩
  | func ts r vs ihts ihr =>
    cases u with
    | func us s ws =>
      rw [same, forgetKinds, forgetKinds, func.injEq, Bool.and_eq_true, Bool.and_eq_true,
        sameAll_iff_forgetKindsAll fun t ht u => ihts t ht, ihr, decide_eq_true_iff]
    | _ => exact ⟨nofun, nofun⟩
  | var v =>
    cases u with
    | var w => rw [same, forgetKinds, forgetKinds, var.injEq, decide_eq_true_iff]
    | _ => exact ⟨nofun, nofun⟩
  | global g =>
    cases u with
    | global h =>
      rw [same, forgetKinds, forgetKinds, global.injEq, GlobalVar.mk.injEq, GlobalVar.beq_iff,
        and_iff_left rfl]
    | _ => exact ⟨nofun, nofun⟩

theorem same_self (t : Ty) : t.same t = true := same_iff_forgetKinds.mpr rfl

theorem same_of_rank_ne {t u : Ty} (h : t.rank ≠ u.rank) : t.same u = false := by
  cases t <;> cases u <;> first | rfl | exact absurd rfl h

mutual

/-- Answers that equality and the comparison may give together. Where a node is shared by both sides,
they may take it for equal without a look at its parts, and types do not tell which nodes are. -/
inductive Answers : Ty → Ty → Bool → Ordering → Prop
  | shared (t : Ty) : Answers t t true .eq
  | tensor (t u : TensorType) : Answers (tensor t) (tensor u) (t = u) (compare t u)
  | tuple {ts us : List Ty} {b : Bool} {o : Ordering} (h : AnswersAll ts us b o) :
      Answers (tuple ts) (tuple us) b o
  | ref {t u : Ty} {b : Bool} {o : Ordering} (h : Answers t u b o) : Answers (ref t) (ref u) b o
  | call {f g : Ty} {ts us : List Ty} {b b' : Bool} {o o' : Ordering} (hf : Answers f g b o)
      (hts : AnswersAll ts us b' o') : Answers (call f ts) (call g us) (b && b') (o.then o')
  | hole (p q : Placeholder) : Answers (hole p) (hole q) (p = q) (compare p q)
  | func {ts us : List Ty} {r s : Ty} {b b' : Bool} {o o' : Ordering} (hts : AnswersAll ts us b o)
      (hr : Answers r s b' o') (vs ws : List TypeVar) :
      Answers (func ts r vs) (func us s ws) (b && (b' && vs = ws)) (o.then (o'.then (compare vs ws)))
  | var (v w : TypeVar) : Answers (var v) (var w) (v = w) (compare v w)
  | global (g h : GlobalVar) : Answers (global g) (global h) (g == h) (compare g h)
  | form {t u : Ty} (h : t.rank ≠ u.rank) : Answers t u false (compare t.rank u.rank)

/-- Answers for lists of types, member by member. -/
inductive AnswersAll : List Ty → List Ty → Bool → Ordering → Prop
  | nil : AnswersAll [] [] true .eq
  | shorter (u : Ty) (us : List Ty) : AnswersAll [] (u :: us) false .lt
  | longer (t : Ty) (ts : List Ty) : AnswersAll (t :: ts) [] false .gt
  | cons {t u : Ty} {ts us : List Ty} {b b' : Bool} {o o' : Ordering} (h : Answers t u b o)
      (hrest : AnswersAll ts us b' o') : AnswersAll (t :: ts) (u :: us) (b && b') (o.then o')

end

mutual

/-- Sharing does not show: a type equals itself, so no answer depends on which nodes are shared. -/
theorem Answers.eq {t u : Ty} {b : Bool} {o : Ordering} :
    Answers t u b o → b = t.same u ∧ o = t.cmp u
  | .shared t => ⟨(same_self t).symm, (same_iff_cmp.mp (same_self t)).symm⟩
  | .tensor _ _ | .hole _ _ | .var _ _ | .global _ _ => ⟨rfl, rfl⟩
  | .tuple h => h.eq
  | .ref h => h.eq
  | .call hf hts => by
    obtain ⟨rfl, rfl⟩ := hf.eq
    obtain ⟨rfl, rfl⟩ := hts.eq
    exact ⟨rfl, rfl⟩
  | .func hts hr _ _ => by
    obtain ⟨rfl, rfl⟩ := hts.eq
    obtain ⟨rfl, rfl⟩ := hr.eq
    exact ⟨rfl, rfl⟩
  | .form h => ⟨(same_of_rank_ne h).symm, (cmp_of_rank_ne h).symm⟩

theorem AnswersAll.eq {ts us : List Ty} {b : Bool} {o : Ordering} :
    AnswersAll ts us b o → b = sameAll ts us ∧ o = cmpAll ts us
  | .nil | .shorter _ _ | .longer _ _ => ⟨rfl, rfl⟩
  | .cons h hrest => by
    obtain ⟨rfl, rfl⟩ := h.eq
    obtain ⟨rfl, rfl⟩ := hrest.eq
    exact ⟨rfl, rfl⟩

end

private theorem answersAll_self {ts : List Ty} (h : ∀ t ∈ ts, ∀ u, Answers t u (t.same u) (t.cmp u))
    (us : List Ty) : AnswersAll ts us (sameAll ts us) (cmpAll ts us) := by
  induction ts generalizing us with
  | nil =>
    cases us with
    | nil => exact .nil
    | cons u us => exact .shorter u us
  | cons t ts ih =>
    cases us with
    | nil => exact .longer t ts
    | cons u us =>
      exact .cons (h t List.mem_cons_self u) (ih (fun v hv => h v (List.mem_cons_of_mem _ hv)) us)

/-- With nothing shared, equality and the comparison answer by the parts. -/
theorem answers_self (t u : Ty) : Answers t u (t.same u) (t.cmp u) := by
  induction t using Ty.induction generalizing u with
  | tensor a =>
    cases u with
    | tensor b => exact .tensor a b
    | _ => exact .form nofun
  | tuple ts ih =>
    cases u with
    | tuple us => exact .tuple (answersAll_self ih us)
    | _ => exact .form nofun
  | ref t ih =>
    cases u with
    | ref u => exact .ref (ih u)
    | _ => exact .form nofun
  | call f ts ihf ihts =>
    cases u with
    | call g us => exact .call (ihf g) (answersAll_self ihts us)
    | _ => exact .form nofun
  | hole p =>
    cases u with
    | hole q => exact .hole p q
    | _ => exact .form nofun
  | func ts r vs ihts ihr =>
    cases u with
    | func us s ws => exact .func (answersAll_self ihts us) (ihr s) vs ws
    | _ => exact .form nofun
  | var v =>
    cases u with
    | var w => exact .var v w
    | _ => exact .form nofun
  | global g =>
    cases u with
    | global h => exact .global g h
    | _ => exact .form nofun

theorem answers_iff {t u : Ty} {b : Bool} {o : Ordering} :
    Answers t u b o ↔ b = t.same u ∧ o = t.cmp u := by
  refine ⟨Answers.eq, ?_⟩
  rintro ⟨rfl, rfl⟩
  exact answers_self t u

end Ty

/-- A three-way comparison is a total order, and it finds equal exactly what is equal, which is what
is the same in the given sense. The chain law is transitivity for every mixture of answers. -/
structure TotallyOrders (α : Type) [Ord α] [BEq α] (identical : α → α → Prop) : Prop where
  self : ∀ a : α, compare a a = .eq
  swap : ∀ a b : α, compare b a = (compare a b).swap
  chain : ∀ a b c : α, (compare a b).isLE → (compare b c).isLE →
    compare a c = (compare a b).then (compare b c)
  equal : ∀ a b : α, compare a b = .eq ↔ (a == b) = true
  identical : ∀ a b : α, (a == b) = true ↔ identical a b

theorem totallyOrders_of_lawful {α : Type} [Ord α] [DecidableEq α] [TransOrd α] [LawfulEqOrd α] :
    TotallyOrders α Eq where
  self _ := ReflOrd.compare_self
  swap _ _ := OrientedOrd.eq_swap
  chain _ _ _ := compare_chain
  equal _ _ := LawfulEqOrd.compare_eq_iff_eq.trans beq_iff_eq.symm
  identical _ _ := beq_iff_eq

/-- Dimensions, conditions and types are totally ordered. Equal dimensions and conditions are
identical, so sorting forgets how they were arranged; equal types are identical up to the kinds of
definitions, and it does not matter which of their nodes are shared. -/
theorem orders_total :
    TotallyOrders Dim Eq ∧ TotallyOrders Cond Eq ∧
      TotallyOrders Ty (fun t u => t.forgetKinds = u.forgetKinds) ∧
      (∀ (t u : Ty) b o, Ty.Answers t u b o ↔ b = (t == u) ∧ o = compare t u) ∧
      (∀ ds es : List Dim, ds.Perm es →
        (ds.mergeSort fun d e => (compare d e).isLE) = es.mergeSort fun d e => (compare d e).isLE) ∧
      ∀ cs ds : List Cond, cs.Perm ds →
        (cs.mergeSort fun c d => (compare c d).isLE) =
          ds.mergeSort fun c d => (compare c d).isLE := by
  refine ⟨totallyOrders_of_lawful, totallyOrders_of_lawful, ?_, fun _ _ _ _ => Ty.answers_iff,
    fun _ _ => mergeSort_eq_of_perm, fun _ _ => mergeSort_eq_of_perm⟩
  exact {
    self := fun _ => ReflOrd.compare_self
    swap := fun _ _ => OrientedOrd.eq_swap
    chain := fun _ _ _ => Ty.cmp_chain
    equal := fun _ _ => Ty.same_iff_cmp.symm
    identical := fun _ _ => Ty.same_iff_forgetKinds }

end TensorTyping
