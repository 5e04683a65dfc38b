import TensorTyping.Proofs.Broadcast.Shapes
import TensorTyping.Proofs.Session.Questions
import TensorTyping.Proofs.Session.Setup

namespace TensorTyping

namespace Shape

theorem axis_of_lt {α : Type} {one : α} {shape : List α} {i : Nat} (h : i < shape.length) :
    axis one shape i = shape.reverse.get ⟨i, by rwa [List.length_reverse]⟩ := by
  rw [axis, List.getElem?_eq_getElem (by rwa [List.length_reverse]), Option.getD_some, List.get_eq_getElem]

/-- Entries of related shapes are related, and so are they beyond the rank if the ones are. -/
theorem axis_rel {α β : Type} {R : α → β → Prop} {xs : List α} {ys : List β} {u : α} {v : β}
    (hone : R u v) (h : List.Forall₂ R xs ys) (i : Nat) : R (axis u xs i) (axis v ys i) := by
  have hlength := h.length_eq
  by_cases hi : i < xs.length
  · rw [axis_of_lt hi, axis_of_lt (hlength ▸ hi)]
    exact (List.rel_reverse h).get _ _
  · have hi := Nat.le_of_not_lt hi
    rw [axis_of_length_le hi, axis_of_length_le (hlength ▸ hi)]
    exact hone

/-- How the dimension of an axis comes from those of two shapes, with what is kept of a question. -/
inductive Joined (kept : Cond → Prop) : Dim → Dim → Dim → Prop where
  | left {a b : Dim} : a = .const 1 ∨ a = .any → Joined kept a b b
  | right {a b : Dim} : b = .const 1 ∨ b = .any → Joined kept a b a
  | equal {a b : Dim} : kept (.eq a b) → Joined kept a b a

theorem joined_jointDims {kept : Cond → Prop} {axes : List (Dim × Dim)}
    (h : ∀ c ∈ questions axes, kept c) :
    List.Forall₂ (fun e d => Joined kept e.1 e.2 d) axes (jointDims axes) := by
  rw [jointDims, List.forall₂_map_right_iff, List.forall₂_same]
  intro e he
  split
  · rename_i ha
    exact .left ha
  · rename_i ha
    by_cases hb : e.2 = .const 1 ∨ e.2 = .any
    · exact .right hb
    · exact .equal (h _ (mem_questions.mpr ⟨e, he, not_or.mp ha, not_or.mp hb, rfl⟩))

/-- A dimension at run time: a `?` is anything, and any other dimension has its value. -/
def Measures (σ : Assignment) (d : Dim) (n : Int) : Prop := d = .any ∨ d.eval σ = some n

/-- One of two dimensions is a `?` that is not one at run time, and the other one is one. -/
def Stretched (a b : Dim) (m n : Int) : Prop :=
  a = .any ∧ m ≠ 1 ∧ n = 1 ∨ b = .any ∧ n ≠ 1 ∧ m = 1

variable {σ : Assignment} {a b d : Dim} {m n : Int}

theorem Measures.eval (h : Measures σ d n) (hd : d ≠ .any) : d.eval σ = some n := h.resolve_left hd

theorem Measures.eq_one (h : Measures σ (.const 1) n) : n = 1 := by
  have heval := h.eval nofun
  rw [Dim.eval_const, Option.some.injEq, Int64.toInt_one] at heval
  exact heval.symm

theorem eq_one_of_not_stretched (h : ¬ Stretched a b m n) :
    (a = .any → n = 1 → m = 1) ∧ (b = .any → m = 1 → n = 1) := by
  constructor
  · exact fun ha hn => Decidable.of_not_not fun hm => h (Or.inl ⟨ha, hm, hn⟩)
  · exact fun hb hm => Decidable.of_not_not fun hn => h (Or.inr ⟨hb, hn, hm⟩)

/-- The dimension of a joint axis has the joint extent as its value. -/
theorem Joined.eval {kept : Cond → Prop} (hjoined : Joined kept a b d)
    (hkept : ∀ c, kept c → ∀ t, c.eval σ = some t → t = true) (hm : Measures σ a m)
    (hn : Measures σ b n) (hfits : Fits m n) (hstretched : ¬ Stretched a b m n) (hd : d ≠ .any) :
    d.eval σ = some (joint m n) := by
  obtain ⟨hleft, hright⟩ := eq_one_of_not_stretched hstretched
  cases hjoined with
  | left ha =>
    have hone : n = 1 → m = 1 := fun hn1 => by
      obtain rfl | rfl := ha
      · exact hm.eq_one
      · exact hleft rfl hn1
    rw [hn.eval hd, joint_eq_right hfits hone]
  | right hb =>
    have hone : m = 1 → n = 1 := fun hm1 => by
      obtain rfl | rfl := hb
      · exact hn.eq_one
      · exact hright rfl hm1
    rw [hm.eval hd, joint_eq_left hone]
  | equal hc =>
    have hone : m = 1 → n = 1 := fun hm1 => by
      -- the question says nothing of a `?`, which has no value
      by_cases hb : b = .any
      · exact hright hb hm1
      · have heq := hkept _ hc (Comparison.eq.holds m n) (by simp [Cond.eval, hm.eval hd, hn.eval hb])
        have heq : m = n := by simpa [Comparison.holds] using heq
        exact heq ▸ hm1
    rw [hm.eval hd, joint_eq_left hone]

end Shape

open Shape

namespace Session

open Rule

variable {s s' : Session}

/-- A broadcast that is resolved reports a joint shape as its last request. -/
theorem invoke_broadcast {r : Relation} (hc : s.classes.Valid) (hrule : r.rule = Rule.broadcast)
    (hresolved : (s.outcome r).resolved = true) (number : Nat) :
    ∃ a b out shape asked, (s.query r).singleOutput? = some ([.tensor a, .tensor b], out) ∧
      a.dtype = b.dtype ∧
      (s.outcome r).reports = asked ++ [.assigned out (.tensor ⟨shape, a.dtype⟩)] ∧
      List.Forall₂ (fun e d => Joined (s.invoke number r).KeptCond e.1 e.2 d) (axes a.shape b.shape)
        shape := by
  obtain hdone | ⟨a, b, -, hdifferent⟩ | ⟨a, b, out, hq, hdtype, hresolve⟩ :=
    resolve_broadcast_cases (s.query r)
  · rw [outcome, hrule, hdone] at hresolved
    cases hresolved
  · rw [outcome, hrule, hdifferent] at hresolved
    cases hresolved
  · rw [← hrule] at hresolve
    obtain ⟨hreports, hkept⟩ := invoke_requireAll hc hresolve hresolved number
    exact ⟨a, b, out, _, _, hq, hdtype, hreports, joined_jointDims hkept⟩

/-- A broadcast that is resolved in a session, and sizes at run time that broadcast. For all sizes within
the registered ranges under which the conditions put off are true, every dimension that is reported and is
not `?` has the extent of the joint shape as its value, on every axis where no `?` is stretched. -/
theorem broadcast_sound (globals : Globals) (config : Config) (setup : List Setup) {s rest : Session}
    {number : Nat} {r : Relation} (hturns : Turns (prepared globals config setup) s)
    (hnext : s.next? = some (number, r, rest)) (hrule : r.rule = Rule.broadcast)
    (hresolved : (rest.outcome r).resolved = true) :
    ∃ a b out shape asked, (rest.query r).singleOutput? = some ([.tensor a, .tensor b], out) ∧
      (rest.outcome r).reports = asked ++ [.assigned out (.tensor ⟨shape, a.dtype⟩)] ∧
      ∀ σ : Assignment, (∀ x range, Setup.range x range ∈ setup → range.Contains (σ x)) →
        (∀ c ∈ (rest.invoke number r).deferred, ∀ t, c.eval σ = some t → t = true) →
        ∀ xs ys zs : List Int, List.Forall₂ (Measures σ) a.shape xs →
          List.Forall₂ (Measures σ) b.shape ys → Broadcasts xs ys zs →
          shape.length = zs.length ∧ ∀ i, axis (.const 1) shape i ≠ .any →
            ¬ Stretched (axis (.const 1) a.shape i) (axis (.const 1) b.shape i) (axis 1 xs i)
              (axis 1 ys i) →
            (axis (.const 1) shape i).eval σ = some (axis 1 zs i) := by
  have hs₀ := untouched_prepared globals config setup
  have hgrows := hturns.grows hs₀.valid
  obtain ⟨queue, rfl, -⟩ := next?_eq_some hnext
  obtain ⟨a, b, out, shape, asked, hq, hdtype, hreports, hjoined⟩ :=
    invoke_broadcast (s := { s with queue }) hgrows.valid hrule hresolved number
  refine ⟨a, b, out, shape, asked, hq, hreports, fun σ hσ hdeferred xs ys zs hxs hys hzs => ?_⟩
  have hadmits : (invoke { s with queue } number r).known.Admits σ := by
    obtain ⟨-, hknown, -⟩ := invoke_fields { s with queue } number r
    rw [hknown]
    exact hgrows.known ▸ admits_prepared globals config hσ
  have hlength := hjoined.length_eq
  rw [axes_eq_map, List.length_map, length_positions, hxs.length_eq, hys.length_eq] at hlength
  refine ⟨hlength.symm.trans hzs.rank.symm, fun i hany hstretched => ?_⟩
  have hone : Measures σ (.const 1) 1 := Or.inr rfl
  have hjoin := axis_rel (u := (Dim.const 1, Dim.const 1)) (v := Dim.const 1) (.left (Or.inl rfl))
    hjoined i
  rw [axis_axes] at hjoin
  rw [hzs.extent i]
  exact hjoin.eval (fun c => holds_of_keptCond hadmits hdeferred) (axis_rel hone hxs i)
    (axis_rel hone hys i) (hzs.fits i) hstretched hany

/-- A size that must be equal to another one, and a `?` that takes a literal. -/
theorem broadcast_sound_batch :
    let m : SizeVar := ⟨0, "m"⟩
    let n : SizeVar := ⟨1, "n"⟩
    let a : TensorType := ⟨[.var m, .any], .float 32⟩
    let b : TensorType := ⟨[.var n, .const 3], .float 32⟩
    let joined : TensorType := ⟨[.var m, .const 3], .float 32⟩
    let r : Relation := .broadcast a b ⟨0, .type⟩ .empty .dummy
    let s := prepared .empty .default [.range m ⟨1, 8⟩, .fresh .type, .relation r]
    let rest := { s with queue := [] }
    let σ : Assignment := fun _ => 4
    s.next? = some (0, r, rest) ∧ (rest.outcome r).resolved = true ∧
      (rest.invoke 0 r).deferred = [.eq (.var m) (.var n)] ∧
      (rest.outcome r).reports = [.asserted (.eq (.var m) (.var n)) true,
        .assigned (.hole ⟨0, .type⟩) (.tensor joined)] ∧
      List.Forall₂ (Measures σ) a.shape [4, 1] ∧ List.Forall₂ (Measures σ) b.shape [4, 3] ∧
      Broadcasts [4, 1] [4, 3] ([4, 3] : List Int) ∧
      (axis (.const 1) joined.shape 0).eval σ = some 3 := by
  intro m n a b joined r s rest σ
  have hnext : s.next? = some (0, r, rest) := rfl
  have hresolved : (rest.outcome r).resolved = true := by cbv
  have hdeferred : (rest.invoke 0 r).deferred = [.eq (.var m) (.var n)] := by cbv
  have hreports : (rest.outcome r).reports = [.asserted (.eq (.var m) (.var n)) true,
      .assigned (.hole ⟨0, .type⟩) (.tensor joined)] := by cbv
  have hxs : List.Forall₂ (Measures σ) a.shape [4, 1] := .cons (Or.inr rfl) (.cons (Or.inl rfl) .nil)
  have hys : List.Forall₂ (Measures σ) b.shape [4, 3] :=
    .cons (Or.inr rfl) (.cons (Or.inr (by decide)) .nil)
  have hzs : Broadcasts [4, 1] [4, 3] ([4, 3] : List Int) := broadcasts_of_fits (by decide)
  obtain ⟨a', b', out, shape, asked, hq, hlast, hsound⟩ :=
    broadcast_sound .empty .default [.range m ⟨1, 8⟩, .fresh .type, .relation r] .refl hnext rfl hresolved
  have hquery : (rest.query r).singleOutput? = some ([.tensor a, .tensor b], .hole ⟨0, .type⟩) := rfl
  cases hquery.symm.trans hq
  have hshape : shape = joined.shape := by
    have hlast := congrArg List.getLast? (hreports.symm.trans hlast)
    rw [List.getLast?_concat] at hlast
    have hassigned : Ty.tensor joined = .tensor ⟨shape, a.dtype⟩ :=
      (Report.assigned.inj (Option.some.inj hlast)).2
    exact (congrArg TensorType.shape (Ty.tensor.inj hassigned)).symm
  have hranges : ∀ x range, Setup.range x range ∈ ([.range m ⟨1, 8⟩, .fresh .type, .relation r] :
      List Setup) → range.Contains (σ x) := by
    intro x range h
    simp only [List.mem_cons, Setup.range.injEq, reduceCtorEq, List.not_mem_nil, or_false] at h
    rw [h.2]
    decide
  have htrue : ∀ c ∈ (rest.invoke 0 r).deferred, ∀ t, c.eval σ = some t → t = true := by
    intro c hc t ht
    rw [hdeferred, List.mem_singleton] at hc
    rw [hc] at ht
    exact (Option.some.inj ht).symm
  obtain ⟨-, heval⟩ := hsound σ hranges htrue [4, 1] [4, 3] [4, 3] hxs hys hzs
  rw [hshape] at heval
  exact ⟨hnext, hresolved, hdeferred, hreports, hxs, hys, hzs,
    heval 0 (by simp [axis, joined]) (by simp [Stretched, axis, a, b])⟩

/-- A `?` takes the size of the other shape. Where that is one, and five are met at run time, the joint
extent is five, but what is reported has one as its value. -/
theorem broadcast_stretched_unknown :
    let n : SizeVar := ⟨0, "n"⟩
    let a : TensorType := ⟨[.any], .float 32⟩
    let b : TensorType := ⟨[.var n], .float 32⟩
    let r : Relation := .broadcast a b ⟨0, .type⟩ .empty .dummy
    let s := prepared .empty .default [.fresh .type, .relation r]
    let rest := { s with queue := [] }
    let σ : Assignment := fun _ => 1
    s.next? = some (0, r, rest) ∧ (rest.outcome r).resolved = true ∧
      (rest.outcome r).reports = [.assigned (.hole ⟨0, .type⟩) (.tensor b)] ∧
      (rest.invoke 0 r).deferred = [] ∧ s.solve.2 = .ok ⟨[(0, .tensor b)], []⟩ ∧
      List.Forall₂ (Measures σ) a.shape [5] ∧ List.Forall₂ (Measures σ) b.shape [1] ∧
      Broadcasts [5] [1] ([5] : List Int) ∧
      axis (.const 1) b.shape 0 ≠ .any ∧ (axis (.const 1) b.shape 0).eval σ ≠ some (axis 1 [5] 0) := by
  intro n a b r s rest σ
  have hzs : Broadcasts [5] [1] ([5] : List Int) := broadcasts_of_fits (by decide)
  exact ⟨rfl, by cbv, by cbv, by cbv, by cbv, .cons (Or.inl rfl) .nil, .cons (Or.inr rfl) .nil, hzs,
    by simp [axis, b], by decide⟩

end Session

end TensorTyping
