import TensorTyping.Proofs.Broadcast.Shapes
import TensorTyping.Proofs.Session.Single

namespace TensorTyping

open Shape

/-- Two words as dimensions. -/
def Shape.literals (e : Word × Word) : Dim × Dim := (.const e.1, .const e.2)

/-- The axes of two shapes of literals. -/
theorem Shape.axes_const (xs ys : List Word) :
    axes (xs.map .const) (ys.map .const) = ((positions (max xs.length ys.length)).map
      fun i => (axis 1 xs i, axis 1 ys i)).map literals := by
  rw [axes_eq_map, List.map_map, List.length_map, List.length_map]
  refine List.map_congr_left fun i _ => ?_
  rw [axis_map, axis_map]
  rfl

namespace Session

open Rule

variable {s : Session} {next : List Dim → Resolution}

section step

variable {m n : Word} (hs : s.failure = none) (hm : 0 ≤ m) (hn : 0 ≤ n) (axes : List (Dim × Dim))

include hs hm hn

theorem upshot_joinShapes_fits (h : Fits m n) :
    s.upshot (joinShapes (literals (m, n) :: axes) next) =
      s.upshot (joinShapes axes fun shape => next (.const (joint m n) :: shape)) := by
  rw [literals, joinShapes, joint]
  by_cases hm1 : m = 1
  · simp [hm1]
  · by_cases hn1 : n = 1
    · simp [hm1, hn1]
    · obtain rfl : m = n := h.resolve_right fun h => h.elim hm1 hn1
      have hproven : s.known.prove (.eq (.const m) (.const m)) = .proven := by
        have hm := Int64.le_iff_toInt_le.mp hm
        rw [Ranges.prove, Ranges.compare_const hm hm]
        simp [Comparison.holds, Verdict.ofBool]
      simp [hm1, upshot_require_proven hs hproven]

theorem upshot_joinShapes_misfit (h : ¬ Fits m n) :
    s.upshot (joinShapes (literals (m, n) :: axes) next) =
      (s.fail (.assertionFailed (.eq (.const m) (.const n)) s.location), false) := by
  obtain ⟨hmn, hm1, hn1⟩ : m ≠ n ∧ m ≠ 1 ∧ n ≠ 1 := by simpa [Fits] using h
  have hrefuted : s.known.prove (.eq (.const m) (.const n)) = .refuted := by
    have hne : m.toInt ≠ n.toInt := fun h => hmn (Int64.toInt_inj.mp h)
    rw [Ranges.prove, Ranges.compare_const (Int64.le_iff_toInt_le.mp hm) (Int64.le_iff_toInt_le.mp hn)]
    simp [Comparison.holds, Verdict.ofBool, hne]
  rw [literals, joinShapes, if_neg (by simp [hm1]), if_neg (by simp [hn1]),
    upshot_require_refuted hs hrefuted]

end step

/-- Pairs of literals that go together are joined without a trace in the session. -/
theorem upshot_joinShapes_append (hs : s.failure = none) {es : List (Word × Word)}
    (hes : ∀ e ∈ es, 0 ≤ e.1 ∧ 0 ≤ e.2 ∧ Fits e.1 e.2) (axes : List (Dim × Dim))
    (next : List Dim → Resolution) :
    s.upshot (joinShapes (es.map literals ++ axes) next) = s.upshot
      (joinShapes axes fun shape => next (es.map (fun e => .const (joint e.1 e.2)) ++ shape)) := by
  induction es generalizing next with
  | nil => rfl
  | cons e es ih =>
    rw [List.forall_mem_cons] at hes
    obtain ⟨⟨hm, hn, hfits⟩, hes⟩ := hes
    rw [List.map_cons, List.cons_append, upshot_joinShapes_fits hs hm hn _ hfits, ih hes]
    rfl

/-- Two shapes of literals are joined, or the leftmost axis where they do not fit fails. -/
theorem upshot_joinShapes (hs : s.failure = none) {xs ys : List Word} (hxs : ∀ x ∈ xs, 0 ≤ x)
    (hys : ∀ y ∈ ys, 0 ≤ y) (next : List Dim → Resolution) :
    (∃ zs, Broadcasts xs ys zs ∧
      s.upshot (joinShapes (axes (xs.map .const) (ys.map .const)) next) =
        s.upshot (next (zs.map .const))) ∨
      ∃ i, ¬ Fits (axis 1 xs i) (axis 1 ys i) ∧
        (∀ j, i < j → Fits (axis 1 xs j) (axis 1 ys j)) ∧
        s.upshot (joinShapes (axes (xs.map .const) (ys.map .const)) next) =
          (s.fail (.assertionFailed (.eq (.const (axis 1 xs i)) (.const (axis 1 ys i))) s.location),
            false) := by
  let pair : Nat → Word × Word := fun i => (axis 1 xs i, axis 1 ys i)
  have hnonneg : ∀ i, 0 ≤ axis 1 xs i ∧ 0 ≤ axis 1 ys i := fun i =>
    ⟨axis_mem (by decide) hxs i, axis_mem (by decide) hys i⟩
  have hfitting : ∀ is : List Nat, (∀ i ∈ is, Fits (axis 1 xs i) (axis 1 ys i)) →
      ∀ e ∈ is.map pair, 0 ≤ e.1 ∧ 0 ≤ e.2 ∧ Fits e.1 e.2 := by
    intro is his e he
    obtain ⟨i, hi, rfl⟩ := List.mem_map.mp he
    exact ⟨(hnonneg i).1, (hnonneg i).2, his i hi⟩
  rw [axes_const]
  obtain hall | ⟨before, i, after, heq, hbefore, hi, hleft⟩ :=
    forall_or_leftmost (fun i => Fits (axis 1 xs i) (axis 1 ys i)) (max xs.length ys.length)
  · refine Or.inl ⟨_, broadcasts_of_fits hall, ?_⟩
    have hjoin := upshot_joinShapes_append hs (hfitting _ hall) [] next
    have hshape : ((positions (max xs.length ys.length)).map pair).map
        (fun e => Dim.const (joint e.1 e.2)) =
          ((positions (max xs.length ys.length)).map fun i => joint (axis 1 xs i) (axis 1 ys i)).map
            .const := by
      rw [List.map_map, List.map_map]
      rfl
    rw [List.append_nil, joinShapes, List.append_nil, hshape] at hjoin
    exact hjoin
  · refine Or.inr ⟨i, hi, fun j hij => ?_, ?_⟩
    · by_cases hj : j < max xs.length ys.length
      · exact hleft j hij hj
      · exact fits_of_le (Nat.le_of_not_lt hj)
    · rw [heq, List.map_append, List.map_append, List.map_cons, List.map_cons,
        upshot_joinShapes_append hs (hfitting _ hbefore)]
      exact upshot_joinShapes_misfit hs (hnonneg i).1 (hnonneg i).2 _ hi

/-- What a session of one broadcast comes to. -/
theorem solve_broadcast (globals : Globals) (config : Config) (known : Ranges) (kind : Kind)
    (attrs : Attrs) (span : Span) (dtype : DataType) {xs ys : List Word} (hxs : ∀ x ∈ xs, 0 ≤ x)
    (hys : ∀ y ∈ ys, 0 ≤ y) :
    let r : Relation := .broadcast (.ofWords xs dtype) (.ofWords ys dtype) ⟨0, kind⟩ attrs span
    let result := (single globals config.raised known kind r).solve.2
    (∃ zs, Broadcasts xs ys zs ∧ result = .ok ⟨[(0, .tensor (.ofWords zs dtype))], []⟩) ∨
      ∃ i, ¬ Fits (axis 1 xs i) (axis 1 ys i) ∧
        (∀ j, i < j → Fits (axis 1 xs j) (axis 1 ys j)) ∧ result =
          .error [.assertionFailed (.eq (.const (axis 1 xs i)) (.const (axis 1 ys i))) span] := by
  intro r result
  have hbudget := config.budget_raised_pos 1
  let s := running globals config.raised known kind r
  have hs : s.failure = none := rfl
  have hresolve : r.rule.resolve (s.query r) =
      joinShapes (axes (xs.map .const) (ys.map .const)) fun shape =>
        .conclude (.hole ⟨0, kind⟩) (.tensor ⟨shape, dtype⟩) := by
    have hquery : (s.query r).singleOutput? = some ([.tensor (.ofWords xs dtype),
        .tensor (.ofWords ys dtype)], .hole ⟨0, kind⟩) := rfl
    exact resolve_broadcast hquery rfl
  obtain ⟨zs, hzs, hjoin⟩ | ⟨i, hi, hleft, hjoin⟩ := upshot_joinShapes hs hxs hys fun shape =>
      .conclude (.hole ⟨0, kind⟩) (.tensor ⟨shape, dtype⟩)
  · rw [← hresolve] at hjoin
    exact Or.inl ⟨zs, hzs, solve_single_assigned hbudget hjoin⟩
  · rw [← hresolve] at hjoin
    exact Or.inr ⟨i, hi, hleft, solve_single_failed hbudget hjoin (failure_fail hs _)⟩

theorem add_broadcast (globals : Globals) (config : Config) (ranges : List (SizeVar × Range))
    (kind : Kind) (a b : TensorType) (attrs : Attrs) (span : Span) :
    let fresh := (prepared globals config (ranges.map fun e => .range e.1 e.2)).fresh kind
    fresh.1 = ⟨0, kind⟩ ∧ fresh.2.add (.broadcast a b fresh.1 attrs span) =
      single globals config.raised (Ranges.none.bindAll ranges) kind
        (.broadcast a b ⟨0, kind⟩ attrs span) := by
  rw [prepared_ranges]
  exact ⟨rfl, rfl⟩

/-- A broadcast of two tensors of one element type, whose dimensions are literals that are not negative,
to a fresh placeholder. It succeeds exactly if the extents go together on every axis, and finds out
nothing but the joint tensor; otherwise the only error is the equality of the extents on the leftmost
axis where they do not. -/
theorem broadcast_static (globals : Globals) (config : Config) (ranges : List (SizeVar × Range))
    (kind : Kind) (attrs : Attrs) (span : Span) (dtype : DataType) (xs ys : List Word)
    (hxs : ∀ x ∈ xs, 0 ≤ x) (hys : ∀ y ∈ ys, 0 ≤ y) :
    let fresh := (prepared globals config (ranges.map fun e => .range e.1 e.2)).fresh kind
    let s := fresh.2.add (.broadcast (.ofWords xs dtype) (.ofWords ys dtype) fresh.1 attrs span)
    ((∃ sol, s.solve.2 = .ok sol) ↔ ∀ i, Fits (axis 1 xs i) (axis 1 ys i)) ∧
      (∀ sol, s.solve.2 = .ok sol → ∃ zs, Broadcasts xs ys zs ∧
        sol = ⟨[(fresh.1.id, .tensor (.ofWords zs dtype))], []⟩) ∧
      ∀ errors, s.solve.2 = .error errors → ∃ i, ¬ Fits (axis 1 xs i) (axis 1 ys i) ∧
        (∀ j, i < j → Fits (axis 1 xs j) (axis 1 ys j)) ∧
        errors = [.assertionFailed (.eq (.const (axis 1 xs i)) (.const (axis 1 ys i))) span] := by
  intro fresh s
  obtain ⟨hfresh, hs⟩ := add_broadcast globals config ranges kind (.ofWords xs dtype)
    (.ofWords ys dtype) attrs span
  have hsolve := solve_broadcast globals config (Ranges.none.bindAll ranges) kind attrs span dtype
    hxs hys
  dsimp only at hsolve
  rw [← hs] at hsolve
  have hid : fresh.1.id = 0 := congrArg (·.id) hfresh
  rw [hid]
  obtain ⟨zs, hzs, hok⟩ | ⟨i, hi, hleft, herror⟩ := hsolve
  · rw [hok]
    exact ⟨⟨fun _ => hzs.fits, fun _ => ⟨_, rfl⟩⟩,
      fun sol h => ⟨zs, hzs, (Except.ok.inj h).symm⟩, nofun⟩
  · rw [herror]
    exact ⟨⟨nofun, fun h => absurd (h i) hi⟩, nofun,
      fun errors h => ⟨i, hi, hleft, (Except.error.inj h).symm⟩⟩

/-- A column of the largest extent goes together with a row; extents of two and three do not, although
they stand behind a pair that does. -/
theorem broadcast_static_column :
    let session := fun xs ys : List Word =>
      let fresh := (prepared .empty .default [.range ⟨0, "n"⟩ ⟨1, 8⟩]).fresh .type
      fresh.2.add (.broadcast (.ofWords xs (.float 32)) (.ofWords ys (.float 32)) fresh.1 .empty .dummy)
    (∀ i, Fits (axis 1 [(9223372036854775807 : Word), 1] i) (axis 1 [(4 : Word)] i)) ∧
      (session [9223372036854775807, 1] [4]).solve.2 =
        .ok ⟨[(0, .tensor (.ofWords [9223372036854775807, 4] (.float 32)))], []⟩ ∧
      (session [7, 2] [1, 3]).solve.2 =
        .error [.assertionFailed (.eq (.const 2) (.const 3)) .dummy] ∧
      ∃ i, ¬ Fits (axis 1 [(7 : Word), 2] i) (axis 1 [(1 : Word), 3] i) := by
  intro session
  have hok : (session [9223372036854775807, 1] [4]).solve.2 =
      .ok ⟨[(0, .tensor (.ofWords [9223372036854775807, 4] (.float 32)))], []⟩ := by cbv
  have herror : (session [7, 2] [1, 3]).solve.2 =
      .error [.assertionFailed (.eq (.const 2) (.const 3)) .dummy] := by cbv
  obtain ⟨hfits, -, -⟩ := broadcast_static .empty .default [(⟨0, "n"⟩, ⟨1, 8⟩)] .type .empty .dummy
    (.float 32) [9223372036854775807, 1] [4] (by simp) (by simp)
  obtain ⟨-, -, hmisfit⟩ := broadcast_static .empty .default [(⟨0, "n"⟩, ⟨1, 8⟩)] .type .empty .dummy
    (.float 32) [7, 2] [1, 3] (by simp) (by simp)
  obtain ⟨i, hi, -⟩ := hmisfit _ herror
  exact ⟨hfits.mp ⟨_, hok⟩, hok, herror, i, hi⟩

end Session

end TensorTyping
