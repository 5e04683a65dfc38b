import TensorTyping.Ranges
import TensorTyping.Session.Classes
import TensorTyping.Session.Equations
import TensorTyping.Session.TypeError
import TensorTyping.Ty.Walk

namespace TensorTyping

/-- Where types are unified: what is known of dimensions there, whether undecided ones are errors,
    and the location of what goes wrong. -/
structure Site where
  known : Ranges
  strict : Bool
  span : Span

/-- What unification changes: the classes, the conditions put off so far, and the relations to look
    at again, in order. -/
structure Progress where
  classes : Classes
  deferred : List Cond
  woken : List Nat

namespace Progress

/-- Puts off a condition, unless it is put off already. -/
def defer (s : Progress) (c : Cond) : Progress :=
  if c ∈ s.deferred then s else { s with deferred := s.deferred ++ [c] }

/-- Joins the classes of two placeholders and wakes the users of both. -/
def join (s : Progress) (p q : Placeholder) : Progress :=
  let classes := s.classes.join (s.classes.leader p.id) (s.classes.leader q.id)
  { s with classes, woken := s.woken ++ classes.users p.id }

/-- Binds the class of a placeholder and wakes its users, which from then on also wait for the
    placeholders of the type. -/
def bind (s : Progress) (p : Placeholder) (t : Ty) : Progress :=
  let users := s.classes.users p.id
  let waiting := t.holes.foldl (fun c q => c.use (c.leader q.id) users) s.classes
  { s with classes := waiting.bind (waiting.leader p.id) t, woken := s.woken ++ users }

end Progress

namespace Site

/-- Whether two dimensions of an axis are compatible, with the condition that is put off if it is
    not decided. A `?` is compatible with everything. -/
def compareAxis (site : Site) (s : Progress) (axis : Nat) (a b : Dim) :
    Except TypeError Progress :=
  if a = .any ∨ b = .any then .ok s
  else
    match site.known.compare .eq a b with
    | .proven => .ok s
    | .unknown =>
      if site.strict then .error (.dimensionMismatch axis a b site.span) else .ok (s.defer (.eq a b))
    | .refuted => .error (.dimensionMismatch axis a b site.span)

/-- Compares two shapes of one rank, from an axis on. -/
def compareAxes (site : Site) (s : Progress) (axis : Nat) :
    List (Dim × Dim) → Except TypeError Progress
  | [] => .ok s
  | (a, b) :: axes => do
    let s ← site.compareAxis s axis a b
    site.compareAxes s (axis + 1) axes

/-- The error for two types of the same form. -/
def mismatch {α : Type} (site : Site) (t u : Ty) (difference : Option Difference) :
    Except TypeError α :=
  .error (.mismatch t u difference site.span)

/-- Compares two tensors: element types, then ranks, then dimensions. -/
def compareTensors (site : Site) (s : Progress) (a b : TensorType) : Except TypeError Progress :=
  if a.dtype ≠ b.dtype then
    site.mismatch (.tensor a) (.tensor b) (some (.elementType a.dtype b.dtype))
  else if a.rank ≠ b.rank then site.mismatch (.tensor a) (.tensor b) (some (.rank a.rank b.rank))
  else site.compareAxes s 0 (a.shape.zip b.shape)

/-- What one equation comes to. -/
inductive Step where
  /-- The equation is solved. -/
  | solved (s : Progress)
  /-- The equation is taken apart. -/
  | parts (s : Progress) (eqs : Equations)
  /-- A placeholder is solved for a type. -/
  | eliminated (s : Progress) (id : UInt32) (image : Ty)

/-- Solves an equation between two placeholders. Of two classes, the smaller id stands for both from
    then on. -/
def joinHoles (site : Site) (s : Progress) (p q : Placeholder) : Except TypeError Step :=
  let s := { s with classes := (s.classes.ensure p).ensure q }
  if s.classes.leader p.id = s.classes.leader q.id then .ok (.solved s)
  else
    let expected := (s.classes.least p).kind
    let found := (s.classes.least q).kind
    if expected ≠ found then .error (.kindMismatch expected found site.span)
    else if q.id < p.id then .ok (.eliminated (s.join p q) p.id (.hole ⟨q.id, expected⟩))
    else .ok (.eliminated (s.join p q) q.id (.hole ⟨p.id, expected⟩))

/-- Solves an equation between a placeholder and a type of another form. -/
def bindHole (site : Site) (s : Progress) (p : Placeholder) (t : Ty) : Except TypeError Step :=
  let s := { s with classes := (s.classes.ensure p).ensureAll t.holes }
  if t.holes.any fun q => s.classes.leader q.id = s.classes.leader p.id then
    .error (.occurs p t site.span)
  else .ok (.eliminated (s.bind p t) p.id t)

/-- Solves one equation between two nodes or takes it apart. Where both sides are one node, there is
    nothing to solve; see `Steps`. -/
def step (site : Site) (s : Progress) : Ty → Ty → Except TypeError Step
  | .hole p, .hole q => site.joinHoles s p q
  | .hole p, t => site.bindHole s p t
  | t, .hole p => site.bindHole s p t
  | .tensor a, .tensor b => (site.compareTensors s a b).map .solved
  | .tuple ts, .tuple us =>
    if ts.length ≠ us.length then
      site.mismatch (.tuple ts) (.tuple us) (some (.tupleArity ts.length us.length))
    else .ok (.parts s (ts.zip us))
  | .ref t, .ref u => .ok (.parts s [(t, u)])
  | .call f ts, .call g us =>
    if ts.length ≠ us.length then
      site.mismatch (.call f ts) (.call g us) (some (.typeArguments ts.length us.length))
    else .ok (.parts s ((f, g) :: ts.zip us))
  | .func ts r vs, .func us r' ws =>
    if ts.length ≠ us.length then
      site.mismatch (.func ts r vs) (.func us r' ws) (some (.parameters ts.length us.length))
    else if vs ≠ ws then site.mismatch (.func ts r vs) (.func us r' ws) (some .typeParameters)
    else .ok (.parts s (ts.zip us ++ [(r, r')]))
  | .var v, .var w =>
    if v.id = w.id then .ok (.solved s) else site.mismatch (.var v) (.var w) none
  | .global g, .global h =>
    if g.name = h.name then .ok (.solved s) else site.mismatch (.global g) (.global h) none
  | t, u => site.mismatch t u none

private theorem ids_zip {ts us : List Ty} {x : UInt32} (h : x ∈ Equations.ids (ts.zip us)) :
    (∃ t ∈ ts, x ∈ t.ids) ∨ ∃ u ∈ us, x ∈ u.ids := by
  simp only [Equations.ids, List.mem_flatMap, List.mem_append] at h
  obtain ⟨⟨t, u⟩, hmem, ht | hu⟩ := h
  · exact Or.inl ⟨t, (List.of_mem_zip hmem).1, ht⟩
  · exact Or.inr ⟨u, (List.of_mem_zip hmem).2, hu⟩

private theorem nodes_zip_le (ts us : List Ty) :
    Equations.nodes (ts.zip us) ≤ Ty.nodesAll ts + Ty.nodesAll us := by
  induction ts generalizing us with
  | nil => simp [Equations.nodes]
  | cons t ts ih =>
    cases us with
    | nil => simp [Equations.nodes]
    | cons u us =>
      have := ih us
      simp only [List.zip_cons_cons, Equations.nodes, Ty.nodesAll]
      omega

private theorem ids_occurrencesAll {ts : List Ty} {x : UInt32} (h : ∃ t ∈ ts, x ∈ t.ids) :
    x ∈ (Ty.occurrencesAll ts).map (·.id) := by
  obtain ⟨t, ht, hx⟩ := h
  simp only [Ty.ids, List.mem_map] at hx ⊢
  obtain ⟨p, hp, rfl⟩ := hx
  exact ⟨p, by rw [Ty.occurrencesAll_eq_flatMap, List.mem_flatMap]; exact ⟨t, ht, hp⟩, rfl⟩

/-- The parts of an equation hold no further placeholders and have fewer nodes. -/
theorem step_parts {site : Site} {s s' : Progress} {t u : Ty} {eqs : Equations}
    (h : site.step s t u = .ok (.parts s' eqs)) :
    (∀ x ∈ eqs.ids, x ∈ t.ids ∨ x ∈ u.ids) ∧ eqs.nodes < t.nodes + u.nodes := by
  unfold step at h
  split at h
  · unfold joinHoles at h
    grind
  · unfold bindHole at h
    grind
  · unfold bindHole at h
    grind
  · rename_i a b
    cases hc : site.compareTensors s a b <;> simp [hc, Except.map] at h
  · rename_i ts us
    split at h
    · simp [mismatch] at h
    · cases h
      refine ⟨fun x hx => ?_, ?_⟩
      · simpa only [Ty.ids, Ty.occurrences] using (ids_zip hx).imp ids_occurrencesAll ids_occurrencesAll
      · have := nodes_zip_le ts us
        simp only [Ty.nodes]
        omega
  · cases h
    refine ⟨fun x hx => ?_, ?_⟩
    · simpa [Equations.ids, Ty.ids, Ty.occurrences] using hx
    · simp only [Equations.nodes, Ty.nodes]
      omega
  · rename_i f ts g us
    split at h
    · simp [mismatch] at h
    · cases h
      refine ⟨fun x hx => ?_, ?_⟩
      · simp only [Equations.ids, List.flatMap_cons, List.mem_append] at hx
        simp only [Ty.ids, Ty.occurrences, List.map_append, List.mem_append]
        rcases hx with (hf | hg) | hx
        · exact Or.inl (Or.inl hf)
        · exact Or.inr (Or.inl hg)
        · exact (ids_zip hx).imp (fun h => Or.inr (ids_occurrencesAll h))
            fun h => Or.inr (ids_occurrencesAll h)
      · have := nodes_zip_le ts us
        simp only [Equations.nodes, Ty.nodes]
        omega
  · rename_i ts r vs us r' ws
    split at h
    · simp [mismatch] at h
    · split at h
      · simp [mismatch] at h
      · cases h
        refine ⟨fun x hx => ?_, ?_⟩
        · simp only [Equations.ids, List.flatMap_append, List.flatMap_cons, List.flatMap_nil,
            List.append_nil, List.mem_append] at hx
          simp only [Ty.ids, Ty.occurrences, List.map_append, List.mem_append]
          rcases hx with hx | hr | hr'
          · exact (ids_zip hx).imp (fun h => Or.inl (ids_occurrencesAll h))
              fun h => Or.inl (ids_occurrencesAll h)
          · exact Or.inl (Or.inr hr)
          · exact Or.inr (Or.inr hr')
        · have := nodes_zip_le ts us
          simp only [Equations.nodes_append, Equations.nodes, Ty.nodes]
          omega
  · split at h <;> simp [mismatch] at h
  · split at h <;> simp [mismatch] at h
  · simp [mismatch] at h

private theorem joinHoles_eliminated {site : Site} {s s' : Progress} {p q : Placeholder}
    {id : UInt32} {image : Ty} (h : site.joinHoles s p q = .ok (.eliminated s' id image)) :
    p.id ≠ q.id ∧ ((id = p.id ∧ image.ids = [q.id]) ∨ (id = q.id ∧ image.ids = [p.id])) := by
  unfold joinHoles at h
  dsimp only at h
  split at h
  · cases h
  · rename_i hleader
    refine ⟨fun heq => hleader (by rw [heq]), ?_⟩
    split at h
    · cases h
    · split at h <;> cases h
      · exact Or.inl ⟨rfl, rfl⟩
      · exact Or.inr ⟨rfl, rfl⟩

private theorem bindHole_eliminated {site : Site} {s s' : Progress} {p : Placeholder} {t : Ty}
    {id : UInt32} {image : Ty} (h : site.bindHole s p t = .ok (.eliminated s' id image)) :
    id = p.id ∧ image = t ∧ p.id ∉ t.ids := by
  unfold bindHole at h
  dsimp only at h
  split at h
  · cases h
  · rename_i hocc
    cases h
    refine ⟨rfl, rfl, fun hmem => hocc ?_⟩
    obtain ⟨q, hq, hid⟩ := List.mem_map.mp (Ty.id_mem_holes.mpr hmem)
    exact List.any_eq_true.mpr ⟨q, hq, by simp [hid]⟩

/-- A placeholder that is solved for occurs in the equation, and not in its image. -/
theorem step_eliminated {site : Site} {s s' : Progress} {t u image : Ty} {id : UInt32}
    (h : site.step s t u = .ok (.eliminated s' id image)) :
    (id ∈ t.ids ∨ id ∈ u.ids) ∧ (∀ x ∈ image.ids, x ∈ t.ids ∨ x ∈ u.ids) ∧ id ∉ image.ids := by
  have hhole : ∀ p : Placeholder, p.id ∈ (Ty.hole p).ids := fun p => by simp [Ty.ids, Ty.occurrences]
  unfold step at h
  split at h
  · rename_i p q
    obtain ⟨hne, ⟨rfl, himage⟩ | ⟨rfl, himage⟩⟩ := joinHoles_eliminated h
    · refine ⟨Or.inl (hhole p), ?_, ?_⟩ <;> simp [himage, hne, hhole]
    · refine ⟨Or.inr (hhole q), ?_, ?_⟩ <;> simp [himage, Ne.symm hne, hhole]
  · rename_i p _
    obtain ⟨rfl, rfl, hfree⟩ := bindHole_eliminated h
    exact ⟨Or.inl (hhole p), fun _ hx => Or.inr hx, hfree⟩
  · rename_i p _
    obtain ⟨rfl, rfl, hfree⟩ := bindHole_eliminated h
    exact ⟨Or.inr (hhole p), fun _ hx => Or.inl hx, hfree⟩
  · rename_i a b
    cases hc : site.compareTensors s a b <;> simp [hc, Except.map] at h
  all_goals
    (repeat' split at h) <;> simp [mismatch] at h

private theorem lex_of_le_of_lt {a b c d : Nat} (hle : a ≤ c) (hlt : b < d) :
    Prod.Lex (· < ·) (· < ·) (a, b) (c, d) := by
  rcases Nat.lt_or_eq_of_le hle with h | rfl
  · exact Prod.Lex.left _ _ h
  · exact Prod.Lex.right _ hlt

/-- Solves equations one after another. Those still to be solved are always kept resolved, which is
    why each binding or joining is also carried out in them. -/
def solve (site : Site) (s : Progress) (eqs : Equations) : Except TypeError Progress :=
  match eqs with
  | [] => .ok s
  | (t, u) :: rest =>
    match _step : site.step s t u with
    | .error e => .error e
    | .ok (.solved s') => site.solve s' rest
    | .ok (.parts s' eqs') => site.solve s' (eqs' ++ rest)
    | .ok (.eliminated s' id image) => site.solve s' (Equations.eliminate id image rest)
termination_by (distinctCount eqs.ids, eqs.nodes)
decreasing_by
  · have hle : distinctCount (Equations.ids rest) ≤ distinctCount (Equations.ids ((t, u) :: rest)) :=
      distinctCount_le fun x hx => by simp_all [Equations.ids]
    have hlt : Equations.nodes rest < Equations.nodes ((t, u) :: rest) := by
      have := t.nodes_pos
      simp only [Equations.nodes]
      omega
    exact lex_of_le_of_lt hle hlt
  · obtain ⟨hids, hnodes⟩ := step_parts _step
    have hle : distinctCount (Equations.ids (eqs' ++ rest)) ≤
        distinctCount (Equations.ids ((t, u) :: rest)) :=
      distinctCount_le fun x hx => by
        simp only [Equations.ids, List.flatMap_append, List.flatMap_cons, List.mem_append] at hids hx ⊢
        exact hx.imp_left (hids x)
    have hlt : Equations.nodes (eqs' ++ rest) < Equations.nodes ((t, u) :: rest) := by
      simp only [Equations.nodes_append, Equations.nodes]
      omega
    exact lex_of_le_of_lt hle hlt
  · obtain ⟨hid, himage, hfree⟩ := step_eliminated _step
    apply Prod.Lex.left
    apply Equations.distinctCount_eliminate_lt ((t, u) :: rest) _ _ _ hfree
    · intro x hx
      exact List.mem_flatMap.mpr <| (List.mem_flatMap.mp hx).imp fun e he =>
        ⟨List.mem_cons_of_mem _ he.1, he.2⟩
    · intro x hx
      exact List.mem_flatMap.mpr ⟨(t, u), List.mem_cons_self, List.mem_append.mpr (himage x hx)⟩
    · exact List.mem_flatMap.mpr ⟨(t, u), List.mem_cons_self, List.mem_append.mpr hid⟩

/-- Makes two types equal, or says why they cannot be. -/
def unify (site : Site) (s : Progress) (t u : Ty) : Except TypeError Progress :=
  site.solve s [(s.classes.resolve t, s.classes.resolve u)]

end Site

end TensorTyping
