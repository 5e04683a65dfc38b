import TensorTyping.Ty.Replace

namespace TensorTyping

namespace Ty

mutual

/-- The number of nodes of a type. -/
def nodes : Ty → Nat
  | tensor _ | var _ | global _ | hole _ => 1
  | tuple fields => nodesAll fields + 1
  | ref value => value.nodes + 1
  | call callee args => callee.nodes + nodesAll args + 1
  | func params result _ => nodesAll params + result.nodes + 1

/-- The number of nodes of a list of types. -/
def nodesAll : List Ty → Nat
  | [] => 0
  | t :: ts => t.nodes + nodesAll ts

end

theorem nodes_pos (t : Ty) : 0 < t.nodes := by
  cases t <;> simp [nodes]

/-- Puts a type in place of one placeholder. -/
def eliminate (t : Ty) (id : UInt32) (image : Ty) : Ty :=
  t.replace fun p => if p.id = id then some image else none

theorem mem_ids_eliminate {id other : UInt32} {image t : Ty} (h : other ∈ (t.eliminate id image).ids) :
    other ∈ image.ids ∨ (other ∈ t.ids ∧ other ≠ id) := by
  rw [eliminate, replace_eq_subst] at h
  simp only [ids, List.mem_map] at h ⊢
  obtain ⟨p, hp, rfl⟩ := h
  obtain ⟨q, hq, hpq⟩ := mem_occurrences_subst.mp hp
  by_cases hid : q.id = id
  · rw [if_pos hid] at hpq
    exact Or.inl ⟨p, hpq, rfl⟩
  · rw [if_neg hid, Option.getD_none, occurrences, List.mem_singleton] at hpq
    subst hpq
    exact Or.inr ⟨⟨p, hq, rfl⟩, hid⟩

end Ty

/-- The number of distinct members of a list. -/
def distinctCount : List UInt32 → Nat
  | [] => 0
  | x :: xs => if x ∈ xs then distinctCount xs else distinctCount xs + 1

/-- Leaving out all occurrences of one member lowers the count by one at most. -/
private theorem distinctCount_le_filter (x : UInt32) (xs : List UInt32) :
    distinctCount xs ≤ distinctCount (xs.filter (· ≠ x)) + 1 ∧
      (x ∉ xs → distinctCount xs = distinctCount (xs.filter (· ≠ x))) := by
  induction xs with
  | nil => simp [distinctCount]
  | cons y ys ih =>
    by_cases hxy : y = x
    · subst hxy
      by_cases hmem : y ∈ ys
      · simpa [distinctCount, hmem] using ih.1
      · simp [distinctCount, hmem, ih.2 hmem]
    · have hmem : y ∈ ys.filter (· ≠ x) ↔ y ∈ ys := by simp [hxy]
      simp only [List.filter_cons, ne_eq, hxy, not_false_eq_true, decide_true, if_true,
        distinctCount, hmem, List.mem_cons, Ne.symm hxy, false_or] at ih ⊢
      constructor
      · split <;> omega
      · intro hx
        simp [ih.2 hx]

/-- A list whose members all occur in another has no more distinct ones. -/
theorem distinctCount_le {xs ys : List UInt32} (h : ∀ x ∈ xs, x ∈ ys) :
    distinctCount xs ≤ distinctCount ys := by
  induction ys generalizing xs with
  | nil =>
    have : xs = [] := List.eq_nil_iff_forall_not_mem.mpr fun x hx => by simpa using h x hx
    simp [this]
  | cons y ys ih =>
    have hfilter : ∀ x ∈ xs.filter (· ≠ y), x ∈ ys := by
      intro x hx
      simp only [List.mem_filter, decide_eq_true_eq] at hx
      rcases List.mem_cons.mp (h x hx.1) with rfl | hmem
      · exact absurd rfl hx.2
      · exact hmem
    by_cases hy : y ∈ ys
    · have : ∀ x ∈ xs, x ∈ ys := by
        intro x hx
        rcases List.mem_cons.mp (h x hx) with rfl | hmem
        · exact hy
        · exact hmem
      simpa [distinctCount, hy] using ih this
    · have := ih hfilter
      have := (distinctCount_le_filter y xs).1
      simp only [distinctCount, hy, if_false]
      omega

/-- It has fewer if it lacks one of them. -/
theorem distinctCount_lt {xs ys : List UInt32} {y : UInt32} (h : ∀ x ∈ xs, x ∈ ys) (hy : y ∈ ys)
    (hnot : y ∉ xs) : distinctCount xs < distinctCount ys := by
  have : distinctCount (y :: xs) ≤ distinctCount ys := by
    apply distinctCount_le
    intro x hx
    rcases List.mem_cons.mp hx with rfl | hmem
    · exact hy
    · exact h x hmem
  simp only [distinctCount, hnot, if_false] at this
  omega

/-- Pairs of types that are to become equal. -/
abbrev Equations := List (Ty × Ty)

namespace Equations

/-- The ids of the placeholders in all equations. -/
def ids (eqs : Equations) : List UInt32 := eqs.flatMap fun e => e.1.ids ++ e.2.ids

/-- The number of nodes in all equations. -/
def nodes : Equations → Nat
  | [] => 0
  | e :: eqs => e.1.nodes + e.2.nodes + nodes eqs

theorem nodes_append (eqs more : Equations) : nodes (eqs ++ more) = nodes eqs + nodes more := by
  induction eqs with
  | nil => simp [nodes]
  | cons e eqs ih => simp [nodes, ih, Nat.add_assoc]

/-- Puts a type in place of one placeholder in all equations. -/
def eliminate (id : UInt32) (image : Ty) (eqs : Equations) : Equations :=
  eqs.map fun e => (e.1.eliminate id image, e.2.eliminate id image)

/-- The ids after an elimination are those of the image and the others of before. -/
theorem mem_ids_eliminate {id other : UInt32} {image : Ty} {eqs : Equations}
    (h : other ∈ (eqs.eliminate id image).ids) :
    other ∈ image.ids ∨ (other ∈ eqs.ids ∧ other ≠ id) := by
  simp only [ids, eliminate, List.flatMap_map, List.mem_flatMap, List.mem_append] at h ⊢
  obtain ⟨e, he, hl | hr⟩ := h
  · exact (Ty.mem_ids_eliminate hl).imp_right fun ⟨h, hne⟩ => ⟨⟨e, he, Or.inl h⟩, hne⟩
  · exact (Ty.mem_ids_eliminate hr).imp_right fun ⟨h, hne⟩ => ⟨⟨e, he, Or.inr h⟩, hne⟩

/-- Eliminating a placeholder that occurs, in favour of a type in which it does not, leaves fewer
    distinct ones. -/
theorem distinctCount_eliminate_lt {id : UInt32} {image : Ty} {eqs : Equations} (all : Equations)
    (heqs : ∀ x ∈ eqs.ids, x ∈ all.ids) (himage : ∀ x ∈ image.ids, x ∈ all.ids)
    (hid : id ∈ all.ids) (hfree : id ∉ image.ids) :
    distinctCount (eqs.eliminate id image).ids < distinctCount all.ids := by
  refine distinctCount_lt ?_ hid ?_
  · intro x hx
    rcases mem_ids_eliminate hx with h | ⟨h, -⟩
    · exact himage x h
    · exact heqs x h
  · intro hx
    rcases mem_ids_eliminate hx with h | ⟨-, hne⟩
    · exact hfree h
    · exact hne rfl

end Equations

end TensorTyping
