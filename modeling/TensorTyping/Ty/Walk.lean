import TensorTyping.Ty.Placeholders

namespace TensorTyping.Ty

/-- The types that a type is made of, from left to right. -/
def parts : Ty → List Ty
  | tensor _ | hole _ | var _ | global _ => []
  | tuple fields => fields
  | ref value => [value]
  | call callee args => callee :: args
  | func params result _ => params ++ [result]

/-- Induction over types, with a hypothesis for every part. -/
@[elab_as_elim]
theorem parts_induction {motive : Ty → Prop}
    (step : ∀ t, (∀ u ∈ t.parts, motive u) → motive t) (t : Ty) : motive t := by
  induction t using Ty.induction with
  | tensor | hole | var | global => exact step _ (by simp [parts])
  | tuple fields ih => exact step _ ih
  | ref value ih => exact step _ (by simpa [parts] using ih)
  | call callee args ihc iha => exact step _ (List.forall_mem_cons.mpr ⟨ihc, iha⟩)
  | func params result typeParams ihp ihr =>
    exact step _ (List.forall_mem_append.mpr ⟨ihp, by simpa using ihr⟩)

theorem occurrences_eq_parts (t : Ty) :
    t.occurrences = t.hole?.toList ++ t.parts.flatMap occurrences := by
  cases t <;> simp [occurrences, occurrencesAll_eq_flatMap, parts, hole?]

theorem collect_eq_parts (t : Ty) (seen : List Placeholder) :
    t.collect seen = t.parts.foldl (fun acc u => u.collect acc)
      (t.hole?.elim seen fun p => (hole p).collect seen) := by
  cases t <;> simp [collect, collectAll_eq_foldl, parts, hole?]

theorem isComplete_eq_parts (t : Ty) :
    t.isComplete = (t.hole?.isNone && t.parts.all isComplete) := by
  cases t <;> simp [isComplete, allComplete_eq_all, parts, hole?]

theorem mentions_eq_parts (id : UInt32) (t : Ty) :
    t.mentions id = (t.hole?.any (·.id = id) || t.parts.any (mentions id)) := by
  cases t <;> simp [mentions, anyMentions_eq_any, parts, hole?]

/-- The placeholders of a type are added one after the other, as the walk comes to them. -/
theorem collect_eq_foldl (t : Ty) (seen : List Placeholder) :
    t.collect seen = t.occurrences.foldl (fun acc p => (hole p).collect acc) seen := by
  induction t using parts_induction generalizing seen with
  | step t ih =>
    have hself : t.hole?.toList.foldl (fun acc p => (hole p).collect acc) seen =
        t.hole?.elim seen fun p => (hole p).collect seen := by
      cases t.hole? <;> rfl
    rw [collect_eq_parts, occurrences_eq_parts, List.foldl_append, List.foldl_flatMap, hself]
    exact List.foldl_rel rfl fun u hu acc acc' h => by rw [h, ih u hu]

/-- The first occurrence of every id in a walk, in the order of the walk. -/
structure Firsts (walk firsts : List Placeholder) : Prop where
  mem_iff : ∀ p, p ∈ firsts ↔ walk.find? (·.id = p.id) = some p
  ordered : firsts.Pairwise fun p q =>
    (walk.map (·.id)).idxOf p.id < (walk.map (·.id)).idxOf q.id

namespace Firsts

variable {walk firsts : List Placeholder}

theorem id_mem_iff (h : Firsts walk firsts) {id : UInt32} :
    id ∈ firsts.map (·.id) ↔ id ∈ walk.map (·.id) := by
  simp only [List.mem_map]
  constructor
  · rintro ⟨p, hp, rfl⟩
    exact ⟨p, List.mem_of_find?_eq_some ((h.mem_iff p).mp hp), rfl⟩
  · rintro ⟨q, hq, rfl⟩
    have hmet : (walk.find? (·.id = q.id)).isSome := List.find?_isSome.mpr ⟨q, hq, by simp⟩
    obtain ⟨p, hp⟩ := Option.isSome_iff_exists.mp hmet
    have hid : p.id = q.id := by simpa using List.find?_some hp
    exact ⟨p, (h.mem_iff p).mpr (hid ▸ hp), hid⟩

theorem nodup (h : Firsts walk firsts) : (firsts.map (·.id)).Nodup := by
  rw [List.nodup_iff_pairwise_ne, List.pairwise_map]
  refine h.ordered.imp fun {p q} hlt heq => ?_
  rw [heq] at hlt
  exact Nat.lt_irrefl _ hlt

/-- A longer walk has the first occurrences of the shorter one and, if its last placeholder has an
id not met before, that one. -/
private theorem find?_snoc {p q : Placeholder} :
    (walk ++ [p]).find? (·.id = q.id) = some q ↔
      walk.find? (·.id = q.id) = some q ∨ p.id ∉ walk.map (·.id) ∧ q = p := by
  rw [List.find?_append, Option.or_eq_some_iff]
  refine or_congr_right ⟨?_, ?_⟩
  · rintro ⟨hnone, hq⟩
    obtain rfl : q = p := by simpa using List.mem_of_find?_eq_some hq
    exact ⟨by simpa using hnone, rfl⟩
  · rintro ⟨hnew, rfl⟩
    exact ⟨by simpa using hnew, by simp⟩

/-- Walking on moves nothing that was met before. -/
private theorem ordered_snoc (h : Firsts walk firsts) (p : Placeholder) :
    firsts.Pairwise fun q r =>
      ((walk ++ [p]).map (·.id)).idxOf q.id < ((walk ++ [p]).map (·.id)).idxOf r.id := by
  have hkept {q : Placeholder} (hq : q ∈ firsts) :
      ((walk ++ [p]).map (·.id)).idxOf q.id = (walk.map (·.id)).idxOf q.id := by
    rw [List.map_append, List.idxOf_append, if_pos (h.id_mem_iff.mp (List.mem_map_of_mem hq))]
  refine h.ordered.imp_of_mem fun hq hr hlt => ?_
  rwa [hkept hq, hkept hr]

/-- Collecting keeps the list right while the walk goes on by one placeholder. -/
theorem snoc (h : Firsts walk firsts) (p : Placeholder) :
    Firsts (walk ++ [p]) ((hole p).collect firsts) := by
  have hseen : firsts.any (·.id = p.id) ↔ p.id ∈ walk.map (·.id) := by
    rw [← h.id_mem_iff]
    simp
  rw [collect]
  split
  · rename_i hany
    refine ⟨fun q => ?_, h.ordered_snoc p⟩
    rw [find?_snoc, h.mem_iff]
    exact ⟨Or.inl, fun hq => hq.resolve_right fun hnew => hnew.1 (hseen.mp hany)⟩
  · rename_i hany
    have hnew : p.id ∉ walk.map (·.id) := fun hmet => hany (hseen.mpr hmet)
    refine ⟨fun q => ?_, ?_⟩
    · rw [find?_snoc, List.mem_append, List.mem_singleton, h.mem_iff, and_iff_right hnew]
    · -- The new placeholder stands behind the whole walk so far, and so behind all that is listed.
      refine List.pairwise_append.mpr ⟨h.ordered_snoc p, List.pairwise_singleton _ p, ?_⟩
      intro q hq r hr
      obtain rfl := List.mem_singleton.mp hr
      have hmet : q.id ∈ walk.map (·.id) := h.id_mem_iff.mp (List.mem_map_of_mem hq)
      rw [List.map_append, List.idxOf_append, List.idxOf_append, if_pos hmet, if_neg hnew]
      exact Nat.lt_of_lt_of_le (List.idxOf_lt_length_of_mem hmet) (Nat.le_add_left _ _)

theorem append (h : Firsts walk firsts) (more : List Placeholder) :
    Firsts (walk ++ more) (more.foldl (fun acc p => (hole p).collect acc) firsts) := by
  induction more generalizing walk firsts with
  | nil => rwa [List.append_nil]
  | cons p more ih =>
    rw [List.foldl_cons, List.append_cons]
    exact ih (h.snoc p)

end Firsts

theorem firsts_holes (t : Ty) : Firsts t.occurrences t.holes := by
  have hstart : Firsts [] [] := ⟨by simp, List.Pairwise.nil⟩
  rw [holes, collect_eq_foldl]
  exact hstart.append t.occurrences

/-- The ids that are listed are those that occur. -/
theorem id_mem_holes {t : Ty} {id : UInt32} : id ∈ t.holes.map (·.id) ↔ id ∈ t.ids :=
  t.firsts_holes.id_mem_iff

end TensorTyping.Ty
