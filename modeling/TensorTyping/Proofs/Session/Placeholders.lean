import Mathlib.Data.List.Nodup
import TensorTyping.Proofs.Session.Step
import TensorTyping.Session.Sharing

namespace TensorTyping

open Ty

namespace Classes

variable {c : Classes} {q : Placeholder}

theorem registered_iff_placeholders {i : UInt32} :
    c.Registered i ↔ ∃ p ∈ c.placeholders, p.id = i := by
  rw [registered_iff_mem, placeholders]
  simp

theorem mem_placeholders_ensure {p : Placeholder} (h : q ∈ (c.ensure p).placeholders) :
    q ∈ c.placeholders ∨ (q = p ∧ ¬ c.Registered p.id) := by
  unfold ensure at h
  split at h
  · exact Or.inl h
  · rename_i hp
    rw [placeholders, List.map_append, List.mem_append] at h
    refine h.imp id fun h => ⟨?_, by simpa [Registered] using hp⟩
    simpa [Cell.single] using h

theorem mem_placeholders_ensureAll {ps : List Placeholder}
    (h : q ∈ (c.ensureAll ps).placeholders) :
    q ∈ c.placeholders ∨ (q ∈ ps ∧ ¬ c.Registered q.id) := by
  induction ps generalizing c with
  | nil => exact Or.inl h
  | cons p ps ih =>
    obtain h | ⟨hq, hregistered⟩ := ih h
    · obtain h | ⟨rfl, hregistered⟩ := mem_placeholders_ensure h
      · exact Or.inl h
      · exact Or.inr ⟨List.mem_cons_self, hregistered⟩
    · rw [registered_ensure, not_or] at hregistered
      exact Or.inr ⟨List.mem_cons_of_mem _ hq, hregistered.1⟩

theorem placeholders_map {f : Cell → Cell} (hf : ∀ x ∈ c.cells, (f x).placeholder = x.placeholder) :
    (Classes.mk (c.cells.map f)).placeholders = c.placeholders := by
  rw [placeholders, placeholders, List.map_map]
  exact List.map_congr_left hf

theorem placeholders_modify {leader : UInt32} {f : Cell → Cell}
    (hf : ∀ x, (f x).placeholder = x.placeholder) :
    (c.modify leader f).placeholders = c.placeholders := by
  refine placeholders_map fun x _ => ?_
  split
  · exact hf x
  · rfl

theorem placeholders_use (leader : UInt32) (users : List Nat) :
    (c.use leader users).placeholders = c.placeholders :=
  placeholders_modify (by intro _; rfl)

theorem placeholders_refresh : c.refresh.placeholders = c.placeholders :=
  placeholders_map (by intro _ _; rfl)

theorem placeholders_bind (leader : UInt32) (t : Ty) :
    (c.bind leader t).placeholders = c.placeholders :=
  placeholders_refresh.trans (placeholders_modify (by intro _; rfl))

theorem mem_placeholders_absorb {root child : Cell} {rank : Nat} (hroot : root ∈ c.cells)
    (h : q ∈ (c.absorb root child rank).placeholders) : q ∈ c.placeholders := by
  rw [absorb, placeholders_refresh, placeholders, List.map_map] at h
  obtain ⟨x, hx, rfl⟩ := List.mem_map.mp h
  dsimp only [Function.comp]
  split
  · exact List.mem_map.mpr ⟨root, hroot, rfl⟩
  · split <;> exact List.mem_map.mpr ⟨x, hx, rfl⟩

theorem mem_placeholders_join {a b : UInt32} (h : q ∈ (c.join a b).placeholders) :
    q ∈ c.placeholders := by
  unfold join at h
  split at h
  · rename_i x y hx hy
    have hx := List.mem_of_find?_eq_some hx
    have hy := List.mem_of_find?_eq_some hy
    split at h
    · exact mem_placeholders_absorb hy h
    · split at h <;> exact mem_placeholders_absorb hx h
  · exact h

/-- Joining two classes leaves the placeholders and their order. -/
theorem Partitioned.placeholders_join (h : c.Partitioned) (a b : UInt32) :
    (c.join a b).placeholders = c.placeholders := by
  have habsorb : ∀ {id root} child rank, c.cell? id = some root →
      (c.absorb root child rank).placeholders = c.placeholders := by
    intro id root child rank hroot
    have hmem := List.mem_of_find?_eq_some hroot
    rw [absorb, placeholders_refresh]
    refine placeholders_map fun x hx => ?_
    split
    · rename_i hid
      rw [List.inj_on_of_nodup_map h.nodup hx hmem hid]
    · split <;> rfl
  unfold join
  split
  · rename_i x y hx hy
    split
    · exact habsorb _ _ hy
    · split <;> exact habsorb _ _ hx
  · rfl

end Classes

/-- Binding a placeholder registers no one. -/
theorem Progress.placeholders_bind (s : Progress) (p : Placeholder) (t : Ty) :
    (s.bind p t).classes.placeholders = s.classes.placeholders := by
  have huse : ∀ (qs : List Placeholder) (users : List Nat) (c : Classes),
      (qs.foldl (fun c q => c.use (c.leader q.id) users) c).placeholders = c.placeholders := by
    intro qs users
    induction qs with
    | nil => exact fun _ => rfl
    | cons q qs ih => exact fun c => (ih _).trans (Classes.placeholders_use _ _)
  rw [Progress.bind, Classes.placeholders_bind, huse]

namespace Site

variable {site : Site} {s s' : Progress} {t u : Ty} {q : Placeholder}

theorem mem_placeholders_joinHoles {p r : Placeholder} {result : Step}
    (h : site.joinHoles s p r = .ok result) (hq : q ∈ result.progress.classes.placeholders) :
    q ∈ s.classes.placeholders ∨ ((q = p ∨ q = r) ∧ ¬ s.classes.Registered q.id) := by
  have hensure : q ∈ ((s.classes.ensure p).ensure r).placeholders →
      q ∈ s.classes.placeholders ∨ ((q = p ∨ q = r) ∧ ¬ s.classes.Registered q.id) := by
    intro hq
    obtain hq | ⟨rfl, hregistered⟩ := Classes.mem_placeholders_ensure hq
    · obtain hq | ⟨rfl, hregistered⟩ := Classes.mem_placeholders_ensure hq
      · exact Or.inl hq
      · exact Or.inr ⟨Or.inl rfl, hregistered⟩
    · rw [Classes.registered_ensure, not_or] at hregistered
      exact Or.inr ⟨Or.inr rfl, hregistered.1⟩
  unfold joinHoles at h
  dsimp only at h
  split at h
  · cases h
    exact hensure hq
  · split at h
    · cases h
    · split at h <;> cases h <;> exact hensure (Classes.mem_placeholders_join hq)

theorem mem_placeholders_bindHole {p : Placeholder} {result : Step}
    (h : site.bindHole s p t = .ok result) (hq : q ∈ result.progress.classes.placeholders) :
    q ∈ s.classes.placeholders ∨ ((q = p ∨ q ∈ t.occurrences) ∧ ¬ s.classes.Registered q.id) := by
  unfold bindHole at h
  dsimp only at h
  split at h
  · cases h
  · cases h
    rw [Step.progress, Progress.placeholders_bind] at hq
    obtain hq | ⟨hq, hregistered⟩ := Classes.mem_placeholders_ensureAll hq
    · obtain hq | ⟨rfl, hregistered⟩ := Classes.mem_placeholders_ensure hq
      · exact Or.inl hq
      · exact Or.inr ⟨Or.inl rfl, hregistered⟩
    · rw [Classes.registered_ensure, not_or] at hregistered
      exact Or.inr ⟨Or.inr (mem_occurrences_of_mem_holes hq), hregistered.1⟩

/-- A step registers placeholders of the equation only. -/
theorem mem_placeholders_step {result : Step} (h : site.step s t u = .ok result)
    (hq : q ∈ result.progress.classes.placeholders) :
    q ∈ s.classes.placeholders ∨
      ((q ∈ t.occurrences ∨ q ∈ u.occurrences) ∧ ¬ s.classes.Registered q.id) := by
  unfold step at h
  split at h
  · refine (mem_placeholders_joinHoles h hq).imp id (And.imp_left ?_)
    exact Or.imp (by simp [occurrences]) (by simp [occurrences])
  · refine (mem_placeholders_bindHole h hq).imp id (And.imp_left ?_)
    exact Or.imp (by simp [occurrences]) id
  · refine (mem_placeholders_bindHole h hq).imp id (And.imp_left fun hq => ?_)
    exact hq.symm.imp id (by simp [occurrences])
  · rename_i a b
    cases hcompare : site.compareTensors s a b with
    | error e =>
      rw [hcompare] at h
      cases h
    | ok s₁ =>
      rw [hcompare] at h
      cases h
      rw [Step.progress, (compareTensors_ok hcompare).1.classes] at hq
      exact Or.inl hq
  all_goals
    (repeat' split at h) <;> cases h <;> exact Or.inl hq

end Site

end TensorTyping
