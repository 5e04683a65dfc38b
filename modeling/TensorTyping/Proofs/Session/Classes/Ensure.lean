import TensorTyping.Proofs.Session.Classes

namespace TensorTyping.Classes

open Ty

section ensure

variable (c : Classes) (p : Placeholder)

theorem cell?_ensure (id : UInt32) :
    (c.ensure p).cell? id = (c.cell? id).or (if p.id = id then some (.single p) else none) := by
  unfold ensure
  split
  · rename_i hp
    by_cases hid : p.id = id
    · subst hid
      obtain ⟨x, hx⟩ := Option.isSome_iff_exists.mp hp
      simp [hx]
    · simp [hid]
  · rw [cell?, List.find?_append]
    by_cases hid : p.id = id
    · simp [cell?, Cell.single, hid]
    · simp [cell?, Cell.single, hid]

theorem registered_ensure {id : UInt32} :
    (c.ensure p).Registered id ↔ c.Registered id ∨ id = p.id := by
  rw [Registered, cell?_ensure, Registered]
  by_cases hid : p.id = id
  · simp [hid]
  · simp [hid, Ne.symm hid]

theorem leader_ensure (id : UInt32) : (c.ensure p).leader id = c.leader id := by
  rw [leader, leader, cell?_ensure]
  cases c.cell? id with
  | some x => rfl
  | none =>
    by_cases hid : p.id = id
    · simp [hid, Cell.single]
    · simp [hid]

variable {c}

theorem Partitioned.class?_ensure (h : c.Partitioned) {id : UInt32} (hid : c.Registered id) :
    (c.ensure p).class? id = c.class? id := by
  obtain ⟨x, hx⟩ := Option.isSome_iff_exists.mp hid
  obtain ⟨r, hr, -⟩ := h.leads hx
  have hx' : (c.ensure p).cell? id = some x := by rw [cell?_ensure, hx, Option.some_or]
  rw [class?_of_cell? hx', class?_of_cell? hx, cell?_ensure, hr, Option.some_or]

theorem class?_ensure_self (hp : ¬ c.Registered p.id) :
    (c.ensure p).class? p.id = some (.single p) := by
  have hnone : c.cell? p.id = none := by simpa [Registered] using hp
  have hx : (c.ensure p).cell? p.id = some (.single p) := by simp [cell?_ensure, hnone]
  rw [class?_of_cell? hx]
  exact hx

theorem Partitioned.image?_ensure (h : c.Partitioned) : (c.ensure p).image? = c.image? := by
  funext q
  by_cases hq : c.Registered q.id
  · simp only [image?, h.class?_ensure p hq]
  · by_cases hqp : q.id = p.id
    · rw [image?_congr hqp, image?, class?_ensure_self p (hqp ▸ hq), image?_congr hqp,
        (settled_of_not_registered (hqp ▸ hq)).eq_none]
      simp [Cell.single]
    · have hq' : ¬ (c.ensure p).Registered q.id := by
        rw [registered_ensure]
        exact fun h => h.elim hq hqp
      rw [(settled_of_not_registered hq).eq_none, (settled_of_not_registered hq').eq_none]

theorem Partitioned.settled_ensure (h : c.Partitioned) (id : UInt32) :
    (c.ensure p).Settled id ↔ c.Settled id := by
  rw [Settled, Settled, h.image?_ensure]

theorem Partitioned.users_ensure (h : c.Partitioned) (id : UInt32) :
    (c.ensure p).users id = c.users id := by
  by_cases hid : c.Registered id
  · rw [users, users, h.class?_ensure p hid]
  · have hnone : c.users id = [] := by simp [users, class?_of_not_registered hid]
    rw [hnone]
    by_cases hidp : id = p.id
    · subst hidp
      exact users_of_class? (class?_ensure_self p hid)
    · have hid' : ¬ (c.ensure p).Registered id := by
        rw [registered_ensure]
        exact fun h => h.elim hid hidp
      simp [users, class?_of_not_registered hid']

theorem Partitioned.binding?_ensure (h : c.Partitioned) (id : UInt32) :
    (c.ensure p).binding? id = c.binding? id := by
  by_cases hid : c.Registered id
  · rw [binding?, binding?, h.class?_ensure p hid]
  · have hnone : c.binding? id = none := by simp [binding?, class?_of_not_registered hid]
    rw [hnone]
    by_cases hidp : id = p.id
    · subst hidp
      rw [binding?, class?_ensure_self p hid]
      rfl
    · have hid' : ¬ (c.ensure p).Registered id := by
        rw [registered_ensure]
        exact fun h => h.elim hid hidp
      simp [binding?, class?_of_not_registered hid']

theorem Partitioned.class?_ensure_cases (h : c.Partitioned) {id : UInt32} {r : Cell}
    (hr : (c.ensure p).class? id = some r) : c.class? id = some r ∨ r = .single p := by
  by_cases hid : c.Registered id
  · rw [h.class?_ensure p hid] at hr
    exact Or.inl hr
  · by_cases hidp : id = p.id
    · subst hidp
      rw [class?_ensure_self p hid, Option.some.injEq] at hr
      exact Or.inr hr.symm
    · have hid' : ¬ (c.ensure p).Registered id := by
        rw [registered_ensure]
        exact fun h => h.elim hid hidp
      rw [class?_of_not_registered hid'] at hr
      cases hr

theorem Partitioned.ensure (h : c.Partitioned) : (c.ensure p).Partitioned := by
  by_cases hp : c.Registered p.id
  · have heq : c.ensure p = c := if_pos hp
    rwa [heq]
  · have hnone : c.cell? p.id = none := by simpa [Registered] using hp
    refine ⟨?_, ?_, ?_⟩
    · have heq : c.ensure p = ⟨c.cells ++ [.single p]⟩ := if_neg hp
      rw [heq, List.map_append, List.nodup_append]
      refine ⟨h.nodup, by simp, ?_⟩
      rintro i hi j hj rfl
      rw [List.map_singleton, List.mem_singleton] at hj
      obtain ⟨x, hx, hid⟩ := List.mem_map.mp hi
      exact hp (registered_iff_mem.mpr ⟨x, hx, hid.trans hj⟩)
    · intro id x hx
      rw [cell?_ensure, Option.or_eq_some_iff] at hx
      obtain hx | ⟨-, hx⟩ := hx
      · obtain ⟨r, hr, hleader⟩ := h.leads hx
        exact ⟨r, by rw [cell?_ensure, hr, Option.some_or], hleader⟩
      · split at hx
        · cases hx
          exact ⟨.single p, by simp [cell?_ensure, Cell.single, hnone], rfl⟩
        · cases hx
    · intro id r hr
      obtain hr | rfl := h.class?_ensure_cases p hr
      · obtain ⟨x, hx, hplaceholder, hleader⟩ := h.least hr
        exact ⟨x, by rw [cell?_ensure, hx, Option.some_or], hplaceholder, hleader⟩
      · exact ⟨.single p, by simp [cell?_ensure, Cell.single, hnone], rfl, rfl⟩

theorem Valid.ensure (h : c.Valid) : (c.ensure p).Valid := by
  refine ⟨h.toPartitioned.ensure p, ?_⟩
  intro id t ht
  obtain ⟨r, hr, hb⟩ := Option.bind_eq_some_iff.mp ht
  obtain hr | rfl := h.class?_ensure_cases p hr
  · have hbinding : c.binding? id = some t := by simp [binding?, hr, hb]
    obtain ⟨hresolved, hregistered⟩ := h.bound hbinding
    exact ⟨fun i hi => (h.settled_ensure p i).mpr (hresolved i hi),
      fun i hi => (registered_ensure c p).mpr (Or.inl (hregistered i hi))⟩
  · cases hb

end ensure

section ensureAll

variable {c : Classes} (ps : List Placeholder)

theorem registered_ensureAll {id : UInt32} :
    (c.ensureAll ps).Registered id ↔ c.Registered id ∨ ∃ p ∈ ps, p.id = id := by
  induction ps generalizing c with
  | nil => simp [ensureAll]
  | cons p ps ih =>
    rw [ensureAll, List.foldl_cons, ← ensureAll, ih, registered_ensure, List.exists_mem_cons_iff,
      or_assoc, eq_comm]

theorem Valid.ensureAll (h : c.Valid) : (c.ensureAll ps).Valid := by
  induction ps generalizing c with
  | nil => exact h
  | cons p ps ih => exact ih (h.ensure p)

theorem Valid.image?_ensureAll (h : c.Valid) : (c.ensureAll ps).image? = c.image? := by
  induction ps generalizing c with
  | nil => rfl
  | cons p ps ih => exact (ih (h.ensure p)).trans (h.image?_ensure p)

theorem Valid.users_ensureAll (h : c.Valid) (id : UInt32) :
    (c.ensureAll ps).users id = c.users id := by
  induction ps generalizing c with
  | nil => rfl
  | cons p ps ih => exact (ih (h.ensure p)).trans (h.users_ensure p id)

end ensureAll

end TensorTyping.Classes
