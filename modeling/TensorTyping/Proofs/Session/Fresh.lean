import TensorTyping.Proofs.Session.Setup

namespace TensorTyping

/-- The ids that an action returns or mentions. -/
def Setup.ids (s : Session) : Setup → List UInt32
  | range _ _ => []
  | fresh kind => [(s.fresh kind).1.id]
  | relation r => r.args.flatMap Ty.ids

namespace Session

/-- The ids that are returned or mentioned while actions are carried out, in order. -/
def seen (s : Session) : List Setup → List UInt32
  | [] => []
  | a :: setup => a.ids s ++ (a.apply s).seen setup

theorem successor_le_iff {i : UInt32} : successor i ≤ i ↔ i = 4294967295 := by
  unfold successor
  split <;> simp_all [UInt32.le_iff_toNat_le, ← UInt32.toNat_inj, UInt32.toNat_add]
  have := i.toNat_lt
  omega

/-- The counter has passed all of these ids, as far as it can. -/
def Passed (s : Session) (ids : List UInt32) : Prop := ∀ i ∈ ids, successor i ≤ s.nextId

variable {s : Session} {ids : List UInt32}

/-- The counter stands at an id it has passed exactly if it cannot go on. -/
theorem Passed.nextId_mem_iff (h : s.Passed ids) : s.nextId ∈ ids ↔ 4294967295 ∈ ids := by
  constructor
  · intro hmem
    rw [successor_le_iff.mp (h s.nextId hmem)] at hmem
    exact hmem
  · intro hmem
    have hlast : 4294967295 ≤ s.nextId := h 4294967295 hmem
    have hnext : s.nextId = 4294967295 :=
      UInt32.le_antisymm (UInt32.le_iff_toNat_le.mpr (Nat.le_of_lt_succ s.nextId.toNat_lt)) hlast
    rwa [hnext]

theorem Passed.register (h : s.Passed ids) (p : Placeholder) :
    (s.register p).Passed (ids ++ [p.id]) := by
  have hnext : s.nextId ≤ (s.register p).nextId ∧ successor p.id ≤ (s.register p).nextId := by
    unfold Session.register
    dsimp only
    split
    · rename_i hle
      exact ⟨hle, UInt32.le_refl _⟩
    · rename_i hle
      exact ⟨UInt32.le_refl _, UInt32.le_of_lt (UInt32.not_le.mp hle)⟩
  intro i hi
  obtain hi | hi := List.mem_append.mp hi
  · exact UInt32.le_trans (h i hi) hnext.1
  · rw [List.mem_singleton.mp hi]
    exact hnext.2

theorem Passed.foldl_registerUse (h : s.Passed ids) (number : Nat) (ps : List Placeholder) :
    (ps.foldl (registerUse number) s).Passed (ids ++ ps.map (·.id)) := by
  induction ps generalizing s ids with
  | nil => simpa using h
  | cons p ps ih =>
    have hhead : (registerUse number s p).Passed (ids ++ [p.id]) := h.register p
    simpa using ih hhead

theorem Passed.apply (h : s.Passed ids) (a : Setup) : (a.apply s).Passed (ids ++ a.ids s) := by
  cases a with
  | range x r => rwa [Setup.ids, List.append_nil]
  | fresh kind => exact h.register ⟨s.nextId, kind⟩
  | relation r =>
    have hall := h.foldl_registerUse s.entries.length (r.args.flatMap Ty.holes)
    intro i hi
    refine hall i (List.mem_append.mpr ((List.mem_append.mp hi).imp_right fun hmem => ?_))
    obtain ⟨t, ht, hit⟩ := List.mem_flatMap.mp hmem
    obtain ⟨p, hp, rfl⟩ := List.mem_map.mp (Ty.id_mem_holes.mpr hit)
    exact List.mem_map_of_mem (List.mem_flatMap.mpr ⟨t, ht, hp⟩)

theorem Passed.foldl_apply (h : s.Passed ids) (setup : List Setup) :
    (setup.foldl Setup.apply s).Passed (ids ++ s.seen setup) := by
  induction setup generalizing s ids with
  | nil => simpa [seen] using h
  | cons a setup ih => simpa [seen] using ih (h.apply a)

/-- A fresh placeholder has an id that no placeholder returned or mentioned before has, exactly as
long as the largest id has not come up. -/
theorem fresh_id_notMem_iff (globals : Globals) (config : Config) (setup : List Setup)
    (kind : Kind) :
    ((prepared globals config setup).fresh kind).1.id ∉ (start globals config).seen setup ↔
      4294967295 ∉ (start globals config).seen setup := by
  have hstart : (start globals config).Passed [] := fun _ hi => absurd hi List.not_mem_nil
  exact not_congr (hstart.foldl_apply setup).nextId_mem_iff

/-- After a relation over the placeholder with the largest id, that placeholder is returned as a
fresh one. -/
theorem fresh_id_clashes :
    let r : Relation :=
      ⟨.identity, [.hole ⟨4294967295, .type⟩, .tuple []], 1, .empty, .dummy, by decide⟩
    let s := prepared .empty .default [.relation r]
    (s.fresh .type).1.id ∈ (start .empty .default).seen [.relation r] := by
  decide

end Session

end TensorTyping
