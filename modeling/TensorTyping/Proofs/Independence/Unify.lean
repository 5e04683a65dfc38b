import TensorTyping.Proofs.Independence.Classes
import TensorTyping.Proofs.Session.Uncertain
import TensorTyping.Proofs.Session.Unify

namespace TensorTyping

open Ty

/-- Two computations fail alike or come to results that are related. -/
inductive Agree {α β : Type} (R : α → β → Prop) : Except TypeError α → Except TypeError β → Prop
  | ok {x : α} {y : β} : R x y → Agree R (.ok x) (.ok y)
  | error (e : TypeError) : Agree R (.error e) (.error e)

section Agree

variable {α β γ δ : Type} {R : α → β → Prop} {S : γ → δ → Prop} {x : Except TypeError α}
  {y : Except TypeError β} (h : Agree R x y)

include h

theorem Agree.of_ok {v : β} (hy : y = .ok v) : ∃ u, x = .ok u ∧ R u v := by
  subst hy
  cases h with
  | ok hxy => exact ⟨_, rfl, hxy⟩

theorem Agree.of_error {e : TypeError} (hy : y = .error e) : x = .error e := by
  subst hy
  cases h
  rfl

theorem Agree.map {f : α → γ} {g : β → δ} (hfg : ∀ {x y}, R x y → S (f x) (g y)) :
    Agree S (x.map f) (y.map g) := by
  cases h with
  | ok hxy => exact .ok (hfg hxy)
  | error e => exact .error e

theorem Agree.bind {f : α → Except TypeError γ} {g : β → Except TypeError δ}
    (hfg : ∀ {x y}, R x y → Agree S (f x) (g y)) : Agree S (x >>= f) (y >>= g) := by
  cases h with
  | ok hxy => exact hfg hxy
  | error e => exact .error e

end Agree

/-- What unification changes in a session is what it changes for one of two groups. The conditions
that the other group put off stay where they are. -/
structure Progress.Splits (G H : Group) (D : List Cond) (b : Classes) (s a : Progress) : Prop where
  classes : s.classes.Splits G H a.classes b
  deferred : ∀ c, c ∈ s.deferred ↔ c ∈ a.deferred ∨ c ∈ D
  woken : s.woken = a.woken.map G.number

variable {G H : Group} {D : List Cond} {b : Classes} {s a : Progress}

namespace Progress

namespace Splits

theorem defer (h : Splits G H D b s a) (c : Cond) : Splits G H D b (s.defer c) (a.defer c) := by
  obtain ⟨hclasses, hwoken⟩ := s.defer_fields c
  obtain ⟨hclasses', hwoken'⟩ := a.defer_fields c
  refine ⟨?_, fun d => ?_, ?_⟩
  · rw [hclasses, hclasses']
    exact h.classes
  · rw [mem_defer, mem_defer, h.deferred, or_right_comm]
  · rw [hwoken, hwoken', h.woken]

theorem join (h : Splits G H D b s a) (hb : b.Valid) {p q : Placeholder} (hp : G.mine p.id)
    (hq : G.mine q.id) (hrp : a.classes.Registered p.id) (hrq : a.classes.Registered q.id)
    (hne : a.classes.leader p.id ≠ a.classes.leader q.id) :
    Splits G H D b (s.join p q) (a.join p q) := by
  have hjoin := h.classes.join hb hp hq hrp hrq hne
  refine ⟨hjoin, h.deferred, ?_⟩
  simp only [Progress.join, h.woken, hjoin.left.users hp, List.map_append]

theorem bind (h : Splits G H D b s a) (hb : b.Valid) {p : Placeholder} (hp : G.mine p.id) {t : Ty}
    (ht : ∀ i ∈ t.ids, G.mine i) : Splits G H D b (s.bind p t) (a.bind p t) := by
  have husers := h.classes.left.users hp
  have hholes : ∀ q ∈ t.holes, G.mine q.id := fun q hq => ht _ (id_mem_holes.mp (List.mem_map_of_mem hq))
  have hwait := h.classes.useAll hholes (a.classes.users p.id)
  rw [← husers] at hwait
  refine ⟨hwait.bind hb hp ht, h.deferred, ?_⟩
  simp only [Progress.bind, h.woken, husers, List.map_append]

end Splits

end Progress

namespace Site

variable (site : Site)

/-- An equation comes to the same for a session and for one of two groups. -/
inductive Step.Splits (G H : Group) (D : List Cond) (b : Classes) : Step → Step → Prop
  | solved {s a : Progress} : s.Splits G H D b a → Splits G H D b (.solved s) (.solved a)
  | parts {s a : Progress} (eqs : Equations) :
    s.Splits G H D b a → Splits G H D b (.parts s eqs) (.parts a eqs)
  | eliminated {s a : Progress} (id : UInt32) (image : Ty) :
    s.Splits G H D b a → Splits G H D b (.eliminated s id image) (.eliminated a id image)

theorem compareAxis_splits (h : s.Splits G H D b a) (axis : Nat) (d e : Dim) :
    Agree (Progress.Splits G H D b) (site.compareAxis s axis d e) (site.compareAxis a axis d e) := by
  unfold compareAxis
  split
  · exact .ok h
  · split
    · exact .ok h
    · split
      · exact .error _
      · exact .ok (h.defer _)
    · exact .error _

theorem compareAxes_splits (h : s.Splits G H D b a) (axis : Nat) (axes : List (Dim × Dim)) :
    Agree (Progress.Splits G H D b) (site.compareAxes s axis axes) (site.compareAxes a axis axes) := by
  induction axes generalizing s a axis with
  | nil => exact .ok h
  | cons pair axes ih =>
    rw [compareAxes, compareAxes]
    exact (site.compareAxis_splits h axis pair.1 pair.2).bind fun h => ih h (axis + 1)

theorem compareTensors_splits (h : s.Splits G H D b a) (t u : TensorType) :
    Agree (Progress.Splits G H D b) (site.compareTensors s t u) (site.compareTensors a t u) := by
  unfold compareTensors
  split
  · exact .error _
  · split
    · exact .error _
    · exact site.compareAxes_splits h 0 _

theorem joinHoles_splits (h : s.Splits G H D b a) (hb : b.Valid) {p q : Placeholder}
    (hp : G.mine p.id) (hq : G.mine q.id) :
    Agree (Step.Splits G H D b) (site.joinHoles s p q) (site.joinHoles a p q) := by
  have hclasses := (h.classes.ensure hp).ensure hq
  have hs : Progress.Splits G H D b { s with classes := (s.classes.ensure p).ensure q }
      { a with classes := (a.classes.ensure p).ensure q } := ⟨hclasses, h.deferred, h.woken⟩
  have hrp : ((a.classes.ensure p).ensure q).Registered p.id :=
    (Classes.registered_ensure _ _).mpr (Or.inl ((Classes.registered_ensure _ _).mpr (Or.inr rfl)))
  have hrq : ((a.classes.ensure p).ensure q).Registered q.id :=
    (Classes.registered_ensure _ _).mpr (Or.inr rfl)
  unfold joinHoles
  simp only [hclasses.left.leader hp, hclasses.left.leader hq, hclasses.left.least hp,
    hclasses.left.least hq]
  split
  · exact .ok (.solved hs)
  · rename_i hne
    have hjoin := hs.join hb hp hq hrp hrq hne
    split
    · exact .error _
    · split
      · exact .ok (.eliminated _ _ hjoin)
      · exact .ok (.eliminated _ _ hjoin)

theorem bindHole_splits (h : s.Splits G H D b a) (hb : b.Valid) {p : Placeholder}
    (hp : G.mine p.id) {t : Ty} (ht : ∀ i ∈ t.ids, G.mine i) :
    Agree (Step.Splits G H D b) (site.bindHole s p t) (site.bindHole a p t) := by
  have hholes : ∀ q ∈ t.holes, G.mine q.id := fun q hq => ht _ (id_mem_holes.mp (List.mem_map_of_mem hq))
  have hclasses := (h.classes.ensure hp).ensureAll hholes
  have hs : Progress.Splits G H D b { s with classes := (s.classes.ensure p).ensureAll t.holes }
      { a with classes := (a.classes.ensure p).ensureAll t.holes } :=
    ⟨hclasses, h.deferred, h.woken⟩
  have hoccurs : (t.holes.any fun q => ((s.classes.ensure p).ensureAll t.holes).leader q.id =
        ((s.classes.ensure p).ensureAll t.holes).leader p.id) =
      t.holes.any fun q => ((a.classes.ensure p).ensureAll t.holes).leader q.id =
        ((a.classes.ensure p).ensureAll t.holes).leader p.id := by
    rw [Bool.eq_iff_iff, List.any_eq_true, List.any_eq_true]
    exact exists_congr fun q => and_congr_right fun hq => by
      rw [hclasses.left.leader hp, hclasses.left.leader (hholes q hq)]
  unfold bindHole
  simp only [hoccurs]
  split
  · exact .error _
  · exact .ok (.eliminated _ _ (hs.bind hb hp ht))

theorem step_splits (h : s.Splits G H D b a) (hb : b.Valid) {t u : Ty}
    (ht : ∀ i ∈ t.ids, G.mine i) (hu : ∀ i ∈ u.ids, G.mine i) :
    Agree (Step.Splits G H D b) (site.step s t u) (site.step a t u) := by
  have hhole : ∀ {p : Placeholder}, (∀ i ∈ (hole p).ids, G.mine i) → G.mine p.id := fun {p} h =>
    h _ (by rw [ids_hole]; exact List.mem_singleton_self _)
  cases t <;> cases u
  case hole.hole p q => exact site.joinHoles_splits h hb (hhole ht) (hhole hu)
  case tensor.tensor t u => exact (site.compareTensors_splits h t u).map .solved
  case ref.ref t u => exact .ok (.parts _ h)
  case tuple.tuple ts us =>
    simp only [step]
    split
    · exact .error _
    · exact .ok (.parts _ h)
  case call.call f ts g us =>
    simp only [step]
    split
    · exact .error _
    · exact .ok (.parts _ h)
  case func.func ts r vs us r' ws =>
    simp only [step]
    split
    · exact .error _
    · split
      · exact .error _
      · exact .ok (.parts _ h)
  case var.var v w =>
    simp only [step]
    split
    · exact .ok (.solved h)
    · exact .error _
  case global.global g g' =>
    simp only [step]
    split
    · exact .ok (.solved h)
    · exact .error _
  -- what is left is a placeholder opposite a type of another form, or two different forms
  all_goals first
    | exact site.bindHole_splits h hb (hhole ht) hu
    | exact site.bindHole_splits h hb (hhole hu) ht
    | exact .error _

theorem solve_splits (h : s.Splits G H D b a) (hb : b.Valid) {eqs : Equations}
    (heqs : ∀ i ∈ eqs.ids, G.mine i) :
    Agree (Progress.Splits G H D b) (site.solve s eqs) (site.solve a eqs) := by
  fun_induction site.solve a eqs generalizing s with
  | case1 a =>
    rw [solve]
    exact .ok h
  | case2 a t u rest e hstep =>
    obtain ⟨ht, hu, -⟩ := forall_mem_ids_cons.mp heqs
    rw [solve_cons, (site.step_splits h hb ht hu).of_error hstep]
    exact .error e
  | case3 a t u rest a' hstep ih =>
    obtain ⟨ht, hu, hrest⟩ := forall_mem_ids_cons.mp heqs
    obtain ⟨_, heq, ⟨hs⟩⟩ := (site.step_splits h hb ht hu).of_ok hstep
    rw [solve_cons, heq]
    exact ih hs hrest
  | case4 a t u rest a' eqs hstep ih =>
    obtain ⟨ht, hu, hrest⟩ := forall_mem_ids_cons.mp heqs
    obtain ⟨_, heq, _ | ⟨_, hs⟩⟩ := (site.step_splits h hb ht hu).of_ok hstep
    rw [solve_cons, heq]
    exact ih hs fun i hi => (mem_ids_append.mp hi).elim
      (fun hi => ((step_parts hstep).1 i hi).elim (ht i) (hu i)) (hrest i)
  | case5 a t u rest a' id image hstep ih =>
    obtain ⟨ht, hu, hrest⟩ := forall_mem_ids_cons.mp heqs
    obtain ⟨_, heq, _ | _ | ⟨_, _, hs⟩⟩ := (site.step_splits h hb ht hu).of_ok hstep
    rw [solve_cons, heq]
    exact ih hs fun i hi => (Equations.mem_ids_eliminate hi).elim
      (fun hi => ((step_eliminated hstep).2.1 i hi).elim (ht i) (hu i)) fun hi => hrest i hi.1

theorem unify_splits (h : s.Splits G H D b a) (hb : b.Valid) {t u : Ty}
    (ht : ∀ i ∈ t.ids, G.mine i) (hu : ∀ i ∈ u.ids, G.mine i) :
    Agree (Progress.Splits G H D b) (site.unify s t u) (site.unify a t u) := by
  have hpart := h.classes.left
  unfold unify
  rw [hpart.resolve ht, hpart.resolve hu]
  exact site.solve_splits h hb
    (forall_mem_ids_cons.mpr ⟨hpart.mine_resolve ht, hpart.mine_resolve hu, nofun⟩)

end Site

end TensorTyping
