import TensorTyping.Proofs.Exchange.Opposite
import TensorTyping.Proofs.Session.MostGeneral
import TensorTyping.Proofs.Session.Uncertain

namespace TensorTyping

namespace Ty

mutual

/-- The placeholders, and the dimensions with their axes, that are met when two types that are the
same are taken apart together. Nothing is met in a node that both have. -/
inductive Meets : Ty → Ty → List Placeholder → List (Dim × Nat) → Prop
  | shared (t : Ty) : Meets t t [] []
  | tensor (a : TensorType) : Meets (tensor a) (tensor a) [] a.shape.zipIdx
  | tuple {ts us : List Ty} {ps : List Placeholder} {axes : List (Dim × Nat)}
      (h : MeetsAll ts us ps axes) : Meets (tuple ts) (tuple us) ps axes
  | ref {t u : Ty} {ps : List Placeholder} {axes : List (Dim × Nat)} (h : Meets t u ps axes) :
      Meets (ref t) (ref u) ps axes
  | call {f g : Ty} {ts us : List Ty} {ps ps' : List Placeholder} {axes axes' : List (Dim × Nat)}
      (hf : Meets f g ps axes) (hts : MeetsAll ts us ps' axes') :
      Meets (call f ts) (call g us) (ps ++ ps') (axes ++ axes')
  | hole {p q : Placeholder} (h : p.id = q.id) : Meets (hole p) (hole q) [p] []
  | func {ts us : List Ty} {r s : Ty} {ps ps' : List Placeholder} {axes axes' : List (Dim × Nat)}
      (hts : MeetsAll ts us ps axes) (hr : Meets r s ps' axes') (vs : List TypeVar) :
      Meets (func ts r vs) (func us s vs) (ps ++ ps') (axes ++ axes')
  | var {v w : TypeVar} (h : v.id = w.id) : Meets (var v) (var w) [] []
  | global {g k : GlobalVar} (h : g.name = k.name) : Meets (global g) (global k) [] []

/-- What is met in lists of types, member by member. -/
inductive MeetsAll : List Ty → List Ty → List Placeholder → List (Dim × Nat) → Prop
  | nil : MeetsAll [] [] [] []
  | cons {t u : Ty} {ts us : List Ty} {ps ps' : List Placeholder} {axes axes' : List (Dim × Nat)}
      (h : Meets t u ps axes) (hrest : MeetsAll ts us ps' axes') :
      MeetsAll (t :: ts) (u :: us) (ps ++ ps') (axes ++ axes')

end

mutual

/-- Only what a type holds is met in it, in its order. -/
theorem Meets.sublist {t u : Ty} {ps : List Placeholder} {axes : List (Dim × Nat)} :
    t.Meets u ps axes → ps.Sublist t.occurrences ∧ (axes.map Prod.fst).Sublist t.dims
  | .shared t => ⟨List.nil_sublist _, List.nil_sublist _⟩
  | .tensor a => ⟨List.nil_sublist _, by simp [dims]⟩
  | .tuple h => by
    rw [occurrences_tuple]
    exact h.sublist
  | .ref h => h.sublist
  | .call hf hts => by
    rw [occurrences_call, dims, List.map_append]
    exact ⟨hf.sublist.1.append hts.sublist.1, hf.sublist.2.append hts.sublist.2⟩
  | .hole _ => ⟨by simp [occurrences], List.nil_sublist _⟩
  | .func hts hr _ => by
    rw [occurrences_func, dims, List.map_append]
    exact ⟨hts.sublist.1.append hr.sublist.1, hts.sublist.2.append hr.sublist.2⟩
  | .var _ | .global _ => ⟨List.nil_sublist _, List.nil_sublist _⟩

theorem MeetsAll.sublist {ts us : List Ty} {ps : List Placeholder} {axes : List (Dim × Nat)} :
    MeetsAll ts us ps axes →
      ps.Sublist (ts.flatMap occurrences) ∧ (axes.map Prod.fst).Sublist (dimsAll ts)
  | .nil => ⟨List.nil_sublist _, List.nil_sublist _⟩
  | .cons h hrest => by
    rw [List.flatMap_cons, dimsAll, List.map_append]
    exact ⟨h.sublist.1.append hrest.sublist.1, h.sublist.2.append hrest.sublist.2⟩

end

private theorem exists_meetsAll {ts us : List Ty} (h : List.Forall₂ Same ts us)
    (hts : ∀ t ∈ ts, ∀ u, t.Same u →
      ∃ axes, axes.map Prod.fst = t.dims ∧ t.Meets u t.occurrences axes) :
    ∃ axes, axes.map Prod.fst = dimsAll ts ∧ MeetsAll ts us (ts.flatMap occurrences) axes := by
  induction h with
  | nil => exact ⟨[], rfl, .nil⟩
  | @cons t u ts us htu _ ih =>
    rw [List.forall_mem_cons] at hts
    obtain ⟨axes, hdims, hmeets⟩ := hts.1 u htu
    obtain ⟨axes', hdims', hrest⟩ := ih hts.2
    exact ⟨axes ++ axes', by rw [List.map_append, hdims, hdims', dimsAll], .cons hmeets hrest⟩

/-- Where no node is shared, everything in a type is met. -/
theorem Same.exists_meets {t u : Ty} (h : t.Same u) :
    ∃ axes, axes.map Prod.fst = t.dims ∧ t.Meets u t.occurrences axes := by
  induction t using Ty.induction generalizing u with
  | tensor a =>
    cases u with
    | tensor b =>
      rw [← eq_of_same_tensor h]
      exact ⟨a.shape.zipIdx, by simp [dims], .tensor a⟩
    | _ => simp [Same, Alike] at h
  | tuple ts ih =>
    cases u with
    | tuple us =>
      obtain ⟨axes, hdims, hmeets⟩ := exists_meetsAll (alike_tuple.mp h) fun t ht u => ih t ht
      rw [occurrences_tuple]
      exact ⟨axes, hdims, .tuple hmeets⟩
    | _ => simp [Same, Alike] at h
  | ref t ih =>
    cases u with
    | ref u =>
      obtain ⟨axes, hdims, hmeets⟩ := ih (alike_ref.mp h)
      exact ⟨axes, hdims, .ref hmeets⟩
    | _ => simp [Same, Alike] at h
  | call f ts ihf ihts =>
    cases u with
    | call g us =>
      obtain ⟨hcallee, hargs⟩ := alike_call.mp h
      obtain ⟨axes, hdims, hmeets⟩ := ihf hcallee
      obtain ⟨axes', hdims', hmeets'⟩ := exists_meetsAll hargs fun t ht u => ihts t ht
      rw [occurrences_call]
      exact ⟨axes ++ axes', by rw [List.map_append, hdims, hdims', dims], .call hmeets hmeets'⟩
    | _ => simp [Same, Alike] at h
  | hole p =>
    cases u with
    | hole q => exact ⟨[], rfl, .hole (alike_hole.mp h)⟩
    | _ => simp [Same, Alike] at h
  | func ts r vs ihts ihr =>
    cases u with
    | func us r' ws =>
      obtain ⟨hparams, hresult, rfl⟩ := alike_func.mp h
      obtain ⟨axes, hdims, hmeets⟩ := exists_meetsAll hparams fun t ht u => ihts t ht
      obtain ⟨axes', hdims', hmeets'⟩ := ihr hresult
      rw [occurrences_func]
      exact ⟨axes ++ axes', by rw [List.map_append, hdims, hdims', dims], .func hmeets hmeets' vs⟩
    | _ => simp [Same, Alike] at h
  | var v =>
    cases u with
    | var w => exact ⟨[], rfl, .var (alike_var.mp h)⟩
    | _ => simp [Same, Alike] at h
  | global g =>
    cases u with
    | global k => exact ⟨[], rfl, .global (alike_global.mp h)⟩
    | _ => simp [Same, Alike] at h

end Ty

open Ty

namespace Site

variable {site : Site} {s : Progress}

/-- What equations come to from where others have ended. -/
def SolvesFrom (site : Site) (o : Except TypeError Progress) (eqs : Equations)
    (r : Except TypeError Progress) : Prop :=
  match o with
  | .error e => r = .error e
  | .ok s => site.Solves s eqs r

/-- What equations that say nothing come to, over all that may be met in them. -/
structure Repeats (site : Site) (eqs : Equations)
    (M : List Placeholder → List (Dim × Nat) → Prop) : Prop where
  meets : ∃ ps axes, M ps axes
  solves : ∀ s rest r, site.Solves s (eqs ++ rest) r ↔
    ∃ ps axes, M ps axes ∧ site.SolvesFrom (site.recheck s ps axes) rest r

theorem recheck_nil (s : Progress) : site.recheck s [] [] = .ok s :=
  recheck_of_certain (fun _ ha => absurd ha List.not_mem_nil) []

theorem Repeats.nil : site.Repeats [] (MeetsAll [] []) := by
  refine ⟨⟨[], [], .nil⟩, fun s rest r => ⟨fun h => ⟨[], [], .nil, ?_⟩, ?_⟩⟩
  · rw [recheck_nil]
    exact h
  · rintro ⟨_, _, ⟨⟩, h⟩
    rwa [recheck_nil] at h

theorem Repeats.append {eqs eqs' : Equations} {M M' N : List Placeholder → List (Dim × Nat) → Prop}
    (h : site.Repeats eqs M) (h' : site.Repeats eqs' M')
    (hN : ∀ ps axes, N ps axes ↔ ∃ ps₁ axes₁ ps₂ axes₂, M ps₁ axes₁ ∧ M' ps₂ axes₂ ∧
      ps = ps₁ ++ ps₂ ∧ axes = axes₁ ++ axes₂) : site.Repeats (eqs ++ eqs') N := by
  obtain ⟨ps₀, axes₀, hM'⟩ := h'.meets
  obtain ⟨ps₁, axes₁, hM⟩ := h.meets
  refine ⟨⟨_, _, (hN _ _).mpr ⟨ps₁, axes₁, ps₀, axes₀, hM, hM', rfl, rfl⟩⟩, fun s rest r => ?_⟩
  have hthen : ∀ ps axes, site.SolvesFrom (site.recheck s ps axes) (eqs' ++ rest) r ↔
      ∃ ps' axes', M' ps' axes' ∧
        site.SolvesFrom (site.recheck s (ps ++ ps') (axes ++ axes')) rest r := by
    intro ps axes
    simp only [← recheck_bind]
    cases site.recheck s ps axes with
    | error e => exact ⟨fun h => ⟨ps₀, axes₀, hM', h⟩, fun ⟨_, _, _, h⟩ => h⟩
    | ok s' => exact h'.solves s' rest r
  rw [List.append_assoc, h.solves]
  simp only [hthen, hN]
  constructor
  · rintro ⟨ps, axes, hM, ps', axes', hM', hr⟩
    exact ⟨_, _, ⟨ps, axes, ps', axes', hM, hM', rfl, rfl⟩, hr⟩
  · rintro ⟨_, _, ⟨ps, axes, ps', axes', hM, hM', rfl, rfl⟩, hr⟩
    exact ⟨ps, axes, hM, ps', axes', hM', hr⟩

/-- An equation comes to what its parts come to, or to nothing where it has one node. -/
theorem Repeats.of_parts {eqs : Equations} {t u : Ty}
    {M : List Placeholder → List (Dim × Nat) → Prop} (h : site.Repeats eqs M)
    (hstep : ∀ s, site.step s t u = .ok (.parts s eqs))
    (hmeets : ∀ ps axes, M ps axes → t.Meets u ps axes)
    (hcases : ∀ ps axes, t.Meets u ps axes → (t = u ∧ ps = [] ∧ axes = []) ∨ M ps axes) :
    site.Repeats [(t, u)] (t.Meets u) := by
  obtain ⟨ps, axes, hM⟩ := h.meets
  refine ⟨⟨ps, axes, hmeets ps axes hM⟩, fun s rest r => ?_⟩
  rw [List.singleton_append, solves_cons_iff]
  simp only [hstep, Except.ok.injEq, exists_eq_left', Step.progress, Step.remaining, h.solves,
    reduceCtorEq, false_and, exists_false, false_or]
  constructor
  · rintro (⟨rfl, hr⟩ | ⟨ps, axes, hM, hr⟩)
    · exact ⟨[], [], .shared t, by rwa [recheck_nil]⟩
    · exact ⟨ps, axes, hmeets ps axes hM, hr⟩
  · rintro ⟨ps, axes, h, hr⟩
    obtain ⟨rfl, rfl, rfl⟩ | hM := hcases ps axes h
    · rw [recheck_nil] at hr
      exact Or.inl ⟨rfl, hr⟩
    · exact Or.inr ⟨ps, axes, hM, hr⟩

/-- An equation that says nothing and has no parts. -/
theorem Repeats.of_leaf {t u : Ty} (ps : List Placeholder) (axes : List (Dim × Nat))
    (hstep : ∀ s, site.step s t u = (site.recheck s ps axes).map .solved)
    (hmeets : t.Meets u ps axes)
    (hcases : ∀ ps' axes', t.Meets u ps' axes' →
      (t = u ∧ ps' = [] ∧ axes' = []) ∨ (ps' = ps ∧ axes' = axes)) :
    site.Repeats [(t, u)] (t.Meets u) := by
  refine ⟨⟨ps, axes, hmeets⟩, fun s rest r => ?_⟩
  have hseparate : (∃ e, site.step s t u = .error e ∧ r = .error e) ∨
      (∃ result, site.step s t u = .ok result ∧
        site.Solves result.progress (result.remaining rest) r) ↔
      site.SolvesFrom (site.recheck s ps axes) rest r := by
    rw [hstep]
    cases site.recheck s ps axes with
    | error e => simp [Except.map, SolvesFrom]
    | ok s' => simp [Except.map, SolvesFrom, Step.progress, Step.remaining]
  rw [List.singleton_append, solves_cons_iff, hseparate]
  constructor
  · rintro (⟨rfl, hr⟩ | hr)
    · exact ⟨[], [], .shared t, by rwa [recheck_nil]⟩
    · exact ⟨ps, axes, hmeets, hr⟩
  · rintro ⟨ps', axes', h, hr⟩
    obtain ⟨rfl, rfl, rfl⟩ | ⟨rfl, rfl⟩ := hcases ps' axes' h
    · rw [recheck_nil] at hr
      exact Or.inl ⟨rfl, hr⟩
    · exact Or.inr hr

/-- Types that are the same in pairs. -/
theorem Repeats.zip {ts us : List Ty}
    (hts : ∀ t ∈ ts, ∀ u, t.Same u → site.Repeats [(t, u)] (t.Meets u))
    (h : List.Forall₂ Same ts us) : site.Repeats (ts.zip us) (MeetsAll ts us) := by
  induction h with
  | nil => exact .nil
  | cons htu _ ih =>
    rw [List.forall_mem_cons] at hts
    refine (hts.1 _ htu).append (ih hts.2) fun ps axes => ⟨fun hall => ?_, ?_⟩
    · cases hall with
      | cons h hrest => exact ⟨_, _, _, _, h, hrest, rfl, rfl⟩
    · rintro ⟨_, _, _, _, h, hrest, rfl, rfl⟩
      exact .cons h hrest

/-- An equation between types that are the same. -/
theorem repeats_of_same {t u : Ty} (h : t.Same u) : site.Repeats [(t, u)] (t.Meets u) := by
  have hcertain : ∀ (s : Progress) ps, site.recheck s ps [] = .ok (s.note ps []) := fun s ps =>
    recheck_of_certain (fun _ ha => absurd ha List.not_mem_nil) ps
  induction t using Ty.induction generalizing u with
  | tensor a =>
    cases u with
    | tensor b =>
      obtain rfl := eq_of_same_tensor h
      refine .of_leaf [] a.shape.zipIdx (fun s => ?_) (.tensor a) ?_
      · rw [step, compareTensors_self]
      · intro ps axes hmeets
        cases hmeets with
        | shared => exact Or.inl ⟨rfl, rfl, rfl⟩
        | tensor => exact Or.inr ⟨rfl, rfl⟩
    | _ => simp [Same, Alike] at h
  | tuple ts ih =>
    cases u with
    | tuple us =>
      have hfields := alike_tuple.mp h
      refine .of_parts (.zip (fun t ht u => ih t ht) hfields) (fun s => ?_) (fun _ _ => .tuple) ?_
      · rw [step, if_neg (not_not.mpr hfields.length_eq)]
      · intro ps axes hmeets
        cases hmeets with
        | shared => exact Or.inl ⟨rfl, rfl, rfl⟩
        | tuple h => exact Or.inr h
    | _ => simp [Same, Alike] at h
  | ref t ih =>
    cases u with
    | ref u =>
      refine .of_parts (ih (alike_ref.mp h)) (fun s => rfl) (fun _ _ => .ref) ?_
      intro ps axes hmeets
      cases hmeets with
      | shared => exact Or.inl ⟨rfl, rfl, rfl⟩
      | ref h => exact Or.inr h
    | _ => simp [Same, Alike] at h
  | call f ts ihf ihts =>
    cases u with
    | call g us =>
      obtain ⟨hcallee, hargs⟩ := alike_call.mp h
      have hparts := (ihf hcallee).append (.zip (fun t ht u => ihts t ht) hargs) fun _ _ => Iff.rfl
      refine .of_parts hparts (fun s => ?_) ?_ ?_
      · rw [step, if_neg (not_not.mpr hargs.length_eq)]
        rfl
      · rintro _ _ ⟨_, _, _, _, hf, hts, rfl, rfl⟩
        exact .call hf hts
      · intro ps axes hmeets
        cases hmeets with
        | shared => exact Or.inl ⟨rfl, rfl, rfl⟩
        | call hf hts => exact Or.inr ⟨_, _, _, _, hf, hts, rfl, rfl⟩
    | _ => simp [Same, Alike] at h
  | hole p =>
    cases u with
    | hole q =>
      have hid := alike_hole.mp h
      refine .of_leaf [p] [] (fun s => ?_) (.hole hid) ?_
      · rw [step_hole_self s hid, hcertain]
        rfl
      · intro ps axes hmeets
        cases hmeets with
        | shared => exact Or.inl ⟨rfl, rfl, rfl⟩
        | hole => exact Or.inr ⟨rfl, rfl⟩
    | _ => simp [Same, Alike] at h
  | func ts r vs ihts ihr =>
    cases u with
    | func us r' ws =>
      obtain ⟨hparams, hresult, rfl⟩ := alike_func.mp h
      have hparts := (Repeats.zip (fun t ht u => ihts t ht) hparams).append (ihr hresult)
        fun _ _ => Iff.rfl
      refine .of_parts hparts (fun s => ?_) ?_ ?_
      · rw [step, if_neg (not_not.mpr hparams.length_eq), if_neg (not_not.mpr rfl)]
      · rintro _ _ ⟨_, _, _, _, hts, hr, rfl, rfl⟩
        exact .func hts hr vs
      · intro ps axes hmeets
        cases hmeets with
        | shared => exact Or.inl ⟨rfl, rfl, rfl⟩
        | func hts hr => exact Or.inr ⟨_, _, _, _, hts, hr, rfl, rfl⟩
    | _ => simp [Same, Alike] at h
  | var v =>
    cases u with
    | var w =>
      have hid := alike_var.mp h
      refine .of_leaf [] [] (fun s => ?_) (.var hid) ?_
      · rw [recheck_nil]
        exact if_pos hid
      · intro ps axes hmeets
        cases hmeets <;> exact Or.inr ⟨rfl, rfl⟩
    | _ => simp [Same, Alike] at h
  | global g =>
    cases u with
    | global k =>
      have hname := alike_global.mp h
      refine .of_leaf [] [] (fun s => ?_) (.global hname) ?_
      · rw [recheck_nil]
        exact if_pos hname
      · intro ps axes hmeets
        cases hmeets <;> exact Or.inr ⟨rfl, rfl⟩
    | _ => simp [Same, Alike] at h

end Site

theorem Classes.ensureAll_eq_self {c : Classes} {ps : List Placeholder}
    (h : ∀ p ∈ ps, c.Registered p.id) : c.ensureAll ps = c := by
  induction ps with
  | nil => rfl
  | cons p ps ih =>
    rw [List.forall_mem_cons] at h
    have hensure : c.ensure p = c := if_pos h.1
    rw [ensureAll, List.foldl_cons, hensure]
    exact ih h.2

namespace Session

variable {s : Session}

/-- In every reachable state, unifying two resolved types that are the same comes to what is met in
them: placeholders not seen before are registered, which changes no type, and uncertain dimensions
are put off, or the first is rejected in a strict session. Where nodes are shared less is met, and
that does not show in types whose placeholders are known and whose dimensions are certain. Coefficients
without an opposite are left out. -/
theorem unify_same (hs : Reachable s) {t u : Ty} (ht : s.classes.Resolved t)
    (hu : s.classes.Resolved u) (hsame : t.Same u)
    (hleast : ∀ d ∈ t.dims, ∀ p, NormalForm.ofDim? d = some p → ∀ x ∈ p.terms, x.2 ≠ Int64.minValue) :
    (∀ r, s.site.Unifies ⟨s.classes, s.deferred, []⟩ t u r ↔ ∃ ps axes, t.Meets u ps axes ∧
      r = s.site.recheck ⟨s.classes, s.deferred, []⟩ ps axes) ∧
    (∃ axes, axes.map Prod.fst = t.dims ∧ t.Meets u t.occurrences axes) ∧
    (∀ ps axes, t.Meets u ps axes → ps.Sublist t.occurrences ∧ (axes.map Prod.fst).Sublist t.dims ∧
      ∀ v, (s.classes.ensureAll ps).resolve v = s.classes.resolve v) ∧
    ((∀ i ∈ t.ids, s.classes.Registered i) → (∀ d ∈ t.dims, ¬ s.known.Uncertain d) →
      ∀ r, s.site.Unifies ⟨s.classes, s.deferred, []⟩ t u r → r = .ok ⟨s.classes, s.deferred, []⟩) ∧
    ∀ d ∈ t.dims, s.known.Uncertain d ↔
      d ≠ .any ∧ (d.containsAny = true ∨ NormalForm.ofDim? d = none) := by
  have hunifies : ∀ r, s.site.Unifies ⟨s.classes, s.deferred, []⟩ t u r ↔ ∃ ps axes,
      t.Meets u ps axes ∧ r = s.site.recheck ⟨s.classes, s.deferred, []⟩ ps axes := by
    intro r
    have hrepeats : s.site.Repeats [(t, u)] (t.Meets u) := Site.repeats_of_same hsame
    have hsolves := hrepeats.solves ⟨s.classes, s.deferred, []⟩ [] r
    rw [List.append_nil] at hsolves
    rw [Site.Unifies, ht.resolve_eq, hu.resolve_eq, hsolves]
    refine exists_congr fun ps => exists_congr fun axes => and_congr_right fun _ => ?_
    cases s.site.recheck ⟨s.classes, s.deferred, []⟩ ps axes with
    | error e => rfl
    | ok s' => exact Site.solves_nil_iff
  refine ⟨hunifies, hsame.exists_meets, fun ps axes h => ⟨h.sublist.1, h.sublist.2, fun v => ?_⟩,
    fun hregistered hcertain r hr => ?_, fun d hd => ?_⟩
  · rw [Classes.resolve, Classes.resolve, hs.valid.image?_ensureAll]
  · obtain ⟨ps, axes, hmeets, rfl⟩ := (hunifies r).mp hr
    obtain ⟨hps, haxes⟩ := hmeets.sublist
    have hensure : s.classes.ensureAll ps = s.classes := Classes.ensureAll_eq_self fun p hp =>
      hregistered p.id (mem_ids.mpr ⟨p, hps.subset hp, rfl⟩)
    have hcertain' : ∀ a ∈ axes, ¬ s.site.known.Uncertain a.1 := fun a ha =>
      hcertain a.1 (haxes.subset (List.mem_map_of_mem ha))
    rw [Site.recheck_of_certain hcertain', Progress.note, hensure]
    rfl
  · rw [Ranges.uncertain_iff]
    refine and_congr_right fun _ => or_congr_right ⟨fun h => ?_, fun h p hp => ?_⟩
    · refine Option.eq_none_iff_forall_ne_some.mpr fun p hp => ?_
      obtain ⟨q, hq⟩ := NormalForm.exists_neg?_of_ne (hleast d hd p hp)
      rw [h p hp] at hq
      cases hq
    · rw [h] at hp
      cases hp

/-- A pair of a placeholder and a vector, whose second length is not known to equal itself: it is put
off where the two types have two nodes for the vector, and not where they have one. -/
theorem unify_same_pair :
    let s := ((start .empty .default).fresh .type).2
    let n : Dim := .var ⟨0, "n"⟩
    let d : Dim := .binary .add .any (.const 1)
    let t : Ty := .tuple [.hole ⟨0, .type⟩, .tensor ⟨[n, d], .float 32⟩]
    s.classes.Resolved t ∧ t.Same t ∧ (∀ d ∈ t.dims, ∀ p, NormalForm.ofDim? d = some p →
        ∀ x ∈ p.terms, x.2 ≠ Int64.minValue) ∧
      s.site.Unifies ⟨s.classes, s.deferred, []⟩ t t (.ok ⟨s.classes, [.eq d d], []⟩) ∧
      s.site.Unifies ⟨s.classes, s.deferred, []⟩ t t (.ok ⟨s.classes, [], []⟩) := by
  intro s n d t
  have hs : Reachable s := (Reachable.start .empty .default).setup (.fresh .type)
  have ht : s.classes.Resolved t := by
    intro i hi p hp
    rw [List.mem_singleton.mp hi] at hp
    simp [s, Session.fresh, register, start, Classes.empty, Classes.ensure, Classes.cell?,
      Cell.single, Classes.image?, Classes.class?, hp]
  have hleast : ∀ d ∈ t.dims, ∀ p, NormalForm.ofDim? d = some p →
      ∀ x ∈ p.terms, x.2 ≠ Int64.minValue := by
    have hall : t.dims.all (fun d => (NormalForm.ofDim? d).all fun p =>
        p.terms.all fun x => x.2 ≠ Int64.minValue) = true := by cbv
    intro d hd p hp x hx
    have hterms := List.all_eq_true.mp hall d hd
    rw [hp, Option.all_some] at hterms
    exact of_decide_eq_true (List.all_eq_true.mp hterms x hx)
  have hunifies := (unify_same hs ht ht (.refl t) hleast).1
  have hvector : (tensor ⟨[n, d], .float 32⟩).Meets (tensor ⟨[n, d], .float 32⟩) [] [(n, 0), (d, 1)] :=
    .tensor _
  refine ⟨ht, .refl t, hleast, (hunifies _).mpr ⟨_, _, .tuple (.cons (.hole rfl) (.cons hvector .nil)), ?_⟩,
    (hunifies _).mpr ⟨_, _, .tuple (.cons (.hole rfl) (.cons (.shared _) .nil)), ?_⟩⟩
  · cbv
  · cbv

/-- A strict session rejects the comparison of such a length with itself, and a placeholder not seen
before is registered by comparing it with itself. -/
theorem unify_same_fails :
    let strict := start .empty { Config.default with strictShapes := true }
    let lenient := start .empty .default
    let t : Ty := .tensor ⟨[.binary .add .any (.const 1)], .float 32⟩
    let p : Placeholder := ⟨0, .type⟩
    (strict.classes.Resolved t ∧
      (strict.site.unify ⟨strict.classes, [], []⟩ t t).toOption = none) ∧
    lenient.classes.Resolved (.hole p) ∧
      ∃ classes, lenient.site.unify ⟨lenient.classes, [], []⟩ (.hole p) (.hole p) =
        .ok ⟨classes, [], []⟩ ∧ classes ≠ lenient.classes := by
  refine ⟨⟨fun _ _ _ _ => rfl, by cbv⟩, fun _ _ _ _ => rfl, ⟨[.single ⟨0, .type⟩]⟩, by cbv, ?_⟩
  simp [start, Classes.empty]

end Session

end TensorTyping
