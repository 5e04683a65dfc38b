import TensorTyping.Proofs.Ranges
import TensorTyping.Proofs.Session.Placeholders
import TensorTyping.Proofs.Session.Run
import TensorTyping.Rule.Builtin

namespace TensorTyping

/-- What is done to a session before it is solved. -/
inductive Setup where
  | range (x : SizeVar) (r : Range)
  | fresh (kind : Kind)
  | relation (r : Relation)

/-- Carries out one action. -/
def Setup.apply (s : Session) : Setup → Session
  | range x r => s.bindRange x r
  | fresh kind => (s.fresh kind).2
  | relation r => s.add r

/-- A size variable with its range. -/
def Setup.range? : Setup → Option (SizeVar × Range)
  | range x r => some (x, r)
  | fresh _ | relation _ => none

open Ty

/-- Relations are of built-in rules, and all placeholders are of one kind. -/
def Setup.Plain (k : Kind) : Setup → Prop
  | range _ _ => True
  | fresh kind => kind = k
  | relation r => r.rule ∈ Rule.builtins ∧ ∀ t ∈ r.args, ∀ p ∈ t.occurrences, p.kind = k

namespace Session

/-- A new session after some actions. -/
def prepared (globals : Globals) (config : Config) (setup : List Setup) : Session :=
  setup.foldl Setup.apply (start globals config)

variable {s : Session}

theorem registers_registerUse (h : s.classes.Valid) (number : Nat) (p : Placeholder) :
    ∃ classes nextId, registerUse number s p = { s with classes, nextId } ∧
      s.classes.Registers classes [p.id] ∧ number ∈ classes.users p.id := by
  have hensure := Classes.registers_ensure h p
  have huse := Classes.registers_use hensure.valid ((s.classes.ensure p).leader p.id) [number]
  refine ⟨_, _, rfl, (hensure.trans huse).congr fun i => by simp, ?_⟩
  have hregistered := (hensure.registered p.id).mpr (Or.inr (List.mem_singleton_self _))
  exact (hensure.valid.mem_users_use _ _).mpr
    (Or.inr ⟨hregistered, rfl, List.mem_singleton_self number⟩)

theorem registers_foldl_registerUse (h : s.classes.Valid) (number : Nat) (ps : List Placeholder) :
    ∃ classes nextId, ps.foldl (registerUse number) s = { s with classes, nextId } ∧
      s.classes.Registers classes (ps.map (·.id)) ∧ ∀ p ∈ ps, number ∈ classes.users p.id := by
  induction ps generalizing s with
  | nil =>
    exact ⟨s.classes, s.nextId, rfl, .refl h fun _ hi => absurd hi List.not_mem_nil,
      fun _ hp => absurd hp List.not_mem_nil⟩
  | cons p ps ih =>
    obtain ⟨classes, nextId, heq, hregisters, husers⟩ := registers_registerUse h number p
    obtain ⟨classes', nextId', heq', hregisters', husers'⟩ :=
      ih (s := { s with classes, nextId }) hregisters.valid
    refine ⟨classes', nextId', ?_, (hregisters.trans hregisters').congr fun i => by simp, ?_⟩
    · rw [List.foldl_cons, heq, heq']
    · exact List.forall_mem_cons.mpr ⟨hregisters'.users _ husers, husers'⟩

/-- A relation is added behind all others, and its placeholders are registered and
watched. -/
theorem add_fields (h : s.classes.Valid) (r : Relation) :
    ∃ classes nextId, s.add r = { s with
        classes, nextId
        entries := s.entries ++ [⟨r, false⟩]
        queue := s.queue ++ [s.entries.length] } ∧
      s.classes.Registers classes (r.args.flatMap ids) ∧
      ∀ i ∈ r.args.flatMap ids, s.entries.length ∈ classes.users i := by
  obtain ⟨classes, nextId, heq, hregisters, husers⟩ :=
    registers_foldl_registerUse h s.entries.length (r.args.flatMap Ty.holes)
  have hids : ∀ i, i ∈ (r.args.flatMap Ty.holes).map (·.id) ↔ i ∈ r.args.flatMap ids := by
    intro i
    rw [List.map_flatMap, List.mem_flatMap, List.mem_flatMap]
    exact exists_congr fun t => and_congr_right fun _ => id_mem_holes
  refine ⟨classes, nextId, ?_, hregisters.congr hids, fun i hi => ?_⟩
  · unfold add
    dsimp only
    rw [heq]
  · obtain ⟨p, hp, rfl⟩ := List.mem_map.mp ((hids i).mpr hi)
    exact husers p hp

/-- Nothing has been run yet, and nothing is known of any placeholder. -/
structure Untouched (s : Session) : Prop where
  valid : s.classes.Valid
  settled : ∀ i, s.classes.Settled i
  queue : s.queue = List.range s.entries.length
  pending : ∀ e ∈ s.entries, e.resolved = false
  failure : s.failure = none
  trace : s.trace = []
  deferred : s.deferred = []
  watched : ∀ n e, s.entries[n]? = some e → ∀ i ∈ e.relation.args.flatMap ids, n ∈ s.classes.users i

theorem untouched_start (globals : Globals) (config : Config) :
    (start globals config).Untouched := by
  have hvalid : Classes.empty.Valid := by
    refine ⟨⟨List.nodup_nil, ?_, ?_⟩, ?_⟩
    · intro id x hx
      cases hx
    · intro id r hr
      cases hr
    · intro id t ht
      cases ht
  exact ⟨hvalid, fun i => fun p _ => rfl, rfl, fun e he => absurd he List.not_mem_nil, rfl, rfl, rfl,
    fun n e he => nomatch he⟩

theorem Untouched.apply (h : s.Untouched) (a : Setup) : (a.apply s).Untouched := by
  cases a with
  | range x r =>
    exact ⟨h.valid, h.settled, h.queue, h.pending, h.failure, h.trace, h.deferred, h.watched⟩
  | fresh kind =>
    have hregisters := Classes.registers_ensure h.valid ⟨s.nextId, kind⟩
    exact ⟨hregisters.valid, fun i => (hregisters.settled i).mpr (h.settled i), h.queue, h.pending,
      h.failure, h.trace, h.deferred, fun n e he i hi => hregisters.users i (h.watched n e he i hi)⟩
  | relation r =>
    obtain ⟨classes, nextId, heq, hregisters, husers⟩ := add_fields h.valid r
    rw [Setup.apply, heq]
    refine ⟨hregisters.valid, fun i => (hregisters.settled i).mpr (h.settled i), ?_, ?_,
      h.failure, h.trace, h.deferred, fun n e he i hi => ?_⟩
    · dsimp only
      rw [h.queue, List.length_append, List.length_singleton, List.range_succ]
    · intro e he
      obtain he | he := List.mem_append.mp he
      · exact h.pending e he
      · rw [List.mem_singleton.mp he]
    · rw [List.getElem?_append] at he
      split at he
      · exact hregisters.users i (h.watched n e he i hi)
      · rename_i hn
        obtain ⟨hlt, rfl⟩ := List.getElem?_eq_some_iff.mp he
        rw [List.length_singleton] at hlt
        rw [show n = s.entries.length by omega]
        exact husers i (by simpa using hi)

theorem untouched_prepared (globals : Globals) (config : Config) (setup : List Setup) :
    (prepared globals config setup).Untouched := by
  have hfold : ∀ s : Session, s.Untouched → (setup.foldl Setup.apply s).Untouched := by
    induction setup with
    | nil => exact fun _ h => h
    | cons a setup ih => exact fun s h => ih _ (h.apply a)
  exact hfold _ (untouched_start globals config)

/-- What a session is prepared with, and what it knows from the ranges alone. -/
structure Provides (s : Session) (globals : Globals) (config : Config) (known : Ranges) : Prop where
  globals : s.globals = globals
  config : s.config = config
  known : s.known = known

theorem provides_prepared (globals : Globals) (config : Config) (setup : List Setup) :
    (prepared globals config setup).Provides globals config.raised
      (Ranges.none.bindAll (setup.filterMap Setup.range?)) := by
  have hfold : ∀ s : Session, s.Untouched → (setup.foldl Setup.apply s).Provides s.globals s.config
      (s.known.bindAll (setup.filterMap Setup.range?)) := by
    induction setup with
    | nil => exact fun s _ => ⟨rfl, rfl, rfl⟩
    | cons a setup ih =>
      intro s hs
      have hrest := ih _ (hs.apply a)
      cases a with
      | range x r => exact hrest
      | fresh kind => exact hrest
      | relation r =>
        obtain ⟨classes, nextId, heq, -⟩ := add_fields hs.valid r
        rw [Setup.apply, heq] at hrest
        rw [List.foldl_cons, Setup.apply, heq]
        exact hrest
  exact hfold _ (untouched_start globals config)

/-- Sizes within all ranges that were registered respect what a session knows. -/
theorem admits_prepared (globals : Globals) (config : Config) {setup : List Setup} {σ : Assignment}
    (hσ : ∀ x r, Setup.range x r ∈ setup → r.Contains (σ x)) :
    (prepared globals config setup).known.Admits σ := by
  rw [(provides_prepared globals config setup).known]
  refine Ranges.admits_bindAll (Ranges.admits_none σ) fun b hb => ?_
  obtain ⟨a, ha, hrange⟩ := List.mem_filterMap.mp hb
  cases a with
  | range x r =>
    cases hrange
    exact hσ x r ha
  | fresh | relation => cases hrange

/-- They respect it at every later turn, too. -/
theorem Turns.admits {globals : Globals} {config : Config} {setup : List Setup} {s : Session}
    {σ : Assignment} (hturns : Turns (prepared globals config setup) s)
    (hσ : ∀ x r, Setup.range x r ∈ setup → r.Contains (σ x)) : s.known.Admits σ := by
  have hgrows := Turns.grows (untouched_prepared globals config setup).valid hturns
  rw [hgrows.known]
  exact admits_prepared globals config hσ

theorem prepared_ranges (globals : Globals) (config : Config) (ranges : List (SizeVar × Range)) :
    prepared globals config (ranges.map fun b => .range b.1 b.2) =
      { start globals config with known := Ranges.none.bindAll ranges } := by
  have hfold : ∀ s : Session, (ranges.map fun b => Setup.range b.1 b.2).foldl Setup.apply s =
      { s with known := s.known.bindAll ranges } := by
    induction ranges with
    | nil => exact fun _ => rfl
    | cons b ranges ih => exact fun s => ih (s.bindRange b.1 b.2)
  exact hfold _

theorem mem_placeholders_foldl_registerUse {number : Nat} {ps : List Placeholder} {q : Placeholder}
    (h : q ∈ (ps.foldl (registerUse number) s).classes.placeholders) :
    q ∈ s.classes.placeholders ∨ q ∈ ps := by
  induction ps generalizing s with
  | nil => exact Or.inl h
  | cons p ps ih =>
    obtain h | h := ih h
    · rw [registerUse, register, Classes.placeholders_use] at h
      obtain h | ⟨rfl, -⟩ := Classes.mem_placeholders_ensure h
      · exact Or.inl h
      · exact Or.inr List.mem_cons_self
    · exact Or.inr (List.mem_cons_of_mem _ h)

theorem mem_placeholders_add {r : Relation} {q : Placeholder}
    (h : q ∈ (s.add r).classes.placeholders) :
    q ∈ s.classes.placeholders ∨ ∃ t ∈ r.args, q ∈ t.occurrences := by
  refine (mem_placeholders_foldl_registerUse h).imp id fun hq => ?_
  obtain ⟨t, ht, hq⟩ := List.mem_flatMap.mp hq
  exact ⟨t, ht, mem_occurrences_of_mem_holes hq⟩

/-- A session without anything but built-in rules and placeholders of one kind. -/
structure AllPlain (k : Kind) (s : Session) : Prop where
  rule : ∀ r ∈ s.entries.map (·.relation), r.rule ∈ Rule.builtins
  kind : ∀ p ∈ s.classes.placeholders, p.kind = k

theorem AllPlain.apply {k : Kind} (hs : s.Untouched) (h : s.AllPlain k) {a : Setup}
    (ha : a.Plain k) : (a.apply s).AllPlain k := by
  cases a with
  | range x r => exact ⟨h.rule, h.kind⟩
  | fresh kind =>
    refine ⟨h.rule, fun p hp => ?_⟩
    obtain hp | ⟨rfl, -⟩ := Classes.mem_placeholders_ensure hp
    · exact h.kind p hp
    · exact ha
  | relation r =>
    refine ⟨?_, fun p hp => ?_⟩
    · obtain ⟨classes, nextId, heq, -⟩ := add_fields hs.valid r
      rw [Setup.apply, heq, List.map_append, List.forall_mem_append]
      exact ⟨h.rule, List.forall_mem_singleton.mpr ha.1⟩
    · obtain hp | ⟨t, ht, hp⟩ := mem_placeholders_add hp
      · exact h.kind p hp
      · exact ha.2 t ht p hp

/-- The use of the identity rule that makes two types equal. -/
def equation (t u : Ty) : Relation := ⟨.identity, [t, u], 1, .empty, .dummy, by simp⟩

/-- A new session after some actions, with relations in some order. -/
def arranged (globals : Globals) (config : Config) (setup : List Setup) (rs : List Relation) :
    Session :=
  prepared globals config (setup ++ rs.map Setup.relation)

theorem arranged_eq_foldl (globals : Globals) (config : Config) (setup : List Setup)
    (rs : List Relation) :
    arranged globals config setup rs = rs.foldl add (prepared globals config setup) := by
  rw [arranged, prepared, List.foldl_append, List.foldl_map]
  rfl

end Session

end TensorTyping
