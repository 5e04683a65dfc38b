import TensorTyping.Proofs.Independence.Interleaves
import TensorTyping.Proofs.Independence.Unify
import TensorTyping.Proofs.Rule.Requests
import TensorTyping.Proofs.Session.Firing
import TensorTyping.Proofs.Session.Setup

namespace TensorTyping.Session

open Ty

variable {G H : Group} {s s' a a' b : Session}

/-- The relations on the worklist that are not resolved, in order. -/
def waiting (s : Session) : List Nat := s.queue.filter s.isPending

theorem mem_waiting {n : Nat} : n ∈ s.waiting ↔ n ∈ s.queue ∧ s.isPending n = true :=
  List.mem_filter

theorem waiting_wake (s : Session) (n : Nat) :
    (s.wake n).waiting =
      if s.isPending n = true ∧ n ∉ s.waiting then s.waiting ++ [n] else s.waiting := by
  by_cases hn : s.isPending n = true
  · have hiff : n ∈ s.waiting ↔ n ∈ s.queue := by rw [mem_waiting, and_iff_left hn]
    unfold wake
    simp only [hn, hiff, Bool.true_and, true_and, decide_eq_true_eq]
    split
    · have hpending : isPending { s with queue := s.queue ++ [n] } = s.isPending := rfl
      simp [waiting, hpending, List.filter_append, hn]
    · rfl
  · simp [wake, hn]

theorem waiting_of_next? {number : Nat} {r : Relation} {rest : Session}
    (h : s.next? = some (number, r, rest)) : s.waiting = number :: rest.waiting := by
  obtain ⟨queue, rfl, he, skipped, hqueue, hskipped⟩ := next?_eq_some h
  have hpending : isPending { s with queue } = s.isPending := rfl
  have hnumber : s.isPending number = true := by simp [isPending, he]
  have hskip : skipped.filter s.isPending = [] := List.filter_eq_nil_iff.mpr fun n hn => by
    simp [hskipped n hn]
  simp [waiting, hpending, hqueue, List.filter_append, hskip, hnumber]

theorem next?_eq_none_iff : s.next? = none ↔ s.waiting = [] := by
  constructor
  · intro h
    exact List.filter_eq_nil_iff.mpr fun n hn => by simp [next?_eq_none h n hn]
  · intro h
    cases hnext : s.next? with
    | none => rfl
    | some next =>
      obtain ⟨number, r, rest⟩ := next
      rw [waiting_of_next? hnext] at h
      cases h

theorem next?_of_waiting {n : Nat} {w : List Nat} (h : s.waiting = n :: w) :
    ∃ r rest, s.next? = some (n, r, rest) ∧ rest.waiting = w := by
  cases hnext : s.next? with
  | none =>
    rw [next?_eq_none_iff.mp hnext] at h
    cases h
  | some next =>
    obtain ⟨number, r, rest⟩ := next
    rw [waiting_of_next? hnext] at h
    cases h
    exact ⟨r, rest, rfl, rfl⟩

theorem getElem?_retire (s : Session) (number n : Nat) :
    (s.retire number).entries[n]? = s.entries[n]?.map fun e =>
      ⟨e.relation, e.resolved || decide (number = n)⟩ := by
  rw [retire, List.getElem?_modify]
  by_cases hn : number = n
  · cases s.entries[n]? <;> simp [hn]
  · cases s.entries[n]? <;> simp [hn]

theorem isPending_retire (s : Session) (number n : Nat) :
    (s.retire number).isPending n = (s.isPending n && decide (n ≠ number)) := by
  rw [isPending, isPending, getElem?_retire]
  cases s.entries[n]? <;> simp [eq_comm]

theorem waiting_retire (s : Session) (number : Nat) :
    (s.retire number).waiting = s.waiting.filter fun n => decide (n ≠ number) := by
  rw [waiting, waiting, List.filter_filter]
  exact List.filter_congr fun n _ => by rw [isPending_retire, Bool.and_comm]

/-- The relations of a group are in the same state in the whole session and in the session of the
group, and mention placeholders of the group only. -/
structure Part (G : Group) (s a : Session) : Prop where
  globals : s.globals = a.globals
  config : s.config = a.config
  known : s.known = a.known
  entries : ∀ n, s.entries[G.number n]? = a.entries[n]?
  relations : ∀ e ∈ a.entries, e.relation.rule ∈ Rule.builtins ∧
    ∀ t ∈ e.relation.args, ∀ i ∈ t.ids, G.mine i
  closed : a.globals.Closed
  valid : a.classes.Valid
  failure : a.failure = none

theorem Part.of_frames (h : Part G s a) (hs : Frames s s') (ha : Frames a a')
    (hvalid : a'.classes.Valid) (hnone : a'.failure = none) : Part G s' a' where
  globals := hs.globals.trans (h.globals.trans ha.globals.symm)
  config := hs.config.trans (h.config.trans ha.config.symm)
  known := hs.known.trans (h.known.trans ha.known.symm)
  entries n := by rw [hs.entries, ha.entries, h.entries]
  relations := ha.entries ▸ h.relations
  closed := ha.globals ▸ h.closed
  valid := hvalid
  failure := hnone

/-- A session is the sessions of two groups side by side. -/
structure Splits (G H : Group) (s a b : Session) : Prop where
  left : Part G s a
  right : Part H s b
  classes : s.classes.Splits G H a.classes b.classes
  deferred : ∀ c, c ∈ s.deferred ↔ c ∈ a.deferred ∨ c ∈ b.deferred
  waiting : Interleaves (a.waiting.map G.number) (b.waiting.map H.number) s.waiting
  distinct : ∀ m n, G.number m ≠ H.number n
  covered : ∀ k, (∃ m, k = G.number m) ∨ ∃ n, k = H.number n
  failure : s.failure = none

namespace Splits

theorem symm (h : Splits G H s a b) : Splits H G s b a where
  left := h.right
  right := h.left
  classes := h.classes.symm
  deferred c := (h.deferred c).trans or_comm
  waiting := h.waiting.symm
  distinct m n := (h.distinct n m).symm
  covered k := (h.covered k).symm
  failure := h.failure

/-- Both sessions move on, and change nothing but what is shown here. -/
theorem of_frames (h : Splits G H s a b) (hs : Frames s s') (ha : Frames a a')
    (hvalid : a'.classes.Valid) (hclasses : s'.classes.Splits G H a'.classes b.classes)
    (hdeferred : ∀ c, c ∈ s'.deferred ↔ c ∈ a'.deferred ∨ c ∈ b.deferred)
    (hwaiting : Interleaves (a'.waiting.map G.number) (b.waiting.map H.number) s'.waiting)
    (hnone : s'.failure = none) (hnone' : a'.failure = none) : Splits G H s' a' b where
  left := h.left.of_frames hs ha hvalid hnone'
  right := h.right.of_frames hs (.refl b) h.right.valid h.right.failure
  classes := hclasses
  deferred := hdeferred
  waiting := hwaiting
  distinct := h.distinct
  covered := h.covered
  failure := hnone

theorem isPending (h : Splits G H s a b) (n : Nat) :
    s.isPending (G.number n) = a.isPending n := by
  rw [Session.isPending, h.left.entries, Session.isPending]

theorem mem_waiting (h : Splits G H s a b) (n : Nat) :
    G.number n ∈ s.waiting ↔ n ∈ a.waiting := by
  have hright : G.number n ∉ b.waiting.map H.number := fun hmem => by
    obtain ⟨m, -, heq⟩ := List.mem_map.mp hmem
    exact h.distinct n m heq.symm
  rw [h.waiting.mem_iff, List.mem_map_of_injective G.injective, or_iff_left hright]

theorem wake (h : Splits G H s a b) (n : Nat) :
    Splits G H (s.wake (G.number n)) (a.wake n) b := by
  obtain ⟨hclasses, -, hdeferred, hfailure⟩ := wake_fields s (G.number n)
  obtain ⟨hclasses', -, hdeferred', hfailure'⟩ := wake_fields a n
  refine h.of_frames (frames_wake s (G.number n)) (frames_wake a n) (hclasses' ▸ h.left.valid) ?_ ?_
    ?_ (hfailure.trans h.failure) (hfailure'.trans h.left.failure)
  · rw [hclasses, hclasses']
    exact h.classes
  · rw [hdeferred, hdeferred']
    exact h.deferred
  · simp only [waiting_wake, h.isPending, h.mem_waiting]
    split
    · rw [List.map_append]
      exact h.waiting.snoc_left _
    · exact h.waiting

theorem foldl_wake (h : Splits G H s a b) (ns : List Nat) :
    Splits G H ((ns.map G.number).foldl Session.wake s) (ns.foldl Session.wake a) b := by
  induction ns generalizing s a with
  | nil => exact h
  | cons n ns ih => exact ih (h.wake n)

theorem noted (h : Splits G H s a b) (v w : List Invocation) (l m : Span) :
    Splits G H { s with trace := v, location := l } { a with trace := w, location := m } b :=
  ⟨⟨h.left.globals, h.left.config, h.left.known, h.left.entries, h.left.relations, h.left.closed,
    h.left.valid, h.left.failure⟩, ⟨h.right.globals, h.right.config, h.right.known, h.right.entries,
    h.right.relations, h.right.closed, h.right.valid, h.right.failure⟩, h.classes, h.deferred,
    h.waiting, h.distinct, h.covered, h.failure⟩

end Splits

theorem assert_worklist (s : Session) (cond : Cond) :
    (s.assert cond).2.waiting = s.waiting ∧ (s.assert cond).2.location = s.location := by
  obtain ⟨deferred, failure, heq⟩ := exists_assert_eq s cond
  rw [heq]
  exact ⟨rfl, rfl⟩

/-- While a relation of a group runs, a session and that of the group stand side by side, or
both have failed for the same reason. -/
inductive Joint (G H : Group) (b s a : Session) : Prop
  | going : Splits G H s a b → s.location = a.location → Joint G H b s a
  | failed (e : TypeError) : s.failure = some e → a.failure = some e → Joint G H b s a

namespace Joint

theorem failure (h : Joint G H b s a) : s.failure = a.failure := by
  obtain ⟨h, -⟩ | ⟨e, hs, ha⟩ := h
  · rw [h.failure, h.left.failure]
  · rw [hs, ha]

theorem splits (h : Joint G H b s a) (hnone : s.failure = none) : Splits G H s a b := by
  obtain ⟨h, -⟩ | ⟨e, hs, -⟩ := h
  · exact h
  · rw [hnone] at hs
    cases hs

theorem assign (h : Joint G H b s a) {dst src : Ty} (hdst : ∀ i ∈ dst.ids, G.mine i)
    (hsrc : ∀ i ∈ src.ids, G.mine i) : Joint G H b (s.assign dst src) (a.assign dst src) := by
  obtain ⟨h, hlocation⟩ | ⟨e, hs, ha⟩ := h
  · have hsite : s.site = a.site := by rw [site, site, h.left.known, h.left.config, hlocation]
    have hprogress : Progress.Splits G H b.deferred b.classes ⟨s.classes, s.deferred, []⟩
        ⟨a.classes, a.deferred, []⟩ := ⟨h.classes, h.deferred, rfl⟩
    have hagree := s.site.unify_splits hprogress h.right.valid hdst hsrc
    cases hresult : a.site.unify ⟨a.classes, a.deferred, []⟩ dst src with
    | error e =>
      rw [assign_of_error h.failure (hagree.of_error (hsite ▸ hresult)),
        assign_of_error h.left.failure hresult]
      exact .failed e (by rw [fail, h.failure]; rfl) (by rw [fail, h.left.failure]; rfl)
    | ok p =>
      obtain ⟨q, hq, hsplits⟩ := hagree.of_ok (hsite ▸ hresult)
      have hvalid := (assign_grows h.left.valid dst src).valid
      rw [assign_of_ok h.left.failure hresult, (foldl_wake_fields _ _).1] at hvalid
      rw [assign_of_ok h.failure hq, assign_of_ok h.left.failure hresult, hsplits.woken]
      refine .going (Splits.foldl_wake ?_ _) ?_
      · exact h.of_frames ⟨rfl, rfl, rfl, rfl, rfl⟩ ⟨rfl, rfl, rfl, rfl, rfl⟩ hvalid
          hsplits.classes hsplits.deferred h.waiting h.failure h.left.failure
      · rw [location_foldl_wake, location_foldl_wake]
        exact hlocation
  · rw [assign_of_failed (by simp [hs]), assign_of_failed (by simp [ha])]
    exact .failed e hs ha

theorem assert (h : Joint G H b s a) (cond : Cond) :
    (s.assert cond).1 = (a.assert cond).1 ∧ Joint G H b (s.assert cond).2 (a.assert cond).2 := by
  obtain ⟨h, hlocation⟩ | ⟨e, hs, ha⟩ := h
  · by_cases hrefuted : s.known.prove cond = .refuted
    · have hrefuted' : a.known.prove cond = .refuted := h.left.known ▸ hrefuted
      simp only [Session.assert, h.failure, h.left.failure, hrefuted, hrefuted', hlocation]
      exact ⟨rfl, .failed _ (by rw [fail, h.failure]; rfl) (by rw [fail, h.left.failure]; rfl)⟩
    · have hrefuted' : a.known.prove cond ≠ .refuted := h.left.known ▸ hrefuted
      obtain ⟨hanswer, hnone, hclasses, -⟩ := assert_accepted h.failure hrefuted
      obtain ⟨hanswer', hnone', hclasses', -⟩ := assert_accepted h.left.failure hrefuted'
      obtain ⟨hwaiting, hlocated⟩ := assert_worklist s cond
      obtain ⟨hwaiting', hlocated'⟩ := assert_worklist a cond
      refine ⟨hanswer.trans hanswer'.symm, .going (h.of_frames (frames_assert s cond)
        (frames_assert a cond) (hclasses' ▸ h.left.valid) ?_ (fun c => ?_) ?_ hnone hnone')
        (hlocated.trans (hlocation.trans hlocated'.symm))⟩
      · rw [hclasses, hclasses']
        exact h.classes
      · rw [mem_deferred_assert h.failure hrefuted, mem_deferred_assert h.left.failure hrefuted',
          h.deferred, h.left.known, or_right_comm]
      · rw [hwaiting, hwaiting']
        exact h.waiting
  · rw [assert_of_failed (by simp [hs]), assert_of_failed (by simp [ha])]
    exact ⟨rfl, .failed e hs ha⟩

theorem locate (h : Joint G H b s a) (span : Span) :
    Joint G H b { s with location := span } { a with location := span } := by
  obtain ⟨h, -⟩ | ⟨e, hs, ha⟩ := h
  · exact .going (h.noted _ _ _ _) rfl
  · exact .failed e hs ha

/-- A rule that mentions placeholders of one group only does the same in the whole session as in
that of the group. -/
theorem run (h : Joint G H b s a) {r : Resolution} (hr : r.Within fun p => G.mine p.id) :
    Joint G H b (r.run reporter s).state (r.run reporter a).state ∧
      (r.run reporter s).resolved = (r.run reporter a).resolved := by
  induction r generalizing s a with
  | done resolved => exact ⟨h, rfl⟩
  | assign dst src next ih =>
    obtain ⟨hdst, hsrc, hnext⟩ := hr
    exact ih (h.assign (forall_mem_ids.mpr hdst) (forall_mem_ids.mpr hsrc)) hnext
  | assert cond next ih =>
    obtain ⟨hanswer, hjoint⟩ := h.assert cond
    rw [run_assert, run_assert, hanswer]
    exact ih _ hjoint (hr _)
  | locate span next ih => exact ih (h.locate span) hr

end Joint

/-- A relation of a group is asked the same in the whole session as in that of the group. -/
theorem Part.query (h : Part G s a) (hclasses : s.classes.Part G a.classes) {r : Relation}
    (hr : ∀ t ∈ r.args, ∀ i ∈ t.ids, G.mine i) : s.query r = a.query r := by
  have hargs : r.args.map s.resolve = r.args.map a.resolve :=
    List.map_congr_left fun t ht => hclasses.resolve (hr t ht)
  rw [Session.query, Session.query, hargs, h.globals]

theorem Part.retire (h : Part G s a) (n : Nat) : Part G (s.retire (G.number n)) (a.retire n) := by
  refine ⟨h.globals, h.config, h.known, fun m => ?_, fun e he => ?_, h.closed, h.valid, h.failure⟩
  · simp only [getElem?_retire, h.entries, G.injective.eq_iff]
  · obtain ⟨m, hm⟩ := List.mem_iff_getElem?.mp he
    rw [getElem?_retire] at hm
    obtain ⟨e', he', rfl⟩ := Option.map_eq_some_iff.mp hm
    exact h.relations e' (List.mem_of_getElem? he')

theorem Part.retire_other (h : Part G s a) {k : Nat} (hk : ∀ n, G.number n ≠ k) :
    Part G (s.retire k) a := by
  refine ⟨h.globals, h.config, h.known, fun m => ?_, h.relations, h.closed, h.valid, h.failure⟩
  rw [getElem?_retire, ← h.entries]
  cases s.entries[G.number m]? <;> simp [(hk m).symm]

namespace Splits

theorem retire (h : Splits G H s a b) (n : Nat) :
    Splits G H (s.retire (G.number n)) (a.retire n) b := by
  refine ⟨h.left.retire n, h.right.retire_other fun m => (h.distinct n m).symm, h.classes,
    h.deferred, ?_, h.distinct, h.covered, h.failure⟩
  have hleft : (a.retire n).waiting.map G.number =
      (a.waiting.map G.number).filter fun k => decide (k ≠ G.number n) := by
    rw [waiting_retire, List.filter_map]
    simp only [Function.comp_def, ne_eq, G.injective.eq_iff]
  have hright : b.waiting.map H.number =
      (b.waiting.map H.number).filter fun k => decide (k ≠ G.number n) := by
    refine (List.filter_eq_self.mpr fun k hk => ?_).symm
    obtain ⟨m, -, rfl⟩ := List.mem_map.mp hk
    exact decide_eq_true (h.distinct n m).symm
  rw [hleft, hright, waiting_retire]
  exact h.waiting.filter _

/-- Running a relation of a group does the same in the whole session as in that of the group. -/
theorem invoke (h : Splits G H s a b) {n : Nat} {e : Entry} (he : a.entries[n]? = some e) :
    Joint G H b (s.invoke (G.number n) e.relation) (a.invoke n e.relation) := by
  obtain ⟨hrule, hmine⟩ := h.left.relations e (List.mem_of_getElem? he)
  have hwithin : (e.relation.rule.resolve (a.query e.relation)).Within fun p => G.mine p.id := by
    refine (Rule.local_of_mem_builtins hrule (a.query e.relation) h.left.closed).mono ?_
    rintro p ⟨t, ht, hp⟩
    obtain ⟨u, hu, rfl⟩ := List.mem_map.mp ht
    exact h.classes.left.mine_resolve (hmine u hu) p.id (mem_ids.mpr ⟨p, hp, rfl⟩)
  have hstart : Joint G H b { s with location := e.relation.span }
      { a with location := e.relation.span } := .going (h.noted _ _ _ _) rfl
  have houtcome : s.outcome e.relation = (e.relation.rule.resolve (a.query e.relation)).run reporter
      { s with location := e.relation.span } := by
    rw [outcome, h.left.query h.classes.left hmine]
  obtain ⟨hjoint, hresolved⟩ := hstart.run hwithin
  rw [← houtcome] at hjoint hresolved
  change Joint G H b (s.outcome e.relation).state (a.outcome e.relation).state at hjoint
  change (s.outcome e.relation).resolved = (a.outcome e.relation).resolved at hresolved
  rw [invoke_eq, invoke_eq, hresolved]
  obtain ⟨hsplits, hlocation⟩ | ⟨error, hs, ha⟩ := hjoint
  · split
    · exact .going ((hsplits.noted _ _ _ _).retire n) hlocation
    · exact .going (hsplits.noted _ _ _ _) hlocation
  · split
    · exact .failed error hs ha
    · exact .failed error hs ha

variable {k : Nat} {r : Relation} {rest : Session}

/-- If the next relation is one of a group's, it is the next one of that group's session, and
running it does the same in both. -/
private theorem next_of_left (h : Splits G H s a b) (hnext : s.next? = some (k, r, rest)) {n : Nat}
    {w : List Nat} (ha : a.waiting = n :: w) (hk : G.number n = k)
    (hrest : Interleaves (w.map G.number) (b.waiting.map H.number) rest.waiting) :
    ∃ rest', a.next? = some (n, r, rest') ∧
      Joint G H b (rest.invoke k r) (rest'.invoke n r) := by
  obtain ⟨r', rest', hnext', rfl⟩ := next?_of_waiting ha
  obtain ⟨queue, rfl, he, -⟩ := next?_eq_some hnext
  obtain ⟨queue', rfl, he', -⟩ := next?_eq_some hnext'
  subst hk
  rw [h.left.entries, he'] at he
  cases he
  have hsplits : Splits G H { s with queue } { a with queue := queue' } b :=
    h.of_frames ⟨rfl, rfl, rfl, rfl, rfl⟩ ⟨rfl, rfl, rfl, rfl, rfl⟩ h.left.valid h.classes h.deferred
      hrest h.failure h.left.failure
  exact ⟨_, hnext', hsplits.invoke (e := ⟨r, false⟩) he'⟩

/-- The next relation is the next one of one group's session, and running it does the same in
both. -/
theorem next (h : Splits G H s a b) (hnext : s.next? = some (k, r, rest)) :
    (∃ n rest', a.next? = some (n, r, rest') ∧ Joint G H b (rest.invoke k r) (rest'.invoke n r)) ∨
      ∃ n rest', b.next? = some (n, r, rest') ∧
        Joint H G a (rest.invoke k r) (rest'.invoke n r) := by
  have hwaiting := h.waiting
  rw [waiting_of_next? hnext] at hwaiting
  generalize has : a.waiting.map G.number = as at hwaiting
  generalize hbs : b.waiting.map H.number = bs at hwaiting
  cases hwaiting with
  | left hrest =>
    obtain ⟨n, w, ha, hk, rfl⟩ := List.map_eq_cons_iff.mp has
    exact Or.inl ⟨n, h.next_of_left hnext ha hk (hbs ▸ hrest)⟩
  | right hrest =>
    obtain ⟨n, w, hb, hk, rfl⟩ := List.map_eq_cons_iff.mp hbs
    exact Or.inr ⟨n, h.symm.next_of_left hnext hb hk (has ▸ hrest.symm)⟩

theorem turn (h : Splits G H s a b) (hturn : Turn s s') :
    (∃ a', Turn a a' ∧ Splits G H s' a' b) ∨ ∃ b', Turn b b' ∧ Splits G H s' a b' := by
  obtain ⟨k, r, rest, hnext, rfl, hnone⟩ := hturn
  obtain ⟨n, rest', hnext', hjoint⟩ | ⟨n, rest', hnext', hjoint⟩ := h.next hnext
  · have hsplits := hjoint.splits hnone
    exact Or.inl ⟨_, ⟨n, r, rest', hnext', rfl, hsplits.left.failure⟩, hsplits⟩
  · have hsplits := hjoint.splits hnone
    exact Or.inr ⟨_, ⟨n, r, rest', hnext', rfl, hsplits.left.failure⟩, hsplits.symm⟩

/-- A run of the whole session is made of a run of each group's session. -/
theorem turns (h : Splits G H s a b) (hturns : Turns s s') :
    ∃ a' b', Turns a a' ∧ Turns b b' ∧ Splits G H s' a' b' := by
  induction hturns with
  | refl => exact ⟨a, b, .refl, .refl, h⟩
  | tail _ hturn ih =>
    obtain ⟨a', b', ha, hb, hsplits⟩ := ih
    obtain ⟨a'', hturn', hsplits'⟩ | ⟨b'', hturn', hsplits'⟩ := hsplits.turn hturn
    · exact ⟨a'', b', ha.tail hturn', hb, hsplits'⟩
    · exact ⟨a', b'', ha, hb.tail hturn', hsplits'⟩

theorem next?_eq_none_iff (h : Splits G H s a b) :
    s.next? = none ↔ a.next? = none ∧ b.next? = none := by
  rw [Session.next?_eq_none_iff, Session.next?_eq_none_iff, Session.next?_eq_none_iff,
    h.waiting.eq_nil_iff, List.map_eq_nil_iff, List.map_eq_nil_iff]

end Splits

end TensorTyping.Session
