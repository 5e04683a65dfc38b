import TensorTyping.Proofs.Independence.Run

namespace TensorTyping

open Ty

namespace Session

variable {G H : Group} {s a b : Session}

theorem splits_foldl_registerUse {b : Classes} (h : s.classes.Splits G H a.classes b)
    {ps : List Placeholder} (hps : ∀ p ∈ ps, G.mine p.id) (n : Nat) :
    (ps.foldl (registerUse (G.number n)) s).classes.Splits G H
      (ps.foldl (registerUse n) a).classes b := by
  induction ps generalizing s a with
  | nil => exact h
  | cons p ps ih =>
    rw [List.forall_mem_cons] at hps
    exact ih ((h.ensure hps.1).use hps.1 [n]) hps.2

theorem Untouched.waiting (h : s.Untouched) : s.waiting = List.range s.entries.length := by
  rw [Session.waiting, h.queue, List.filter_eq_self]
  intro n hn
  rw [isPending, List.getElem?_eq_getElem (List.mem_range.mp hn)]
  simp [h.pending _ (List.getElem_mem _)]

private theorem getElem?_snoc {α : Type} (l : List α) (x : α) (n : Nat) :
    (l ++ [x])[n]? = if n = l.length then some x else l[n]? := by
  grind

section add

variable {r : Relation}

theorem Part.add (h : Part G s a) (hs : s.classes.Valid) (ha : a.classes.Valid)
    (hnumber : G.number a.entries.length = s.entries.length) (hrule : r.rule ∈ Rule.builtins)
    (hmine : ∀ t ∈ r.args, ∀ i ∈ t.ids, G.mine i) : Part G (s.add r) (a.add r) := by
  obtain ⟨classes, nextId, heq, -⟩ := add_fields hs r
  obtain ⟨classes', nextId', heq', hregisters, -⟩ := add_fields ha r
  rw [heq, heq']
  refine ⟨h.globals, h.config, h.known, fun n => ?_, fun e he => ?_, h.closed, hregisters.valid,
    h.failure⟩
  · simp only [getElem?_snoc, h.entries, ← hnumber, G.injective.eq_iff]
  · obtain he | he := List.mem_append.mp he
    · exact h.relations e he
    · rw [List.mem_singleton.mp he]
      exact ⟨hrule, hmine⟩

theorem Part.add_other (h : Part G s a) (hs : s.classes.Valid)
    (hnumber : ∀ n, G.number n ≠ s.entries.length) : Part G (s.add r) a := by
  obtain ⟨classes, nextId, heq, -⟩ := add_fields hs r
  rw [heq]
  refine ⟨h.globals, h.config, h.known, fun n => ?_, h.relations, h.closed, h.valid, h.failure⟩
  rw [getElem?_snoc, if_neg (hnumber n), h.entries]

/-- What adding a relation to a new session does besides registering placeholders. -/
theorem Untouched.add_fields (h : s.Untouched) (r : Relation) :
    (s.add r).Untouched ∧ (s.add r).entries.length = s.entries.length + 1 ∧
      (s.add r).deferred = s.deferred ∧ (s.add r).failure = s.failure ∧
      (s.add r).waiting = s.waiting ++ [s.entries.length] := by
  have hadd : (s.add r).Untouched := h.apply (.relation r)
  have hwaiting := hadd.waiting
  obtain ⟨classes, nextId, heq, -⟩ := Session.add_fields h.valid r
  have hlength : (s.add r).entries.length = s.entries.length + 1 := by simp [heq]
  rw [hlength, List.range_succ, ← h.waiting] at hwaiting
  exact ⟨hadd, hlength, by rw [heq], by rw [heq], hwaiting⟩

/-- A relation of a group is added to the whole session as to that of the group. -/
theorem Splits.add (h : Splits G H s a b) (hs : s.Untouched) (ha : a.Untouched)
    (hnumber : G.number a.entries.length = s.entries.length) (hrule : r.rule ∈ Rule.builtins)
    (hmine : ∀ t ∈ r.args, ∀ i ∈ t.ids, G.mine i) : Splits G H (s.add r) (a.add r) b := by
  have hholes : ∀ p ∈ r.args.flatMap Ty.holes, G.mine p.id := fun p hp => by
    obtain ⟨t, ht, hp⟩ := List.mem_flatMap.mp hp
    exact hmine t ht _ (id_mem_holes.mp (List.mem_map_of_mem hp))
  have hclasses := splits_foldl_registerUse h.classes hholes a.entries.length
  rw [hnumber] at hclasses
  obtain ⟨-, -, hdeferred, hfailure, hwaiting⟩ := hs.add_fields r
  obtain ⟨-, -, hdeferred', -, hwaiting'⟩ := ha.add_fields r
  refine ⟨h.left.add hs.valid ha.valid hnumber hrule hmine,
    h.right.add_other hs.valid fun n => hnumber ▸ (h.distinct _ n).symm, hclasses, ?_, ?_,
    h.distinct, h.covered, hfailure.trans h.failure⟩
  · rw [hdeferred, hdeferred']
    exact h.deferred
  · rw [hwaiting, hwaiting', List.map_append, ← hnumber]
    exact h.waiting.snoc_left _

end add

/-- The relations that a group is yet to add to a session get the numbers that follow. -/
def Follows (G : Group) (s a : Session) (f : Nat → Nat) : Prop :=
  ∀ n, G.number (a.entries.length + n) = s.entries.length + f n

theorem Follows.add {f g : Nat → Nat} (h : Follows G s a f) (hfg : ∀ n, f (n + 1) = g n + 1)
    (hs : s.Untouched) (ha : a.Untouched) (r : Relation) : Follows G (s.add r) (a.add r) g := by
  intro n
  obtain ⟨-, hlength, -⟩ := hs.add_fields r
  obtain ⟨-, hlength', -⟩ := ha.add_fields r
  have hn := h (n + 1)
  rw [hfg] at hn
  rw [hlength, hlength', Nat.add_right_comm, Nat.add_assoc, hn, Nat.add_right_comm, Nat.add_assoc]

theorem Follows.add_other {f g : Nat → Nat} (h : Follows G s a f) (hfg : ∀ n, f n = g n + 1)
    (hs : s.Untouched) (r : Relation) : Follows G (s.add r) a g := by
  intro n
  obtain ⟨-, hlength, -⟩ := hs.add_fields r
  rw [h n, hfg, hlength, Nat.add_right_comm, Nat.add_assoc]

/-- Two lists of relations are interleaved in a session as they are added to those of two groups,
with some numbering of them. -/
theorem exists_splits_foldl_add {as bs cs : List Relation} (h : Interleaves as bs cs) :
    ∃ e : Nat ⊕ Nat ≃ Nat, ∀ {G H : Group} {s a b : Session}, s.Untouched → a.Untouched →
      b.Untouched → Splits G H s a b → Follows G s a (e ∘ .inl) → Follows H s b (e ∘ .inr) →
      (∀ r ∈ as, r.rule ∈ Rule.builtins ∧ ∀ t ∈ r.args, ∀ i ∈ t.ids, G.mine i) →
      (∀ r ∈ bs, r.rule ∈ Rule.builtins ∧ ∀ t ∈ r.args, ∀ i ∈ t.ids, H.mine i) →
      Splits G H (cs.foldl Session.add s) (as.foldl Session.add a) (bs.foldl Session.add b) := by
  induction h with
  | nil => exact ⟨Equiv.natSumNatEquivNat, fun _ _ _ hsplits _ _ _ _ => hsplits⟩
  | @left r as bs cs h ih =>
    obtain ⟨e, he⟩ := ih
    refine ⟨firstLeft e, fun hs ha hb hsplits hG hH has hbs => ?_⟩
    rw [List.forall_mem_cons] at has
    exact he (hs.add_fields r).1 (ha.add_fields r).1 hb (hsplits.add hs ha (hG 0) has.1.1 has.1.2)
      (hG.add (fun _ => rfl) hs ha r) (hH.add_other (fun _ => rfl) hs r) has.2 hbs
  | @right r as bs cs h ih =>
    obtain ⟨e, he⟩ := ih
    refine ⟨firstRight e, fun hs ha hb hsplits hG hH has hbs => ?_⟩
    rw [List.forall_mem_cons] at hbs
    exact he (hs.add_fields r).1 ha (hb.add_fields r).1
      (hsplits.symm.add hs hb (hH 0) hbs.1.1 hbs.1.2).symm
      (hG.add_other (fun _ => rfl) hs r) (hH.add (fun _ => rfl) hs hb r) has hbs.2

/-- A session without relations is split in any way. -/
theorem splits_prepared {globals : Globals} (hclosed : globals.Closed) (config : Config)
    (ranges : List (SizeVar × Range)) (hapart : ∀ {id}, G.mine id → ¬ H.mine id)
    (hdistinct : ∀ m n, G.number m ≠ H.number n)
    (hcovered : ∀ k, (∃ m, k = G.number m) ∨ ∃ n, k = H.number n) :
    let s₀ := prepared globals config (ranges.map fun b => .range b.1 b.2)
    Splits G H s₀ s₀ s₀ := by
  intro s₀
  have hs₀ : s₀ = { start globals config with known := Ranges.none.bindAll ranges } :=
    prepared_ranges globals config ranges
  have hvalid : Classes.empty.Valid := (untouched_start globals config).valid
  have hpart : ∀ G, Part G s₀ s₀ := fun G => by
    rw [hs₀]
    exact ⟨rfl, rfl, rfl, fun _ => rfl, nofun, hclosed, hvalid, rfl⟩
  have hclasses : ∀ G, s₀.classes.Part G s₀.classes := fun G => by
    rw [hs₀]
    exact ⟨hvalid.toPartitioned, hvalid.toPartitioned, fun _ => rfl, nofun, nofun⟩
  refine ⟨hpart G, hpart H, ⟨hclasses G, hclasses H, hapart, ?_⟩, fun _ => or_self_iff.symm, ?_,
    hdistinct, hcovered, (hpart G).failure⟩
  · rw [hs₀]
    exact nofun
  · rw [hs₀]
    exact .nil

/-- A session of interleaved relations is at first the sessions of the two lists side by side. -/
theorem exists_splits_arranged {globals : Globals} (hclosed : globals.Closed) (config : Config)
    (ranges : List (SizeVar × Range)) {as bs cs : List Relation} (h : Interleaves as bs cs)
    (hrule : ∀ r ∈ cs, r.rule ∈ Rule.builtins)
    (hapart : ∀ r ∈ as, ∀ r' ∈ bs, ∀ i ∈ r.args.flatMap Ty.ids, i ∉ r'.args.flatMap Ty.ids) :
    let setup := ranges.map fun b => Setup.range b.1 b.2
    ∃ G H, Splits G H (arranged globals config setup cs) (arranged globals config setup as)
      (arranged globals config setup bs) := by
  intro setup
  obtain ⟨e, he⟩ := exists_splits_foldl_add h
  let G : Group := ⟨fun i => ∃ r ∈ as, i ∈ r.args.flatMap ids, e ∘ .inl,
    e.injective.comp Sum.inl_injective⟩
  let H : Group := ⟨fun i => ∃ r ∈ bs, i ∈ r.args.flatMap ids, e ∘ .inr,
    e.injective.comp Sum.inr_injective⟩
  have hdistinct : ∀ m n, G.number m ≠ H.number n := fun m n heq => by
    cases e.injective heq
  have hcovered : ∀ k, (∃ m, k = G.number m) ∨ ∃ n, k = H.number n := fun k => by
    cases hk : e.symm k with
    | inl m => exact Or.inl ⟨m, e.symm_apply_eq.mp hk⟩
    | inr n => exact Or.inr ⟨n, e.symm_apply_eq.mp hk⟩
  have hs₀ := untouched_prepared globals config setup
  have hentries : (prepared globals config setup).entries = [] := by
    rw [prepared_ranges]
    rfl
  refine ⟨G, H, ?_⟩
  rw [arranged_eq_foldl, arranged_eq_foldl, arranged_eq_foldl]
  have hG : ∀ r ∈ as, ∀ t ∈ r.args, ∀ i ∈ t.ids, G.mine i := fun r hr t ht i hi =>
    ⟨r, hr, List.mem_flatMap.mpr ⟨t, ht, hi⟩⟩
  have hH : ∀ r ∈ bs, ∀ t ∈ r.args, ∀ i ∈ t.ids, H.mine i := fun r hr t ht i hi =>
    ⟨r, hr, List.mem_flatMap.mpr ⟨t, ht, hi⟩⟩
  have hGH : ∀ {i}, G.mine i → ¬ H.mine i := by
    rintro i ⟨r, hr, hi⟩ ⟨r', hr', hi'⟩
    exact hapart r hr r' hr' i hi hi'
  refine he hs₀ hs₀ hs₀ (splits_prepared hclosed config ranges hGH hdistinct hcovered) ?_ ?_
    (fun r hr => ⟨hrule r (h.mem_iff.mpr (Or.inl hr)), hG r hr⟩)
    fun r hr => ⟨hrule r (h.mem_iff.mpr (Or.inr hr)), hH r hr⟩
  · intro n
    rw [hentries, List.length_nil, Nat.zero_add, Nat.zero_add]
  · intro n
    rw [hentries, List.length_nil, Nat.zero_add, Nat.zero_add]

end Session

end TensorTyping
