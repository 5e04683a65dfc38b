import TensorTyping.Proofs.NormalForm.Split
import TensorTyping.Proofs.Ranges

namespace TensorTyping.Ranges

/-- An integer lies within bounds. -/
def Bounds.Contains (b : Bounds) (v : Int) : Prop :=
  (∀ l ∈ b.lower, l.toInt ≤ v) ∧ ∀ u ∈ b.upper, v ≤ u.toInt

instance (b : Bounds) (v : Int) : Decidable (b.Contains v) :=
  have := Option.decidableForallMem (p := fun l => l.toInt ≤ v) b.lower
  have := Option.decidableForallMem (p := fun u => v ≤ u.toInt) b.upper
  instDecidableAnd

/-- What is known of all size variables but one. -/
def forget (known : Ranges) (x : SizeVar) : Ranges :=
  ⟨fun y => if y = x then Option.none else known.range? y⟩

variable {known known' : Ranges} {σ : Assignment} {x : SizeVar} {b : Bounds}

theorem admits_forget : (known.forget x).Admits σ ↔
    ∀ y, y ≠ x → ∀ r ∈ known.range? y, r.Contains (σ y) := by
  refine forall_congr' fun y => ?_
  by_cases hy : y = x
  · simp [forget, hy]
  · simp [forget, hy, Range.Contains]

theorem intervalOfDim_congr {d : Dim} (h : ∀ y, d.Mentions y → known.range? y = known'.range? y) :
    known.intervalOfDim d = known'.intervalOfDim d := by
  induction d with
  | const n => rfl
  | var y => simp only [intervalOfDim, intervalOfVar, h y rfl]
  | any => rfl
  | binary op d e ihd ihe =>
    have hd := ihd fun y hy => h y (Or.inl hy)
    have he := ihe fun y hy => h y (Or.inr hy)
    cases op <;> simp only [intervalOfDim, hd, he]

/-- The interval of a normal form depends only on what is known of the size variables in it. -/
theorem intervalOf_congr {p : NormalForm}
    (h : p.Over fun a => ∀ y, a.Mentions y → known.range? y = known'.range? y) :
    known.intervalOf p = known'.intervalOf p := by
  refine List.foldl_ext _ _ _ fun total t ht => ?_
  have hmonomial : known.intervalOfMonomial t.1 = known'.intervalOfMonomial t.1 :=
    List.foldl_ext _ _ _ fun acc a ha => by
      rw [intervalOfDim_congr (h _ (List.mem_map_of_mem ht) a ha)]
  rw [hmonomial]

theorem intervalOf_forget {q : NormalForm} (h : q.Over (¬ ·.Mentions x)) :
    (known.forget x).intervalOf q = known.intervalOf q := by
  refine intervalOf_congr fun m hm a ha y hy => if_neg ?_
  rintro rfl
  exact h m hm a ha hy

private theorem le_fdiv_iff {k v n : Int} (hk : 0 < k) : v ≤ n.fdiv k ↔ k * v ≤ n := by
  rw [Int.fdiv_eq_ediv_of_nonneg n (Int.le_of_lt hk), Int.le_ediv_iff_mul_le hk, Int.mul_comm]

private theorem contains_lower {lower : Word} {v : Int} :
    (⟨some lower, Option.none⟩ : Bounds).Contains v ↔ lower.toInt ≤ v := by
  simp [Bounds.Contains]

private theorem contains_upper {upper : Word} {v : Int} :
    (⟨Option.none, some upper⟩ : Bounds).Contains v ↔ v ≤ upper.toInt := by
  simp [Bounds.Contains]

/-- Rounded down, an upper bound keeps all integers whose multiples are within it. -/
private theorem contains_iff_of_floor {k e : Int} (hk : 0 < k)
    (h : (do let upper ← Word.ofInt? (e.fdiv k); some ⟨Option.none, some upper⟩) = some b)
    (v : Int) : b.Contains v ↔ k * v ≤ e := by
  obtain ⟨upper, hupper, h⟩ := Option.bind_eq_some_iff.mp h
  cases h
  rw [contains_upper, Word.ofInt?_eq_some_iff.mp hupper, le_fdiv_iff hk]

/-- Rounded up, a lower bound keeps all integers whose multiples are within it. -/
private theorem contains_iff_of_ceiling {k e : Int} (hk : 0 < k)
    (h : solveBound?.ceiling k e = some b) (v : Int) : b.Contains v ↔ e ≤ k * v := by
  simp only [solveBound?.ceiling, Option.bind_eq_bind, Option.bind_eq_some_iff,
    Option.some.injEq] at h
  obtain ⟨opposite, hopposite, least, hleast, lower, hlower, rfl⟩ := h
  obtain rfl := eq_of_within128? hopposite
  obtain rfl := eq_of_within128? hleast
  have hquotient := le_fdiv_iff (v := -v) (n := -e) hk
  rw [Int.mul_neg] at hquotient
  rw [contains_lower, Word.ofInt?_eq_some_iff.mp hlower]
  omega

/-- An end of an interval that is the hardest to satisfy: what stands in a comparison to it stands
in that comparison to all members. -/
structure Hardest (op : Comparison) (i : Interval) (e : Int) : Prop where
  isEnd : i.lo = some e ∨ i.hi = some e
  holds : ∀ w, ∀ r ∈ i, op.holds w e = true → op.holds w r = true

variable {op : Comparison} {i : Interval} {e : Int}

theorem hardest_of_lo (he : i.lo = some e) (hop : op = .lt ∨ op = .le) : Hardest op i e := by
  refine ⟨Or.inl he, fun w r hr hw => ?_⟩
  have hle := hr.1 e he
  obtain rfl | rfl := hop <;> simp only [Comparison.holds, decide_eq_true_eq] at hw ⊢ <;> omega

theorem hardest_of_hi (he : i.hi = some e) (hop : op = .gt ∨ op = .ge) : Hardest op i e := by
  refine ⟨Or.inr he, fun w r hr hw => ?_⟩
  have hle := hr.2 e he
  obtain rfl | rfl := hop <;> simp only [Comparison.holds, decide_eq_true_eq] at hw ⊢ <;> omega

/-- Solved bounds contain the integers whose multiples satisfy the hardest end. -/
theorem exists_hardest_of_solveBound? {k : Int} (hk : 0 < k)
    (h : solveBound? k op i = some b) :
    ∃ e, Hardest op i e ∧ ∀ v, b.Contains v ↔ op.holds (k * v) e = true := by
  cases op with
  | eq =>
    obtain ⟨e, he, h⟩ := Option.bind_eq_some_iff.mp h
    split at h
    · rename_i hdvd
      obtain ⟨exact, hexact, h⟩ := Option.bind_eq_some_iff.mp h
      cases h
      obtain ⟨w, rfl⟩ := hdvd
      rw [Int.mul_ediv_cancel_left w (Int.ne_of_gt hk)] at hexact
      have hlo := congrArg Interval.lo (Interval.eq_point_of_point? he)
      refine ⟨k * w, ⟨Or.inl hlo, fun v r hr hv => ?_⟩, fun v => ?_⟩
      · rwa [Interval.eq_of_mem_point? hr he]
      · have hcancel : k * v = k * w ↔ v = w := Int.mul_eq_mul_left_iff (Int.ne_of_gt hk)
        simp only [Bounds.Contains, Option.mem_some_iff, forall_eq', Comparison.holds,
          decide_eq_true_eq, hcancel, Word.ofInt?_eq_some_iff.mp hexact]
        omega
    · cases h
  | ne => cases h
  | lt =>
    obtain ⟨e, he, h⟩ := Option.bind_eq_some_iff.mp h
    obtain ⟨l, hl, h⟩ := Option.bind_eq_some_iff.mp h
    have hl := eq_of_within128? hl
    refine ⟨e, hardest_of_lo he (Or.inl rfl), fun v => ?_⟩
    rw [contains_iff_of_floor hk h, Comparison.holds, decide_eq_true_eq]
    omega
  | le =>
    obtain ⟨e, he, h⟩ := Option.bind_eq_some_iff.mp h
    refine ⟨e, hardest_of_lo he (Or.inr rfl), fun v => ?_⟩
    rw [contains_iff_of_floor hk h, Comparison.holds, decide_eq_true_eq]
  | gt =>
    obtain ⟨e, he, h⟩ := Option.bind_eq_some_iff.mp h
    obtain ⟨u, hu, h⟩ := Option.bind_eq_some_iff.mp h
    have hu := eq_of_within128? hu
    refine ⟨e, hardest_of_hi he (Or.inl rfl), fun v => ?_⟩
    rw [contains_iff_of_ceiling hk h, Comparison.holds, decide_eq_true_eq]
    omega
  | ge =>
    obtain ⟨e, he, h⟩ := Option.bind_eq_some_iff.mp h
    refine ⟨e, hardest_of_hi he (Or.inr rfl), fun v => ?_⟩
    rw [contains_iff_of_ceiling hk h, Comparison.holds, decide_eq_true_eq]

/-- A difference stands to zero as a positive multiple of a size variable stands to a normal form
without it. The monomials of that form are some of the difference. -/
structure Isolates (p : NormalForm) (op : Comparison) (x : SizeVar) (k : Int) (op' : Comparison)
    (q : NormalForm) : Prop where
  pos : 0 < k
  absent : q.Over (¬ ·.Mentions x)
  monomials : (q.terms.map (·.1)).Sublist (p.terms.map (·.1))
  holds : ∀ {σ n}, p.eval σ = some n →
    ∃ r, q.eval σ = some r ∧ op.holds n 0 = op'.holds (k * σ x) r

variable {p rest q : NormalForm} {c k : Word}

theorem isolates_of_pos (op : Comparison) (hsplit : p.splitLinear? x = some (c, rest)) (hc : 0 < c)
    (hq : rest.neg? = some q) : Isolates p op x c.toInt op q where
  pos := by simpa [Int64.lt_iff_toInt_lt] using hc
  absent := NormalForm.over_neg? (NormalForm.over_splitLinear? hsplit) hq
  monomials := by
    obtain ⟨qs, hqs, rfl⟩ := Option.map_eq_some_iff.mp hq
    have hfst := (NormalForm.mapM_terms (f := fun t => Word.neg? t.2) hqs).1
    exact hfst ▸ NormalForm.sublist_splitLinear? hsplit
  holds := by
    intro σ n hn
    obtain ⟨r, hr, rfl⟩ := (NormalForm.eval_splitLinear? hsplit).mp hn
    refine ⟨-r, NormalForm.eval_neg? hr hq, ?_⟩
    rw [← holds_sub op (c.toInt * σ x), Int.sub_neg]

theorem isolates_of_neg (op : Comparison) (hsplit : p.splitLinear? x = some (c, rest)) (hc : c < 0)
    (hk : Word.neg? c = some k) : Isolates p op x k.toInt op.swap rest := by
  have hopposite : k.toInt = -c.toInt := Word.ofInt?_eq_some_iff.mp hk
  have hneg : c.toInt < 0 := by simpa [Int64.lt_iff_toInt_lt] using hc
  refine ⟨by omega, NormalForm.over_splitLinear? hsplit, NormalForm.sublist_splitLinear? hsplit,
    fun hn => ?_⟩
  obtain ⟨r, hr, rfl⟩ := (NormalForm.eval_splitLinear? hsplit).mp hn
  refine ⟨r, hr, ?_⟩
  rw [Comparison.holds_swap, ← holds_sub op r, hopposite, Int.neg_mul, Int.sub_neg, Int.add_comm]

variable {lhs rhs : Dim}

/-- A bound is deduced by isolating the size variable, and it is exact for one end of the interval
that encloses the other side. -/
theorem exists_isolates_of_deduceBound? (h : known.deduceBound? x (.cmp op lhs rhs) = some b) :
    ∃ p k op' q e, difference? lhs rhs = some p ∧ Isolates p op x k op' q ∧
      Hardest op' (known.intervalOf q) e ∧ ∀ v, b.Contains v ↔ op'.holds (k * v) e = true := by
  obtain ⟨p, hp, h⟩ := Option.bind_eq_some_iff.mp h
  obtain ⟨⟨c, rest⟩, hsplit, h⟩ := Option.bind_eq_some_iff.mp h
  dsimp only at h
  split at h
  · rename_i hc
    obtain ⟨q, hq, h⟩ := Option.bind_eq_some_iff.mp h
    have hisolates := isolates_of_pos op hsplit hc hq
    obtain ⟨e, he⟩ := exists_hardest_of_solveBound? hisolates.pos h
    exact ⟨p, _, op, q, e, hp, hisolates, he⟩
  · split at h
    · rename_i hc
      obtain ⟨k, hk, h⟩ := Option.bind_eq_some_iff.mp h
      have hisolates := isolates_of_neg op hsplit hc hk
      obtain ⟨e, he⟩ := exists_hardest_of_solveBound? hisolates.pos h
      exact ⟨p, _, op.swap, rest, e, hp, hisolates, he⟩
    · cases h

/-- Within the bounds, the difference stands in the comparison to zero. -/
theorem holds_of_deduceBound? (h : known.deduceBound? x (.cmp op lhs rhs) = some b)
    (hp : difference? lhs rhs = some p)
    (hσ : ∀ y, y ≠ x → ∀ r ∈ known.range? y, r.Contains (σ y)) (hx : b.Contains (σ x)) {n : Int}
    (hn : p.eval σ = some n) : op.holds n 0 = true := by
  obtain ⟨p', k, op', q, e, hp', hisolates, hhardest, hb⟩ := exists_isolates_of_deduceBound? h
  obtain rfl := Option.some.inj (hp.symm.trans hp')
  obtain ⟨r, hr, hholds⟩ := hisolates.holds hn
  have hmem := mem_intervalOf (admits_forget.mpr hσ) hr
  rw [intervalOf_forget hisolates.absent] at hmem
  rw [hholds]
  exact hhardest.holds _ r hmem ((hb _).mp hx)

/-- Only comparisons give bounds, and these are sound: a comparison holds for every choice of sizes
within the known ranges, with any size within the bounds for the variable they are deduced for,
provided that both sides have a value. -/
theorem deduceBound?_sound (known : Ranges) (x : SizeVar) (c : Cond) (b : Bounds)
    (h : known.deduceBound? x c = some b) :
    ∃ op lhs rhs, c = .cmp op lhs rhs ∧
      ∀ σ : Assignment, (∀ y, y ≠ x → ∀ r ∈ known.range? y, r.Contains (σ y)) →
        b.Contains (σ x) →
        ∀ m n, lhs.eval σ = some m → rhs.eval σ = some n → op.holds m n = true := by
  cases c with
  | bool | and | or | not => cases h
  | cmp op lhs rhs =>
    refine ⟨op, lhs, rhs, rfl, fun σ hσ hx m n hm hn => ?_⟩
    obtain ⟨p, hp, -⟩ := Option.bind_eq_some_iff.mp h
    rw [← holds_sub]
    exact holds_of_deduceBound? h hp hσ hx (eval_difference? hm hn hp)

/-- A negative coefficient, and a rest in which a rounded quotient is multiplied by a size. -/
theorem deduceBound?_sound_product :
    let x : SizeVar := ⟨0, "x"⟩
    let n : SizeVar := ⟨1, "n"⟩
    let m : SizeVar := ⟨2, "m"⟩
    let known := none.bindAll [(n, ⟨-5, 9⟩), (m, ⟨-2, 4⟩)]
    let lhs : Dim := .binary .add (.binary .mul (.const (-3)) (.var x))
      (.binary .mul (.binary .floorDiv (.var n) (.const 2)) (.var m))
    let b : Bounds := ⟨Option.none, some (-7)⟩
    let σ : Assignment := fun y => if y = x then -7 else if y = n then -5 else 4
    known.deduceBound? x (.cmp .ge lhs (.const 7)) = some b ∧ b.Contains (σ x) ∧
      lhs.eval σ = some 9 ∧ Comparison.ge.holds 9 7 = true := by
  intro x n m known lhs b σ
  have hb : known.deduceBound? x (.cmp .ge lhs (.const 7)) = some b := by cbv
  have hx : b.Contains (σ x) := by decide +kernel
  have heval : lhs.eval σ = some 9 := by decide
  have hσ : known.Admits σ := admits_bindAll (admits_none σ) (by decide)
  obtain ⟨op, l, r, hc, hsound⟩ := deduceBound?_sound known x (.cmp .ge lhs (.const 7)) b hb
  cases hc
  exact ⟨hb, hx, heval, hsound σ (fun y _ r hr => hσ y r hr) hx 9 7 heval rfl⟩

end TensorTyping.Ranges
