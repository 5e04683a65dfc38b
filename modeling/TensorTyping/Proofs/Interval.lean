import TensorTyping.Ranges

namespace TensorTyping.Interval

theorem mem_iff {i : Interval} {n : Int} :
    n ∈ i ↔ (∀ l, i.lo = some l → l ≤ n) ∧ ∀ h, i.hi = some h → n ≤ h := Iff.rfl

theorem mem_unbounded (n : Int) : n ∈ unbounded := by
  simp [mem_iff, unbounded]

theorem mem_point (n : Int) : n ∈ point n := by
  simp [mem_iff, point]

theorem eq_point_of_point? {i : Interval} {k : Int} (hk : i.point? = some k) : i = point k := by
  obtain ⟨lo, hi⟩ := i
  unfold point? at hk
  split at hk
  · rename_i l h hl hh
    split at hk <;> cases hk
    rename_i heq
    subst heq
    exact congr (congrArg mk hl) hh
  · cases hk

theorem eq_of_mem_point? {i : Interval} {n k : Int} (hn : n ∈ i) (hk : i.point? = some k) :
    n = k := by
  rw [eq_point_of_point? hk] at hn
  exact Int.le_antisymm (hn.2 k rfl) (hn.1 k rfl)

/-- An end that is given up when it leaves 128 bits still bounds what the exact
end bounds. -/
theorem eq_of_bind_within128? {o : Option Int} {f : Int → Int} {n : Int}
    (h : (o.bind fun x => within128? (f x)) = some n) : ∃ x, o = some x ∧ n = f x := by
  obtain ⟨x, hx, hn⟩ := Option.bind_eq_some_iff.mp h
  exact ⟨x, hx, (eq_of_within128? hn).symm⟩

theorem add_mem_add {i j : Interval} {m n : Int} (hm : m ∈ i) (hn : n ∈ j) : m + n ∈ i.add j := by
  obtain ⟨hmlo, hmhi⟩ := mem_iff.mp hm
  obtain ⟨hnlo, hnhi⟩ := mem_iff.mp hn
  refine mem_iff.mpr ⟨?_, ?_⟩
  · intro l hl
    simp only [add, Option.bind_eq_bind, Option.bind_eq_some_iff] at hl
    obtain ⟨a, ha, b, hb, hl⟩ := hl
    rw [← eq_of_within128? hl]
    exact Int.add_le_add (hmlo a ha) (hnlo b hb)
  · intro h hh
    simp only [add, Option.bind_eq_bind, Option.bind_eq_some_iff] at hh
    obtain ⟨a, ha, b, hb, hh⟩ := hh
    rw [← eq_of_within128? hh]
    exact Int.add_le_add (hmhi a ha) (hnhi b hb)

theorem neg_mem_neg {i : Interval} {n : Int} (hn : n ∈ i) : -n ∈ i.neg := by
  obtain ⟨hlo, hhi⟩ := mem_iff.mp hn
  refine mem_iff.mpr ⟨?_, ?_⟩
  · intro l hl
    obtain ⟨h, hh, rfl⟩ := eq_of_bind_within128? hl
    exact Int.neg_le_neg (hhi h hh)
  · intro h hh
    obtain ⟨l, hl, rfl⟩ := eq_of_bind_within128? hh
    exact Int.neg_le_neg (hlo l hl)

theorem scale_of_pos (i : Interval) {k : Int} (hk : 0 < k) : i.scale k =
    ⟨i.lo.bind fun x => within128? (x * k), i.hi.bind fun x => within128? (x * k)⟩ := by
  rw [scale, if_pos hk]

theorem scale_of_neg (i : Interval) {k : Int} (hk : k < 0) : i.scale k =
    ⟨i.hi.bind fun x => within128? (x * k), i.lo.bind fun x => within128? (x * k)⟩ := by
  rw [scale, if_neg (Int.not_lt.mpr (Int.le_of_lt hk)), if_pos hk]

/-- Every word fits in 128 bits. -/
theorem within128?_toInt (w : Word) : within128? w.toInt = some w.toInt := by
  have hlo := Int64.le_toInt w
  have hhi := Int64.toInt_lt w
  exact if_pos (by omega)

theorem scale_point_one (w : Word) : (point 1).scale w.toInt = point w.toInt := by
  obtain hneg | hzero | hpos := Int.lt_trichotomy w.toInt 0
  · rw [scale_of_neg _ hneg]
    simp [point, within128?_toInt]
  · rw [hzero]
    rfl
  · rw [scale_of_pos _ hpos]
    simp [point, within128?_toInt]

theorem point_zero_add (w : Word) : (point 0).add (point w.toInt) = point w.toInt := by
  simp [add, point, within128?_toInt]

theorem mul_mem_scale {i : Interval} {n : Int} (k : Int) (hn : n ∈ i) : n * k ∈ i.scale k := by
  obtain ⟨hlo, hhi⟩ := mem_iff.mp hn
  obtain hk | rfl | hk := Int.lt_trichotomy k 0
  · rw [scale_of_neg i hk]
    refine mem_iff.mpr ⟨?_, ?_⟩
    · intro l hl
      obtain ⟨a, ha, rfl⟩ := eq_of_bind_within128? hl
      exact Int.mul_le_mul_of_nonpos_right (hhi a ha) (Int.le_of_lt hk)
    · intro h hh
      obtain ⟨a, ha, rfl⟩ := eq_of_bind_within128? hh
      exact Int.mul_le_mul_of_nonpos_right (hlo a ha) (Int.le_of_lt hk)
  · rw [Int.mul_zero]
    exact mem_point 0
  · rw [scale_of_pos i hk]
    refine mem_iff.mpr ⟨?_, ?_⟩
    · intro l hl
      obtain ⟨a, ha, rfl⟩ := eq_of_bind_within128? hl
      exact Int.mul_le_mul_of_nonneg_right (hlo a ha) (Int.le_of_lt hk)
    · intro h hh
      obtain ⟨a, ha, rfl⟩ := eq_of_bind_within128? hh
      exact Int.mul_le_mul_of_nonneg_right (hhi a ha) (Int.le_of_lt hk)

private theorem mul_right_between {a b m : Int} (n : Int) (ha : a ≤ m) (hb : m ≤ b) :
    Min.min (a * n) (b * n) ≤ m * n ∧ m * n ≤ Max.max (a * n) (b * n) := by
  rcases Int.le_total 0 n with hn | hn
  · have := Int.mul_le_mul_of_nonneg_right ha hn
    have := Int.mul_le_mul_of_nonneg_right hb hn
    omega
  · have := Int.mul_le_mul_of_nonpos_right ha hn
    have := Int.mul_le_mul_of_nonpos_right hb hn
    omega

/-- A product of two bounded factors lies between products of their ends. -/
theorem mul_between {a b c d m n : Int} (ham : a ≤ m) (hmb : m ≤ b) (hcn : c ≤ n) (hnd : n ≤ d) :
    Min.min (Min.min (a * c) (a * d)) (Min.min (b * c) (b * d)) ≤ m * n ∧
      m * n ≤ Max.max (Max.max (a * c) (a * d)) (Max.max (b * c) (b * d)) := by
  have hm := mul_right_between n ham hmb
  have ha := mul_right_between a hcn hnd
  have hb := mul_right_between b hcn hnd
  rw [Int.mul_comm n, Int.mul_comm c, Int.mul_comm d] at ha hb
  omega

theorem mul_mem_mul {i j : Interval} {m n : Int} (hm : m ∈ i) (hn : n ∈ j) : m * n ∈ i.mul j := by
  unfold mul
  split
  · rename_i k hk
    rw [eq_of_mem_point? hn hk]
    exact mul_mem_scale k hm
  · rename_i k _ hk
    rw [eq_of_mem_point? hm hk, Int.mul_comm]
    exact mul_mem_scale k hn
  · obtain ⟨hmlo, hmhi⟩ := mem_iff.mp hm
    obtain ⟨hnlo, hnhi⟩ := mem_iff.mp hn
    split
    · rename_i a b c d hia hib hjc hjd
      split
      · rename_i w x y z hw hx hy hz
        have hbetween := mul_between (hmlo a hia) (hmhi b hib) (hnlo c hjc) (hnhi d hjd)
        rw [eq_of_within128? hw, eq_of_within128? hx, eq_of_within128? hy, eq_of_within128? hz]
          at hbetween
        refine mem_iff.mpr ⟨?_, ?_⟩
        · rintro l ⟨⟩
          exact hbetween.1
        · rintro h ⟨⟩
          exact hbetween.2
      · exact mem_unbounded _
    · rename_i a c hia hjc _
      split
      · rename_i hpos
        refine mem_iff.mpr ⟨?_, fun h hh => by cases hh⟩
        intro l hl
        rw [← eq_of_within128? hl]
        have hma := hmlo a hia
        have hnc := hnlo c hjc
        exact Int.mul_le_mul hma hnc hpos.2 (Int.le_trans hpos.1 hma)
      · exact mem_unbounded _
    · exact mem_unbounded _

theorem min_mem_min {i j : Interval} {m n : Int} (hm : m ∈ i) (hn : n ∈ j) :
    Min.min m n ∈ i.min j := by
  obtain ⟨hmlo, hmhi⟩ := mem_iff.mp hm
  obtain ⟨hnlo, hnhi⟩ := mem_iff.mp hn
  refine mem_iff.mpr ⟨?_, ?_⟩
  · intro l hl
    simp only [min, Option.bind_eq_bind, Option.bind_eq_some_iff, Option.some.injEq] at hl
    obtain ⟨a, ha, b, hb, rfl⟩ := hl
    have := hmlo a ha
    have := hnlo b hb
    omega
  · intro h hh
    simp only [min] at hh
    split at hh
    · rename_i a b ha hb
      cases hh
      have := hmhi a ha
      have := hnhi b hb
      omega
    · rename_i ha _
      cases hh
      have := hmhi _ ha
      omega
    · rename_i _ hb
      cases hh
      have := hnhi _ hb
      omega
    · cases hh

theorem max_mem_max {i j : Interval} {m n : Int} (hm : m ∈ i) (hn : n ∈ j) :
    Max.max m n ∈ i.max j := by
  have hmem := neg_mem_neg (min_mem_min (neg_mem_neg hm) (neg_mem_neg hn))
  have heq : -(Min.min (-m) (-n)) = Max.max m n := by omega
  rwa [heq] at hmem

theorem fdiv_le_fdiv {m n d : Int} (hd : 0 < d) (h : m ≤ n) : m.fdiv d ≤ n.fdiv d := by
  have hnonneg := Int.le_of_lt hd
  rw [Int.fdiv_eq_ediv_of_nonneg m hnonneg, Int.fdiv_eq_ediv_of_nonneg n hnonneg]
  exact Int.ediv_le_ediv hd h

theorem fdiv_mem_floorDiv {i : Interval} {n d : Int} (hd : 0 < d) (hn : n ∈ i) :
    n.fdiv d ∈ i.floorDiv d := by
  obtain ⟨hlo, hhi⟩ := mem_iff.mp hn
  refine mem_iff.mpr ⟨?_, ?_⟩
  · intro l hl
    obtain ⟨a, ha, rfl⟩ := Option.map_eq_some_iff.mp hl
    exact fdiv_le_fdiv hd (hlo a ha)
  · intro h hh
    obtain ⟨a, ha, rfl⟩ := Option.map_eq_some_iff.mp hh
    exact fdiv_le_fdiv hd (hhi a ha)

theorem fmod_mem_remainders {n d : Int} (hd : 0 < d) : n.fmod d ∈ remainders d := by
  rw [Int.fmod_eq_emod_of_nonneg _ (Int.le_of_lt hd)]
  refine mem_iff.mpr ⟨?_, ?_⟩
  · rintro l ⟨⟩
    exact Int.emod_nonneg n (Int.ne_of_gt hd)
  · rintro h ⟨⟩
    exact Int.le_sub_one_of_lt (Int.emod_lt_of_pos n hd)

theorem below_iff {i : Interval} {k : Int} : i.below k = true ↔ ∃ u ∈ i.hi, u < k := by
  simp [below, Option.any_eq_true]

theorem above_iff {i : Interval} {k : Int} : i.above k = true ↔ ∃ l ∈ i.lo, k < l := by
  simp [above, Option.any_eq_true]

theorem lt_of_below {i : Interval} {n k : Int} (hn : n ∈ i) (h : i.below k = true) : n < k := by
  obtain ⟨u, hu, hlt⟩ := below_iff.mp h
  exact Int.lt_of_le_of_lt (hn.2 u hu) hlt

theorem lt_of_above {i : Interval} {n k : Int} (hn : n ∈ i) (h : i.above k = true) : k < n := by
  obtain ⟨l, hl, hlt⟩ := above_iff.mp h
  exact Int.lt_of_lt_of_le hlt (hn.1 l hl)

/-- What the interval of a difference says about a comparison is right for
every difference in it. -/
theorem allows_compareZero {i : Interval} {n : Int} (op : Comparison) (hn : n ∈ i) :
    (i.compareZero op).Allows (op.holds n 0) := by
  have hpoint (h : i.point? = some 0) : n = 0 := eq_of_mem_point? hn h
  have hbelow (k : Int) (h : i.below k = true) : n < k := lt_of_below hn h
  have habove (k : Int) (h : i.above k = true) : k < n := lt_of_above hn h
  cases op with
  | eq | ne =>
    unfold compareZero
    dsimp only
    split
    · rename_i h
      simp [Verdict.Allows, Comparison.holds, hpoint h]
    · split
      · rename_i h
        have hne : n ≠ 0 := by
          rcases Bool.or_eq_true_iff.mp h with h | h
          · have := hbelow 0 h
            omega
          · have := habove 0 h
            omega
        simp [Verdict.Allows, Comparison.holds, hne]
      · trivial
  | lt | le | gt | ge =>
    unfold compareZero
    dsimp only
    split
    · rename_i h
      have := hbelow _ h
      simp only [Verdict.Allows, Comparison.holds, decide_eq_true_eq, decide_eq_false_iff_not]
      omega
    · split
      · rename_i h
        have := habove _ h
        simp only [Verdict.Allows, Comparison.holds, decide_eq_true_eq, decide_eq_false_iff_not]
        omega
      · trivial

end TensorTyping.Interval
