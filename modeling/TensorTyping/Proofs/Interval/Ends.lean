import TensorTyping.Proofs.Interval

namespace TensorTyping.Interval

variable {i j i' j' : Interval} {S T : Int → Prop} {n k : Int}

/-- The opposites of all members. -/
def mirror (i : Interval) : Interval := ⟨i.hi.map (-·), i.lo.map (-·)⟩

/-- The sums, with ends of any length. -/
def addExact (i j : Interval) : Interval where
  lo := do some ((← i.lo) + (← j.lo))
  hi := do some ((← i.hi) + (← j.hi))

/-- The multiples by a constant, with ends of any length. -/
def scaleExact (i : Interval) (k : Int) : Interval :=
  if 0 < k then ⟨i.lo.map (· * k), i.hi.map (· * k)⟩
  else if k < 0 then ⟨i.hi.map (· * k), i.lo.map (· * k)⟩
  else point 0

/-- The products, with ends of any length. -/
def mulExact (i j : Interval) : Interval :=
  match j.point?, i.point? with
  | some k, _ => i.scaleExact k
  | none, some k => j.scaleExact k
  | none, none =>
    match i.lo, i.hi, j.lo, j.hi with
    | some a, some b, some c, some d =>
      ⟨some (Min.min (Min.min (a * c) (a * d)) (Min.min (b * c) (b * d))),
        some (Max.max (Max.max (a * c) (a * d)) (Max.max (b * c) (b * d)))⟩
    | some a, _, some c, _ => if 0 ≤ a ∧ 0 ≤ c then ⟨some (a * c), none⟩ else unbounded
    | _, _, _, _ => unbounded

/-- The larger of one member each, with ends of any length. -/
def maxExact (i j : Interval) : Interval := (i.mirror.min j.mirror).mirror

theorem scaleExact_of_pos (i : Interval) (hk : 0 < k) :
    i.scaleExact k = ⟨i.lo.map (· * k), i.hi.map (· * k)⟩ := by
  rw [scaleExact, if_pos hk]

theorem scaleExact_of_neg (i : Interval) (hk : k < 0) :
    i.scaleExact k = ⟨i.hi.map (· * k), i.lo.map (· * k)⟩ := by
  rw [scaleExact, if_neg (Int.not_lt.mpr (Int.le_of_lt hk)), if_pos hk]

theorem point?_point (k : Int) : (point k).point? = some k := if_pos rfl

section Product

variable {a b c d : Int}

theorem mulExact_of_point (hj : j.point? = some k) : i.mulExact j = i.scaleExact k := by
  rw [mulExact, hj]

theorem mulExact_of_point_left (hj : j.point? = none) (hi : i.point? = some k) :
    i.mulExact j = j.scaleExact k := by
  rw [mulExact, hj, hi]

theorem mulExact_of_finite (hj : j.point? = none) (hi : i.point? = none) (ha : i.lo = some a)
    (hb : i.hi = some b) (hc : j.lo = some c) (hd : j.hi = some d) : i.mulExact j =
      ⟨some (Min.min (Min.min (a * c) (a * d)) (Min.min (b * c) (b * d))),
        some (Max.max (Max.max (a * c) (a * d)) (Max.max (b * c) (b * d)))⟩ := by
  rw [mulExact, hj, hi, ha, hb, hc, hd]

theorem mulExact_of_nonneg (hj : j.point? = none) (hi : i.point? = none) (ha : i.lo = some a)
    (hc : j.lo = some c) (hinfinite : ∀ b d, i.hi = some b → j.hi = some d → False)
    (hnonneg : 0 ≤ a ∧ 0 ≤ c) : i.mulExact j = ⟨some (a * c), none⟩ := by
  rw [mulExact, hj, hi, ha, hc]
  dsimp only
  split
  · rename_i b _ d _ hb _ hd
    exact (hinfinite b d hb hd).elim
  · rename_i a' c' ha' hc' _
    cases ha'
    cases hc'
    exact if_pos hnonneg
  · rename_i hnone _
    exact (hnone a c rfl rfl).elim

end Product

section EndsIn

/-- The end of an interval on one side. -/
def side? (i : Interval) (upper : Bool) : Option Int := if upper then i.hi else i.lo

/-- The ends that an interval has are of some form. -/
def EndsIn (i : Interval) (S : Int → Prop) : Prop := ∀ upper, ∀ e ∈ i.side? upper, S e

theorem EndsIn.imp (h : i.EndsIn S) (hST : ∀ n, S n → T n) : i.EndsIn T :=
  fun upper e he => hST e (h upper e he)

theorem endsIn_point (h : S n) : (point n).EndsIn S := by
  intro upper e he
  cases upper <;> cases he <;> exact h

theorem side?_add (upper : Bool) : (i.add j).side? upper =
    (do within128? ((← i.side? upper) + (← j.side? upper))) := by
  cases upper <;> rfl

/-- An end of a multiple that is not given up is the exact one. -/
theorem side?_scaleExact {upper : Bool} {e : Int} (h : (i.scale k).side? upper = some e) :
    (i.scaleExact k).side? upper = some e := by
  have hend : ∀ {o : Option Int}, (o.bind fun x => within128? (x * k)) = some e →
      o.map (· * k) = some e := by
    intro o ho
    obtain ⟨x, rfl, rfl⟩ := eq_of_bind_within128? ho
    rfl
  obtain hk | rfl | hk := Int.lt_trichotomy k 0
  · rw [scale_of_neg i hk] at h
    rw [scaleExact_of_neg i hk]
    cases upper <;> exact hend h
  · exact h
  · rw [scale_of_pos i hk] at h
    rw [scaleExact_of_pos i hk]
    cases upper <;> exact hend h

theorem side?_scaleExact_of_pos (i : Interval) (hk : 0 < k) (upper : Bool) :
    (i.scaleExact k).side? upper = (i.side? upper).map (· * k) := by
  rw [scaleExact_of_pos i hk]
  cases upper <;> rfl

theorem side?_scaleExact_of_neg (i : Interval) (hk : k < 0) (upper : Bool) :
    (i.scaleExact k).side? upper = (i.side? (!upper)).map (· * k) := by
  rw [scaleExact_of_neg i hk]
  cases upper <;> rfl

theorem EndsIn.scaleExact (h : i.EndsIn S) (hS : ∃ n, S n) (k : Int) :
    (i.scaleExact k).EndsIn fun e => ∃ n, S n ∧ n * k = e := by
  obtain hk | rfl | hk := Int.lt_trichotomy k 0
  · intro upper e he
    rw [side?_scaleExact_of_neg i hk] at he
    obtain ⟨n, hn, rfl⟩ := Option.map_eq_some_iff.mp he
    exact ⟨n, h _ n hn, rfl⟩
  · obtain ⟨n, hn⟩ := hS
    exact endsIn_point ⟨n, hn, Int.mul_zero n⟩
  · intro upper e he
    rw [side?_scaleExact_of_pos i hk] at he
    obtain ⟨n, hn, rfl⟩ := Option.map_eq_some_iff.mp he
    exact ⟨n, h _ n hn, rfl⟩

theorem EndsIn.scale (h : i.EndsIn S) (hS : ∃ n, S n) (k : Int) :
    (i.scale k).EndsIn fun e => ∃ n, S n ∧ n * k = e :=
  fun upper e he => h.scaleExact hS k upper e (side?_scaleExact he)

/-- An end of a product that is not given up is the exact one. -/
theorem side?_mulExact {upper : Bool} {e : Int} (h : (i.mul j).side? upper = some e) :
    (i.mulExact j).side? upper = some e := by
  unfold mul at h
  split at h
  · rename_i k hj
    rw [mulExact_of_point hj]
    exact side?_scaleExact h
  · rename_i k hj hi
    rw [mulExact_of_point_left hj hi]
    exact side?_scaleExact h
  · rename_i hj hi
    split at h
    · rename_i a b c d ha hb hc hd
      rw [mulExact_of_finite hj hi ha hb hc hd]
      split at h
      · rename_i w x y z hw hx hy hz
        rw [← eq_of_within128? hw, ← eq_of_within128? hx, ← eq_of_within128? hy,
          ← eq_of_within128? hz] at h
        exact h
      · cases upper <;> cases h
    · rename_i a c ha hc hinfinite
      split at h
      · rename_i hnonneg
        rw [mulExact_of_nonneg hj hi ha hc hinfinite hnonneg]
        cases upper with
        | true => cases h
        | false => exact congrArg some (eq_of_within128? h)
      · cases upper <;> cases h
    · cases upper <;> cases h

/-- Multiples of a bounded interval are bounded. -/
theorem isSome_scaleExact_of_finite (hi : ∀ upper, (i.side? upper).isSome) (upper : Bool) :
    ((i.scaleExact k).side? upper).isSome := by
  obtain hk | rfl | hk := Int.lt_trichotomy k 0
  · rw [side?_scaleExact_of_neg i hk, Option.isSome_map]
    exact hi _
  · cases upper <;> rfl
  · rw [side?_scaleExact_of_pos i hk, Option.isSome_map]
    exact hi _

/-- Products of bounded intervals are bounded. -/
theorem isSome_mulExact_of_finite (hi : ∀ upper, (i.side? upper).isSome)
    (hj : ∀ upper, (j.side? upper).isSome) (upper : Bool) :
    ((i.mulExact j).side? upper).isSome := by
  obtain ⟨a, ha⟩ := Option.isSome_iff_exists.mp (hi false)
  obtain ⟨b, hb⟩ := Option.isSome_iff_exists.mp (hi true)
  obtain ⟨c, hc⟩ := Option.isSome_iff_exists.mp (hj false)
  obtain ⟨d, hd⟩ := Option.isSome_iff_exists.mp (hj true)
  cases hk : j.point? with
  | some k =>
    rw [mulExact_of_point hk]
    exact isSome_scaleExact_of_finite hi upper
  | none =>
    cases hl : i.point? with
    | some l =>
      rw [mulExact_of_point_left hk hl]
      exact isSome_scaleExact_of_finite hj upper
    | none =>
      rw [mulExact_of_finite hk hl ha hb hc hd]
      cases upper <;> rfl

theorem isSome_lo_scaleExact (hi : i.lo.isSome) (hk : 0 ≤ k) : (i.scaleExact k).lo.isSome := by
  obtain rfl | hk := Int.le_iff_eq_or_lt.mp hk
  · rfl
  · rw [scaleExact_of_pos i hk, Option.isSome_map]
    exact hi

/-- Products of factors that are not negative are bounded below. -/
theorem isSome_lo_mulExact_of_nonneg {a c : Int} (ha : i.lo = some a) (hc : j.lo = some c)
    (ha₀ : 0 ≤ a) (hc₀ : 0 ≤ c) : (i.mulExact j).lo.isSome := by
  cases hk : j.point? with
  | some k =>
    rw [mulExact_of_point hk]
    rw [eq_point_of_point? hk] at hc
    cases hc
    exact isSome_lo_scaleExact (Option.isSome_of_mem ha) hc₀
  | none =>
    cases hl : i.point? with
    | some l =>
      rw [mulExact_of_point_left hk hl]
      rw [eq_point_of_point? hl] at ha
      cases ha
      exact isSome_lo_scaleExact (Option.isSome_of_mem hc) ha₀
    | none =>
      by_cases hfinite : ∃ b d, i.hi = some b ∧ j.hi = some d
      · obtain ⟨b, d, hb, hd⟩ := hfinite
        rw [mulExact_of_finite hk hl ha hb hc hd]
        rfl
      · have hinfinite : ∀ b d, i.hi = some b → j.hi = some d → False :=
          fun b d hb hd => hfinite ⟨b, d, hb, hd⟩
        rw [mulExact_of_nonneg hk hl ha hc hinfinite ⟨ha₀, hc₀⟩]
        rfl

/-- The ends of a product are products of ends, or of an end and the one member of a point. -/
theorem EndsIn.mulExact (hi : i.EndsIn S) (hS : ∃ n, S n) (hj : j.EndsIn T) (hT : ∃ n, T n) :
    (i.mulExact j).EndsIn fun e => ∃ m n, S m ∧ T n ∧ m * n = e := by
  unfold Interval.mulExact
  split
  · rename_i k hk
    have hmem := hj false k (congrArg lo (eq_point_of_point? hk))
    refine (hi.scaleExact hS k).imp ?_
    rintro _ ⟨m, hm, rfl⟩
    exact ⟨m, k, hm, hmem, rfl⟩
  · rename_i k _ hk
    have hmem := hi false k (congrArg lo (eq_point_of_point? hk))
    refine (hj.scaleExact hT k).imp ?_
    rintro _ ⟨n, hn, rfl⟩
    exact ⟨k, n, hmem, hn, Int.mul_comm k n⟩
  · split
    · rename_i a b c d ha hb hc hd
      have hall : ∀ e, e = a * c ∨ e = a * d ∨ e = b * c ∨ e = b * d →
          ∃ m n, S m ∧ T n ∧ m * n = e := by
        rintro e (rfl | rfl | rfl | rfl)
        · exact ⟨a, c, hi false a ha, hj false c hc, rfl⟩
        · exact ⟨a, d, hi false a ha, hj true d hd, rfl⟩
        · exact ⟨b, c, hi true b hb, hj false c hc, rfl⟩
        · exact ⟨b, d, hi true b hb, hj true d hd, rfl⟩
      rintro (_ | _) e he
      · cases he
        exact hall _ (by omega)
      · cases he
        exact hall _ (by omega)
    · rename_i a c ha hc _
      split
      · rintro (_ | _) e ⟨⟩
        exact ⟨a, c, hi false a ha, hj false c hc, rfl⟩
      · rintro (_ | _) e ⟨⟩
    · rintro (_ | _) e ⟨⟩

theorem EndsIn.mul (hi : i.EndsIn S) (hS : ∃ n, S n) (hj : j.EndsIn T) (hT : ∃ n, T n) :
    (i.mul j).EndsIn fun e => ∃ m n, S m ∧ T n ∧ m * n = e :=
  fun upper e he => hi.mulExact hS hj hT upper e (side?_mulExact he)

end EndsIn

theorem exists_hi_min_left {b : Int} (h : ∃ b' ∈ i.hi, b' ≤ b) : ∃ u ∈ (i.min j).hi, u ≤ b := by
  obtain ⟨b', hb', hle⟩ := h
  unfold min
  rw [Option.mem_def.mp hb']
  cases j.hi with
  | none => exact ⟨b', rfl, hle⟩
  | some d => exact ⟨Min.min b' d, rfl, Int.le_trans (Int.min_le_left b' d) hle⟩

theorem exists_hi_min_right {d : Int} (h : ∃ d' ∈ j.hi, d' ≤ d) : ∃ u ∈ (i.min j).hi, u ≤ d := by
  obtain ⟨d', hd', hle⟩ := h
  unfold min
  rw [Option.mem_def.mp hd']
  cases i.hi with
  | none => exact ⟨d', rfl, hle⟩
  | some b => exact ⟨Min.min b d', rfl, Int.le_trans (Int.min_le_right b d') hle⟩

/-- An interval has members, and its ends are at or inside those of another one. -/
structure Narrows (i j : Interval) : Prop where
  nonempty : ∀ l ∈ i.lo, ∀ u ∈ i.hi, l ≤ u
  lower : ∀ l ∈ j.lo, ∃ l' ∈ i.lo, l ≤ l'
  upper : ∀ u ∈ j.hi, ∃ u' ∈ i.hi, u' ≤ u

namespace Narrows

theorem mem (h : i.Narrows j) (hn : n ∈ i) : n ∈ j := by
  refine ⟨fun l hl => ?_, fun u hu => ?_⟩
  · obtain ⟨l', hl', hle⟩ := h.lower l hl
    exact Int.le_trans hle (hn.1 l' hl')
  · obtain ⟨u', hu', hle⟩ := h.upper u hu
    exact Int.le_trans (hn.2 u' hu') hle

/-- The ends of an interval with members are members. -/
theorem endsIn (h : i.Narrows j) : i.EndsIn (· ∈ i) := by
  rintro (_ | _) e he
  · refine ⟨fun l hl => ?_, h.nonempty e he⟩
    cases he.symm.trans hl
    exact Int.le_refl e
  · refine ⟨fun l hl => h.nonempty l hl e he, fun u hu => ?_⟩
    cases he.symm.trans hu
    exact Int.le_refl e

theorem exists_mem (h : i.Narrows j) : ∃ n, n ∈ i := by
  obtain ⟨lo, hi⟩ := i
  match lo, hi with
  | some l, _ => exact ⟨l, h.endsIn false l rfl⟩
  | none, some u => exact ⟨u, h.endsIn true u rfl⟩
  | none, none => exact ⟨0, mem_unbounded 0⟩

/-- Ends that are members of the other interval are inside of it. -/
theorem of_endsIn (hnonempty : ∀ l ∈ i.lo, ∀ u ∈ i.hi, l ≤ u) (hends : i.EndsIn (· ∈ j))
    (hsides : ∀ upper, (j.side? upper).isSome → (i.side? upper).isSome) : i.Narrows j := by
  refine ⟨hnonempty, fun l hl => ?_, fun u hu => ?_⟩
  · obtain ⟨l', hl'⟩ := Option.isSome_iff_exists.mp (hsides false (Option.isSome_of_mem hl))
    exact ⟨l', hl', (hends false l' hl').1 l hl⟩
  · obtain ⟨u', hu'⟩ := Option.isSome_iff_exists.mp (hsides true (Option.isSome_of_mem hu))
    exact ⟨u', hu', (hends true u' hu').2 u hu⟩

theorem isSome_side? (h : i.Narrows j) {upper : Bool} (hj : (j.side? upper).isSome) :
    (i.side? upper).isSome := by
  obtain ⟨e, he⟩ := Option.isSome_iff_exists.mp hj
  cases upper with
  | false =>
    obtain ⟨e', he', -⟩ := h.lower e he
    exact Option.isSome_of_mem he'
  | true =>
    obtain ⟨e', he', -⟩ := h.upper e he
    exact Option.isSome_of_mem he'

theorem self (h : ∀ l ∈ i.lo, ∀ u ∈ i.hi, l ≤ u) : i.Narrows i :=
  ⟨h, fun l hl => ⟨l, hl, Int.le_refl l⟩, fun u hu => ⟨u, hu, Int.le_refl u⟩⟩

theorem point (n : Int) : (point n).Narrows (point n) := by
  refine self ?_
  rintro l ⟨⟩ u ⟨⟩
  exact Int.le_refl n

theorem remainders (hk : 0 < k) : (remainders k).Narrows (remainders k) := by
  refine self ?_
  rintro l ⟨⟩ u ⟨⟩
  omega

theorem unbounded : Interval.unbounded.Narrows .unbounded := self nofun

/-- Only the point itself is narrower than a point. -/
theorem eq_point (h : i.Narrows j) (hk : j.point? = some k) : i = .point k := by
  obtain rfl := eq_point_of_point? hk
  obtain ⟨l, hl, hle⟩ := h.lower k rfl
  obtain ⟨u, hu, hle'⟩ := h.upper k rfl
  have hlu := h.nonempty l hl u hu
  obtain rfl : l = k := by omega
  obtain rfl : u = l := by omega
  exact congr (congrArg Interval.mk (Option.mem_def.mp hl)) (Option.mem_def.mp hu)

/-- Ends that are mapped in order, some of them given up for the wider interval. -/
theorem of_monotone (h : i.Narrows i') {f : Int → Int} (hf : ∀ {a b}, a ≤ b → f a ≤ f b)
    (hlo : ∀ l ∈ j.lo, ∃ a, i'.lo = some a ∧ l = f a)
    (hhi : ∀ u ∈ j.hi, ∃ b, i'.hi = some b ∧ u = f b) :
    Narrows ⟨i.lo.map f, i.hi.map f⟩ j := by
  refine ⟨fun l hl u hu => ?_, fun l hl => ?_, fun u hu => ?_⟩
  · obtain ⟨a, ha, rfl⟩ := Option.map_eq_some_iff.mp hl
    obtain ⟨b, hb, rfl⟩ := Option.map_eq_some_iff.mp hu
    exact hf (h.nonempty a ha b hb)
  · obtain ⟨a, ha, rfl⟩ := hlo l hl
    obtain ⟨a', ha', hle⟩ := h.lower a ha
    exact ⟨f a', Option.mem_map_of_mem f ha', hf hle⟩
  · obtain ⟨b, hb, rfl⟩ := hhi u hu
    obtain ⟨b', hb', hle⟩ := h.upper b hb
    exact ⟨f b', Option.mem_map_of_mem f hb', hf hle⟩

/-- Ends that are mapped in reverse order. -/
theorem of_antitone (h : i.Narrows i') {f : Int → Int} (hf : ∀ {a b}, a ≤ b → f b ≤ f a)
    (hlo : ∀ l ∈ j.lo, ∃ b, i'.hi = some b ∧ l = f b)
    (hhi : ∀ u ∈ j.hi, ∃ a, i'.lo = some a ∧ u = f a) :
    Narrows ⟨i.hi.map f, i.lo.map f⟩ j := by
  refine ⟨fun l hl u hu => ?_, fun l hl => ?_, fun u hu => ?_⟩
  · obtain ⟨b, hb, rfl⟩ := Option.map_eq_some_iff.mp hl
    obtain ⟨a, ha, rfl⟩ := Option.map_eq_some_iff.mp hu
    exact hf (h.nonempty a ha b hb)
  · obtain ⟨b, hb, rfl⟩ := hlo l hl
    obtain ⟨b', hb', hle⟩ := h.upper b hb
    exact ⟨f b', Option.mem_map_of_mem f hb', hf hle⟩
  · obtain ⟨a, ha, rfl⟩ := hhi u hu
    obtain ⟨a', ha', hle⟩ := h.lower a ha
    exact ⟨f a', Option.mem_map_of_mem f ha', hf hle⟩

theorem mirror (h : i.Narrows i') : i.mirror.Narrows i'.neg :=
  h.of_antitone Int.neg_le_neg (fun _ => eq_of_bind_within128?) (fun _ => eq_of_bind_within128?)

theorem add (hi : i.Narrows i') (hj : j.Narrows j') : (i.addExact j).Narrows (i'.add j') := by
  refine ⟨fun l hl u hu => ?_, fun l hl => ?_, fun u hu => ?_⟩
  · simp only [addExact, Option.bind_eq_bind, Option.mem_def, Option.bind_eq_some_iff,
      Option.some.injEq] at hl hu
    obtain ⟨a, ha, c, hc, rfl⟩ := hl
    obtain ⟨b, hb, d, hd, rfl⟩ := hu
    exact Int.add_le_add (hi.nonempty a ha b hb) (hj.nonempty c hc d hd)
  · simp only [Interval.add, Option.bind_eq_bind, Option.mem_def, Option.bind_eq_some_iff] at hl
    obtain ⟨a, ha, c, hc, hl⟩ := hl
    obtain ⟨a', ha', hle⟩ := hi.lower a ha
    obtain ⟨c', hc', hle'⟩ := hj.lower c hc
    rw [← eq_of_within128? hl]
    refine ⟨a' + c', ?_, Int.add_le_add hle hle'⟩
    simp [addExact, Option.mem_def.mp ha', Option.mem_def.mp hc']
  · simp only [Interval.add, Option.bind_eq_bind, Option.mem_def, Option.bind_eq_some_iff] at hu
    obtain ⟨b, hb, d, hd, hu⟩ := hu
    obtain ⟨b', hb', hle⟩ := hi.upper b hb
    obtain ⟨d', hd', hle'⟩ := hj.upper d hd
    rw [← eq_of_within128? hu]
    refine ⟨b' + d', ?_, Int.add_le_add hle hle'⟩
    simp [addExact, Option.mem_def.mp hb', Option.mem_def.mp hd']

theorem scale (h : i.Narrows i') (k : Int) : (i.scaleExact k).Narrows (i'.scale k) := by
  obtain hk | rfl | hk := Int.lt_trichotomy k 0
  · rw [scaleExact_of_neg i hk, scale_of_neg i' hk]
    exact h.of_antitone (fun hab => Int.mul_le_mul_of_nonpos_right hab (Int.le_of_lt hk))
      (fun _ => eq_of_bind_within128?) (fun _ => eq_of_bind_within128?)
  · exact point 0
  · rw [scaleExact_of_pos i hk, scale_of_pos i' hk]
    exact h.of_monotone (fun hab => Int.mul_le_mul_of_nonneg_right hab (Int.le_of_lt hk))
      (fun _ => eq_of_bind_within128?) (fun _ => eq_of_bind_within128?)

theorem floorDiv (h : i.Narrows i') (hk : 0 < k) : (i.floorDiv k).Narrows (i'.floorDiv k) := by
  have hend : ∀ {o : Option Int}, ∀ l ∈ o.map (·.fdiv k), ∃ a, o = some a ∧ l = a.fdiv k := by
    intro o l hl
    obtain ⟨a, ha, rfl⟩ := Option.map_eq_some_iff.mp hl
    exact ⟨a, ha, rfl⟩
  exact h.of_monotone (fdiv_le_fdiv hk) hend hend

theorem min (hi : i.Narrows i') (hj : j.Narrows j') : (i.min j).Narrows (i'.min j') := by
  refine ⟨fun l hl u hu => ?_, fun l hl => ?_, fun u hu => ?_⟩
  · simp only [Interval.min, Option.bind_eq_bind, Option.mem_def, Option.bind_eq_some_iff,
      Option.some.injEq] at hl
    obtain ⟨a, ha, c, hc, rfl⟩ := hl
    simp only [Interval.min] at hu
    split at hu
    · rename_i b d hb hd
      cases hu
      have := hi.nonempty a ha b hb
      have := hj.nonempty c hc d hd
      omega
    · rename_i hb _
      cases hu
      exact Int.le_trans (Int.min_le_left a c) (hi.nonempty a ha u hb)
    · rename_i _ hd
      cases hu
      exact Int.le_trans (Int.min_le_right a c) (hj.nonempty c hc u hd)
    · cases hu
  · simp only [Interval.min, Option.bind_eq_bind, Option.mem_def, Option.bind_eq_some_iff,
      Option.some.injEq] at hl
    obtain ⟨a, ha, c, hc, rfl⟩ := hl
    obtain ⟨a', ha', hle⟩ := hi.lower a ha
    obtain ⟨c', hc', hle'⟩ := hj.lower c hc
    refine ⟨Min.min a' c', ?_, by omega⟩
    simp [Interval.min, Option.mem_def.mp ha', Option.mem_def.mp hc']
  · simp only [Interval.min] at hu
    split at hu
    · rename_i b d hb hd
      cases hu
      obtain ⟨v, hv, hle⟩ := exists_hi_min_left (j := j) (hi.upper b hb)
      obtain ⟨w, hw, hle'⟩ := exists_hi_min_right (i := i) (hj.upper d hd)
      cases hv.symm.trans hw
      exact ⟨v, hv, Int.le_min.mpr ⟨hle, hle'⟩⟩
    · rename_i hb _
      cases hu
      exact exists_hi_min_left (hi.upper u hb)
    · rename_i _ hd
      cases hu
      exact exists_hi_min_right (hj.upper u hd)
    · cases hu

theorem max (hi : i.Narrows i') (hj : j.Narrows j') : (i.maxExact j).Narrows (i'.max j') :=
  (hi.mirror.min hj.mirror).mirror

theorem isSome_scaleExact (h : i.Narrows i') {upper : Bool}
    (hs : ((i'.scaleExact k).side? upper).isSome) : ((i.scaleExact k).side? upper).isSome := by
  obtain hk | rfl | hk := Int.lt_trichotomy k 0
  · rw [side?_scaleExact_of_neg _ hk, Option.isSome_map] at hs ⊢
    exact h.isSome_side? hs
  · exact hs
  · rw [side?_scaleExact_of_pos _ hk, Option.isSome_map] at hs ⊢
    exact h.isSome_side? hs

/-- Products of narrower intervals have the ends that the products of the wider ones have. -/
theorem isSome_mulExact (hi : i.Narrows i') (hj : j.Narrows j') {upper : Bool}
    (h : ((i'.mulExact j').side? upper).isSome) : ((i.mulExact j).side? upper).isSome := by
  unfold mulExact at h
  split at h
  · rename_i k hk
    rw [hj.eq_point hk, mulExact_of_point (point?_point k)]
    exact hi.isSome_scaleExact h
  · rename_i k _ hk
    rw [hi.eq_point hk]
    -- The second factor may have become a point, which is then taken first.
    cases hl : j.point? with
    | some l =>
      rw [mulExact_of_point hl]
      exact isSome_scaleExact_of_finite (fun upper => by cases upper <;> rfl) upper
    | none =>
      rw [mulExact_of_point_left hl (point?_point k)]
      exact hj.isSome_scaleExact h
  · split at h
    · rename_i a b c d ha hb hc hd
      refine isSome_mulExact_of_finite (fun upper => hi.isSome_side? ?_)
        (fun upper => hj.isSome_side? ?_) upper
      · cases upper <;> simp [side?, ha, hb]
      · cases upper <;> simp [side?, hc, hd]
    · rename_i a c ha hc _
      split at h
      · rename_i hnonneg
        obtain ⟨a', ha', hle⟩ := hi.lower a ha
        obtain ⟨c', hc', hle'⟩ := hj.lower c hc
        cases upper with
        | true => cases h
        | false =>
          exact isSome_lo_mulExact_of_nonneg ha' hc' (Int.le_trans hnonneg.1 hle)
            (Int.le_trans hnonneg.2 hle')
      · cases upper <;> cases h
    · cases upper <;> cases h

theorem nonempty_mulExact (hi : i.Narrows i') (hj : j.Narrows j') :
    ∀ l ∈ (i.mulExact j).lo, ∀ u ∈ (i.mulExact j).hi, l ≤ u := by
  unfold mulExact
  split
  · exact (hi.scale _).nonempty
  · exact (hj.scale _).nonempty
  · split
    · rintro l ⟨⟩ u ⟨⟩
      omega
    · split
      · rintro l - u ⟨⟩
      · rintro l ⟨⟩
    · rintro l ⟨⟩

/-- Products of narrower intervals are narrower. Their ends are products of members, and these are
enclosed by the products of the wider intervals. -/
theorem mul (hi : i.Narrows i') (hj : j.Narrows j') : (i.mulExact j).Narrows (i'.mul j') := by
  refine of_endsIn (hi.nonempty_mulExact hj) ?_ fun upper h => ?_
  · refine (hi.endsIn.mulExact hi.exists_mem hj.endsIn hj.exists_mem).imp ?_
    rintro _ ⟨m, n, hm, hn, rfl⟩
    exact mul_mem_mul (hi.mem hm) (hj.mem hn)
  · obtain ⟨e, he⟩ := Option.isSome_iff_exists.mp h
    exact hi.isSome_mulExact hj (Option.isSome_iff_exists.mpr ⟨e, side?_mulExact he⟩)

end Narrows

end TensorTyping.Interval
