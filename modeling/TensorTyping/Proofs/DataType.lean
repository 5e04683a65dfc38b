import TensorTyping.DataType

namespace TensorTyping

namespace Text

theorem digit?_of_isDigit {c : Char} (h : c.isDigit) : digit? 10 c = some (c.toNat - 48) := by
  simp only [Char.isDigit, Bool.and_eq_true, decide_eq_true_eq] at h
  have hlo : '0' ≤ c := h.1
  have hhi : c ≤ '9' := h.2
  have hvalue : c.toNat - 48 < 10 := by
    have hnine : c.toNat ≤ 57 := h.2
    omega
  simp [digit?, hlo, hhi, hvalue]

/-- A run of decimal digits is read as the number that it stands for. -/
theorem numeralFrom?_of_isDigit {cs : List Char} (h : ∀ c ∈ cs, c.isDigit) (start : Nat) :
    numeralFrom? 10 start cs = some (Nat.ofDigitChars 10 cs start) := by
  induction cs generalizing start with
  | nil => rw [numeralFrom?, Nat.ofDigitChars_nil]
  | cons c cs ih =>
    have hdigit := digit?_of_isDigit (h c List.mem_cons_self)
    rw [numeralFrom?, hdigit, Option.bind_eq_bind, Option.bind_some,
      ih fun d hd => h d (List.mem_cons_of_mem _ hd), Nat.ofDigitChars_cons, Nat.mul_comm 10]
    rfl

theorem isDigit_toDigits {n : Nat} : ∀ c ∈ Nat.toDigits 10 n, c.isDigit :=
  fun _ => Nat.isDigit_of_mem_toDigits (by decide) (by decide)

/-- A written number is read back as long as the limit allows. -/
theorem boundedNumeral?_toDigits {limit n : Nat} (h : n ≤ limit) :
    boundedNumeral? limit (Nat.toDigits 10 n) = some n := by
  have hread : numeral? 10 (Nat.toDigits 10 n) = some n := by
    rw [numeral?, if_neg (by simp [Nat.toDigits_ne_nil]), numeralFrom?_of_isDigit isDigit_toDigits,
      Nat.ofDigitChars_ten_toDigits]
  unfold boundedNumeral?
  split
  · rename_i rest hplus
    have hdigit := isDigit_toDigits '+' (hplus ▸ List.mem_cons_self)
    cases hdigit
  · rw [hread, Option.bind_eq_bind, Option.bind_some, if_pos h]

theorem isBlank_of_isAlphanum {c : Char} (h : c.isAlphanum) : isBlank c = false := by
  delta Char.isAlphanum Char.isAlpha Char.isUpper Char.isLower Char.isDigit at h
  simp only [Bool.or_eq_true, Bool.and_eq_true, decide_eq_true_eq, ge_iff_le,
    UInt32.le_iff_toNat_le] at h
  change ((65 ≤ c.toNat ∧ c.toNat ≤ 90) ∨ (97 ≤ c.toNat ∧ c.toNat ≤ 122)) ∨
    (48 ≤ c.toNat ∧ c.toNat ≤ 57) at h
  simp only [isBlank, Bool.or_eq_false_iff, Bool.and_eq_false_iff, decide_eq_false_iff_not,
    beq_eq_false_iff_ne]
  omega

/-- Nothing is trimmed from a text without blanks. -/
theorem trim_eq_self {cs : List Char} (h : ∀ c ∈ cs, isBlank c = false) : trim cs = cs := by
  have hkeep {ds : List Char} (hds : ∀ c ∈ ds, isBlank c = false) : ds.dropWhile isBlank = ds := by
    cases ds with
    | nil => rfl
    | cons d ds => rw [List.dropWhile_cons_of_neg (by simp [hds d List.mem_cons_self])]
  rw [trim, hkeep h, hkeep fun c hc => h c (List.mem_reverse.mp hc), List.reverse_reverse]

theorem le_of_boundedNumeral? {limit n : Nat} {cs : List Char}
    (h : boundedNumeral? limit cs = some n) : n ≤ limit := by
  obtain ⟨m, -, h⟩ := Option.bind_eq_some_iff.mp h
  split at h
  · rename_i hle
    cases h
    exact hle
  · cases h

end Text

namespace DataType

open Text

variable {d : DataType} {base : List Char} {lanes : UInt16}

/-- What follows the base of a written element type. -/
def laneSuffix (lanes : UInt16) : List Char :=
  if lanes = 1 then [] else 'x' :: Nat.toDigits 10 lanes.toNat

theorem toList_render (d : DataType) :
    d.render.toList = d.renderBase.toList ++ laneSuffix d.lanes := by
  unfold render laneSuffix
  split
  · simp
  · rw [String.toList_append, String.toList_append, Nat.toString_eq_repr, Nat.toList_repr]
    rfl

theorem readLanes?_laneSuffix (h : lanes ≠ 0) : readLanes? (laneSuffix lanes) = some lanes := by
  unfold laneSuffix
  split
  · rename_i hone
    rw [hone]
    rfl
  · have hbound : lanes.toNat ≤ 65535 := by
      have := lanes.toNat_lt
      omega
    have hne : lanes.toNat ≠ 0 := fun hzero => h (UInt16.toNat_inj.mp hzero)
    rw [readLanes?, boundedNumeral?_toDigits hbound, Option.bind_eq_bind, Option.bind_some,
      if_neg hne, UInt16.ofNat_toNat]

theorem readBits?_toDigits {code : TypeCode} {bits : UInt8} (h : bits ≠ 0) :
    readBits? code (Nat.toDigits 10 bits.toNat) = some bits := by
  have hbound : bits.toNat ≤ 255 := by
    have := bits.toNat_lt
    omega
  have hne : bits.toNat ≠ 0 := fun hzero => h (UInt8.toNat_inj.mp hzero)
  rw [readBits?, if_neg (by simp [Nat.toDigits_ne_nil]), boundedNumeral?_toDigits hbound,
    Option.bind_eq_bind, Option.bind_some, if_neg hne, UInt8.ofNat_toNat]

theorem isAlphanum_laneSuffix : ∀ c ∈ laneSuffix lanes, c.isAlphanum := by
  intro c hc
  unfold laneSuffix at hc
  split at hc
  · cases hc
  · obtain rfl | hdigit := List.mem_cons.mp hc
    · rfl
    · rw [Char.isAlphanum, isDigit_toDigits c hdigit, Bool.or_true]

/-- A base without `x` ends where the lanes begin. -/
theorem span_append_laneSuffix (h : ∀ c ∈ base, c ≠ 'x') :
    (base ++ laneSuffix lanes).takeWhile (· ≠ 'x') = base ∧
      (base ++ laneSuffix lanes).dropWhile (· ≠ 'x') = laneSuffix lanes := by
  have hbase : ∀ c ∈ base, decide (c ≠ 'x') = true := fun c hc => decide_eq_true (h c hc)
  rw [List.takeWhile_append_of_pos hbase, List.dropWhile_append_of_pos hbase]
  unfold laneSuffix
  split <;> simp

/-- What stands before the lanes and the lanes themselves are read apart. -/
theorem parse_of_toList_eq {s : String} (hs : s.toList = base ++ laneSuffix lanes) (hne : base ≠ [])
    (hplain : ∀ c ∈ base, c.isAlphanum ∧ c ≠ 'x') (hlanes : lanes ≠ 0) :
    parse s =
      if base = "bool".toList then .ok (bool.withLanes lanes)
      else if base = "handle".toList then .ok (handle.withLanes lanes)
      else
        match splitCode? base with
        | none => .error (.unknownCode s)
        | some (code, digits) =>
          match readBits? code digits with
          | none => .error (.invalidBits s)
          | some bits => .ok ⟨code, bits, lanes⟩ := by
  have htrim : trim s.toList = base ++ laneSuffix lanes := by
    rw [hs]
    refine trim_eq_self fun c hc => isBlank_of_isAlphanum ?_
    obtain hc | hc := List.mem_append.mp hc
    · exact (hplain c hc).1
    · exact isAlphanum_laneSuffix c hc
  have hx : ∀ c ∈ base, c ≠ 'x' := fun c hc => (hplain c hc).2
  have htake : (base ++ laneSuffix lanes).takeWhile (· ≠ 'x') = base := (span_append_laneSuffix hx).1
  have hdrop : (base ++ laneSuffix lanes).dropWhile (· ≠ 'x') = laneSuffix lanes :=
    (span_append_laneSuffix hx).2
  have hfull : (base ++ laneSuffix lanes).isEmpty = false := by simp [hne]
  have htext : String.ofList (base ++ laneSuffix lanes) = s := by rw [← hs, String.ofList_toList]
  simp only [parse, htrim, hfull, htake, hdrop, readLanes?_laneSuffix hlanes, htext]
  rfl

/-- No code is the beginning of another one before it. -/
theorem splitCode?_append {code : TypeCode} (h : code ∈ sizedCodes) (digits : List Char) :
    splitCode? (code.name.toList ++ digits) = some (code, digits) := by
  have hdrop : (code.name.toList ++ digits).drop code.name.length = digits := by
    rw [← String.length_toList, List.drop_left]
  cases code <;> simp_all [splitCode?, sizedCodes, TypeCode.name]

theorem plain_name_append {code : TypeCode} {n : Nat} :
    ∀ c ∈ code.name.toList ++ Nat.toDigits 10 n, c.isAlphanum ∧ c ≠ 'x' := by
  intro c hc
  obtain hc | hc := List.mem_append.mp hc
  · have hname : ∀ code : TypeCode, ∀ c ∈ code.name.toList, c.isAlphanum ∧ c ≠ 'x' := by
      rintro (_ | _ | _ | _ | _) <;> simp [TypeCode.name]
    exact hname code c hc
  · have hdigit := isDigit_toDigits c hc
    refine ⟨by rw [Char.isAlphanum, hdigit, Bool.or_true], ?_⟩
    rintro rfl
    cases hdigit

/-- A code with a width is not taken for one of the two names without. -/
theorem name_append_ne {code : TypeCode} (h : code ∈ sizedCodes) (digits : List Char) :
    code.name.toList ++ digits ≠ "bool".toList ∧ code.name.toList ++ digits ≠ "handle".toList := by
  cases code <;> simp_all [sizedCodes, TypeCode.name]

theorem parse_render_of_ne_zero (hbits : d.bits ≠ 0) (hlanes : d.lanes ≠ 0)
    (hhandle : d.code = .handle → d.bits = 64) : parse d.render = .ok d := by
  have htext := toList_render d
  by_cases hbool : d.isBool
  · rw [renderBase, if_pos hbool] at htext
    rw [parse_of_toList_eq htext (by decide) (by simp) hlanes, if_pos rfl]
    simp only [isBool, Bool.and_eq_true, decide_eq_true_eq] at hbool
    obtain ⟨code, bits, lanes⟩ := d
    obtain ⟨rfl, rfl⟩ := hbool
    rfl
  by_cases hcode : d.code = .handle
  · rw [renderBase, if_neg hbool, if_pos hcode] at htext
    rw [parse_of_toList_eq htext (by decide) (by simp) hlanes, if_neg (by decide), if_pos rfl]
    obtain ⟨code, bits, lanes⟩ := d
    cases hcode
    cases hhandle rfl
    rfl
  · have hsized : d.code ∈ sizedCodes := by
      cases h : d.code <;> simp_all [sizedCodes]
    rw [renderBase, if_neg hbool, if_neg hcode, String.toList_append, Nat.toString_eq_repr,
      Nat.toList_repr] at htext
    have hne : d.code.name.toList ++ Nat.toDigits 10 d.bits.toNat ≠ [] := by
      simp [Nat.toDigits_ne_nil]
    obtain ⟨hnotBool, hnotHandle⟩ := name_append_ne hsized (Nat.toDigits 10 d.bits.toNat)
    rw [parse_of_toList_eq htext hne plain_name_append hlanes, if_neg hnotBool, if_neg hnotHandle,
      splitCode?_append hsized]
    simp only [readBits?_toDigits hbits]

theorem ne_zero_of_readLanes? {cs : List Char} (h : readLanes? cs = some lanes) : lanes ≠ 0 := by
  unfold readLanes? at h
  split at h
  · cases h
    decide
  · obtain ⟨n, hn, h⟩ := Option.bind_eq_some_iff.mp h
    split at h
    · cases h
    · rename_i hne
      cases h
      intro hzero
      have hvalue := congrArg UInt16.toNat hzero
      rw [UInt16.toNat_ofNat_of_lt' (Nat.lt_succ_of_le (le_of_boundedNumeral? hn))] at hvalue
      exact hne hvalue

theorem ne_zero_of_readBits? {code : TypeCode} {digits : List Char} {bits : UInt8}
    (h : readBits? code digits = some bits) : bits ≠ 0 := by
  unfold readBits? at h
  split at h
  · cases h
    cases code <;> decide
  · obtain ⟨n, hn, h⟩ := Option.bind_eq_some_iff.mp h
    split at h
    · cases h
    · rename_i hne
      cases h
      intro hzero
      have hvalue := congrArg UInt8.toNat hzero
      rw [UInt8.toNat_ofNat_of_lt' (Nat.lt_succ_of_le (le_of_boundedNumeral? hn))] at hvalue
      exact hne hvalue

theorem mem_sizedCodes_of_splitCode? {cs digits : List Char} {code : TypeCode}
    (h : splitCode? cs = some (code, digits)) : code ∈ sizedCodes := by
  obtain ⟨found, hmem, hfound⟩ := List.exists_of_findSome?_eq_some h
  split at hfound
  · cases hfound
    exact hmem
  · cases hfound

/-- What is read has a width and lanes, and a handle has the width of all handles. -/
theorem ne_zero_of_parse {s : String} (h : parse s = .ok d) :
    d.bits ≠ 0 ∧ d.lanes ≠ 0 ∧ (d.code = .handle → d.bits = 64) := by
  unfold parse at h
  dsimp only at h
  split at h
  · cases h
  split at h
  · cases h
  rename_i lanes hlanes
  have hne := ne_zero_of_readLanes? hlanes
  split at h
  · cases h
    exact ⟨nofun, hne, nofun⟩
  split at h
  · cases h
    exact ⟨nofun, hne, fun _ => rfl⟩
  split at h
  · cases h
  rename_i code digits hcode
  split at h
  · cases h
  rename_i bits hbits
  cases h
  refine ⟨ne_zero_of_readBits? hbits, hne, ?_⟩
  rintro rfl
  exact absurd (mem_sizedCodes_of_splitCode? hcode) (by decide)

/-- Exactly the element types with a width and lanes, and handles only in the one width that they
have, are read back from what is written for them. Whatever is read is of this kind, however it was
spelled. -/
theorem render_read_back :
    (∀ d : DataType, parse d.render = .ok d ↔
      1 ≤ d.bits ∧ 1 ≤ d.lanes ∧ (d.code = .handle → d.bits = 64)) ∧
      ∀ (s : String) (d : DataType), parse s = .ok d → parse d.render = .ok d := by
  have hbits : ∀ n : UInt8, 1 ≤ n ↔ n ≠ 0 := by
    intro n
    rw [UInt8.le_iff_toNat_le, ne_eq, ← UInt8.toNat_inj]
    exact Nat.one_le_iff_ne_zero
  have hlanes : ∀ n : UInt16, 1 ≤ n ↔ n ≠ 0 := by
    intro n
    rw [UInt16.le_iff_toNat_le, ne_eq, ← UInt16.toNat_inj]
    exact Nat.one_le_iff_ne_zero
  refine ⟨fun d => ?_, fun s d h => ?_⟩
  · rw [hbits, hlanes]
    exact ⟨ne_zero_of_parse, fun h => parse_render_of_ne_zero h.1 h.2.1 h.2.2⟩
  · have hread := ne_zero_of_parse h
    exact parse_render_of_ne_zero hread.1 hread.2.1 hread.2.2

/-- One of several spellings of four truth values, which are written in another way. -/
theorem render_read_back_lanes :
    parse " uint01x+0004\t" = .ok ⟨.uint, 1, 4⟩ ∧ (⟨.uint, 1, 4⟩ : DataType).render = "boolx4" ∧
      parse (⟨.uint, 1, 4⟩ : DataType).render = .ok ⟨.uint, 1, 4⟩ :=
  ⟨rfl, rfl, render_read_back.2 " uint01x+0004\t" ⟨.uint, 1, 4⟩ rfl⟩

end DataType

end TensorTyping
