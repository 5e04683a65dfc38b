import TensorTyping.Json.Basic

namespace TensorTyping.Json

theorem natBelow?_nat {bound n : Nat} (h : n < bound) : (nat n).natBelow? bound = some n := by
  have hrange : (0 : Int) ≤ n ∧ (n : Int) < bound := by omega
  simp [natBelow?, nat, int?, hrange]

@[simp] theorem word?_int (n : Word) : (int n.toInt).word? = some n := by
  simp [word?, int?]

@[simp] theorem uint8?_nat (n : UInt8) : (nat n.toNat).uint8? = some n := by
  simp [uint8?, natBelow?_nat n.toNat_lt]

@[simp] theorem uint16?_nat (n : UInt16) : (nat n.toNat).uint16? = some n := by
  simp [uint16?, natBelow?_nat n.toNat_lt]

@[simp] theorem uint32?_nat (n : UInt32) : (nat n.toNat).uint32? = some n := by
  simp [uint32?, natBelow?_nat n.toNat_lt]

@[simp] theorem uint64?_nat (n : UInt64) : (nat n.toNat).uint64? = some n := by
  simp [uint64?, natBelow?_nat n.toNat_lt]

@[simp] theorem bool?_bool (b : Bool) : (bool b).bool? = some b := rfl

@[simp] theorem string?_string (s : String) : (string s).string? = some s := rfl

theorem list?_array {α : Type} {write : α → Json} {read : Json → Option α} (xs : List α)
    (h : ∀ x ∈ xs, read (write x) = some x) : (array (xs.map write)).list? read = some xs := by
  rw [list?]
  induction xs with
  | nil => rfl
  | cons x xs ih =>
    rw [List.forall_mem_cons] at h
    simp [h.1, ih h.2]

private theorem map_lookup_zip {names : List String} {values : List Json} (hnodup : names.Nodup)
    (hlength : names.length = values.length) :
    (names.map fun name => (names.zip values).lookup name) = values.map some := by
  induction names generalizing values with
  | nil =>
    rw [List.length_nil] at hlength
    rw [List.length_eq_zero_iff.mp hlength.symm]
    rfl
  | cons name names ih =>
    cases values with
    | nil => cases hlength
    | cons value values =>
      rw [List.nodup_cons] at hnodup
      -- the first name is not looked for again, so its entry can be dropped for the others
      have hrest : ∀ n ∈ names, ((name, value) :: names.zip values).lookup n =
          (names.zip values).lookup n := by
        intro n hn
        have hne : n ≠ name := fun heq => hnodup.1 (heq ▸ hn)
        rw [List.lookup_cons, beq_false_of_ne hne]
      rw [List.zip_cons_cons, List.map_cons, List.map_cons, List.map_congr_left hrest,
        ih hnodup.2 (by simpa using hlength), List.lookup_cons_self]

/-- A record that was written with some names has the fields of those names. -/
theorem fields?_object (names : List String) (values : List Json) (hnodup : names.Nodup)
    (hlength : names.length = values.length) :
    (object (names.zip values)).fields? names = some values := by
  have hmapM : (values.map some).mapM id = some values := by
    clear hlength
    induction values with
    | nil => rfl
    | cons value values ih => simp [ih]
  rw [fields?, record?, map_lookup_zip hnodup hlength]
  exact hmapM

end TensorTyping.Json
