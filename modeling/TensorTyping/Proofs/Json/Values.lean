import TensorTyping.Json.Session
import TensorTyping.Proofs.Json.Basic

namespace TensorTyping

open Json

@[simp] theorem SizeVar.ofJson?_toJson (v : SizeVar) : SizeVar.ofJson? v.toJson = some v := by
  have hfields : v.toJson.fields? ["id", "name"] = some [nat v.id.toNat, string v.name] :=
    fields?_object ["id", "name"] [_, _] (by simp) rfl
  rw [ofJson?, hfields, Option.bind_eq_bind, Option.bind_some]
  simp

@[simp] theorem DimOp.lookup_jsonName (op : DimOp) :
    DimOp.jsonNames.lookup op.jsonName = some op := by
  cases op <;> simp [jsonNames, jsonName, List.lookup_cons]

@[simp] theorem Dim.ofJson?_toJson (d : Dim) : Dim.ofJson? d.toJson = some d := by
  induction d with
  | const n => simp [Dim.toJson, Dim.ofJson?, form]
  | var v => simp [Dim.toJson, Dim.ofJson?, form]
  | any => rfl
  | binary op a b iha ihb =>
    rw [Dim.toJson, form, Dim.ofJson?]
    · simp [iha, ihb]
    -- the name of an operator is not that of another form
    · cases op <;> simp [DimOp.jsonName]
    · cases op <;> simp [DimOp.jsonName]

@[simp] theorem Comparison.ofJson?_toJson (op : Comparison) :
    Comparison.ofJson? op.toJson = some op := by
  cases op <;> simp [ofJson?, toJson, name?, form?, jsonNames, List.lookup_cons]

@[simp] theorem Cond.ofJson?_toJson (c : Cond) : Cond.ofJson? c.toJson = some c := by
  induction c with
  | bool b => simp [Cond.toJson, Cond.ofJson?, form]
  | cmp op lhs rhs => simp [Cond.toJson, Cond.ofJson?, form]
  | and a b iha ihb | or a b iha ihb => simp [Cond.toJson, Cond.ofJson?, form, iha, ihb]
  | not a ih => simp [Cond.toJson, Cond.ofJson?, form, ih]

@[simp] theorem TypeCode.name?_toJson (c : TypeCode) : c.toJson.name? TypeCode.jsonNames = some c := by
  cases c <;> simp [toJson, name?, form?, jsonNames, List.lookup_cons]

@[simp] theorem DataType.ofJson?_toJson (d : DataType) : DataType.ofJson? d.toJson = some d := by
  have hfields : d.toJson.fields? ["code", "bits", "lanes"] =
      some [d.code.toJson, nat d.bits.toNat, nat d.lanes.toNat] :=
    fields?_object ["code", "bits", "lanes"] [_, _, _] (by simp) rfl
  rw [ofJson?, hfields, Option.bind_eq_bind, Option.bind_some]
  simp

@[simp] theorem TensorType.ofJson?_toJson (t : TensorType) :
    TensorType.ofJson? t.toJson = some t := by
  have hfields : t.toJson.fields? ["shape", "dtype"] =
      some [array (t.shape.map Dim.toJson), t.dtype.toJson] :=
    fields?_object ["shape", "dtype"] [_, _] (by simp) rfl
  have hshape := list?_array t.shape fun d _ => d.ofJson?_toJson
  rw [ofJson?, hfields, Option.bind_eq_bind, Option.bind_some]
  simp [hshape]

@[simp] theorem Kind.ofJson?_toJson (k : Kind) : Kind.ofJson? k.toJson = some k := by
  cases k <;> simp [ofJson?, toJson, render, name?, form?, jsonNames, List.lookup_cons]

@[simp] theorem Placeholder.ofJson?_toJson (p : Placeholder) :
    Placeholder.ofJson? p.toJson = some p := by
  have hfields : p.toJson.fields? ["id", "kind"] = some [nat p.id.toNat, p.kind.toJson] :=
    fields?_object ["id", "kind"] [_, _] (by simp) rfl
  rw [ofJson?, hfields, Option.bind_eq_bind, Option.bind_some]
  simp

@[simp] theorem TypeVar.ofJson?_toJson (v : TypeVar) : TypeVar.ofJson? v.toJson = some v := by
  have hfields : v.toJson.fields? ["id", "name", "kind"] =
      some [nat v.id.toNat, string v.name, v.kind.toJson] :=
    fields?_object ["id", "name", "kind"] [_, _, _] (by simp) rfl
  rw [ofJson?, hfields, Option.bind_eq_bind, Option.bind_some]
  simp

@[simp] theorem GlobalVar.ofJson?_toJson (g : GlobalVar) :
    GlobalVar.ofJson? g.toJson = some g := by
  have hfields : g.toJson.fields? ["name", "kind"] = some [string g.name, g.kind.toJson] :=
    fields?_object ["name", "kind"] [_, _] (by simp) rfl
  rw [ofJson?, hfields, Option.bind_eq_bind, Option.bind_some]
  simp

namespace Ty

theorem allToJson_eq_map (ts : List Ty) : allToJson ts = ts.map toJson := by
  induction ts with
  | nil => rfl
  | cons t ts ih => rw [allToJson, ih, List.map_cons]

theorem allOfJson?_map {ts : List Ty} (h : ∀ t ∈ ts, ofJson? t.toJson = some t) :
    allOfJson? (ts.map toJson) = some ts := by
  induction ts with
  | nil => simp [allOfJson?]
  | cons t ts ih =>
    rw [List.forall_mem_cons] at h
    simp [allOfJson?, h.1, ih h.2]

section form

variable (j j' : Json) (js : List Json)

private theorem ofJson?_tuple :
    ofJson? (form "Tuple" (object [("fields", array js)])) = (allOfJson? js).map tuple := by
  have hfields : (object [("fields", array js)]).fields? ["fields"] = some [array js] :=
    fields?_object ["fields"] [_] (by simp) rfl
  rw [form, ofJson?]
  split
  · rename_i heq
    cases hfields.symm.trans heq
    rfl
  · rename_i hno
    exact absurd hfields (hno _)

private theorem ofJson?_ref :
    ofJson? (form "Ref" (object [("value", j)])) = (ofJson? j).map ref := by
  have hfields : (object [("value", j)]).fields? ["value"] = some [j] :=
    fields?_object ["value"] [_] (by simp) rfl
  rw [form, ofJson?]
  split
  · rename_i heq
    cases hfields.symm.trans heq
    rfl
  · rename_i hno
    exact absurd hfields (hno _)

private theorem ofJson?_call :
    ofJson? (form "Call" (object [("func", j), ("args", array js)])) =
      (ofJson? j).bind fun callee => (allOfJson? js).bind fun args => some (call callee args) := by
  have hfields : (object [("func", j), ("args", array js)]).fields? ["func", "args"] =
      some [j, array js] :=
    fields?_object ["func", "args"] [_, _] (by simp) rfl
  rw [form, ofJson?]
  split
  · rename_i heq
    cases hfields.symm.trans heq
    rfl
  · rename_i hno
    exact absurd hfields (hno _ _)

private theorem ofJson?_func :
    ofJson? (form "Func"
        (object [("arg_types", array js), ("ret_type", j), ("type_params", j')])) =
      (allOfJson? js).bind fun params => (ofJson? j).bind fun result =>
        (j'.list? TypeVar.ofJson?).bind fun typeParams => some (func params result typeParams) := by
  have hfields : (object [("arg_types", array js), ("ret_type", j), ("type_params", j')]).fields?
      ["arg_types", "ret_type", "type_params"] = some [array js, j, j'] :=
    fields?_object ["arg_types", "ret_type", "type_params"] [_, _, _] (by simp) rfl
  rw [form, ofJson?]
  split
  · rename_i heq
    cases hfields.symm.trans heq
    rfl
  · rename_i hno
    exact absurd hfields (hno _ _ _)

end form

@[simp] theorem ofJson?_toJson (t : Ty) : ofJson? t.toJson = some t := by
  induction t using Ty.induction with
  | tensor t => simp [toJson, ofJson?, form]
  | tuple fields ih =>
    rw [toJson, allToJson_eq_map, ofJson?_tuple, allOfJson?_map ih, Option.map_some]
  | ref value ih => rw [toJson, ofJson?_ref, ih, Option.map_some]
  | call callee args ihc iha =>
    rw [toJson, allToJson_eq_map, ofJson?_call, ihc, allOfJson?_map iha]
    rfl
  | hole p => simp [toJson, ofJson?, form]
  | func params result typeParams ihp ihr =>
    have hvars := list?_array typeParams fun v _ => v.ofJson?_toJson
    rw [toJson, allToJson_eq_map, ofJson?_func, allOfJson?_map ihp, ihr, hvars]
    rfl
  | var v => simp [toJson, ofJson?, form]
  | global g => simp [toJson, ofJson?, form]

end Ty

@[simp] theorem Constructor.ofJson?_toJson (c : Constructor) :
    Constructor.ofJson? c.toJson = some c := by
  have hfields : c.toJson.fields? ["name", "fields", "tag"] =
      some [string c.name, array (c.fields.map Ty.toJson), nat c.tag.toNat] :=
    fields?_object ["name", "fields", "tag"] [_, _, _] (by simp) rfl
  have htypes := list?_array c.fields fun t _ => t.ofJson?_toJson
  rw [ofJson?, hfields, Option.bind_eq_bind, Option.bind_some]
  simp [htypes]

@[simp] theorem AttrValue.ofJson?_toJson (v : AttrValue) : AttrValue.ofJson? v.toJson = some v := by
  cases v with
  | int n => simp [toJson, ofJson?, form]
  | bool b => simp [toJson, ofJson?, form]
  | str s => simp [toJson, ofJson?, form]
  | dtype d => simp [toJson, ofJson?, form]
  | ints ns =>
    have hns := list?_array ns fun n _ => word?_int n
    simp [toJson, ofJson?, form, hns]
  | dims ds =>
    have hds := list?_array ds fun d _ => d.ofJson?_toJson
    simp [toJson, ofJson?, form, hds]

@[simp] theorem Config.ofJson?_toJson (c : Config) : Config.ofJson? c.toJson = some c := by
  have hrecord : c.toJson.record? fieldNames 0 =
      some [some (nat c.factor.toNat), some (bool c.strictShapes), some (nat c.file.toNat)] := by
    simp [toJson, record?, fieldNames, List.lookup_cons]
  have hfactor : setting? uint64? default.factor (some (nat c.factor.toNat)) = some c.factor := by
    rw [setting?, uint64?_nat]
  have hfile : setting? uint32? default.file (some (nat c.file.toNat)) = some c.file := by
    rw [setting?, uint32?_nat]
  unfold ofJson?
  rw [hrecord, Option.bind_eq_bind, Option.bind_some]
  dsimp only
  rw [if_pos]
  · rw [hfactor, hfile]
    rfl
  · -- all keys that are written are settings
    simp [toJson, fieldNames]

@[simp] theorem Span.ofJson?_toJson (s : Span) : Span.ofJson? s.toJson = some s := by
  have hfields : s.toJson.fields? ["lo", "hi"] = some [nat s.lo.toNat, nat s.hi.toNat] :=
    fields?_object ["lo", "hi"] [_, _] (by simp) rfl
  rw [ofJson?, hfields, Option.bind_eq_bind, Option.bind_some]
  simp

@[simp] theorem FileSpan.ofJson?_toJson (s : FileSpan) : FileSpan.ofJson? s.toJson = some s := by
  have hfields : s.toJson.fields? ["file", "span"] = some [nat s.file.toNat, s.span.toJson] :=
    fields?_object ["file", "span"] [_, _] (by simp) rfl
  rw [ofJson?, hfields, Option.bind_eq_bind, Option.bind_some]
  simp

@[simp] theorem Label.ofJson?_toJson (l : Label) : Label.ofJson? l.toJson = some l := by
  have hfields : l.toJson.fields? ["span", "message"] = some [l.span.toJson, string l.message] :=
    fields?_object ["span", "message"] [_, _] (by simp) rfl
  rw [ofJson?, hfields, Option.bind_eq_bind, Option.bind_some]
  simp

@[simp] theorem Severity.ofJson?_render (s : Severity) :
    Severity.ofJson? (string s.render) = some s := by
  cases s <;> simp [ofJson?, render, name?, form?, jsonNames, List.lookup_cons]

namespace Diagnostic

theorem code?_map (code : Option String) : code? (code.map string) = some code := by
  cases code <;> rfl

theorem items?_written {α : Type} {write : α → Json} {read : Json → Option α} (xs : List α)
    (h : ∀ x ∈ xs, read (write x) = some x) :
    items? read (if xs.isEmpty then none else some (array (xs.map write))) = some xs := by
  cases xs with
  | nil => rfl
  | cons x xs => exact list?_array _ h

/-- The fields that a diagnostic is written with. -/
theorem record?_toJson (d : Diagnostic) :
    d.toJson.record? ["severity", "message", "code", "labels", "notes"] 3 =
      some [some (string d.severity.render), some (string d.message), d.code.map string,
        if d.labels.isEmpty then none else some (array (d.labels.map Label.toJson)),
        if d.notes.isEmpty then none else some (array (d.notes.map string))] := by
  obtain ⟨severity, message, code, labels, notes⟩ := d
  cases code <;> cases labels <;> cases notes <;> simp [toJson, record?, List.lookup_cons]

/-- What a diagnostic does not have is left out. -/
theorem lookup_toJson (d : Diagnostic) : ∃ fields, d.toJson = object fields ∧
    (fields.lookup "code" = none ↔ d.code = none) ∧
    (fields.lookup "labels" = none ↔ d.labels = []) ∧
    (fields.lookup "notes" = none ↔ d.notes = []) := by
  obtain ⟨severity, message, code, labels, notes⟩ := d
  refine ⟨_, rfl, ?_⟩
  cases code <;> cases labels <;> cases notes <;> simp [List.lookup_cons]

@[simp] theorem ofJson?_toJson (d : Diagnostic) : ofJson? d.toJson = some d := by
  have hlabels := items?_written d.labels fun l _ => l.ofJson?_toJson
  have hnotes := items?_written d.notes fun s _ => string?_string s
  rw [ofJson?, record?_toJson, Option.bind_eq_bind, Option.bind_some]
  simp only [Severity.ofJson?_render, string?_string, code?_map, hlabels, hnotes,
    Option.bind_eq_bind, Option.bind_some]

end Diagnostic

/-- Every value is read back from its JSON form just as it was, down to the kinds of the names of
definitions and to operations that could be folded. A diagnostic is written without a code, labels
or notes exactly if it has none. -/
theorem Json.values_read_back :
    (∀ d : Dim, Dim.ofJson? d.toJson = some d) ∧
    (∀ c : Cond, Cond.ofJson? c.toJson = some c) ∧
    (∀ d : DataType, DataType.ofJson? d.toJson = some d) ∧
    (∀ t : TensorType, TensorType.ofJson? t.toJson = some t) ∧
    (∀ t : Ty, Ty.ofJson? t.toJson = some t) ∧
    (∀ c : Constructor, Constructor.ofJson? c.toJson = some c) ∧
    (∀ d : Diagnostic, Diagnostic.ofJson? d.toJson = some d ∧
      ∃ fields, d.toJson = object fields ∧
        (fields.lookup "code" = none ↔ d.code = none) ∧
        (fields.lookup "labels" = none ↔ d.labels = []) ∧
        (fields.lookup "notes" = none ↔ d.notes = [])) ∧
    (∀ l : Label, Label.ofJson? l.toJson = some l) ∧
    (∀ s : Span, Span.ofJson? s.toJson = some s) ∧
    (∀ c : Config, Config.ofJson? c.toJson = some c) ∧
    (∀ v : AttrValue, AttrValue.ofJson? v.toJson = some v) :=
  ⟨Dim.ofJson?_toJson, Cond.ofJson?_toJson, DataType.ofJson?_toJson, TensorType.ofJson?_toJson,
    Ty.ofJson?_toJson, Constructor.ofJson?_toJson, fun d => ⟨d.ofJson?_toJson, d.lookup_toJson⟩,
    Label.ofJson?_toJson, Span.ofJson?_toJson, Config.ofJson?_toJson, AttrValue.ofJson?_toJson⟩

end TensorTyping
