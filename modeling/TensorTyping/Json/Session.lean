import TensorTyping.Attrs
import TensorTyping.Config.Basic
import TensorTyping.Diagnostic.Basic
import TensorTyping.Json.Dim
import TensorTyping.Json.Ty

namespace TensorTyping

namespace AttrValue

/-- One form for each kind of value. -/
def toJson : AttrValue → Json
  | int n => .form "Int" (.int n.toInt)
  | bool b => .form "Bool" (.bool b)
  | str s => .form "Str" (.string s)
  | dtype d => .form "DType" d.toJson
  | ints ns => .form "Ints" (.array (ns.map fun n => .int n.toInt))
  | dims ds => .form "Exprs" (.array (ds.map Dim.toJson))

/-- Reads the value of an attribute. -/
def ofJson? : Json → Option AttrValue
  | .object [("Int", n)] => n.word?.map int
  | .object [("Bool", b)] => b.bool?.map bool
  | .object [("Str", s)] => s.string?.map str
  | .object [("DType", d)] => (DataType.ofJson? d).map dtype
  | .object [("Ints", ns)] => (ns.list? Json.word?).map ints
  | .object [("Exprs", ds)] => (ds.list? Dim.ofJson?).map dims
  | _ => none

end AttrValue

namespace Config

/-- The names of the settings, in order. -/
def fieldNames : List String := ["max_invocations_factor", "strict_shapes", "file"]

/-- A record of all settings. -/
def toJson (c : Config) : Json :=
  .object [("max_invocations_factor", .nat c.factor.toNat), ("strict_shapes", .bool c.strictShapes),
    ("file", .nat c.file.toNat)]

/-- Reads a setting, or takes its default if it is absent. -/
def setting? {α : Type} (read : Json → Option α) (default : α) : Option Json → Option α
  | none => some default
  | some j => read j

/-- Reads a configuration. Settings can be left out, but there are no others. -/
def ofJson? (j : Json) : Option Config := do
  let known := match j with
    | .object fields => fields.all fun f => fieldNames.contains f.1
    | _ => true
  match ← j.record? fieldNames 0 with
  | [factor, strict, file] =>
    if known then
      some ⟨← setting? Json.uint64? default.factor factor,
        ← setting? Json.bool? default.strictShapes strict,
        ← setting? Json.uint32? default.file file⟩
    else none
  | _ => none

end Config

namespace Span

/-- A record of the two ends. -/
def toJson (s : Span) : Json := .object [("lo", .nat s.lo.toNat), ("hi", .nat s.hi.toNat)]

/-- Reads a span. -/
def ofJson? (j : Json) : Option Span := do
  match ← j.fields? ["lo", "hi"] with
  | [lo, hi] => some ⟨← lo.uint32?, ← hi.uint32?⟩
  | _ => none

end Span

namespace FileSpan

/-- A record of file and span. -/
def toJson (s : FileSpan) : Json := .object [("file", .nat s.file.toNat), ("span", s.span.toJson)]

/-- Reads a span in a file. -/
def ofJson? (j : Json) : Option FileSpan := do
  match ← j.fields? ["file", "span"] with
  | [file, span] => some ⟨← file.uint32?, ← Span.ofJson? span⟩
  | _ => none

end FileSpan

namespace Label

/-- A record of span and message. -/
def toJson (l : Label) : Json := .object [("span", l.span.toJson), ("message", .string l.message)]

/-- Reads a label. -/
def ofJson? (j : Json) : Option Label := do
  match ← j.fields? ["span", "message"] with
  | [span, message] => some ⟨← FileSpan.ofJson? span, ← message.string?⟩
  | _ => none

end Label

namespace Severity

/-- The written names of the severities. -/
def jsonNames : List (String × Severity) := [("error", error), ("warning", warning)]

/-- Reads a severity. -/
def ofJson? (j : Json) : Option Severity := j.name? jsonNames

end Severity

namespace Diagnostic

/-- A record that leaves out an absent code and empty lists. -/
def toJson (d : Diagnostic) : Json :=
  .object ([("severity", .string d.severity.render), ("message", .string d.message)] ++
    (d.code.toList.map fun code => ("code", .string code)) ++
    (if d.labels.isEmpty then [] else [("labels", .array (d.labels.map Label.toJson))]) ++
    (if d.notes.isEmpty then [] else [("notes", .array (d.notes.map .string))]))

/-- Reads a code, which may be absent or `null`. -/
def code? : Option Json → Option (Option String)
  | none | some .null => some none
  | some j => j.string?.map some

/-- Reads a list, which is empty if it is absent. -/
def items? {α : Type} (read : Json → Option α) : Option Json → Option (List α)
  | none => some []
  | some j => j.list? read

/-- Reads a diagnostic. -/
def ofJson? (j : Json) : Option Diagnostic := do
  match ← j.record? ["severity", "message", "code", "labels", "notes"] 3 with
  | [some severity, some message, code, labels, notes] =>
    some ⟨← Severity.ofJson? severity, ← message.string?, ← code? code,
      ← items? Label.ofJson? labels, ← items? Json.string? notes⟩
  | _ => none

end Diagnostic

end TensorTyping
