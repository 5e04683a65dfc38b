import TensorTyping.Diagnostic.Span

namespace TensorTyping

/-- How grave a diagnostic is. -/
inductive Severity where
  | error
  | warning
  deriving DecidableEq

/-- The printed form. -/
def Severity.render : Severity → String
  | error => "error"
  | warning => "warning"

/-- A location and what there is to say about it. -/
structure Label where
  span : FileSpan
  message : String
  deriving DecidableEq

/-- A message with an optional code, the locations it is about, and further notes. The first label
    is the primary one. -/
structure Diagnostic where
  severity : Severity
  message : String
  code : Option String
  labels : List Label
  notes : List String
  deriving DecidableEq

namespace Diagnostic

/-- Whether this is an error. -/
def isError (d : Diagnostic) : Bool := d.severity = .error

/-- The location of the first label. -/
def primary? (d : Diagnostic) : Option FileSpan := d.labels.head?.map (·.span)

/-- A label on a line of its own, with an arrow only if it is primary. -/
def renderLabel (arrow : String) (l : Label) : String :=
  "\n " ++ arrow ++ " " ++ l.span.render ++ if l.message.isEmpty then "" else ": " ++ l.message

/-- The labels, the first with an arrow. -/
def renderLabels : List Label → String
  | [] => ""
  | l :: ls => renderLabel "-->" l ++ String.join (ls.map (renderLabel "   "))

/-- The printed form: a headline, then a line for every label and every note. -/
def render (d : Diagnostic) : String :=
  d.severity.render ++ (d.code.elim "" fun code => "[" ++ code ++ "]") ++ ": " ++ d.message ++
    renderLabels d.labels ++ String.join (d.notes.map ("\n = note: " ++ ·))

end Diagnostic

/-- Diagnostics in the order in which they were emitted. -/
structure DiagnosticLog where
  diagnostics : List Diagnostic

namespace DiagnosticLog

/-- Nothing emitted. -/
def empty : DiagnosticLog := ⟨[]⟩

/-- Adds a diagnostic. -/
def emit (log : DiagnosticLog) (d : Diagnostic) : DiagnosticLog := ⟨log.diagnostics ++ [d]⟩

/-- The number of errors. -/
def errorCount (log : DiagnosticLog) : Nat := log.diagnostics.countP (·.isError)

/-- The number of warnings. -/
def warningCount (log : DiagnosticLog) : Nat := log.diagnostics.countP (!·.isError)

/-- Whether there is an error. -/
def hasErrors (log : DiagnosticLog) : Bool := 0 < log.errorCount

/-- Hands out everything emitted so far and starts anew. -/
def take (log : DiagnosticLog) : List Diagnostic × DiagnosticLog := (log.diagnostics, empty)

end DiagnosticLog

end TensorTyping
