namespace TensorTyping

/-- The bytes from `lo` up to, but not including, `hi`. -/
structure Span where
  lo : UInt32
  hi : UInt32
  deriving DecidableEq

namespace Span

/-- The span of what has no source text. -/
def dummy : Span := ⟨0, 0⟩

instance : Inhabited Span := ⟨dummy⟩

/-- Whether there is no source text. -/
def isDummy (s : Span) : Bool := s = dummy

/-- By start, then by end. -/
instance : Ord Span where
  compare s t := (compare s.lo t.lo).then (compare s.hi t.hi)

/-- The printed form. -/
def render (s : Span) : String := toString s.lo.toNat ++ ".." ++ toString s.hi.toNat

instance : ToString Span := ⟨render⟩

end Span

/-- A span in a file. -/
structure FileSpan where
  file : UInt32
  span : Span
  deriving DecidableEq

/-- The printed form. -/
def FileSpan.render (s : FileSpan) : String := "#" ++ toString s.file.toNat ++ ":" ++ s.span.render

end TensorTyping
