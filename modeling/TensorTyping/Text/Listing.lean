namespace TensorTyping.Text

/-- Items separated by a comma and a space. -/
def commaSeparated (items : List String) : String := ", ".intercalate items

end TensorTyping.Text
