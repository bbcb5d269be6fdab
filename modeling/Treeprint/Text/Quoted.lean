/-!
# String literals

A string literal is the text between quotes, with six characters escaped: the backslash, the
quote, and newline, tab, carriage return and NUL. Every other character stands for itself.
-/

namespace Treeprint.Text

/-- The characters that stand for one character of the text. -/
def escape (c : Char) : List Char :=
  if c = '\\' then ['\\', '\\']
  else if c = '"' then ['\\', '"']
  else if c = '\n' then ['\\', 'n']
  else if c = '\t' then ['\\', 't']
  else if c = '\r' then ['\\', 'r']
  else if c = '\x00' then ['\\', '0']
  else [c]

/-- The characters after the opening quote, up to and with the closing one. -/
def quotedTail (cs : List Char) : List Char := cs.flatMap escape ++ ['"']

def quoted (s : String) : String := String.ofList ('"' :: quotedTail s.toList)

end Treeprint.Text
