/-!
# Quoted text

Text in a script stands between single quotes. A backslash, a quote, a line feed, a tabulator and a
carriage return are written as a backslash and a letter or sign; all other characters stand for
themselves.
-/

namespace Primer.Script.Quoted

/-- How one character is written between quotes. -/
def encodeChar (c : Char) : List Char :=
  if c = '\\' then ['\\', '\\']
  else if c = '\'' then ['\\', '\'']
  else if c = '\n' then ['\\', 'n']
  else if c = '\t' then ['\\', 't']
  else if c = '\r' then ['\\', 'r']
  else [c]

/-- How characters are written between quotes. -/
def encode (text : List Char) : List Char :=
  text.flatMap encodeChar

/-- A text with its quotes. -/
def quote (text : List Char) : List Char :=
  '\'' :: encode text ++ ['\'']

end Primer.Script.Quoted
