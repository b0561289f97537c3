import BasicMachine.Text.Visible

/-!
# Quoted text

Text between quotes, every character of it visible: tab, line end, backslash and the quote itself are escaped by
a backslash, NUL is `\0`, and other characters that would not show are written by their number.
-/
namespace BasicMachine.Text

/-- One character between quotes of the kind `quote`. -/
def escape (quote c : Char) : List Char :=
  match c with
  | '\x00' => ['\\', '0']
  | '\t' => ['\\', 't']
  | '\r' => ['\\', 'r']
  | '\n' => ['\\', 'n']
  | '\\' => ['\\', '\\']
  | _ =>
    if c = quote then ['\\', c]
    else if isVisible c then [c]
    else ['\\', 'u', '\x7b'] ++ Nat.toDigits 16 c.toNat ++ ['\x7d']

def quoteWith (quote : Char) (cs : List Char) : List Char :=
  quote :: (cs.flatMap (escape quote) ++ [quote])

/-- A text in double quotes. -/
def quoted (s : String) : String := String.ofList (quoteWith '"' s.toList)

/-- A character in single quotes. -/
def quotedChar (c : Char) : String := String.ofList (quoteWith '\x27' [c])

end BasicMachine.Text
