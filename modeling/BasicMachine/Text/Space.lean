/-!
# White space and lines

The characters of the White_Space property, and the lines of a text. A line ends at a line feed; a carriage
return directly before it belongs to the line end, and a last line that is empty does not count.
-/
namespace BasicMachine.Text

/-- The White_Space property. -/
def isSpace (c : Char) : Bool :=
  let n := c.toNat
  (0x09 ≤ n && n ≤ 0x0d) || n == 0x20 || n == 0x85 || n == 0xa0 || n == 0x1680 ||
    (0x2000 ≤ n && n ≤ 0x200a) || n == 0x2028 || n == 0x2029 || n == 0x202f || n == 0x205f || n == 0x3000

def trimStart (cs : List Char) : List Char := cs.dropWhile isSpace

def trim (cs : List Char) : List Char := (trimStart (trimStart cs).reverse).reverse

/-- A finished line, read backwards, without the carriage return before its line feed. -/
def closeLine : List Char → List Char
  | '\r' :: before => before.reverse
  | before => before.reverse

/-- The lines of a text whose current line, read backwards, starts with `before`. -/
def linesFrom (before : List Char) : List Char → List (List Char)
  | [] => if before.isEmpty then [] else [before.reverse]
  | '\n' :: rest => closeLine before :: linesFrom [] rest
  | c :: rest => linesFrom (c :: before) rest

def lines (cs : List Char) : List (List Char) := linesFrom [] cs

end BasicMachine.Text
