import BoardPython.Text.Runs

/-! White space, and texts without the white space around them. -/
namespace BoardPython.Text

/-- The code points of white space. -/
def blankRuns : Runs :=
  [9, 5, 18, 1, 100, 1, 26, 1, 5599, 1, 2431, 11, 29, 2, 5, 1, 47, 1, 4000, 1]

def isBlank (c : Char) : Bool := blankRuns.has c.toNat

def trim (s : String) : String :=
  String.ofList (((s.toList.dropWhile isBlank).reverse.dropWhile isBlank).reverse)

end BoardPython.Text
