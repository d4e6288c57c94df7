/-! Paths of files. -/
namespace BoardPython

/-- Where a file is: the names to go through, from the root or from the current directory. A name
`..` that is not undone by the names before it stays in front. -/
structure Path where
  rooted : Bool
  parts : List (List Char)
  deriving DecidableEq, Repr

namespace Path

def pieces : List Char → List (List Char)
  | [] => [[]]
  | c :: cs =>
    if c = '/' then [] :: pieces cs
    else match pieces cs with
      | [] => [[c]]
      | p :: ps => (c :: p) :: ps

def here : List Char := ['.']

def above : List Char := ['.', '.']

/-- The path that a name leads to from a path, if every name on the way is that of a directory. -/
def enter (p : Path) (name : List Char) : Path :=
  if name = [] ∨ name = here then p
  else if name = above then
    if p.parts.getLast?.getD above = above then
      if p.rooted then p else { p with parts := p.parts ++ [above] }
    else { p with parts := p.parts.dropLast }
  else { p with parts := p.parts ++ [name] }

def origin (text : String) : Path := ⟨text.toList.head? = some '/', []⟩

def ofText (text : String) : Path := (pieces text.toList).foldl enter (origin text)

def way (p : Path) : List (List Char) → List Path
  | [] => []
  | name :: names => p :: way (p.enter name) names

def text (p : Path) : String :=
  let relative := "/".intercalate (p.parts.map String.ofList)
  if p.rooted then "/" ++ relative else if p.parts = [] then "." else relative

def parent (p : Path) : Path := { p with parts := p.parts.dropLast }

/-- The path from the root that a text means in a directory. -/
def absolute (directory text : String) : Path :=
  if text.toList.head? = some '/' then ofText text else ofText (directory ++ "/" ++ text)

end Path

def dropEnding (text ending : String) : String :=
  if ending.toList.isSuffixOf text.toList then
    String.ofList (text.toList.take (text.toList.length - ending.toList.length))
  else text

end BoardPython
