/-! Sets of characters given by the lengths of runs of code points. -/
namespace BoardPython.Text

/-- How many code points are not in a set and then how many are, in turn, from the first code point
on. -/
abbrev Runs := List Nat

namespace Runs

/-- Whether code point `n` is in the set. The search stops at the run it lies in. -/
def has : Runs → Nat → Bool
  | others :: members :: later, n =>
    if n < others then false
    else if n < others + members then true
    else has later (n - (others + members))
  | _, _ => false

end Runs

end BoardPython.Text
