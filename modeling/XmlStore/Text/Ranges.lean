/-!
# Sets of code points

A property of characters is a table of ranges of code points, in ascending order and without
overlap.
-/

namespace XmlStore

/-- Inclusive ranges, ascending and disjoint. -/
abbrev Ranges := Array (Nat × Nat)

namespace Ranges

def search (ranges : Ranges) (value low high : Nat) : Bool :=
  if _h : low < high then
    let middle := (low + high) / 2
    match ranges[middle]? with
    | none => false
    | some (first, last) =>
      if value < first then search ranges value low middle
      else if last < value then search ranges value (middle + 1) high
      else true
  else false
termination_by high - low
decreasing_by all_goals omega

def contains (ranges : Ranges) (c : Char) : Bool := search ranges c.toNat 0 ranges.size

end Ranges

end XmlStore
