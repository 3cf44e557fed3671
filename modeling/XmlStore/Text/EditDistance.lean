/-!
# Edit distance

The least number of insertions, deletions and substitutions that turn one sequence into another,
computed row by row: a row holds the distances of one beginning of the first sequence to every
beginning of the second.
-/

namespace XmlStore.EditDistance

variable {α : Type} [DecidableEq α]

/-- The rest of a row for the element `a`. `diagonal` and the head of `above` stand left above and
above the entry to compute, and `left` left of it. -/
def nextEntries (a : α) : (left diagonal : Nat) → (second : List α) → (above : List Nat) → List Nat
  | left, diagonal, b :: second, up :: above =>
    let entry := min (min (diagonal + if a = b then 0 else 1) (up + 1)) (left + 1)
    entry :: nextEntries a entry up second above
  | _, _, _, _ => []

def nextRow (a : α) (second : List α) : List Nat → List Nat
  | [] => []
  | first :: above => (first + 1) :: nextEntries a (first + 1) first second above

def firstRow (second : List α) : List Nat := List.range (second.length + 1)

/-- Goes on from a row, unless every entry of a row is above the bound: no later entry is smaller
than all of them. -/
def withinFrom (bound : Nat) (second : List α) : List α → List Nat → Bool
  | [], row => row.getLast?.any (· ≤ bound)
  | a :: first, row =>
    let next := nextRow a second row
    if next.all fun entry => bound < entry then false else withinFrom bound second first next

def lengthsWithin (bound : Nat) (first second : List α) : Bool :=
  first.length ≤ second.length + bound && second.length ≤ first.length + bound

def within (bound : Nat) (first second : List α) : Bool :=
  withinFrom bound second first (firstRow second)

end XmlStore.EditDistance
