/-!
# Ascending lists and tables

Posting lists are ascending and without repetition when they are looked up, whatever the order in
which their entries come. A table keeps one value per key, in the order in which the keys first
come.
-/

namespace XmlStore

/-- Drops each element that does not stand before the next one; in a sorted list those are the
repetitions. -/
def dropRepeated {α : Type} (before : α → α → Bool) : List α → List α
  | [] => []
  | [a] => [a]
  | a :: b :: rest =>
    if before a b then a :: dropRepeated before (b :: rest) else dropRepeated before (b :: rest)

def ascending {α : Type} (before : α → α → Bool) (as : List α) : List α :=
  dropRepeated before (as.mergeSort fun a b => !before b a)

abbrev Table (α β : Type) := List (α × β)

def Table.update {α β : Type} [DecidableEq α] (key : α) (initial : β) (change : β → β) :
    Table α β → Table α β
  | [] => [(key, change initial)]
  | (k, value) :: rest =>
    if k = key then (k, change value) :: rest else (k, value) :: update key initial change rest

end XmlStore
