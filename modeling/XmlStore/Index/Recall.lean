import XmlStore.Index.Words

/-!
# Remembered lookups

A tolerant lookup goes through all tokens of an index, and searches tend to come back to the same
tokens. So answers are remembered, and an answer that is asked for again is given as it was. What
remembers them may forget, but has no answer that was not put there: this is all that a lookup
relies on. `Recall` keeps the latest answers, and when there are too many, forgets the one that has
not been asked for longest.
-/

namespace XmlStore

structure Lookup where
  token : Token
  errors : Nat
  deriving DecidableEq, Repr

def Lookup.ofToken (token : Token) (errors : Option Nat) : Lookup :=
  { token, errors := errors.getD token.defaultErrors }

/-- A memory of answers. To ask for one may change which of them is forgotten next. -/
class Memory (μ : Type) where
  empty : μ
  get : Lookup → μ → Option (List Posting) × μ
  put : Lookup → List Posting → μ → μ
  get_empty (lookup : Lookup) : (get lookup empty).1 = none
  get_get {lookup other : Lookup} {memory : μ} {found : List Posting} :
    (get lookup (get other memory).2).1 = some found → (get lookup memory).1 = some found
  get_put {lookup other : Lookup} {answer found : List Posting} {memory : μ} :
    (get lookup (put other answer memory)).1 = some found →
      lookup = other ∧ found = answer ∨ (get lookup memory).1 = some found

namespace WordIndex

variable {μ : Type} [Memory μ]

def lookUp (index : WordIndex) (lookup : Lookup) (memory : μ) : Option (List Posting) × μ :=
  if index.fuzzy then
    match Memory.get lookup memory with
    | (some found, memory) => (some found, memory)
    | (none, memory) =>
      match index.fuzzyPostings? lookup.token lookup.errors with
      | some found => (some found, Memory.put lookup found memory)
      | none => (none, memory)
  else (none, memory)

def recallAfter (index : WordIndex) (lookups : List Lookup) : μ :=
  lookups.foldl (fun memory lookup => (index.lookUp lookup memory).2) Memory.empty

end WordIndex

/-- Lookups with their answers, the latest asked for first. -/
abbrev Recall := Table Lookup (List Posting)

namespace Recall

def capacity : Nat := 64

def remember (memory : Recall) (lookup : Lookup) (found : List Posting) : Recall :=
  ((lookup, found) :: memory.filter (·.1 ≠ lookup)).take capacity

def get (lookup : Lookup) (memory : Recall) : Option (List Posting) × Recall :=
  match memory.lookup lookup with
  | some found => (some found, memory.remember lookup found)
  | none => (none, memory)

variable {memory : Recall} {lookup other : Lookup} {answer found : List Posting}

theorem get_fst (memory : Recall) (lookup : Lookup) :
    (get lookup memory).1 = memory.lookup lookup := by
  unfold get
  split
  next h => exact h.symm
  next h => exact h.symm

theorem lookup_of_take {size : Nat} (h : (memory.take size).lookup lookup = some found) :
    memory.lookup lookup = some found := by
  rw [← List.take_append_drop size memory, List.lookup_append, h]
  rfl

theorem lookup_filter (h : lookup ≠ other) :
    (memory.filter (·.1 ≠ other)).lookup lookup = memory.lookup lookup := by
  induction memory with
  | nil => rfl
  | cons entry rest ih =>
    by_cases he : entry.1 = other
    · have hne : (lookup == entry.1) = false := beq_false_of_ne (he ▸ h)
      rw [List.filter_cons_of_neg (by simpa using he), ih, List.lookup_cons, hne]
    · rw [List.filter_cons_of_pos (by simpa using he), List.lookup_cons, List.lookup_cons, ih]

theorem lookup_remember (h : (memory.remember other answer).lookup lookup = some found) :
    lookup = other ∧ found = answer ∨ memory.lookup lookup = some found := by
  have hfront := lookup_of_take h
  by_cases hsame : lookup = other
  · subst hsame
    rw [List.lookup_cons_self] at hfront
    exact .inl ⟨rfl, (Option.some.inj hfront).symm⟩
  · have hne : (lookup == other) = false := beq_false_of_ne hsame
    rw [List.lookup_cons, hne] at hfront
    exact .inr ((lookup_filter hsame).symm.trans hfront)

instance : Memory Recall where
  empty := []
  get := get
  put lookup found memory := memory.remember lookup found
  get_empty _ := rfl
  get_get {lookup other memory found} h := by
    rw [get_fst] at h ⊢
    unfold get at h
    split at h
    next answer hanswer =>
      rcases lookup_remember h with ⟨rfl, rfl⟩ | hold
      · exact hanswer
      · exact hold
    next => exact h
  get_put h := by
    rw [get_fst] at h ⊢
    exact lookup_remember h

end Recall

end XmlStore
