import XmlStore.Text.EditDistance

/-!
# The distance that the rows compute

Edits turn one sequence into another element by element. The distance is the least number of edits,
and it is what the rows hold: each row has the distances of one beginning of the first sequence to
all beginnings of the second. Beginnings are read backwards here, so that the last element of both
is at hand.
-/

namespace XmlStore.EditDistance

variable {α : Type}

/-- So many insertions, deletions and substitutions turn the one sequence into the other. -/
inductive Edits : Nat → List α → List α → Prop
  | nil : Edits 0 [] []
  | keep (a : α) {n : Nat} {first second : List α} (h : Edits n first second) :
      Edits n (a :: first) (a :: second)
  | substitute (a b : α) {n : Nat} {first second : List α} (h : Edits n first second) :
      Edits (n + 1) (a :: first) (b :: second)
  | delete (a : α) {n : Nat} {first second : List α} (h : Edits n first second) :
      Edits (n + 1) (a :: first) second
  | insert (b : α) {n : Nat} {first second : List α} (h : Edits n first second) :
      Edits (n + 1) first (b :: second)

namespace Edits

variable {n m : Nat} {first second third fourth : List α}

theorem append (h : Edits n first second) (h' : Edits m third fourth) :
    Edits (n + m) (first ++ third) (second ++ fourth) := by
  induction h with
  | nil => simpa using h'
  | keep a _ ih => exact .keep a ih
  | substitute a b _ ih => simpa [Nat.add_right_comm] using ih.substitute a b
  | delete a _ ih => simpa [Nat.add_right_comm] using ih.delete a
  | insert b _ ih => simpa [Nat.add_right_comm] using ih.insert b

theorem reverse (h : Edits n first second) : Edits n first.reverse second.reverse := by
  induction h with
  | nil => exact .nil
  | keep a _ ih => simpa using ih.append (.keep a .nil)
  | substitute a b _ ih => simpa using ih.append (.substitute a b .nil)
  | delete a _ ih => simpa using ih.append (.delete a .nil)
  | insert b _ ih => simpa using ih.append (.insert b .nil)

theorem length_le (h : Edits n first second) :
    first.length ≤ second.length + n ∧ second.length ≤ first.length + n := by
  induction h with
  | nil => simp
  | _ => simp only [List.length_cons]; omega

theorem deleteAll (first : List α) : Edits first.length first [] := by
  induction first with
  | nil => exact .nil
  | cons a rest ih => exact .delete a ih

theorem insertAll (second : List α) : Edits second.length [] second := by
  induction second with
  | nil => exact .nil
  | cons b rest ih => exact .insert b ih

end Edits

-- ---------------------------------------------------------------------------
-- The least number of edits
-- ---------------------------------------------------------------------------

variable [DecidableEq α]

/-- The Levenshtein distance. -/
def distance : List α → List α → Nat
  | [], second => second.length
  | a :: first, [] => (a :: first).length
  | a :: first, b :: second =>
    min (min (distance first second + if a = b then 0 else 1) (distance first (b :: second) + 1))
      (distance (a :: first) second + 1)
termination_by first second => first.length + second.length

section
variable {a b : α} {first second : List α}

@[simp] theorem distance_nil_left (second : List α) : distance [] second = second.length := by
  simp [distance]

@[simp] theorem distance_nil_right (first : List α) : distance first [] = first.length := by
  cases first <;> simp [distance]

theorem distance_cons_cons :
    distance (a :: first) (b :: second) =
      min (min (distance first second + if a = b then 0 else 1)
        (distance first (b :: second) + 1)) (distance (a :: first) second + 1) := by
  rw [distance]

theorem distance_delete_le (a : α) (first second : List α) :
    distance (a :: first) second ≤ distance first second + 1 := by
  cases second with
  | nil => simp
  | cons b second =>
    rw [distance_cons_cons]
    omega

theorem distance_insert_le (b : α) (first second : List α) :
    distance first (b :: second) ≤ distance first second + 1 := by
  cases first with
  | nil => simp
  | cons a first =>
    rw [distance_cons_cons]
    omega

theorem distance_edits (first second : List α) : Edits (distance first second) first second := by
  fun_induction distance first second with
  | case1 second => exact .insertAll second
  | case2 a first => exact .deleteAll (a :: first)
  | case3 a first b second hsub hdel hins =>
    rcases Nat.le_total
        (min (distance first second + if a = b then 0 else 1) (distance first (b :: second) + 1))
        (distance (a :: first) second + 1) with h | h
    · rw [Nat.min_eq_left h]
      rcases Nat.le_total (distance first second + if a = b then 0 else 1)
          (distance first (b :: second) + 1) with h | h
      · rw [Nat.min_eq_left h]
        by_cases hab : a = b
        · subst hab
          simpa using hsub.keep a
        · simpa [hab] using hsub.substitute a b
      · rw [Nat.min_eq_right h]
        exact hdel.delete a
    · rw [Nat.min_eq_right h]
      exact hins.insert b

theorem Edits.distance_le {n : Nat} (h : Edits n first second) : distance first second ≤ n := by
  induction h with
  | nil => simp
  | @keep a _ first second _ ih =>
    rw [distance_cons_cons, if_pos rfl]
    omega
  | @substitute a b _ first second _ ih =>
    rw [distance_cons_cons]
    split <;> omega
  | @delete a _ first second _ ih =>
    exact Nat.le_trans (distance_delete_le a first second) (by omega)
  | @insert b _ first second _ ih =>
    exact Nat.le_trans (distance_insert_le b first second) (by omega)

theorem distance_le_iff {n : Nat} :
    distance first second ≤ n ↔ ∃ m ≤ n, Edits m first second :=
  ⟨fun h => ⟨_, h, distance_edits first second⟩, fun ⟨_, hm, he⟩ => Nat.le_trans he.distance_le hm⟩

theorem distance_self (first : List α) : distance first first = 0 := by
  induction first with
  | nil => simp
  | cons a first ih => simp [distance_cons_cons, ih]

theorem distance_reverse (first second : List α) :
    distance first.reverse second.reverse = distance first second := by
  have hle : ∀ first second : List α,
      distance first.reverse second.reverse ≤ distance first second :=
    fun first second => (distance_edits first second).reverse.distance_le
  refine Nat.le_antisymm (hle first second) ?_
  simpa using hle first.reverse second.reverse

end

-- ---------------------------------------------------------------------------
-- Rows
-- ---------------------------------------------------------------------------

section
variable {a : α} {done before second : List α}

/-- The distances of a beginning, read backwards, to beginnings that go on from `before`. -/
def rowFrom (done : List α) : (before second : List α) → List Nat
  | before, [] => [distance done before]
  | before, b :: second => distance done before :: rowFrom done (b :: before) second

theorem rowFrom_eq_cons (done before second : List α) :
    rowFrom done before second =
      distance done before :: (rowFrom done before second).tail := by
  cases second <;> rfl

theorem firstRow_eq (second : List α) : firstRow second = rowFrom [] [] second := by
  suffices ∀ before : List α,
      List.range' before.length (second.length + 1) = rowFrom [] before second by
    simpa [firstRow, List.range_eq_range'] using this []
  induction second with
  | nil => simp [rowFrom]
  | cons b second ih =>
    intro before
    simpa [rowFrom, List.range'_succ] using ih (b :: before)

theorem nextEntries_rowFrom (a : α) (done before second : List α) :
    nextEntries a (distance (a :: done) before) (distance done before) second
        (rowFrom done before second).tail =
      (rowFrom (a :: done) before second).tail := by
  induction second generalizing before with
  | nil => rfl
  | cons b second ih =>
    have hrow : (rowFrom done before (b :: second)).tail =
        distance done (b :: before) :: (rowFrom done (b :: before) second).tail :=
      rowFrom_eq_cons done (b :: before) second
    have hrow' : (rowFrom (a :: done) before (b :: second)).tail =
        distance (a :: done) (b :: before) :: (rowFrom (a :: done) (b :: before) second).tail :=
      rowFrom_eq_cons (a :: done) (b :: before) second
    rw [hrow, hrow', nextEntries, ← ih (b :: before), ← distance_cons_cons]

theorem nextRow_rowFrom (a : α) (done second : List α) :
    nextRow a second (rowFrom done [] second) = rowFrom (a :: done) [] second := by
  have h := nextEntries_rowFrom a done [] second
  rw [distance_nil_right, distance_nil_right] at h
  rw [rowFrom_eq_cons, nextRow, rowFrom_eq_cons (a :: done), distance_nil_right,
    distance_nil_right]
  exact congrArg _ h

theorem getLast?_rowFrom (done before second : List α) :
    (rowFrom done before second).getLast? = some (distance done (second.reverse ++ before)) := by
  induction second generalizing before with
  | nil => rfl
  | cons b second ih =>
    rw [rowFrom, rowFrom_eq_cons, List.getLast?_cons_cons, ← rowFrom_eq_cons, ih]
    simp

theorem mem_rowFrom (done before front back : List α) :
    distance done (front.reverse ++ before) ∈ rowFrom done before (front ++ back) := by
  induction front generalizing before with
  | nil =>
    rw [rowFrom_eq_cons]
    exact List.mem_cons_self
  | cons b front ih =>
    have := List.mem_cons_of_mem (distance done before) (ih (b :: before))
    simpa [rowFrom] using this

theorem exists_suffix_distance_cons_le (a : α) (done second : List α) :
    ∃ rest, rest <:+ second ∧ distance done rest ≤ distance (a :: done) second := by
  -- What the fewest edits do with `a` says which end of the sequence is left.
  induction second with
  | nil => exact ⟨[], List.suffix_refl _, by simp⟩
  | cons b second ih =>
    obtain ⟨rest, hrest, hle⟩ := ih
    rw [distance_cons_cons]
    rcases Nat.le_total (distance done rest)
        (min (min (distance done second + if a = b then 0 else 1)
          (distance done (b :: second) + 1)) (distance (a :: done) second + 1)) with h | h
    · exact ⟨rest, hrest.trans (List.suffix_cons b second), h⟩
    · rcases Nat.le_total (distance done second) (distance done (b :: second) + 1) with h' | h'
      · exact ⟨second, List.suffix_cons b second, by omega⟩
      · exact ⟨b :: second, List.suffix_refl _, by omega⟩

/-- A longer beginning is not nearer to a sequence than the shorter one is to an end of it. -/
theorem exists_suffix_distance_le (more done second : List α) :
    ∃ rest, rest <:+ second ∧ distance done rest ≤ distance (more ++ done) second := by
  induction more generalizing second with
  | nil => exact ⟨second, List.suffix_refl _, Nat.le_refl _⟩
  | cons a more ih =>
    obtain ⟨middle, hmiddle, hle⟩ := exists_suffix_distance_cons_le a (more ++ done) second
    obtain ⟨rest, hrest, hle'⟩ := ih middle
    exact ⟨rest, hrest.trans hmiddle, Nat.le_trans hle' hle⟩

/-- Where every entry of a row is above the bound, so is every later one. -/
theorem lt_distance_of_rowFrom {bound : Nat} (more : List α)
    (h : ∀ entry ∈ rowFrom done [] second, bound < entry) :
    bound < distance (more ++ done) second.reverse := by
  obtain ⟨rest, ⟨front, hfront⟩, hle⟩ := exists_suffix_distance_le more done second.reverse
  have hsecond : second = rest.reverse ++ front.reverse := by
    rw [← List.reverse_append, hfront, List.reverse_reverse]
  have hmem := mem_rowFrom done [] rest.reverse front.reverse
  rw [← hsecond, List.reverse_reverse, List.append_nil] at hmem
  exact Nat.lt_of_lt_of_le (h _ hmem) hle

theorem withinFrom_iff {bound : Nat} {first : List α} :
    withinFrom bound second first (rowFrom done [] second) ↔
      distance (first.reverse ++ done) second.reverse ≤ bound := by
  induction first generalizing done with
  | nil => simp [withinFrom, getLast?_rowFrom]
  | cons a first ih =>
    simp only [withinFrom, nextRow_rowFrom, List.reverse_cons, List.append_assoc,
      List.singleton_append]
    split
    -- The rows are given up, which is right only if no later row can be within the bound.
    next hall =>
      have hlt := lt_distance_of_rowFrom first.reverse (by simpa using hall)
      simp only [Bool.false_eq_true, false_iff]
      omega
    next => exact ih

end

theorem within_iff {bound : Nat} {first second : List α} :
    within bound first second ↔ distance first second ≤ bound := by
  rw [within, firstRow_eq, withinFrom_iff, List.append_nil, distance_reverse]

theorem lengthsWithin_of_within {bound : Nat} {first second : List α}
    (h : within bound first second) : lengthsWithin bound first second := by
  obtain ⟨n, hn, hedits⟩ := distance_le_iff.mp (within_iff.mp h)
  have hlength := hedits.length_le
  simp only [lengthsWithin, Bool.and_eq_true, decide_eq_true_eq]
  omega

example :
    within 3 "kitten".toList "sitting".toList ∧ ¬ within 2 "kitten".toList "sitting".toList := by
  decide

end XmlStore.EditDistance
