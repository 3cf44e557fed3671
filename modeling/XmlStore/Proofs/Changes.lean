import Mathlib.Order.Bounds.Defs
import XmlStore.Proofs.Distance

/-!
# One change after the other

A sequence becomes another by changes at single places, each made in what the one before it has
left. The distance is the least number of them. It is computed in two rows that take turns: each
new row is written over the one before the last.
-/

namespace XmlStore.EditDistance

variable {α : Type}

/-- One element is put in, taken out or replaced. -/
inductive Change : List α → List α → Prop
  | insert (front : List α) (b : α) (back : List α) : Change (front ++ back) (front ++ b :: back)
  | delete (front : List α) (a : α) (back : List α) : Change (front ++ a :: back) (front ++ back)
  | substitute (front : List α) (a b : α) (back : List α) :
      Change (front ++ a :: back) (front ++ b :: back)

/-- So many changes, one after the other, lead from the one sequence to the other. -/
inductive Changed : Nat → List α → List α → Prop
  | refl (first : List α) : Changed 0 first first
  | step {n : Nat} {first middle second : List α} (h : Change first middle)
      (hrest : Changed n middle second) : Changed (n + 1) first second

section
variable {n : Nat} {first middle second : List α}

theorem Change.cons (c : α) (h : Change first second) : Change (c :: first) (c :: second) := by
  cases h with
  | insert front b back => exact .insert (c :: front) b back
  | delete front a back => exact .delete (c :: front) a back
  | substitute front a b back => exact .substitute (c :: front) a b back

theorem Changed.cons (c : α) (h : Changed n first second) :
    Changed n (c :: first) (c :: second) := by
  induction h with
  | refl first => exact .refl (c :: first)
  | step h _ ih => exact .step (h.cons c) ih

/-- Edits from left to right are changes that are made in this order. -/
theorem Edits.changed (h : Edits n first second) : Changed n first second := by
  induction h with
  | nil => exact .refl []
  | keep a _ ih => exact ih.cons a
  | substitute a b _ ih => exact .step (.substitute [] a b _) (ih.cons b)
  | delete a _ ih => exact .step (.delete [] a _) ih
  | insert b _ ih => exact .step (.insert [] b _) (ih.cons b)

end

-- ---------------------------------------------------------------------------
-- The least number of changes
-- ---------------------------------------------------------------------------

section
variable [DecidableEq α] {n : Nat} {first middle second : List α}

/-- To every sequence the first is at most one farther than the second. -/
def Near (first second : List α) : Prop :=
  ∀ third, distance first third ≤ distance second third + 1

theorem near_delete (a : α) (back : List α) : Near (a :: back) back := distance_delete_le a back

theorem near_insert (b : α) (back : List α) : Near back (b :: back) := by
  intro second
  induction second with
  | nil => simp only [distance_nil_right, List.length_cons]; omega
  | cons d second ih =>
    have hinsert := distance_insert_le d back second
    rw [distance_cons_cons]
    omega

theorem near_substitute (a b : α) (back : List α) : Near (a :: back) (b :: back) := by
  intro second
  induction second with
  | nil => simp
  | cons d second ih =>
    rw [distance_cons_cons, distance_cons_cons]
    split <;> omega

theorem Near.cons (h : Near first middle) (c : α) : Near (c :: first) (c :: middle) := by
  intro second
  induction second with
  | nil =>
    have hnil := h []
    simp only [distance_nil_right, List.length_cons] at hnil ⊢
    omega
  | cons d second ih =>
    have hdiagonal := h second
    have habove := h (d :: second)
    rw [distance_cons_cons, distance_cons_cons]
    omega

theorem Near.append (h : Near first middle) (front : List α) :
    Near (front ++ first) (front ++ middle) := by
  induction front with
  | nil => exact h
  | cons c front ih => exact ih.cons c

theorem Change.near (h : Change first middle) : Near first middle := by
  cases h with
  | insert front b back => exact (near_insert b back).append front
  | delete front a back => exact (near_delete a back).append front
  | substitute front a b back => exact (near_substitute a b back).append front

theorem Changed.distance_le (h : Changed n first second) : distance first second ≤ n := by
  induction h with
  | refl first => exact Nat.le_of_eq (distance_self first)
  | step h _ ih => exact Nat.le_trans (h.near _) (Nat.succ_le_succ ih)

/-- Changes in any order and at any places do no better than edits from left to right. -/
theorem distance_isLeast (first second : List α) :
    IsLeast {n | Changed n first second} (distance first second) :=
  ⟨(distance_edits first second).changed, fun _ h => h.distance_le⟩

end

-- ---------------------------------------------------------------------------
-- Two rows
-- ---------------------------------------------------------------------------

section
variable [DecidableEq α] {a : α} {bound column number : Nat} {first second : List α}
  {above row spare : List Nat}

/-- Writes the entries of a row for the element `a`, from the one after `column` on, over what is
there, and tells the least entry. -/
def writeEntries (a : α) (above : List Nat) :
    (column : Nat) → (second : List α) → (row : List Nat) → (least : Nat) → List Nat × Nat
  | _, [], row, least => (row, least)
  | column, b :: second, row, least =>
    let entry :=
      min (min (above.getD column 0 + if a = b then 0 else 1) (above.getD (column + 1) 0 + 1))
        (row.getD column 0 + 1)
    writeEntries a above (column + 1) second (row.set (column + 1) entry) (min least entry)

/-- Goes on from row `number`. Of the two rows the spare one is written over, and they change
places. -/
def withinRows (bound : Nat) (second : List α) :
    (number : Nat) → (first : List α) → (row spare : List Nat) → Bool
  | _, [], row, _ => row.getD second.length 0 ≤ bound
  | number, a :: first, row, spare =>
    let (next, least) :=
      writeEntries a row 0 second (spare.set 0 (number + 1)) (number + 1)
    if bound < least then false else withinRows bound second (number + 1) first next row

def withinTwoRows (bound : Nat) (first second : List α) : Bool :=
  withinRows bound second 0 first (firstRow second) (List.replicate (second.length + 1) 0)

/-- The entries depend on the row above and on those written before, not on what they replace. -/
theorem writeEntries_eq {left diagonal : Nat} {ups front stale : List Nat} (least : Nat)
    (hcolumn : front.length = column) (habove : above.drop column = diagonal :: ups)
    (hups : ups.length = second.length) (hstale : stale.length = second.length) :
    writeEntries a above column second (front ++ left :: stale) least =
      (front ++ left :: nextEntries a left diagonal second ups,
        (nextEntries a left diagonal second ups).foldl min least) := by
  induction second generalizing column left diagonal ups front stale least with
  | nil =>
    obtain rfl := List.eq_nil_of_length_eq_zero hstale
    cases ups <;> rfl
  | cons b second ih =>
    obtain ⟨up, ups, rfl⟩ := List.exists_cons_of_length_eq_add_one hups
    obtain ⟨old, stale, rfl⟩ := List.exists_cons_of_length_eq_add_one hstale
    have hdrop : above.drop (column + 1) = up :: ups := by
      rw [← List.drop_drop, habove]
      rfl
    have hdiagonal : above.getD column 0 = diagonal := by
      rw [List.getD_eq_getElem?_getD, ← List.head?_drop, habove]
      rfl
    have hup : above.getD (column + 1) 0 = up := by
      rw [List.getD_eq_getElem?_getD, ← List.head?_drop, hdrop]
      rfl
    have hleft : (front ++ left :: old :: stale).getD column 0 = left := by
      simp [← hcolumn]
    have hset (entry : Nat) : (front ++ left :: old :: stale).set (column + 1) entry =
        (front ++ [left]) ++ entry :: stale := by
      simp [← hcolumn]
    rw [writeEntries, hdiagonal, hup, hleft, hset, ih _ (by simp [hcolumn]) hdrop
      (Nat.succ.inj hups) (Nat.succ.inj hstale), nextEntries]
    simp

theorem lt_foldl_min {entries : List Nat} {least : Nat} :
    bound < entries.foldl min least ↔ bound < least ∧ ∀ entry ∈ entries, bound < entry := by
  induction entries generalizing least with
  | nil => simp
  | cons entry entries ih =>
    rw [List.foldl_cons, ih, Nat.lt_min, List.forall_mem_cons, and_assoc]

theorem length_nextEntries (a : α) {left diagonal : Nat} {ups : List Nat}
    (hups : ups.length = second.length) :
    (nextEntries a left diagonal second ups).length = second.length := by
  induction second generalizing left diagonal ups with
  | nil => cases ups <;> rfl
  | cons b second ih =>
    obtain ⟨up, ups, rfl⟩ := List.exists_cons_of_length_eq_add_one hups
    rw [nextEntries, List.length_cons, ih (Nat.succ.inj hups), List.length_cons]

/-- Whatever the spare row holds, the two rows come to what fresh rows come to. -/
theorem withinRows_eq {rest : List Nat} (hrow : row = number :: rest)
    (hrest : rest.length = second.length) (hspare : spare.length = second.length + 1) :
    withinRows bound second number first row spare = withinFrom bound second first row := by
  induction first generalizing number row rest spare with
  | nil =>
    have hlast : row.getLast? = some (row.getD second.length 0) := by
      have hlt : second.length < row.length := by simp [hrow, hrest]
      rw [List.getLast?_eq_getElem?, List.getD_eq_getElem?_getD, List.getElem?_eq_getElem hlt]
      simp [hrow, hrest]
    rw [withinRows, withinFrom, hlast, Option.any_some]
  | cons a first ih =>
    obtain ⟨old, stale, rfl⟩ := List.exists_cons_of_length_eq_add_one hspare
    have hstale : stale.length = second.length := Nat.succ.inj hspare
    have hwrite : writeEntries a row 0 second ([] ++ (number + 1) :: stale) (number + 1) =
        ([] ++ (number + 1) :: nextEntries a (number + 1) number second rest,
          (nextEntries a (number + 1) number second rest).foldl min (number + 1)) :=
      writeEntries_eq (number + 1) rfl hrow hrest hstale
    have hnext : nextRow a second row =
        (number + 1) :: nextEntries a (number + 1) number second rest := by
      rw [hrow, nextRow]
    rw [List.nil_append, List.nil_append] at hwrite
    rw [withinRows, withinFrom, hnext, List.set_cons_zero, hwrite]
    simp only [List.all_cons, Bool.and_eq_true, decide_eq_true_eq, List.all_eq_true, lt_foldl_min]
    rw [ih rfl (length_nextEntries a hrest) (by simp [hrow, hrest])]

theorem withinTwoRows_eq (bound : Nat) (first second : List α) :
    withinTwoRows bound first second = within bound first second := by
  rw [withinTwoRows, firstRow, List.range_succ_eq_map]
  exact (withinRows_eq rfl (by simp) (by simp)).trans
    (by rw [within, firstRow, List.range_succ_eq_map])

end

/-- The test for a distance between two texts succeeds exactly if so many changes of single
characters are enough, computed in fresh rows or in two that take turns. -/
theorem within_iff_changes (first second : String) :
    ∃ least, IsLeast {n | Changed n first.toList second.toList} least ∧
      ∀ bound, (within bound first.toList second.toList = true ↔ least ≤ bound) ∧
        withinTwoRows bound first.toList second.toList =
          within bound first.toList second.toList :=
  ⟨_, distance_isLeast first.toList second.toList, fun bound =>
    ⟨within_iff, withinTwoRows_eq bound first.toList second.toList⟩⟩

end XmlStore.EditDistance
