import XmlStore.Proofs.DoctypeEnds
import XmlStore.Proofs.Slices

/-!
# Ends by position

Where a tag or a declaration ends depends on the bytes up to its end and on no byte after it. So an
end that has been found stays when more bytes come, and one that is found only then lies in the new
bytes, also where the old ones stop inside quotes, inside a comment or inside its delimiters.
-/

namespace XmlStore

-- ---------------------------------------------------------------------------
-- Searches
-- ---------------------------------------------------------------------------

/-- The position of the `>` that ends a tag, looked for from `start` on. -/
def tagEnd? (bytes : Bytes) (start : Nat) : Option Nat :=
  (foundAt? (cutUnquoted? none (bytes.drop start))).map (start + ·)

/-- The position of the `>` that ends the document type declaration whose `<` is at `start`. -/
def doctypeEnd? (bytes : Bytes) (start : Nat) : Option Nat :=
  (foundAt? (cutDoctype? 0 none (bytes.drop (start + 2)))).map (start + 2 + ·)

/-- The position of the `>` that ends the declaration at the start of these bytes. -/
def declarationEnd? (bytes : Bytes) : Option Nat := foundAt? (cutUnquoted? none bytes)

/-- More bytes do not move what is found, and add what is found only among them. -/
def Stays (find : Bytes → Option Nat) : Prop :=
  ∀ (bytes more : Bytes) (i : Nat),
    find bytes = some i ↔ find (bytes ++ more) = some i ∧ i < bytes.length

theorem Stays.drop {find : Bytes → Option Nat} (h : Stays find) (start : Nat) :
    Stays fun bytes => (find (bytes.drop start)).map (start + ·) := by
  intro bytes more i
  simp only [Option.map_eq_some_iff]
  by_cases hle : start ≤ bytes.length
  · rw [List.drop_append_of_le_length hle]
    constructor
    · rintro ⟨j, hj, rfl⟩
      obtain ⟨hmore, hlt⟩ := (h _ more j).mp hj
      rw [List.length_drop] at hlt
      exact ⟨⟨j, hmore, rfl⟩, by omega⟩
    · rintro ⟨⟨j, hj, rfl⟩, hlt⟩
      exact ⟨j, (h _ more j).mpr ⟨hj, by rw [List.length_drop]; omega⟩, rfl⟩
  · -- A search that starts behind the bytes finds nothing in them, and later only new ones.
    have hnil : bytes.drop start = [] := List.drop_eq_nil_of_le (by omega)
    constructor
    · rintro ⟨j, hj, rfl⟩
      rw [hnil] at hj
      obtain ⟨-, hlt⟩ := (h [] [] j).mp hj
      cases hlt
    · rintro ⟨⟨j, -, rfl⟩, hlt⟩
      omega

-- ---------------------------------------------------------------------------
-- What an end depends on
-- ---------------------------------------------------------------------------

/-- Cuts bytes at a `>`, and the bytes before it alone tell at which. -/
structure CutsAtEnd (cut : Bytes → Option (Bytes × Bytes)) : Prop where
  append {bytes before after : Bytes} :
    cut bytes = some (before, after) → bytes = before ++ 0x3E :: after
  after {before after : Bytes} : cut (before ++ 0x3E :: after) = some (before, after) →
    ∀ other, cut (before ++ 0x3E :: other) = some (before, other)

theorem cutUnquoted?_cutsAtEnd : CutsAtEnd (cutUnquoted? none) where
  append := cutUnquoted?_append
  after h := (quoted_of_cut (by simp) h).cut

theorem cutDoctype?_cutsAtEnd : CutsAtEnd (cutDoctype? 0 none) where
  append := cutDoctype?_append
  after {_ after} h other := (cutDoctype?_iff other).mpr ((cutDoctype?_iff after).mp h)

theorem CutsAtEnd.stays {cut : Bytes → Option (Bytes × Bytes)} (h : CutsAtEnd cut) :
    Stays fun bytes => foundAt? (cut bytes) := by
  intro bytes more i
  simp only [foundAt?, Option.map_eq_some_iff, Prod.exists]
  constructor
  · rintro ⟨before, after, hcut, rfl⟩
    obtain rfl := h.append hcut
    refine ⟨⟨before, after ++ more, ?_, rfl⟩, by simp⟩
    rw [List.append_assoc, List.cons_append]
    exact h.after hcut _
  · rintro ⟨⟨before, after, hcut, rfl⟩, hlt⟩
    -- The end is among the old bytes, so they hold all that the search has looked at.
    have hbytes := h.append hcut
    obtain ⟨old, rfl⟩ : before ++ [0x3E] <+: bytes := by
      have hnew : before ++ [0x3E] <+: bytes ++ more := by
        rw [hbytes]
        exact ⟨after, by simp⟩
      have hlength : (before ++ [0x3E]).length ≤ bytes.length := by simpa using hlt
      exact List.prefix_of_prefix_length_le hnew (List.prefix_append bytes more) hlength
    rw [hbytes] at hcut
    rw [List.append_assoc, List.singleton_append]
    exact ⟨before, old, h.after hcut old, rfl⟩

/-- The ends of tags, of document type declarations and of the declarations in them stay where they
are, wherever a search starts and wherever the bytes are cut. -/
theorem ends_stay :
    (∀ start, Stays (tagEnd? · start)) ∧ (∀ start, Stays (doctypeEnd? · start)) ∧
      Stays declarationEnd? :=
  ⟨cutUnquoted?_cutsAtEnd.stays.drop, fun start => cutDoctype?_cutsAtEnd.stays.drop (start + 2),
    cutUnquoted?_cutsAtEnd.stays⟩

example : doctypeEnd? (ascii "<!DOCTYPE a [<!--]>--") 0 = none ∧
    doctypeEnd? (ascii "<!DOCTYPE a [<!--]>-->]>") 0 = some 23 := by
  decide +kernel

end XmlStore
