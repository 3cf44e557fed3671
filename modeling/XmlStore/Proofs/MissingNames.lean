import XmlStore.Proofs.Overlaps

/-!
# Where a name is missing

A declaration without a name has its fault where the white space before the name ends. If the name
of the document type is missing, this is the position that is reported. In a declaration of an
entity the keyword is not counted, and the position that is reported lies in front of the missing
name by as many bytes as the keyword has.
-/

namespace XmlStore

/-- No name begins where the white space at the start of the text ends. -/
def Unnamed (text : Bytes) (index : Nat) : Prop :=
  index = (text.takeWhile isSpace).length ∧ (text[index]?).any isNameStart = false

instance (text : Bytes) (index : Nat) : Decidable (Unnamed text index) := instDecidableAnd

/-- Complete items and white space lead to a declaration of an entity that has no name where one has
to begin, at this index of the subset. -/
inductive LeadsToUnnamed : Bytes → Nat → Prop
  | mk {front body more : Bytes} {place : Nat}
    (hfront : Leaves (front ++ (ascii "<!ENTITY" ++ body ++ ascii ">" ++ more))
      (ascii "<!ENTITY" ++ body ++ ascii ">" ++ more))
    (hbody : Quoted body) (hplace : Unnamed body place) (hpercent : body[place]? ≠ some 0x25) :
    LeadsToUnnamed (front ++ (ascii "<!ENTITY" ++ body ++ ascii ">" ++ more))
      (front.length + (ascii "<!ENTITY").length + place)

/-- The same, at this index of the content of a declaration. -/
inductive LacksEntityName : Bytes → Nat → Prop
  | mk {heading subset after : Bytes} {index : Nat} (hheading : OpensSubset heading)
    (hafter : 0x5D ∉ after) (hsubset : LeadsToUnnamed subset index) :
    LacksEntityName (heading ++ (subset ++ 0x5D :: after)) (heading.length + index)

-- ---------------------------------------------------------------------------
-- The missing name
-- ---------------------------------------------------------------------------

section
variable {text body rest content : Bytes} {index place position stop : Nat}

theorem head?_trimStart (text : Bytes) :
    (trimStart text).head? = text[(text.takeWhile isSpace).length]? := by
  induction text with
  | nil => rfl
  | cons b more ih =>
    by_cases hb : isSpace b
    · rw [trimStart, List.dropWhile_cons_of_pos hb, List.takeWhile_cons_of_pos hb, List.length_cons,
        List.getElem?_cons_succ]
      exact ih
    · rw [trimStart, List.dropWhile_cons_of_neg hb, List.takeWhile_cons_of_neg hb]
      rfl

theorem length_takeWhile_isSpace (text : Bytes) :
    (text.takeWhile isSpace).length + (trimStart text).length = text.length := by
  rw [← List.length_append]
  exact congrArg List.length List.takeWhile_append_dropWhile

theorem readName?_eq_none_iff : readName? text = none ↔ text.head?.any isNameStart = false := by
  cases text with
  | nil => simp [readName?]
  | cons b more => by_cases hb : isNameStart b <;> simp [readName?, hb]

theorem unnamed_iff : Unnamed text index ↔
    index = (text.takeWhile isSpace).length ∧ readName? (trimStart text) = none := by
  rw [Unnamed, readName?_eq_none_iff, head?_trimStart]
  constructor
  · rintro ⟨rfl, h⟩
    exact ⟨rfl, h⟩
  · rintro ⟨rfl, h⟩
    exact ⟨rfl, h⟩

theorem readItem_ne_doctypeName :
    readItem stop text ≠ .error (.malformed position .doctypeName) := by
  intro h
  rcases readItem_fault h with ⟨-, he⟩ | ⟨kind, hkind, he⟩ | ⟨_, _, fault, -, -, hread, he⟩
  · cases he
  · cases he
    cases hkind
  · rcases readEntity_fault hread with hliteral | rfl
    · cases hliteral <;> cases he
    · cases he

theorem readEntity_entityName_iff :
    readEntity stop text = .error (.malformed position .entityName) ↔
      (trimStart text).head? ≠ some 0x25 ∧ readName? (trimStart text) = none ∧
        position = stop - (trimStart text).length := by
  constructor
  · intro h
    rcases readEntity_fault h with hliteral | heq
    · cases hliteral
    · unfold readEntity at h
      simp only at h
      split at h
      next => cases h
      next hhead =>
        split at h
        next hname =>
          cases h
          exact ⟨hhead, hname, rfl⟩
        next rest _ =>
          split at h
          next =>
            cases hliteral : readLiteral stop (trimStart rest) with
            | error fault =>
              rw [hliteral] at h
              cases h
              cases readLiteral_fault hliteral
            | ok found =>
              rw [hliteral] at h
              cases h
          next => cases h
  · rintro ⟨hhead, hname, rfl⟩
    unfold readEntity
    simp only [if_neg hhead, hname]

theorem readItem_entityName_iff :
    readItem stop text = .error (.malformed position .entityName) ↔
      ∃ body rest place, text = ascii "<!ENTITY" ++ body ++ 0x3E :: rest ∧ Quoted body ∧
        Unnamed body place ∧ body[place]? ≠ some 0x25 ∧
        position = place + (stop - text.length) := by
  constructor
  · intro h
    rcases readItem_fault h with ⟨-, he⟩ | ⟨kind, hkind, he⟩ |
      ⟨body, rest, fault, htext, hbody, hread, he⟩
    · cases he
    · cases he
      cases hkind
    · obtain ⟨place, rfl⟩ : ∃ place, fault = .malformed place .entityName := by
        rcases readEntity_fault hread with hliteral | rfl
        · cases hliteral <;> cases he
        · exact ⟨_, rfl⟩
      cases he
      obtain ⟨hhead, hname, hplace⟩ := readEntity_entityName_iff.mp hread
      have hlength := length_takeWhile_isSpace body
      obtain rfl : place = (body.takeWhile isSpace).length := by omega
      rw [head?_trimStart] at hhead
      exact ⟨body, rest, _, htext, hbody, unnamed_iff.mpr ⟨rfl, hname⟩, hhead, rfl⟩
  · rintro ⟨body, rest, place, htext, hbody, hplace, hpercent, rfl⟩
    obtain ⟨rfl, hname⟩ := unnamed_iff.mp hplace
    rw [← head?_trimStart] at hpercent
    have hlength := length_takeWhile_isSpace body
    have hread : readEntity body.length body =
        .error (.malformed (body.takeWhile isSpace).length .entityName) :=
      readEntity_entityName_iff.mpr ⟨hpercent, hname, by omega⟩
    rw [htext, SubsetPart.readItem_entityBody hbody, hread]
    rfl

-- ---------------------------------------------------------------------------
-- Subsets and declarations
-- ---------------------------------------------------------------------------

/-- The reader of a subset does not count the keyword. -/
theorem readItems_entityName_iff {fuel : Nat} (hf : text.length ≤ fuel) (hs : text.length ≤ stop) :
    readItems stop fuel text = .error (.malformed position .entityName) ↔
      ∃ index, LeadsToUnnamed text index ∧
        position + (ascii "<!ENTITY").length = stop - text.length + index := by
  rw [readItems_error_iff hf]
  constructor
  · rintro ⟨rest, hleaves, -, -, h⟩
    obtain ⟨body, more, place, hrest, hbody, hplace, hpercent, rfl⟩ := readItem_entityName_iff.mp h
    obtain ⟨front, rfl⟩ := hleaves.suffix
    have hform : rest = ascii "<!ENTITY" ++ body ++ ascii ">" ++ more := by
      simp [hrest, ascii_brackets]
    subst hform
    have hlength := @List.length_append _ front (ascii "<!ENTITY" ++ body ++ ascii ">" ++ more)
    exact ⟨_, .mk hleaves hbody hplace hpercent, by omega⟩
  · rintro ⟨_, @⟨front, body, more, place, hleaves, hbody, hplace, hpercent⟩, hposition⟩
    refine ⟨_, hleaves, List.cons_ne_nil _ _, rfl, readItem_entityName_iff.mpr
      ⟨body, more, place, by simp [ascii_brackets], hbody, hplace, hpercent, ?_⟩⟩
    have hlength := @List.length_append _ front (ascii "<!ENTITY" ++ body ++ ascii ">" ++ more)
    omega

theorem readDoctype_entityName_iff {offset : Nat} :
    readDoctype (offset + content.length) content = .error (.malformed position .entityName) ↔
      ∃ index, LacksEntityName content index ∧
        position + (ascii "<!ENTITY").length = offset + index := by
  rw [readDoctype_error_iff (by rintro ⟨⟩) (by simp) (by simp)]
  constructor
  · rintro ⟨heading, subset, after, hheading, hafter, rfl, h⟩
    simp only [List.length_append, List.length_cons] at h
    obtain ⟨index, hsubset, hposition⟩ :=
      (readItems_entityName_iff (Nat.le_refl _) (by omega)).mp h
    exact ⟨_, .mk hheading hafter hsubset, by omega⟩
  · rintro ⟨_, @⟨heading, subset, after, index, hheading, hafter, hsubset⟩, hposition⟩
    refine ⟨heading, subset, after, hheading, hafter, rfl, ?_⟩
    simp only [List.length_append, List.length_cons]
    exact (readItems_entityName_iff (Nat.le_refl _) (by omega)).mpr ⟨index, hsubset, by omega⟩

/-- The byte is there, at the latest it is the one that closes the declaration. -/
theorem LeadsToUnnamed.no_name (h : LeadsToUnnamed text index) :
    ∃ b, text[index]? = some b ∧ isNameStart b = false := by
  obtain @⟨front, body, more, place, -, -, ⟨hindex, hno⟩, -⟩ := h
  have hform : front ++ (ascii "<!ENTITY" ++ body ++ ascii ">" ++ more) =
      (front ++ ascii "<!ENTITY") ++ (body ++ 0x3E :: more) := by simp [ascii_brackets]
  have hle : place ≤ body.length := hindex ▸ (List.takeWhile_prefix isSpace).length_le
  rw [hform, ← List.length_append, List.getElem?_append_right (Nat.le_add_right _ _),
    Nat.add_sub_cancel_left]
  rcases Nat.lt_or_eq_of_le hle with hlt | heq
  · rw [List.getElem?_append_left hlt, List.getElem?_eq_getElem hlt]
    rw [List.getElem?_eq_getElem hlt] at hno
    exact ⟨_, rfl, hno⟩
  · rw [heq, List.getElem?_append_right (Nat.le_refl _), Nat.sub_self]
    exact ⟨0x3E, rfl, rfl⟩

theorem LacksEntityName.no_name (h : LacksEntityName content index) :
    (content[index]?).any isNameStart = false := by
  obtain @⟨heading, subset, after, index, -, -, hsubset⟩ := h
  obtain ⟨b, hb, hno⟩ := hsubset.no_name
  have hlt : index < subset.length := (List.getElem?_eq_some_iff.mp hb).1
  rw [List.getElem?_append_right (Nat.le_add_right _ _), Nat.add_sub_cancel_left,
    List.getElem?_append_left hlt, hb]
  exact hno

theorem readDoctype_doctypeName_iff {offset : Nat} :
    readDoctype (offset + content.length) content = .error (.malformed position .doctypeName) ↔
      ∃ index, Unnamed content index ∧ position = offset + index := by
  have hlength := length_takeWhile_isSpace content
  constructor
  · intro h
    unfold readDoctype at h
    simp only at h
    split at h
    next hname =>
      cases h
      exact ⟨_, unnamed_iff.mpr ⟨rfl, hname⟩, by omega⟩
    next name rest hname =>
      rcases bind_eq_error_iff.mp h with h | ⟨⟨publicId, systemId, more⟩, -, h⟩
      · cases readExternalId_fault h
      dsimp only at h
      split at h
      next inner _ =>
        split at h
        next => cases h
        next subset after _ =>
          rcases bind_eq_error_iff.mp h with h | ⟨items, -, h⟩
          · obtain ⟨rest, -, -, -, h⟩ := (readItems_error_iff (Nat.le_refl _)).mp h
            exact absurd h readItem_ne_doctypeName
          · cases h
      next => cases h
  · rintro ⟨index, hindex, rfl⟩
    obtain ⟨rfl, hname⟩ := unnamed_iff.mp hindex
    unfold readDoctype
    simp only [hname]
    rw [show offset + content.length - (trimStart content).length =
      offset + (content.takeWhile isSpace).length by omega]

end

/-- The reader of a declaration misses the name of the document type just where none begins behind
the white space at the start of the content, and that is the position it reports. It misses the name
of an entity just where complete items lead to a declaration that has none behind its keyword and
white space; there it reports the position of the missing name less the length of the keyword. At
the missing name itself stands no byte that can begin a name. -/
theorem missing_names_reported (offset : Nat) (content : Bytes) (position : Nat) :
    (readDoctype (offset + content.length) content = .error (.malformed position .doctypeName) ↔
      ∃ index, Unnamed content index ∧ position = offset + index) ∧
    (readDoctype (offset + content.length) content = .error (.malformed position .entityName) ↔
      ∃ index, LacksEntityName content index ∧ (content[index]?).any isNameStart = false ∧
        position + (ascii "<!ENTITY").length = offset + index) := by
  refine ⟨readDoctype_doctypeName_iff, readDoctype_entityName_iff.trans ?_⟩
  constructor
  · rintro ⟨index, hlacks, hposition⟩
    exact ⟨index, hlacks, hlacks.no_name, hposition⟩
  · rintro ⟨index, hlacks, -, hposition⟩
    exact ⟨index, hlacks, hposition⟩

/-- The byte that is reported may even begin a name: here it is the first letter of the keyword. -/
theorem missing_entity_name_reported_early :
    ¬ ∀ (offset : Nat) (content : Bytes) (position : Nat),
      readDoctype (offset + content.length) content = .error (.malformed position .entityName) →
        ∃ index, LacksEntityName content index ∧ position = offset + index := by
  intro h
  obtain ⟨index, hlacks, hindex⟩ := h 0 (ascii " r [<!ENTITY  >]") 6 (by decide +kernel)
  obtain rfl : index = 6 := by omega
  exact Bool.noConfusion hlacks.no_name

end XmlStore
