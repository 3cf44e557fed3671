import XmlStore.Proofs.Doctypes
import XmlStore.Proofs.Naming

/-!
# Texts of attributes

A grammar of the attributes of a tag, and what their values stand for when they are decoded one
after the other on the budget of the document. The reader takes exactly the texts of the grammar
whose values can be decoded, and gives what they stand for.
-/

namespace XmlStore

-- ---------------------------------------------------------------------------
-- Grammar
-- ---------------------------------------------------------------------------

/-- The text of an attribute from its name on, and the attribute with its value as it is written.
The name is as long as it can be, for neither white space nor the equals sign goes on with it. -/
inductive AttributeText : Bytes → Attribute → Prop
  | mk {name before after value : Bytes} {quote : UInt8} (hn : isName name)
    (hbefore : IsSpaces before) (hafter : IsSpaces after) (hq : isQuote quote)
    (hv : quote ∉ value) (hless : 0x3C ∉ value) :
    AttributeText (name ++ before ++ 0x3D :: after ++ quote :: value ++ [quote]) ⟨name, value⟩

/-- The text of any number of attributes. There may be white space before each of them and after
the last one, but there has to be none. -/
inductive AttributesText : Bytes → List Attribute → Prop
  | nil {space : Bytes} (h : IsSpaces space) : AttributesText space []
  | cons {space text rest : Bytes} {att : Attribute} {others : List Attribute}
    (hs : IsSpaces space) (h : AttributeText text att) (hrest : AttributesText rest others) :
    AttributesText (space ++ text ++ rest) (att :: others)

/-- Decoding values from left to right, each with its white space normalised: the attributes as
they are written, with what their values stand for, and the entities before and after. -/
inductive Decodes : Entities → List Attribute → List Attribute → Entities → Prop
  | nil {entities : Entities} : Decodes entities [] [] entities
  | cons {entities later : Entities} {att : Attribute} {rest decoded : List Attribute}
    {expansion : Expansion} (he : entities.expandText (spaced att.value) = expansion)
    (hf : expansion.fault = none) (h : Decodes (entities.after expansion) rest decoded later) :
    Decodes entities (att :: rest) (⟨att.name, expansion.output⟩ :: decoded) later

-- ---------------------------------------------------------------------------
-- Reading
-- ---------------------------------------------------------------------------

section
variable {stop : Nat} {text rest : Bytes}

theorem AttributeText.readAttribute_eq {att : Attribute} (h : AttributeText text att)
    (rest : Bytes) : readAttribute stop (text ++ rest) = .ok (att, rest) := by
  obtain @⟨name, before, after, value, quote, hn, hbefore, hafter, hq, hv, hless⟩ := h
  have hname {tail : Bytes} : readName? (name ++ (before ++ 0x3D :: tail)) =
      some (name, before ++ 0x3D :: tail) :=
    readName?_append hn (endsName_spaces hbefore (forall_head?_cons (by decide) _))
  have hequals {tail : Bytes} : trimStart (before ++ 0x3D :: tail) = 0x3D :: tail :=
    trimStart_spaces hbefore _
  have hopen {tail : Bytes} : trimStart (after ++ quote :: tail) = quote :: tail := by
    rw [trimStart_spaces hafter, trimStart_quote hq]
  have hvalue : value.contains 0x3C = false := by simpa using hless
  simp only [List.append_assoc, List.cons_append, List.nil_append]
  simp only [readAttribute, hname, hequals, hopen, hq, cutAt?_quote hv, hvalue, Bool.false_eq_true,
    ↓reduceIte]

/-- What is read as an attribute is the text of one. -/
theorem exists_attributeText {att : Attribute} (h : readAttribute stop text = .ok (att, rest)) :
    ∃ front, AttributeText front att ∧ text = front ++ rest := by
  unfold readAttribute at h
  split at h
  next => cases h
  next name afterName hname =>
    obtain ⟨hn, rfl, -⟩ := readName?_eq_some_iff.mp hname
    split at h
    next afterEquals hequals =>
      obtain ⟨before, hbefore, hsplit⟩ := exists_spaces afterName
      rw [hequals] at hsplit
      split at h
      next => cases h
      next quote quoted hquoted =>
        obtain ⟨after, hafter, hsplit'⟩ := exists_spaces afterEquals
        rw [hquoted] at hsplit'
        split at h
        next hq =>
          split at h
          next => cases h
          next value tail hcut =>
            obtain ⟨b, hb, rfl, hv⟩ := cutAt?_append hcut
            obtain rfl := eq_of_beq hb
            split at h
            next => cases h
            next hless =>
              cases h
              refine ⟨_, .mk hn hbefore hafter hq (fun hm => ?_) (by simpa using hless), ?_⟩
              · simpa using hv b hm
              · simp [hsplit, hsplit']
        next => cases h
    next => cases h

theorem AttributeText.trimStart_eq {att : Attribute} (h : AttributeText text att) (rest : Bytes) :
    trimStart (text ++ rest) = text ++ rest ∧ text ++ rest ≠ [] := by
  obtain ⟨hn, -⟩ := h
  obtain ⟨b, tail, rfl, -⟩ := exists_cons_of_isName hn
  simp only [List.append_assoc]
  exact ⟨trimStart_name hn, by simp⟩

/-- All of a text is read if it is one of the grammar, and then its attributes are found. -/
theorem rawAttributes_eq_iff {raw : List Attribute} :
    rawAttributes stop text = (raw, none) ↔ AttributesText text raw := by
  constructor
  · intro h
    fun_induction rawAttributes stop text generalizing raw with
    | case1 text hs =>
      cases h
      obtain ⟨space, hspace, hsplit⟩ := exists_spaces text
      rw [hs, List.append_nil] at hsplit
      exact .nil (hsplit ▸ hspace)
    | case2 => cases h
    | case3 text b more hs att rest hr others =>
      rename_i ih
      obtain ⟨rfl, hnone⟩ := Prod.mk.inj h
      obtain ⟨space, hspace, hsplit⟩ := exists_spaces text
      obtain ⟨front, hfront, hmore⟩ := exists_attributeText hr
      rw [hs, hmore, ← List.append_assoc] at hsplit
      rw [hsplit]
      exact .cons hspace hfront (ih (Prod.ext rfl hnone))
  · intro h
    induction h with
    | @nil space h =>
      have htrim : trimStart space = [] := List.dropWhile_eq_nil_iff.mpr h
      rw [rawAttributes]
      split
      next => rfl
      next hcons => cases htrim.symm.trans hcons
    | @cons space text rest att others hs h _ ih =>
      obtain ⟨htrim, hne⟩ := h.trimStart_eq rest
      rw [List.append_assoc, rawAttributes_cons ((trimStart_spaces hs _).trans htrim) hne
        (h.readAttribute_eq rest), ih]

end

variable {entities later : Entities} {attributes : List Attribute}

theorem decodeAttributes_eq_iff {raw : List Attribute} :
    decodeAttributes entities raw = (later, .ok attributes) ↔
      Decodes entities raw attributes later := by
  constructor
  · intro h
    fun_induction decodeAttributes entities raw generalizing attributes with
    | case1 =>
      obtain ⟨rfl, hnil⟩ := Prod.mk.inj h
      cases hnil
      exact .nil
    | case2 => cases (Prod.mk.inj h).2
    | case3 entities att rest expansion later hf others =>
      rename_i ih
      obtain ⟨rfl, hdecoded⟩ := Prod.mk.inj h
      obtain ⟨decoded, hothers, rfl⟩ := Reading.map_eq_ok hdecoded
      exact .cons rfl hf (ih (Prod.ext rfl hothers))
  · intro h
    induction h with
    | nil => rfl
    | cons he hf _ ih => simp only [decodeAttributes, he, hf, ih, Except.map]

/-- Attributes are read from a text, at whatever position it ends, just if the grammar divides it
into attributes whose values can be decoded in order. They are those of the grammar, with what
their values stand for, and the budget is what decoding them leaves. -/
theorem readAttributes_eq_ok_iff {stop : Nat} {text : Bytes} :
    readAttributes entities stop text = (later, .ok attributes) ↔
      ∃ raw, AttributesText text raw ∧ Decodes entities raw attributes later := by
  simp only [← @rawAttributes_eq_iff stop, ← decodeAttributes_eq_iff, readAttributes]
  generalize rawAttributes stop text = found
  obtain ⟨raw, fault⟩ := found
  cases fault with
  | none => simp [Prod.ext_iff]
  | some fault =>
    cases (decodeAttributes entities raw).2 <;> simp [Prod.ext_iff]

end XmlStore
