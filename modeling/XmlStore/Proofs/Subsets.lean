import XmlStore.Proofs.Doctypes

/-!
# Items of an internal subset

A grammar of document type declarations that does not know how they are read: each kind of item of
an internal subset with the bytes it may have, and what is kept of it. The reader recovers what the
grammar says, for any items in any order with any white space between them.
-/

namespace XmlStore

-- ---------------------------------------------------------------------------
-- Grammar
-- ---------------------------------------------------------------------------

/-- The text of an item of an internal subset, and what is kept of it. -/
inductive ItemText : Bytes → Option SubsetItem → Prop
  | comment {text : Bytes} (h : ¬ ascii "-->" <:+: text) :
    ItemText (ascii "<!--" ++ text ++ ascii "-->") (some (.comment text))
  /-- The data begins after the white space, and white space or another byte ends the target. -/
  | instruction {target space data : Bytes} (ht : isName target) (hs : IsSpaces space)
    (hdata : ∀ b, data.head? = some b → isSpace b = false) (happart : EndsName (space ++ data))
    (hend : ¬ ascii "?>" <:+: data) :
    ItemText (ascii "<?" ++ target ++ space ++ data ++ ascii "?>")
      (some (.instruction target data))
  /-- After the text of an entity anything quoted may come, as it may after an identifier. -/
  | entity {before name between : Bytes} {quote : UInt8} {text after : Bytes}
    (hbefore : IsSpaces before) (hn : isName name) (hbetween : IsSpaces between)
    (hq : isQuote quote) (ht : quote ∉ text) (hafter : Quoted after) :
    ItemText (ascii "<!ENTITY" ++ before ++ name ++ between ++ quote :: text ++ quote :: after ++
      ascii ">") (some (.entity name text))
  | parameterEntity {before definition : Bytes} (hbefore : IsSpaces before)
    (h : Quoted definition) :
    ItemText (ascii "<!ENTITY" ++ before ++ 0x25 :: definition ++ ascii ">") none
  | externalEntity {before name between after : Bytes} {externalId : ExternalId}
    (hbefore : IsSpaces before) (hn : isName name) (hbetween : IsSpaces between)
    (happart : between ≠ []) (he : externalId.Proper) (hsome : externalId ≠ .nothing)
    (hafter : Quoted after) :
    ItemText (ascii "<!ENTITY" ++ before ++ name ++ between ++ externalId.write ++ after ++
      ascii ">") none
  | declaration {keyword body : Bytes}
    (hk : keyword ∈ [ascii "ELEMENT", ascii "ATTLIST", ascii "NOTATION"]) (h : Quoted body) :
    ItemText (ascii "<!" ++ keyword ++ body ++ ascii ">") none
  | reference {name : Bytes} (h : isName name) : ItemText (ascii "%" ++ name ++ ascii ";") none

/-- The text of an internal subset, and what is kept of its items. -/
inductive SubsetText : Bytes → List SubsetItem → Prop
  | space {space : Bytes} (h : IsSpaces space) : SubsetText space []
  | item {space text rest : Bytes} {item : Option SubsetItem} {items : List SubsetItem}
    (hs : IsSpaces space) (h : ItemText text item) (hrest : SubsetText rest items) :
    SubsetText (space ++ text ++ rest) (item.toList ++ items)

/-- The text of a document type declaration after its keyword and before its end, and what it
says. -/
inductive DoctypeText : Bytes → Doctype → Prop
  | plain {before name gap after : Bytes} {externalId : ExternalId}
    (hbefore : IsSpaces before) (hn : isName name) (hgap : IsSpaces gap)
    (he : externalId.Proper) (happart : gap = [] → externalId = .nothing)
    (hafter : IsSpaces after) :
    DoctypeText (before ++ name ++ gap ++ externalId.write ++ after)
      { name, publicId := externalId.publicId?, systemId := externalId.systemId? }
  | withSubset {before name gap between subset after : Bytes} {externalId : ExternalId}
    {items : List SubsetItem} (hbefore : IsSpaces before) (hn : isName name) (hgap : IsSpaces gap)
    (he : externalId.Proper) (happart : gap = [] → externalId = .nothing)
    (hbetween : IsSpaces between) (hsubset : SubsetText subset items) (hafter : IsSpaces after) :
    DoctypeText
      (before ++ name ++ gap ++ externalId.write ++ between ++ ascii "[" ++ subset ++ ascii "]" ++
        after)
      { name, publicId := externalId.publicId?, systemId := externalId.systemId?, items }

-- ---------------------------------------------------------------------------
-- The parts of a text
-- ---------------------------------------------------------------------------

section
variable {space text rest : Bytes}

theorem QuotedLiteral.Proper.quoted {literal : QuotedLiteral} (h : literal.Proper)
    (hrest : Quoted rest) : Quoted (literal.write ++ rest) := by
  rw [QuotedLiteral.write, List.append_assoc, List.cons_append, List.append_assoc]
  exact .prepend (isInert_spaces h.space) (.literal h.quote h.text hrest)

theorem ExternalId.Proper.quoted {externalId : ExternalId} (h : externalId.Proper)
    (hrest : Quoted rest) : Quoted (externalId.write ++ rest) := by
  cases h with
  | nothing => exact hrest
  | system h =>
    rw [ExternalId.write, List.append_assoc]
    exact .prepend (by decide) (h.quoted hrest)
  | both h h' =>
    rw [ExternalId.write, List.append_assoc, List.append_assoc]
    exact .prepend (by decide) (h.quoted (h'.quoted hrest))

theorem ExternalId.head?_write {externalId : ExternalId} (h : externalId ≠ .nothing)
    (rest : Bytes) :
    (trimStart (externalId.write ++ rest)).head?.any isQuote = false := by
  cases externalId with
  | nothing => exact absurd rfl h
  | system => rfl
  | both => rfl

theorem ascii_brackets : ascii ">" = [0x3E] ∧ ascii "[" = [0x5B] ∧ ascii "]" = [0x5D] :=
  ⟨rfl, rfl, rfl⟩

theorem ascii_entity : ascii "<!ENTITY" = ascii "<!" ++ ascii "ENTITY" := rfl

theorem not_prefix_append {bytes : Bytes} (h : ¬ bytes <+: text) (h' : ¬ text <+: bytes)
    (rest : Bytes) : ¬ bytes <+: text ++ rest := fun hp =>
  (List.prefix_or_prefix_of_prefix hp (List.prefix_append text rest)).elim h h'

theorem infix_spaces_iff {b : UInt8} (hs : IsSpaces space) (hb : isSpace b = false) :
    b :: rest <:+: space ++ text ↔ b :: rest <:+: text := by
  induction space with
  | nil => rfl
  | cons first more ih =>
    obtain ⟨hfirst, hmore⟩ := List.forall_mem_cons.mp hs
    have hne : b ≠ first := by
      rintro rfl
      exact Bool.false_ne_true (hb.symm.trans hfirst)
    simp [List.infix_cons_iff, hne, ih hmore]

namespace SubsetPart

/-- The declaration of an entity of which nothing is kept. -/
theorem proper_entityDeclaration {before : Bytes} (hbefore : IsSpaces before) (h : Quoted rest)
    (hrest : rest.head? = some 0x25 ∨ ∃ name tail, rest = name ++ tail ∧ isName name ∧
      EndsName tail ∧ (trimStart tail).head?.any isQuote = false) :
    (declaration (ascii "ENTITY" ++ before ++ rest)).Proper := by
  refine .declaration ?_ ?_ (.inr ⟨before, rest, rfl, hbefore, hrest⟩)
  · rw [List.append_assoc]
    exact .prepend (by decide) (.prepend (isInert_spaces hbefore) h)
  · rw [List.append_assoc]
    exact not_prefix_append (by decide) (by decide) _

theorem exists_of_itemText {item : Option SubsetItem} (h : ItemText text item) :
    ∃ part : SubsetPart, part.Proper ∧ part.write = text ∧ part.item? = item := by
  cases h with
  | comment h => exact ⟨.comment _, .comment h, rfl, rfl⟩
  | @instruction target space data ht hs hdata happart hend =>
    refine ⟨.instruction target (space ++ data), .instruction ht happart ?_, by simp [write], ?_⟩
    · exact (infix_spaces_iff hs rfl).not.mpr hend
    · rw [item?, trimStart_spaces hs, trimStart_of_head? hdata]
  | @entity before name between quote text after hbefore hn hbetween hq ht hafter =>
    exact ⟨.entity before name between quote text after,
      .entity hbefore hn hbetween hq ht hafter, by simp [write, ascii_brackets], rfl⟩
  -- Parameter entities, external entities and declarations of other things are one kind of part:
  -- the reader looks for nothing in them but their ends.
  | @parameterEntity before definition hbefore h =>
    exact ⟨_, proper_entityDeclaration hbefore (.byte rfl (by decide) h) (.inl rfl),
      by simp [write, ascii_entity, ascii_brackets], rfl⟩
  | @externalEntity before name between after externalId hbefore hn hbetween happart he hsome
      hafter =>
    obtain ⟨b, more, rfl⟩ := List.exists_cons_of_ne_nil happart
    have hquoted : Quoted (name ++ (b :: more ++ (externalId.write ++ after))) :=
      .prepend (isInert_name hn) (.prepend (isInert_spaces hbetween) (he.quoted hafter))
    have hends : EndsName (b :: more ++ (externalId.write ++ after)) :=
      forall_head?_cons (isNameByte_of_isSpace (hbetween b List.mem_cons_self)) _
    refine ⟨_, proper_entityDeclaration hbefore hquoted (.inr ⟨name, _, rfl, hn, hends, ?_⟩),
      by simp [write, ascii_entity, ascii_brackets], rfl⟩
    rw [trimStart_spaces hbetween, ExternalId.head?_write hsome]
  | @declaration keyword body hk h =>
    refine ⟨.declaration (keyword ++ body), ?_, by simp [write, ascii_brackets], rfl⟩
    simp only [List.mem_cons, List.not_mem_nil, or_false] at hk
    rcases hk with rfl | rfl | rfl <;>
      exact .declaration (.prepend (by decide) h)
        (not_prefix_append (by decide) (by decide) body)
        (.inl (not_prefix_append (by decide) (by decide) body))
  | reference h => exact ⟨.reference _, .reference h, rfl, rfl⟩

/-- A subset is written in parts: its items and the white space between them. -/
theorem exists_of_subsetText {items : List SubsetItem} (h : SubsetText text items) :
    ∃ parts : List SubsetPart, (∀ part ∈ parts, part.Proper) ∧ writeAll parts = text ∧
      parts.filterMap item? = items := by
  induction h with
  | @space space h =>
    exact ⟨[.space space], by simpa using .space h, by simp [writeAll, write], rfl⟩
  | @item space text rest item items hs h _ ih =>
    obtain ⟨part, hproper, rfl, rfl⟩ := exists_of_itemText h
    obtain ⟨parts, hparts, rfl, rfl⟩ := ih
    refine ⟨.space space :: part :: parts, ?_, by simp [writeAll, write], ?_⟩
    · simpa using ⟨.space hs, hproper, hparts⟩
    · rw [List.filterMap_cons_none (show item? (.space space) = none from rfl),
        List.filterMap_cons]
      cases part.item? <;> rfl

end SubsetPart

theorem DoctypeText.exists_written {content : Bytes} {d : Doctype} (h : DoctypeText content d) :
    ∃ written : WrittenDoctype, written.Proper ∧ written.body.drop 7 = content ∧
      written.content = d := by
  cases h with
  | @plain before name gap after externalId hbefore hn hgap he happart hafter =>
    refine ⟨{ before, name, gap, externalId, between := after }, ?_, ?_, rfl⟩
    · exact ⟨hbefore, hn, hgap, happart, he, hafter, by simp [WrittenDoctype.parts], by simp⟩
    · show before ++ (name ++ WrittenDoctype.rest _) = _
      simp [WrittenDoctype.rest, WrittenDoctype.writeSubset]
  | @withSubset before name gap between subset after externalId items hbefore hn hgap he happart
      hbetween hsubset hafter =>
    obtain ⟨parts, hparts, rfl, rfl⟩ := SubsetPart.exists_of_subsetText hsubset
    refine ⟨{ before, name, gap, externalId, between, subset := some (parts, after) }, ?_, ?_, rfl⟩
    · exact ⟨hbefore, hn, hgap, happart, he, hbetween, by simpa [WrittenDoctype.parts], by simpa⟩
    · show before ++ (name ++ WrittenDoctype.rest _) = _
      simp [WrittenDoctype.rest, WrittenDoctype.writeSubset, ascii_brackets]

/-- The reader recovers a declaration of the grammar, at whatever position it stands. -/
theorem DoctypeText.readDoctype_eq {content : Bytes} {d : Doctype} (h : DoctypeText content d)
    (offset : Nat) : readDoctype (offset + content.length) content = .ok d := by
  obtain ⟨written, hproper, rfl, rfl⟩ := h.exists_written
  exact WrittenDoctype.readDoctype_write hproper _

/-- Brackets, quotes and ends of markup in an identifier, a default, a comment, an instruction and
the text of an entity. -/
theorem DoctypeText.hidden_ends_recovered :
    let content := ascii ("r SYSTEM ']>'[<!ATTLIST r ']>'>\n<!--]>'--><?p ]>\"?>" ++
      "<!ENTITY e \"]>'\"> %q;]")
    let d : Doctype :=
      { name := ascii "r", systemId := some (ascii "]>")
        items := [.comment (ascii "]>'"), .instruction (ascii "p") (ascii "]>\""),
          .entity (ascii "e") (ascii "]>'")] }
    DoctypeText content d ∧ readDoctype (9 + content.length) content = .ok d := by
  intro content d
  have hattributes : ItemText (ascii "<!ATTLIST r ']>'>") none :=
    @ItemText.declaration (ascii "ATTLIST") _ (by decide)
      (.prepend (by decide : IsInert (ascii " r "))
        (.literal rfl (by decide : (0x27 : UInt8) ∉ ascii "]>") .nil))
  have hcomment : ItemText (ascii "<!--]>'-->") (some (.comment (ascii "]>'"))) :=
    @ItemText.comment (ascii "]>'") (by decide)
  have hinstruction : ItemText (ascii "<?p ]>\"?>")
      (some (.instruction (ascii "p") (ascii "]>\""))) :=
    @ItemText.instruction (ascii "p") (ascii " ") (ascii "]>\"") (by decide) (by decide)
      (forall_head?_cons (by decide) _) (forall_head?_cons (by decide) _) (by decide)
  have hentity : ItemText (ascii "<!ENTITY e \"]>'\">")
      (some (.entity (ascii "e") (ascii "]>'"))) :=
    @ItemText.entity (ascii " ") (ascii "e") (ascii " ") 0x22 (ascii "]>'") [] (by decide)
      (by decide) (by decide) (by decide) (by decide) .nil
  have hreference : ItemText (ascii "%q;") none := @ItemText.reference (ascii "q") (by decide)
  have hspace : IsSpaces [] := by decide
  have hsubset := SubsetText.item hspace hattributes
    (.item (by decide : IsSpaces (ascii "\n")) hcomment
      (.item hspace hinstruction (.item hspace hentity
        (.item (by decide : IsSpaces (ascii " ")) hreference (.space hspace)))))
  have h : DoctypeText content d :=
    @DoctypeText.withSubset [] (ascii "r") (ascii " ") [] _ []
      (.system ⟨ascii " ", 0x27, ascii "]>"⟩) _ hspace (by decide) (by decide)
      (.system ⟨by decide, by decide, by decide⟩) (fun hgap => absurd hgap (by decide)) hspace
      hsubset hspace
  exact ⟨h, h.readDoctype_eq 9⟩

end

end XmlStore
