import XmlStore.Proofs.Slices
import XmlStore.Proofs.Subsets

/-!
# Delimiters that overlap

An item `<?>` of an internal subset is the only text that reading with a position cannot get over.
Which declarations have one where an item is read is told by a grammar of complete items. All other
declarations are read, into pieces of their content, or have a fault at a position of the content.
-/

namespace XmlStore

-- ---------------------------------------------------------------------------
-- Grammar
-- ---------------------------------------------------------------------------

/-- A text begins with a complete item of an internal subset, and this follows it. -/
inductive TakesItem : Bytes → Bytes → Prop
  | comment {text rest : Bytes} (h : ¬ ascii "-->" <:+: text) :
    TakesItem (ascii "<!--" ++ text ++ ascii "-->" ++ rest) rest
  | instruction {b : UInt8} {body rest : Bytes} (hb : isNameStart b)
    (h : ¬ ascii "?>" <:+: b :: body) :
    TakesItem (ascii "<?" ++ b :: body ++ ascii "?>" ++ rest) rest
  /-- The name of the entity begins with `b`, or the percent sign that stands before it. -/
  | entity {before definition rest : Bytes} {b : UInt8} (hbefore : IsSpaces before)
    (hb : b = 0x25 ∨ isNameStart b) (h : Quoted (b :: definition)) :
    TakesItem (ascii "<!ENTITY" ++ before ++ b :: definition ++ ascii ">" ++ rest) rest
  | declaration {body rest : Bytes} (hc : ¬ ascii "--" <+: body) (he : ¬ ascii "ENTITY" <+: body)
    (h : Quoted body) : TakesItem (ascii "<!" ++ body ++ ascii ">" ++ rest) rest
  | reference {name rest : Bytes} (h : 0x3B ∉ name) :
    TakesItem (ascii "%" ++ name ++ ascii ";" ++ rest) rest
  /-- A reference that is not closed is complete where the subset ends. -/
  | openReference {name : Bytes} (h : 0x3B ∉ name) : TakesItem (ascii "%" ++ name) []

/-- What is left of a subset after any number of complete items and any white space. -/
inductive Leaves : Bytes → Bytes → Prop
  | all (text : Bytes) : Leaves text text
  | space {b : UInt8} {text rest : Bytes} (hb : isSpace b) (h : Leaves text rest) :
    Leaves (b :: text) rest
  | item {text more rest : Bytes} (h : TakesItem text more) (hmore : Leaves more rest) :
    Leaves text rest

/-- The content of a declaration with an internal subset, which reaches to the last closing
bracket. -/
inductive HoldsSubset : Bytes → Bytes → Prop
  | mk {before name gap between subset after : Bytes} {externalId : ExternalId}
    (hbefore : IsSpaces before) (hn : isName name) (hgap : IsSpaces gap) (he : externalId.Proper)
    (happart : gap = [] → externalId = .nothing) (hbetween : IsSpaces between)
    (hafter : 0x5D ∉ after) :
    HoldsSubset
      (before ++ name ++ gap ++ externalId.write ++ between ++ ascii "[" ++ subset ++ ascii "]" ++
        after) subset

/-- What stands before an internal subset, with the bracket that opens it. -/
inductive OpensSubset : Bytes → Prop
  | mk {before name gap between : Bytes} {externalId : ExternalId} (hbefore : IsSpaces before)
    (hn : isName name) (hgap : IsSpaces gap) (he : externalId.Proper)
    (happart : gap = [] → externalId = .nothing) (hbetween : IsSpaces between) :
    OpensSubset (before ++ name ++ gap ++ externalId.write ++ between ++ ascii "[")

/-- A literal is not there, or does not end. -/
inductive LiteralFault : Error → Prop
  | missing (position : Nat) : LiteralFault (.malformed position .missingLiteral)
  | unterminated (position : Nat) : LiteralFault (.malformed position .unterminatedLiteral)

/-- An item is not complete, or is none at all. -/
inductive ItemFault : Fault → Prop
  | comment : ItemFault .unterminatedComment
  | instruction : ItemFault .unterminatedInstruction
  | target : ItemFault .instructionTarget
  | entity : ItemFault .unterminatedEntityDeclaration
  | declaration : ItemFault .unterminatedDeclaration
  | content : ItemFault .unexpectedSubsetContent

/-- What is kept of an item stands in a text. -/
def SubsetItem.PiecesOf (text : Bytes) : SubsetItem → Prop
  | .entity name value => name <:+: text ∧ value <:+: text
  | .comment told => told <:+: text
  | .instruction target data => target <:+: text ∧ data <:+: text

/-- What is kept of a declaration stands in its content. -/
structure Doctype.PiecesOf (content : Bytes) (d : Doctype) : Prop where
  name : d.name <:+: content
  publicId : ∀ text ∈ d.publicId, text <:+: content
  systemId : ∀ text ∈ d.systemId, text <:+: content
  items : ∀ item ∈ d.items, item.PiecesOf content

-- ---------------------------------------------------------------------------
-- Items
-- ---------------------------------------------------------------------------

section
variable {stop : Nat} {text rest content : Bytes}

theorem SubsetItem.PiecesOf.mono {item : SubsetItem} (h : item.PiecesOf text)
    (ht : text <:+: content) : item.PiecesOf content := by
  cases item with
  | entity => exact ⟨h.1.trans ht, h.2.trans ht⟩
  | comment => exact h.trans ht
  | instruction => exact ⟨h.1.trans ht, h.2.trans ht⟩

theorem trimStart_within (text : Bytes) : trimStart text <:+: text :=
  (List.dropWhile_suffix isSpace).isInfix

theorem cut?_within {delimiter before after : Bytes}
    (h : cut? delimiter text = some (before, after)) : before <:+: text := by
  rw [cut?_append h, List.append_assoc]
  exact (List.prefix_append before _).isInfix

theorem QuotedLiteral.text_within (literal : QuotedLiteral) : literal.text <:+: literal.write :=
  ⟨literal.space ++ [literal.quote], [literal.quote], by simp [QuotedLiteral.write]⟩

theorem exists_readName? {b : UInt8} (h : isNameStart b) (more : Bytes) :
    ∃ name rest, b :: more = name ++ rest ∧ isName name ∧ EndsName rest ∧
      readName? (b :: more) = some (name, rest) := by
  have hname : readName? (b :: more) = some (spanName (b :: more)) := if_pos h
  obtain ⟨hn, hsplit, hends⟩ := readName?_eq_some_iff.mp hname
  exact ⟨_, _, hsplit, hn, hends, hname⟩

theorem exists_readLiteral (hq : text.head?.any isQuote) (h : Quoted text) :
    ∃ found, readLiteral stop text = .ok found := by
  cases h with
  | nil => cases hq
  | byte hb => cases hq.symm.trans hb
  | @literal quote value rest hquote hv _ =>
    have hspaces : IsSpaces [] := List.forall_mem_nil _
    exact ⟨_, readLiteral_quoted hspaces hquote hv rest⟩

theorem exists_readEntity {before definition : Bytes} {b : UInt8} (hbefore : IsSpaces before)
    (hb : b = 0x25 ∨ isNameStart b) (h : Quoted (b :: definition)) :
    ∃ item, readEntity stop (before ++ b :: definition) = .ok item := by
  rcases hb with rfl | hb
  · have htrim : trimStart (before ++ 0x25 :: definition) = 0x25 :: definition :=
      trimStart_spaces hbefore _
    exact ⟨none, by rw [readEntity, htrim]; rfl⟩
  · obtain ⟨name, rest, hsplit, hn, -, hname⟩ := exists_readName? hb definition
    have hhead := head?_name_ne hn (by decide : isNameByte 0x25 = false) rest
    obtain ⟨space, hspace, hrest⟩ := exists_spaces rest
    rw [readEntity, trimStart_spaces hbefore, hsplit, trimStart_name hn, if_neg hhead, ← hsplit,
      hname]
    simp only
    split
    next hquote =>
      have hquoted : Quoted (trimStart rest) := by
        rw [hsplit, hrest] at h
        exact (h.of_prepend (isInert_name hn)).of_prepend (isInert_spaces hspace)
      obtain ⟨literal, hliteral⟩ := @exists_readLiteral stop _ hquote hquoted
      exact ⟨_, by rw [hliteral]; rfl⟩
    next => exact ⟨none, rfl⟩

theorem exists_of_readEntity {body : Bytes} {item : Option SubsetItem}
    (h : readEntity stop body = .ok item) :
    ∃ before b definition, body = before ++ b :: definition ∧ IsSpaces before ∧
      (b = 0x25 ∨ isNameStart b) := by
  obtain ⟨before, hbefore, hbody⟩ := exists_spaces body
  unfold readEntity at h
  simp only at h
  split at h
  next hhead =>
    obtain ⟨definition, hdefinition⟩ := List.head?_eq_some_iff.mp hhead
    exact ⟨before, 0x25, definition, hdefinition ▸ hbody, hbefore, .inl rfl⟩
  next =>
    split at h
    next => cases h
    next name rest hname =>
      obtain ⟨hn, hsplit, -⟩ := readName?_eq_some_iff.mp hname
      obtain ⟨b, tail, rfl, hb⟩ := exists_cons_of_isName hn
      rw [hsplit] at hbody
      exact ⟨before, b, tail ++ rest, hbody, hbefore, .inr hb⟩

theorem readEntity_pieces {item : SubsetItem} (h : readEntity stop text = .ok (some item)) :
    item.PiecesOf text := by
  unfold readEntity at h
  simp only at h
  split at h
  next => cases h
  split at h
  next => cases h
  next name rest hname =>
    obtain ⟨-, hsplit, -⟩ := readName?_eq_some_iff.mp hname
    have hall := trimStart_within text
    rw [hsplit] at hall
    split at h
    next =>
      obtain ⟨found, hliteral, hitem⟩ := Reading.map_eq_ok h
      obtain ⟨literal, -, hvalue, hmore⟩ := WrittenDoctype.exists_quotedLiteral hliteral
      have hwrite : literal.write <:+: trimStart rest :=
        hmore ▸ (List.prefix_append literal.write found.2).isInfix
      have hrest := (trimStart_within rest).trans (List.suffix_append name rest).isInfix
      cases hitem
      refine ⟨(List.prefix_append name rest).isInfix.trans hall, ?_⟩
      exact hvalue ▸ literal.text_within.trans (hwrite.trans (hrest.trans hall))
    next => cases h

theorem takes_comment {tail told : Bytes} (h : cut? (ascii "-->") tail = some (told, rest)) :
    TakesItem (ascii "<!--" ++ tail) rest ∧
      SubsetItem.PiecesOf (ascii "<!--" ++ tail) (.comment told) := by
  constructor
  · rw [cut?_append h]
    simpa only [List.append_assoc] using TakesItem.comment (not_infix_of_cut? (by decide) h)
  · exact (cut?_within h).trans (List.suffix_append _ tail).isInfix

theorem takes_instruction {tail body target data : Bytes}
    (h : cut? (ascii "?>") tail = some (body, rest))
    (hname : readName? body = some (target, data)) :
    TakesItem (ascii "<?" ++ tail) rest ∧
      SubsetItem.PiecesOf (ascii "<?" ++ tail) (.instruction target (trimStart data)) := by
  obtain ⟨hn, rfl, -⟩ := readName?_eq_some_iff.mp hname
  constructor
  · obtain ⟨b, more, rfl, hb⟩ := exists_cons_of_isName hn
    have hend : ¬ ascii "?>" <:+: b :: (more ++ data) := not_infix_of_cut? (by decide) h
    rw [cut?_append h]
    simpa using TakesItem.instruction hb hend
  · have hbody := (cut?_within h).trans (List.suffix_append (ascii "<?") tail).isInfix
    exact ⟨(List.prefix_append target data).isInfix.trans hbody,
      (trimStart_within data).trans ((List.suffix_append target data).isInfix.trans hbody)⟩

theorem takes_entityDeclaration {tail body : Bytes} {item : Option SubsetItem}
    (h : cutUnquoted? none tail = some (body, rest)) (hread : readEntity stop body = .ok item) :
    TakesItem (ascii "<!ENTITY" ++ tail) rest ∧
      ∀ found ∈ item, found.PiecesOf (ascii "<!ENTITY" ++ tail) := by
  have hquoted : Quoted body := quoted_of_cut (by simp) h
  rw [cutUnquoted?_append h]
  constructor
  · obtain ⟨before, b, definition, rfl, hbefore, hb⟩ := exists_of_readEntity hread
    simpa [ascii_brackets] using
      TakesItem.entity hbefore hb (hquoted.of_prepend (isInert_spaces hbefore))
  · rintro found rfl
    exact (readEntity_pieces hread).mono ⟨ascii "<!ENTITY", 0x3E :: rest, by simp⟩

theorem takes_declaration {tail body : Bytes} (h : cutUnquoted? none tail = some (body, rest))
    (hc : ¬ ascii "<!--" <+: ascii "<!" ++ tail)
    (he : ¬ ascii "<!ENTITY" <+: ascii "<!" ++ tail) : TakesItem (ascii "<!" ++ tail) rest := by
  rw [cutUnquoted?_append h] at hc he ⊢
  have hstarts {keyword : Bytes} (hk : keyword <+: body) :
      ascii "<!" ++ keyword <+: ascii "<!" ++ (body ++ 0x3E :: rest) :=
    (List.prefix_append_right_inj _).mpr (hk.trans (List.prefix_append body _))
  have hitem : TakesItem (ascii "<!" ++ body ++ ascii ">" ++ rest) rest :=
    .declaration (fun hk => hc (hstarts hk)) (fun hk => he (hstarts hk)) (quoted_of_cut (by simp) h)
  simpa [ascii_brackets] using hitem

theorem takes_reference {tail : Bytes} {item : Option SubsetItem}
    (h : readItem stop (0x25 :: tail) = .ok (item, rest)) :
    TakesItem (0x25 :: tail) rest ∧ item = none := by
  rw [SubsetPart.readItem_percent] at h
  cases hcut : cutAt? (· == 0x3B) tail with
  | none =>
    rw [hcut] at h
    cases h
    refine ⟨.openReference fun hm => ?_, rfl⟩
    exact Bool.false_ne_true (cutAt?_eq_none_iff.mp hcut _ hm).symm
  | some found =>
    obtain ⟨name, more⟩ := found
    rw [hcut] at h
    cases h
    obtain ⟨b, hb, rfl, hname⟩ := cutAt?_append hcut
    obtain rfl := eq_of_beq hb
    have hitem : TakesItem (ascii "%" ++ name ++ ascii ";" ++ more) more :=
      .reference fun hm => Bool.false_ne_true (hname _ hm).symm
    rw [List.append_assoc] at hitem
    exact ⟨hitem, rfl⟩

/-- What is read as an item is complete, and what is kept of it stands in the text. -/
theorem readItem_takes {item : Option SubsetItem} (h : readItem stop text = .ok (item, rest)) :
    TakesItem text rest ∧ ∀ found ∈ item, found.PiecesOf text := by
  by_cases hhead : text.head? = some 0x25
  · obtain ⟨tail, rfl⟩ := List.head?_eq_some_iff.mp hhead
    obtain ⟨htaken, rfl⟩ := takes_reference h
    exact ⟨htaken, by rintro _ ⟨⟩⟩
  unfold readItem failAtStart at h
  simp only [List.isPrefixOf_iff_prefix, hhead, ↓reduceIte] at h
  by_cases hcomment : ascii "<!--" <+: text
  · rw [if_pos hcomment] at h
    obtain ⟨tail, rfl⟩ := hcomment
    split at h
    next => cases h
    next hcut =>
      cases h
      obtain ⟨htaken, hpieces⟩ := takes_comment hcut
      exact ⟨htaken, by rintro _ ⟨⟩; exact hpieces⟩
  rw [if_neg hcomment] at h
  by_cases hshared : ascii "<?>" <+: text
  · rw [if_pos hshared] at h
    cases h
  rw [if_neg hshared] at h
  by_cases hopen : ascii "<?" <+: text
  · rw [if_pos hopen] at h
    obtain ⟨tail, rfl⟩ := hopen
    split at h
    next => cases h
    next hcut =>
      split at h
      next => cases h
      next hname =>
        cases h
        obtain ⟨htaken, hpieces⟩ := takes_instruction hcut hname
        exact ⟨htaken, by rintro _ ⟨⟩; exact hpieces⟩
  rw [if_neg hopen] at h
  by_cases hentity : ascii "<!ENTITY" <+: text
  · rw [if_pos hentity] at h
    obtain ⟨tail, rfl⟩ := hentity
    split at h
    next => cases h
    next hcut =>
      split at h
      next => cases h
      next hread =>
        cases h
        exact takes_entityDeclaration hcut hread
  rw [if_neg hentity] at h
  by_cases hother : ascii "<!" <+: text
  · rw [if_pos hother] at h
    obtain ⟨tail, rfl⟩ := hother
    split at h
    next => cases h
    next hcut =>
      cases h
      exact ⟨takes_declaration hcut hcomment hentity, by rintro _ ⟨⟩⟩
  rw [if_neg hother] at h
  cases h

theorem exists_readItem_iff :
    (∃ item, readItem stop text = .ok (item, rest)) ↔ TakesItem text rest := by
  constructor
  · rintro ⟨item, h⟩
    exact (readItem_takes h).1
  · intro h
    cases h with
    | @comment text _ h => exact ⟨_, SubsetPart.readItem_comment h rest⟩
    | @instruction b body _ hb h =>
      obtain ⟨target, data, hsplit, ht, hdata, -⟩ := exists_readName? hb body
      have hend : ¬ ascii "?>" <:+: data := fun hi =>
        h (hsplit ▸ hi.trans (List.suffix_append target data).isInfix)
      rw [hsplit, ← List.append_assoc]
      exact ⟨_, SubsetPart.readItem_instruction ht hdata hend rest⟩
    | @entity before definition _ b hbefore hb h =>
      obtain ⟨item, hitem⟩ := exists_readEntity hbefore hb h
      have hquoted : Quoted (before ++ b :: definition) := .prepend (isInert_spaces hbefore) h
      have hread := @SubsetPart.readItem_entityDeclaration stop _ hquoted item hitem rest
      refine ⟨item, ?_⟩
      simpa [ascii_brackets] using hread
    | @declaration body _ hc he h =>
      exact ⟨_, SubsetPart.readItem_declaration h hc (.inl he) rest⟩
    | @reference name _ h => exact ⟨_, SubsetPart.readItem_reference h rest⟩
    | @openReference name h =>
      have hcut : cutAt? (· == 0x3B) name = none := cutAt?_eq_none_iff.mpr fun b hb =>
        beq_eq_false_iff_ne.mpr (ne_of_mem_of_not_mem hb h)
      refine ⟨none, ?_⟩
      change readItem stop (0x25 :: name) = _
      rw [SubsetPart.readItem_percent, hcut]
      rfl

theorem readLiteral_fault {e : Error} (h : readLiteral stop text = .error e) : LiteralFault e := by
  unfold readLiteral at h
  split at h
  next =>
    cases h
    exact .missing _
  split at h
  next =>
    split at h <;> cases h
    exact .unterminated _
  next =>
    cases h
    exact .missing _

theorem readEntity_fault {e : Error} (h : readEntity stop text = .error e) :
    LiteralFault e ∨ e = .malformed (stop - (trimStart text).length) .entityName := by
  unfold readEntity at h
  simp only at h
  split at h
  next => cases h
  split at h
  next =>
    cases h
    exact .inr rfl
  next name rest _ =>
    split at h
    next =>
      cases hliteral : readLiteral stop (trimStart rest) with
      | error fault =>
        rw [hliteral] at h
        cases h
        exact .inl (readLiteral_fault hliteral)
      | ok found =>
        rw [hliteral] at h
        cases h
    next => cases h

/-- An item that cannot be read to its end is reported where it begins, and a declaration of an
entity that is complete where its body is at fault. -/
theorem readItem_fault {e : Error} (h : readItem stop text = .error e) :
    (ascii "<?>" <+: text ∧ e = .sharedDelimiter) ∨
    (∃ kind, ItemFault kind ∧ e = .malformed (stop - text.length) kind) ∨
    ∃ body rest fault, text = ascii "<!ENTITY" ++ body ++ 0x3E :: rest ∧ Quoted body ∧
      readEntity body.length body = .error fault ∧ e = fault.shift (stop - text.length) := by
  have hstart {kind : Fault} (hk : ItemFault kind)
      (he : (failAtStart stop text kind : Except Error (Option SubsetItem × Bytes)) = .error e) :
      ∃ kind, ItemFault kind ∧ e = .malformed (stop - text.length) kind :=
    ⟨kind, hk, (Except.error.inj he).symm⟩
  unfold readItem at h
  split at h
  next => split at h <;> first | exact .inr (.inl (hstart .comment h)) | cases h
  split at h
  next hshared =>
    cases h
    exact .inl ⟨List.isPrefixOf_iff_prefix.mp hshared, rfl⟩
  split at h
  next =>
    split at h
    next => exact .inr (.inl (hstart .instruction h))
    next => split at h <;> first | exact .inr (.inl (hstart .target h)) | cases h
  split at h
  next hentity =>
    obtain ⟨tail, rfl⟩ := List.isPrefixOf_iff_prefix.mp hentity
    split at h
    next => exact .inr (.inl (hstart .entity h))
    next body rest hcut =>
      have hcut : cutUnquoted? none tail = some (body, rest) := hcut
      split at h
      next fault hread =>
        cases h
        exact .inr (.inr ⟨body, rest, fault,
          by rw [cutUnquoted?_append hcut, List.append_assoc], quoted_of_cut (by simp) hcut,
          hread, rfl⟩)
      next => cases h
  split at h
  next => split at h <;> first | exact .inr (.inl (hstart .declaration h)) | cases h
  split at h
  next => split at h <;> cases h
  next => exact .inr (.inl (hstart .content h))

/-- Delimiters overlap only in an item that is empty but for them. -/
theorem readItem_shared_iff :
    readItem stop text = .error .sharedDelimiter ↔ ascii "<?>" <+: text := by
  constructor
  · intro h
    rcases readItem_fault h with ⟨hshared, -⟩ | ⟨_, -, he⟩ | ⟨_, _, fault, -, -, hread, he⟩
    · exact hshared
    · cases he
    · rcases readEntity_fault hread with hliteral | rfl
      · cases hliteral <;> cases he
      · cases he
  · rintro ⟨tail, rfl⟩
    rfl

theorem TakesItem.trimStart_eq (h : TakesItem text rest) : trimStart text = text ∧ text ≠ [] := by
  cases h <;> exact ⟨rfl, List.cons_ne_nil _ _⟩

theorem TakesItem.suffix (h : TakesItem text rest) : rest <:+ text := by
  cases h with
  | openReference => exact List.nil_suffix
  | _ => exact List.suffix_append _ _

theorem Leaves.suffix (h : Leaves text rest) : rest <:+ text := by
  induction h with
  | all => exact List.suffix_rfl
  | space _ _ ih => exact ih.trans (List.suffix_cons _ _)
  | item h _ ih => exact ih.trans h.suffix

theorem Leaves.trimStart (text : Bytes) : Leaves text (trimStart text) := by
  induction text with
  | nil => exact .all []
  | cons b more ih =>
    by_cases hb : isSpace b
    · rw [XmlStore.trimStart, List.dropWhile_cons_of_pos hb]
      exact .space hb ih
    · rw [XmlStore.trimStart, List.dropWhile_cons_of_neg hb]
      exact .all _

theorem Leaves.trans {more : Bytes} (h : Leaves text more) (h' : Leaves more rest) :
    Leaves text rest := by
  induction h with
  | all => exact h'
  | space hb _ ih => exact .space hb (ih h')
  | item h _ ih => exact .item h (ih h')

theorem readItems_succ_error_iff {fuel : Nat} {e : Error} :
    readItems stop (fuel + 1) text = .error e ↔
      XmlStore.trimStart text ≠ [] ∧ (readItem stop (XmlStore.trimStart text) = .error e ∨
        ∃ item more, readItem stop (XmlStore.trimStart text) = .ok (item, more) ∧
          readItems stop fuel more = .error e) := by
  rw [readItems]
  simp only
  split
  next hnil => simp [List.isEmpty_iff.mp hnil]
  next hne =>
    have hne : XmlStore.trimStart text ≠ [] := fun hnil => hne (List.isEmpty_iff.mpr hnil)
    simp [bind_eq_error_iff, pure, Except.pure, hne]

/-- The reader of a subset fails just where complete items and white space lead to an item that is
not read. -/
theorem readItems_error_iff {fuel : Nat} {e : Error} (hf : text.length ≤ fuel) :
    readItems stop fuel text = .error e ↔
      ∃ rest, Leaves text rest ∧ rest ≠ [] ∧ XmlStore.trimStart rest = rest ∧
        readItem stop rest = .error e := by
  constructor
  · intro h
    induction fuel generalizing text with
    | zero => cases h
    | succ fuel ih =>
      have hlength := length_trimStart_le text
      obtain ⟨hne, hitem | ⟨item, more, hitem, hmore⟩⟩ := readItems_succ_error_iff.mp h
      · exact ⟨_, .trimStart text, hne, List.dropWhile_idempotent isSpace text, hitem⟩
      · have htaken := (readItem_takes hitem).1
        have hless := (readItem_sound htaken.trimStart_eq.2 hitem).1
        obtain ⟨rest, hleaves, hrest⟩ := ih (by omega) hmore
        exact ⟨rest, (Leaves.trimStart text).trans (.item htaken hleaves), hrest⟩
  · rintro ⟨rest, h, hne, htrim, he⟩
    induction h generalizing fuel with
    | all text =>
      have hpos := List.length_pos_iff.mpr hne
      obtain ⟨fuel, rfl⟩ : ∃ more, fuel = more + 1 := ⟨fuel - 1, by omega⟩
      refine readItems_succ_error_iff.mpr ⟨?_, .inl ?_⟩
      · rwa [htrim]
      · rwa [htrim]
    | @space b text rest hb _ ih =>
      have hskip : XmlStore.trimStart (b :: text) = XmlStore.trimStart text :=
        List.dropWhile_cons_of_pos hb
      rw [← SubsetPart.readItems_trimStart, hskip, SubsetPart.readItems_trimStart]
      exact ih (Nat.le_of_succ_le hf) hne htrim he
    | @item text more rest h _ ih =>
      obtain ⟨hskip, hnil⟩ := h.trimStart_eq
      obtain ⟨item, hitem⟩ := exists_readItem_iff.mpr h
      have hless := (readItem_sound hnil hitem).1
      obtain ⟨fuel, rfl⟩ : ∃ more, fuel = more + 1 := ⟨fuel - 1, by omega⟩
      refine readItems_succ_error_iff.mpr
        ⟨?_, .inr ⟨item, more, ?_, ih (by omega) hne htrim he⟩⟩
      · rwa [hskip]
      · rw [hskip, hitem]

/-- The reader of a subset meets delimiters that overlap just if complete items and white space
lead there. -/
theorem readItems_shared_iff {fuel : Nat} (hf : text.length ≤ fuel) :
    readItems stop fuel text = .error .sharedDelimiter ↔
      ∃ rest, Leaves text rest ∧ ascii "<?>" <+: rest := by
  rw [readItems_error_iff hf]
  constructor
  · rintro ⟨rest, h, -, -, he⟩
    exact ⟨rest, h, readItem_shared_iff.mp he⟩
  · rintro ⟨_, h, tail, rfl⟩
    exact ⟨_, h, List.cons_ne_nil _ _, rfl, readItem_shared_iff.mpr ⟨tail, rfl⟩⟩

end

-- ---------------------------------------------------------------------------
-- Declarations
-- ---------------------------------------------------------------------------

section
variable {stop : Nat} {text rest content name : Bytes}

theorem readExternalId_fault {e : Error} (h : readExternalId stop text = .error e) :
    LiteralFault e := by
  unfold readExternalId at h
  split at h
  next =>
    rcases bind_eq_error_iff.mp h with h | ⟨_, -, h⟩
    · exact readLiteral_fault h
    · rcases bind_eq_error_iff.mp h with h | ⟨_, -, h⟩
      · exact readLiteral_fault h
      · cases h
  split at h
  next =>
    rcases bind_eq_error_iff.mp h with h | ⟨_, -, h⟩
    · exact readLiteral_fault h
    · cases h
  next => cases h

/-- What is read before an internal subset is written as the grammar says. -/
theorem exists_heading {publicId systemId : Option Bytes} {more : Bytes}
    (hname : readName? (trimStart content) = some (name, rest))
    (hexternal : readExternalId stop (trimStart rest) = .ok (publicId, systemId, more)) :
    ∃ before gap between externalId, IsSpaces before ∧ isName name ∧ IsSpaces gap ∧
      (gap = [] → externalId = ExternalId.nothing) ∧ externalId.Proper ∧ IsSpaces between ∧
      externalId.publicId? = publicId ∧ externalId.systemId? = systemId ∧
      content = before ++ (name ++ (gap ++ (externalId.write ++ (between ++ trimStart more)))) := by
  obtain ⟨before, hbefore, hcontent⟩ := exists_spaces content
  obtain ⟨gap, hgap, hrest⟩ := exists_spaces rest
  obtain ⟨between, hbetween, hmore⟩ := exists_spaces more
  obtain ⟨hn, hsplit, hends⟩ := readName?_eq_some_iff.mp hname
  obtain ⟨externalId, he, hp, hs, hwrite⟩ := WrittenDoctype.exists_externalId hexternal
  refine ⟨before, gap, between, externalId, hbefore, hn, hgap, fun hnil => ?_, he, hbetween, hp, hs,
    ?_⟩
  · -- The name would go on with the keyword.
    rw [hrest, hnil, List.nil_append, hwrite] at hends
    cases he with
    | nothing => rfl
    | system => cases hends 0x53 rfl
    | both => cases hends 0x50 rfl
  · rw [← hmore, ← hwrite, ← hrest, ← hsplit, ← hcontent]

theorem holdsSubset_iff {subset : Bytes} : HoldsSubset content subset ↔
    ∃ heading after, OpensSubset heading ∧ 0x5D ∉ after ∧
      content = heading ++ (subset ++ 0x5D :: after) := by
  constructor
  · rintro ⟨hbefore, hn, hgap, he, happart, hbetween, hafter⟩
    exact ⟨_, _, .mk hbefore hn hgap he happart hbetween, hafter, by simp [ascii_brackets]⟩
  · rintro ⟨_, after, ⟨hbefore, hn, hgap, he, happart, hbetween⟩, hafter, rfl⟩
    simpa [ascii_brackets] using
      @HoldsSubset.mk _ _ _ _ subset _ _ hbefore hn hgap he happart hbetween hafter

/-- A fault that does not lie in what stands before the internal subset or in its end lies in the
subset. -/
theorem readDoctype_error_iff {e : Error} (hliteral : ¬ LiteralFault e)
    (hname : ∀ position, e ≠ .malformed position .doctypeName)
    (hclose : ∀ position, e ≠ .malformed position .unterminatedSubset) :
    readDoctype stop content = .error e ↔
      ∃ heading subset after, OpensSubset heading ∧ 0x5D ∉ after ∧
        content = heading ++ (subset ++ 0x5D :: after) ∧
        readItems (stop - (after.length + 1)) subset.length subset = .error e := by
  constructor
  · intro h
    unfold readDoctype at h
    simp only at h
    split at h
    next => exact absurd (Except.error.inj h).symm (hname _)
    next name rest hread =>
      rcases bind_eq_error_iff.mp h with h | ⟨⟨publicId, systemId, more⟩, hexternal, h⟩
      · exact absurd (readExternalId_fault h) hliteral
      · obtain ⟨before, gap, between, externalId, hbefore, hn, hgap, happart, he, hbetween, -, -,
          hcontent⟩ := exists_heading hread hexternal
        dsimp only at h
        split at h
        next inner hinner =>
          split at h
          next => exact absurd (Except.error.inj h).symm (hclose _)
          next subset after hcut =>
            obtain ⟨rfl, hafter⟩ := cutLastBracket?_eq_some_iff.mp hcut
            rcases bind_eq_error_iff.mp h with h | ⟨items, -, h⟩
            · refine ⟨_, subset, after, .mk hbefore hn hgap he happart hbetween, hafter, ?_, h⟩
              rw [hcontent, hinner]
              simp [ascii_brackets]
            · cases h
        next => cases h
  · rintro ⟨_, subset, after, ⟨hbefore, hn, hgap, he, happart, hbetween⟩, hafter, rfl, hitems⟩
    have hopen : ∀ b, (0x5B :: (subset ++ 0x5D :: after)).head? = some b → b = 0x5B :=
      fun b hb => (Option.some.inj hb).symm
    obtain ⟨tail, more, hread, hexternal, hmore⟩ :=
      WrittenDoctype.readHeading_write hbefore hn hgap happart he hbetween hopen stop
    have hcut : cutLastBracket? (subset ++ 0x5D :: after) = some (subset, after) :=
      cutLastBracket?_eq_some_iff.mpr ⟨rfl, hafter⟩
    simp only [ascii_brackets, List.append_assoc, List.cons_append, List.nil_append]
    unfold readDoctype
    simp only [hread, hexternal, bind, Except.bind, hmore, hcut, readSubset, hitems]

/-- Reading a declaration meets delimiters that overlap just if reading its subset does. -/
theorem readDoctype_shared_iff : readDoctype stop content = .error .sharedDelimiter ↔
    ∃ subset rest, HoldsSubset content subset ∧ Leaves subset rest ∧ ascii "<?>" <+: rest := by
  rw [readDoctype_error_iff (by rintro ⟨⟩) (by simp) (by simp)]
  constructor
  · rintro ⟨heading, subset, after, hheading, hafter, hcontent, hitems⟩
    obtain ⟨rest, hleaves, hprefix⟩ := (readItems_shared_iff (Nat.le_refl _)).mp hitems
    exact ⟨subset, rest, holdsSubset_iff.mpr ⟨heading, after, hheading, hafter, hcontent⟩, hleaves,
      hprefix⟩
  · rintro ⟨subset, rest, h, hleaves, hprefix⟩
    obtain ⟨heading, after, hheading, hafter, hcontent⟩ := holdsSubset_iff.mp h
    exact ⟨heading, subset, after, hheading, hafter, hcontent,
      (readItems_shared_iff (Nat.le_refl _)).mpr ⟨rest, hleaves, hprefix⟩⟩

end

-- ---------------------------------------------------------------------------
-- Pieces
-- ---------------------------------------------------------------------------

section
variable {stop : Nat} {text rest content : Bytes}

theorem ExternalId.publicId_within {externalId : ExternalId} :
    ∀ text ∈ externalId.publicId?, text <:+: externalId.write := by
  cases externalId with
  | nothing => rintro _ ⟨⟩
  | system => rintro _ ⟨⟩
  | both publicId systemId =>
    rintro _ ⟨⟩
    exact publicId.text_within.trans ⟨ascii "PUBLIC", systemId.write, by simp [ExternalId.write]⟩

theorem ExternalId.systemId_within {externalId : ExternalId} :
    ∀ text ∈ externalId.systemId?, text <:+: externalId.write := by
  cases externalId with
  | nothing => rintro _ ⟨⟩
  | system systemId =>
    rintro _ ⟨⟩
    exact systemId.text_within.trans (List.suffix_append _ _).isInfix
  | both publicId systemId =>
    rintro _ ⟨⟩
    exact systemId.text_within.trans
      ⟨ascii "PUBLIC" ++ publicId.write, [], by simp [ExternalId.write]⟩

theorem readItems_pieces {fuel : Nat} {items : List SubsetItem}
    (h : readItems stop fuel text = .ok items) : ∀ item ∈ items, item.PiecesOf text := by
  induction fuel generalizing text items with
  | zero =>
    cases h
    exact List.forall_mem_nil _
  | succ fuel ih =>
    rw [readItems] at h
    simp only at h
    split at h
    next =>
      cases h
      exact List.forall_mem_nil _
    next =>
      obtain ⟨⟨item, rest⟩, hitem, h⟩ := exists_of_bind_eq_ok h
      obtain ⟨others, hothers, h⟩ := exists_of_bind_eq_ok h
      cases h
      refine List.forall_mem_append.mpr ⟨fun found hf => ?_, fun found hf => ?_⟩
      · obtain rfl := Option.mem_toList.mp hf
        exact ((readItem_takes hitem).2 _ rfl).mono (trimStart_within text)
      · exact (ih hothers found hf).mono
          (((readItem_takes hitem).1).suffix.isInfix.trans (trimStart_within text))

theorem readDoctype_pieces {d : Doctype} (h : readDoctype stop content = .ok d) :
    d.PiecesOf content := by
  unfold readDoctype at h
  simp only at h
  split at h
  next => cases h
  next name rest hname =>
    obtain ⟨⟨publicId, systemId, more⟩, hexternal, h⟩ := exists_of_bind_eq_ok h
    obtain ⟨before, gap, between, externalId, -, -, -, -, -, -, rfl, rfl, hcontent⟩ :=
      exists_heading hname hexternal
    have hn : name <:+: content := by
      rw [hcontent]
      exact (List.prefix_append _ _).isInfix.trans (List.suffix_append _ _).isInfix
    have hwrite : externalId.write <:+: content :=
      ⟨before ++ name ++ gap, between ++ trimStart more, by simp [hcontent]⟩
    have hp := fun text hm => (externalId.publicId_within text hm).trans hwrite
    have hs := fun text hm => (externalId.systemId_within text hm).trans hwrite
    dsimp only at h
    split at h
    next inner hinner =>
      split at h
      next => cases h
      next subset after hcut =>
        obtain ⟨rfl, -⟩ := cutLastBracket?_eq_some_iff.mp hcut
        obtain ⟨items, hitems, h⟩ := exists_of_bind_eq_ok h
        cases h
        have hsubset : subset <:+: content :=
          ⟨before ++ name ++ gap ++ externalId.write ++ between ++ [0x5B], 0x5D :: after,
            by simp [hcontent, hinner]⟩
        exact ⟨hn, hp, hs, fun item hm => (readItems_pieces hitems item hm).mono hsubset⟩
    next =>
      cases h
      exact ⟨hn, hp, hs, List.forall_mem_nil _⟩

end

/-- Reading a declaration with a position gets out of range just where reading its internal subset,
behind complete items and white space, comes to an item whose delimiters overlap. All other
declarations are read, into pieces of their content, or have a fault at one of its bytes or at its
end. The reader that takes the content apart comes to the same end. -/
theorem readDoctypeAt_safe (offset : Nat) (content : Bytes) :
    (readDoctypeAt offset content = .error .outOfRange ↔
      ∃ subset rest, HoldsSubset content subset ∧ Leaves subset rest ∧ ascii "<?>" <+: rest) ∧
    (readDoctypeAt offset content = .error .outOfRange ∨
      (∃ d, readDoctypeAt offset content = .ok d ∧ d.PiecesOf content) ∨
      ∃ position fault, readDoctypeAt offset content = .error (.malformed position fault) ∧
        offset ≤ position ∧ position ≤ offset + content.length) ∧
    SameEnd Eq (readDoctype (offset + content.length) content) (readDoctypeAt offset content) := by
  have hsame := readDoctypeAt_sameEnd offset content
  rw [← @readDoctype_shared_iff (offset + content.length)]
  have hpieces {d : Doctype} (h : readDoctype (offset + content.length) content = .ok d) :=
    readDoctype_pieces h
  have hfault := readDoctype_faultInText (Nat.le_add_left content.length offset)
  generalize readDoctype (offset + content.length) content = first at hsame hpieces hfault ⊢
  generalize readDoctypeAt offset content = second at hsame ⊢
  cases hsame with
  | @ok d _ h =>
    subst h
    exact ⟨by simp, .inr (.inl ⟨d, rfl, hpieces rfl⟩), .ok rfl⟩
  | malformed position fault =>
    obtain ⟨hfirst, hlast⟩ := hfault position fault rfl
    exact ⟨by simp, .inr (.inr ⟨position, fault, rfl, by omega, by omega⟩), .malformed _ _⟩
  | shared => exact ⟨by simp, .inl rfl, .shared⟩

theorem empty_instruction_out_of_range :
    readDoctypeAt 9 (ascii " r [<!--c--> <?>]") = .error .outOfRange := by
  have hsubset : HoldsSubset (ascii " r [<!--c--> <?>]") (ascii "<!--c--> <?>") :=
    @HoldsSubset.mk (ascii " ") (ascii "r") (ascii " ") [] (ascii "<!--c--> <?>") [] .nothing
      (by decide) (by decide) (by decide) .nothing (fun _ => rfl) (by decide) (by decide)
  have hcomment : TakesItem (ascii "<!--c--> <?>") (ascii " <?>") :=
    @TakesItem.comment (ascii "c") _ (by decide)
  exact (readDoctypeAt_safe 9 _).1.mpr
    ⟨_, _, hsubset, .item hcomment (.space (by decide) (.all _)), List.prefix_rfl⟩

end XmlStore
