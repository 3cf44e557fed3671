import Mathlib.Data.List.Chain
import XmlStore.Event
import XmlStore.Proofs.Escaping

/-!
# Written documents

A tree is written with a tag at each end of an element, or with one tag if the element is empty.
What a reader cuts off and divides again are the parts that were written: tags end behind the
quoted values, names end where attributes begin, and values are what they were.
-/

namespace XmlStore

-- ---------------------------------------------------------------------------
-- Trees
-- ---------------------------------------------------------------------------

/-- An element with all that it holds, or another part of its content. -/
inductive Tree where
  | element (name : Bytes) (attributes : List Attribute) (content : List Tree)
  | text (bytes : Bytes)
  | comment (bytes : Bytes)
  | instruction (target data : Bytes)

def isName : Bytes → Bool
  | [] => false
  | b :: rest => isNameStart b && rest.all isNameByte

namespace Tree

def isText : Tree → Bool
  | .text _ => true
  | _ => false

/-- What an element may be called and what attributes it may have, given what their names may be. -/
structure ProperTag (attributeName : Bytes → Bool) (name : Bytes) (attributes : List Attribute) :
    Prop where
  name : isName name
  names : ∀ att ∈ attributes, attributeName att.name
  distinct : (attributes.map (·.name)).Nodup
  plain : ∀ att ∈ attributes, att.name ≠ ascii "xmlns" ∧ ¬ ascii "xmlns:" <+: att.name

/-- What a tree has to be so that it can be written. -/
inductive Proper (attributeName : Bytes → Bool) : Tree → Prop where
  | element {name : Bytes} {attributes : List Attribute} {content : List Tree}
      (htag : ProperTag attributeName name attributes)
      (hapart : content.IsChain fun first second => ¬ (first.isText ∧ second.isText))
      (hcontent : ∀ part ∈ content, Proper attributeName part) :
      Proper attributeName (.element name attributes content)
  | text {bytes : Bytes} (hne : bytes ≠ []) : Proper attributeName (.text bytes)
  | comment {bytes : Bytes} (hhyphens : ¬ ascii "--" <:+: bytes)
      (hlast : bytes.getLast? ≠ some 0x2D) : Proper attributeName (.comment bytes)
  | instruction {target data : Bytes} (htarget : isName target)
      (hreserved : target.map asciiUpper ≠ ascii "XML") (hend : ¬ ascii "?>" <:+: data)
      (hspace : ∀ b, data.head? = some b → isSpace b = false) :
      Proper attributeName (.instruction target data)

end Tree

section
variable (numerals : Numerals)

def Attribute.write (att : Attribute) : Bytes :=
  0x20 :: att.name ++ 0x3D :: 0x22 :: escape (valueEscape? numerals) att.value ++ [0x22]

def Attribute.escapes (att : Attribute) : Nat := XmlStore.escapes (valueEscape? numerals) att.value

def writeAttributes (attributes : List Attribute) : Bytes :=
  attributes.flatMap (Attribute.write numerals)

def attributeEscapes : List Attribute → Nat
  | [] => 0
  | att :: rest => att.escapes numerals + attributeEscapes rest

namespace Tree

mutual

def write : Tree → Bytes
  | .element name attributes content =>
    if content.isEmpty then 0x3C :: (name ++ writeAttributes numerals attributes) ++ [0x2F, 0x3E]
    else
      0x3C :: (name ++ writeAttributes numerals attributes) ++ [0x3E] ++ writeAll content ++
        (0x3C :: 0x2F :: name ++ [0x3E])
  | .text bytes => escape textEscape? bytes
  | .comment bytes => ascii "<!--" ++ bytes ++ ascii "-->"
  | .instruction target data => ascii "<?" ++ target ++ 0x20 :: data ++ ascii "?>"

def writeAll : List Tree → Bytes
  | [] => []
  | part :: rest => part.write ++ writeAll rest

end

mutual

/-- The number of references in what is written. -/
def escapes : Tree → Nat
  | .element _ attributes content => attributeEscapes numerals attributes + escapesAll content
  | .text bytes => XmlStore.escapes textEscape? bytes
  | .comment _ => 0
  | .instruction .. => 0

def escapesAll : List Tree → Nat
  | [] => 0
  | part :: rest => part.escapes + escapesAll rest

end

end Tree

end

namespace Tree

mutual

/-- The events of a tree in the order of its parts. -/
def events : Tree → List Event
  | .element name attributes content =>
    .startElement name attributes :: eventsAll content ++ [.endElement name]
  | .text bytes => [.text (.utf8 bytes)]
  | .comment bytes => [.comment bytes]
  | .instruction target data => [.instruction target data]

def eventsAll : List Tree → List Event
  | [] => []
  | part :: rest => part.events ++ eventsAll rest

end

end Tree

-- ---------------------------------------------------------------------------
-- Names
-- ---------------------------------------------------------------------------

section
variable {name rest : Bytes}

theorem isNameByte_of_isName (h : isName name) : ∀ b ∈ name, isNameByte b := by
  unfold isName at h
  split at h
  next => simp
  next b tail =>
    rw [Bool.and_eq_true, List.all_eq_true] at h
    intro d hd
    rcases List.mem_cons.mp hd with rfl | hd
    · simp [isNameByte, h.1]
    · exact h.2 d hd

theorem exists_cons_of_isName (h : isName name) : ∃ b tail, name = b :: tail ∧ isNameStart b := by
  unfold isName at h
  split at h
  next => cases h
  next b tail =>
    rw [Bool.and_eq_true] at h
    exact ⟨b, tail, rfl, h.1⟩

theorem ne_of_isNameByte {b d : UInt8} (hb : isNameByte b) (hd : isNameByte d = false) : b ≠ d := by
  rintro rfl
  rw [hb] at hd
  cases hd

theorem isSpace_of_isNameByte {b : UInt8} (h : isNameByte b) : isSpace b = false := by
  simp [isSpace, ne_of_isNameByte h (by decide : isNameByte 0x20 = false),
    ne_of_isNameByte h (by decide : isNameByte 0x09 = false),
    ne_of_isNameByte h (by decide : isNameByte 0x0A = false),
    ne_of_isNameByte h (by decide : isNameByte 0x0D = false)]

theorem spanName_append (h : ∀ b ∈ name, isNameByte b)
    (hrest : ∀ b, rest.head? = some b → isNameByte b = false) :
    spanName (name ++ rest) = (name, rest) := by
  unfold spanName
  rw [List.takeWhile_append_of_pos h, List.dropWhile_append_of_pos h]
  cases rest with
  | nil => simp
  | cons b tail => simp [hrest b rfl]

theorem readName?_append (h : isName name)
    (hrest : ∀ b, rest.head? = some b → isNameByte b = false) :
    readName? (name ++ rest) = some (name, rest) := by
  have hspan := spanName_append (isNameByte_of_isName h) hrest
  obtain ⟨b, tail, rfl, hb⟩ := exists_cons_of_isName h
  rw [List.cons_append] at hspan ⊢
  rw [readName?, if_pos hb, hspan]

theorem trimStart_of_head? (h : ∀ b, rest.head? = some b → isSpace b = false) :
    trimStart rest = rest := by
  cases rest with
  | nil => rfl
  | cons b tail => exact List.dropWhile_cons_of_neg (by simp [h b rfl])

theorem trimStart_name (h : isName name) : trimStart (name ++ rest) = name ++ rest := by
  obtain ⟨b, tail, rfl, hb⟩ := exists_cons_of_isName h
  refine trimStart_of_head? fun d hd => ?_
  obtain rfl := Option.some.inj hd
  exact isSpace_of_isNameByte (by simp [isNameByte, hb])

theorem trimEnd_name (h : isName name) : trimEnd name = name := by
  have hreverse : name.reverse.dropWhile isSpace = name.reverse := by
    refine trimStart_of_head? fun b hb => ?_
    have hm : b ∈ name := List.mem_reverse.mp (List.mem_of_head? hb)
    exact isSpace_of_isNameByte (isNameByte_of_isName h b hm)
  rw [trimEnd, hreverse, List.reverse_reverse]

end

-- ---------------------------------------------------------------------------
-- Attributes
-- ---------------------------------------------------------------------------

section
variable {numerals : Numerals}

/-- An attribute as it is read first, with its value as it is written. -/
def Attribute.raw (numerals : Numerals) (att : Attribute) : Attribute :=
  { att with value := escape (valueEscape? numerals) att.value }

theorem readAttribute_write {att : Attribute} (h : isName att.name) (stop : Nat) (more : Bytes) :
    readAttribute stop
        (att.name ++ 0x3D :: 0x22 :: (escape (valueEscape? numerals) att.value ++ 0x22 :: more)) =
      .ok (att.raw numerals, more) := by
  have hname : readName? (att.name ++
      0x3D :: 0x22 :: (escape (valueEscape? numerals) att.value ++ 0x22 :: more)) =
      some (att.name,
        0x3D :: 0x22 :: (escape (valueEscape? numerals) att.value ++ 0x22 :: more)) :=
    readName?_append h (by simp; decide)
  have hquote : cutAt? (· == 0x22) (escape (valueEscape? numerals) att.value ++ 0x22 :: more) =
      some (escape (valueEscape? numerals) att.value, more) := by
    refine cutAt?_self ?_ rfl more
    intro d hd
    simpa using fun h : d = 0x22 => not_mem_escape_value numerals (.inl rfl) att.value (h ▸ hd)
  have hless : (escape (valueEscape? numerals) att.value).contains 0x3C = false := by
    simpa using not_mem_escape_value numerals (.inr rfl) att.value
  have hequals : ∀ {tail : Bytes}, trimStart (0x3D :: tail) = 0x3D :: tail := rfl
  have hopen : ∀ {tail : Bytes}, trimStart (0x22 :: tail) = 0x22 :: tail := rfl
  unfold readAttribute
  simp only [hname, hequals, hopen, hquote, hless, isQuote, beq_self_eq_true, Bool.true_or,
    Bool.false_eq_true, ↓reduceIte]
  rfl

theorem rawAttributes_cons {stop : Nat} {text body more : Bytes} {att : Attribute}
    (htext : trimStart text = body) (hbody : body ≠ [])
    (h : readAttribute stop body = .ok (att, more)) :
    rawAttributes stop text =
      (att :: (rawAttributes stop more).1, (rawAttributes stop more).2) := by
  rw [rawAttributes]
  split
  next hnil => exact absurd (htext.symm.trans hnil) hbody
  next b tail hcons =>
    rw [← hcons, htext]
    split
    next fault he =>
      rw [h] at he
      cases he
    next att' rest he =>
      rw [h] at he
      cases he
      rfl

theorem rawAttributes_write {attributes : List Attribute}
    (h : ∀ att ∈ attributes, isName att.name) (stop : Nat) :
    rawAttributes stop (writeAttributes numerals attributes) =
      (attributes.map (·.raw numerals), none) := by
  induction attributes with
  | nil => rw [writeAttributes, List.flatMap_nil, rawAttributes]; rfl
  | cons att rest ih =>
    have hname := h att List.mem_cons_self
    have htext : trimStart (writeAttributes numerals (att :: rest)) =
        att.name ++ 0x3D :: 0x22 :: (escape (valueEscape? numerals) att.value ++
          0x22 :: writeAttributes numerals rest) := by
      rw [writeAttributes, List.flatMap_cons, Attribute.write]
      simp only [List.append_assoc, List.cons_append, List.nil_append]
      exact trimStart_name hname
    rw [rawAttributes_cons htext (by simp) (readAttribute_write hname stop _),
      ih fun other hm => h other (List.mem_cons_of_mem att hm)]
    rfl

theorem spaced_eq_self {bs : Bytes} (h : ∀ b ∈ bs, isSpace b → b = 0x20) : spaced bs = bs := by
  fun_induction spaced bs with
  | case1 => rfl
  | case2 b =>
    by_cases hb : isSpace b
    · simp [h b (by simp) hb]
    · simp [hb]
  | case3 b c rest hbc ih =>
    rw [Bool.and_eq_true, beq_iff_eq] at hbc
    have := h b (by simp) (by rw [hbc.1]; decide)
    rw [hbc.1] at this
    cases this
  | case4 b c rest hbc ih =>
    rw [ih fun d hd => h d (List.mem_cons_of_mem b hd)]
    by_cases hb : isSpace b
    · simp [h b (by simp) hb]
    · simp [hb]

theorem spaced_escape_value (value : Bytes) :
    spaced (escape (valueEscape? numerals) value) = escape (valueEscape? numerals) value := by
  refine spaced_eq_self fun b hb hspace => ?_
  by_contra hne
  refine not_mem_escape_value numerals (.inl ?_) value hb
  simp only [isSpace, Bool.or_eq_true, beq_iff_eq, hne, false_or] at hspace
  rcases hspace with (rfl | rfl) | rfl <;> decide

/-- The entities after so many more references have been replaced. -/
def Entities.spend (entities : Entities) (count : Nat) : Entities :=
  { entities with expanded := entities.expanded + count }

theorem Entities.spend_spend (entities : Entities) (a b : Nat) :
    (entities.spend a).spend b = entities.spend (a + b) := by
  simp [spend, Nat.add_assoc]

theorem decodeAttributes_raw {attributes : List Attribute} {entities : Entities}
    (h : entities.expanded + attributeEscapes numerals attributes ≤ entities.limit) :
    decodeAttributes entities (attributes.map (·.raw numerals)) =
      (entities.spend (attributeEscapes numerals attributes), .ok attributes) := by
  induction attributes generalizing entities with
  | nil => rfl
  | cons att rest ih =>
    rw [attributeEscapes] at h ⊢
    have hvalue : entities.expandText (spaced (att.raw numerals).value) =
        { output := att.value, expanded := entities.expanded + att.escapes numerals } := by
      rw [Attribute.raw, spaced_escape_value]
      exact expandText_escape (fun _ _ => valueEscape?_standsFor)
        (by simp [valueEscape?, textEscape?, isNumbered])
        (Nat.le_trans (Nat.add_le_add_left (Nat.le_add_right _ _) _) h)
    have hrest : decodeAttributes (entities.spend (att.escapes numerals))
        (rest.map (·.raw numerals)) =
          ((entities.spend (att.escapes numerals)).spend (attributeEscapes numerals rest),
            .ok rest) := by
      refine ih ?_
      simp only [Entities.spend]
      omega
    rw [Entities.spend_spend] at hrest
    rw [List.map_cons, decodeAttributes]
    simp only [hvalue]
    rw [show entities.after { output := att.value, expanded := _ } =
      entities.spend (att.escapes numerals) from rfl, hrest]
    rfl

theorem readAttributes_write {attributes : List Attribute}
    (hnames : ∀ att ∈ attributes, isName att.name) {entities : Entities}
    (h : entities.expanded + attributeEscapes numerals attributes ≤ entities.limit) (stop : Nat) :
    readAttributes entities stop (writeAttributes numerals attributes) =
      (entities.spend (attributeEscapes numerals attributes), .ok attributes) := by
  rw [readAttributes, rawAttributes_write hnames]
  simp only [decodeAttributes_raw h]

theorem duplicate?_eq_none {seen : List Bytes} {attributes : List Attribute}
    (hseen : ∀ att ∈ attributes, att.name ∉ seen) (h : (attributes.map (·.name)).Nodup) :
    Construct.duplicate? seen attributes = none := by
  induction attributes generalizing seen with
  | nil => rfl
  | cons att rest ih =>
    rw [List.map_cons, List.nodup_cons] at h
    rw [Construct.duplicate?, if_neg (by simpa using hseen att List.mem_cons_self)]
    refine ih (fun other hm hin => ?_) h.2
    rcases List.mem_cons.mp hin with he | hin
    · exact h.1 (List.mem_map.mpr ⟨other, hm, he⟩)
    · exact hseen other (List.mem_cons_of_mem att hm) hin

theorem declares?_eq_none {att : Attribute}
    (h : att.name ≠ ascii "xmlns" ∧ ¬ ascii "xmlns:" <+: att.name) : att.declares? = none := by
  rw [Attribute.declares?, declaredQualifier?, if_neg h.1,
    if_neg (by simpa only [List.isPrefixOf_iff_prefix] using h.2)]

theorem openingEvents_plain_names {attributes : List Attribute}
    (h : ∀ att ∈ attributes, att.name ≠ ascii "xmlns" ∧ ¬ ascii "xmlns:" <+: att.name)
    (name : Bytes) :
    Construct.openingEvents name attributes = [.startElement name attributes] := by
  have hnone : ∀ att ∈ attributes, att.declares? = none :=
    fun att hm => declares?_eq_none (h att hm)
  rw [Construct.openingEvents, List.filterMap_eq_nil_iff.mpr, List.filter_eq_self.mpr]
  · rfl
  · intro att hm
    rw [hnone att hm]
    rfl
  · intro att hm
    rw [hnone att hm]
    rfl

end

-- ---------------------------------------------------------------------------
-- Tags
-- ---------------------------------------------------------------------------

/-- Bytes in which no tag ends and at whose end no quoted text is open. -/
def Passed (bs : Bytes) : Prop :=
  ∀ more, cutUnquoted? none (bs ++ more) =
    (cutUnquoted? none more).map fun found => (bs ++ found.1, found.2)

theorem Passed.nil : Passed [] := fun more => by simp

theorem Passed.append {first second : Bytes} (h : Passed first) (h' : Passed second) :
    Passed (first ++ second) := by
  intro more
  rw [List.append_assoc, h, h', Option.map_map]
  simp only [Function.comp_def, List.append_assoc]

theorem passed_of_plain {bs : Bytes} (h : ∀ b ∈ bs, b ≠ 0x3E ∧ isQuote b = false) :
    Passed bs := by
  intro more
  induction bs with
  | nil => simp
  | cons b rest ih =>
    obtain ⟨hb, hq⟩ := h b List.mem_cons_self
    rw [List.cons_append, cutUnquoted?]
    simp only [beq_iff_eq, hb, hq, Bool.false_eq_true, ↓reduceIte]
    rw [ih fun d hd => h d (List.mem_cons_of_mem b hd), Option.map_map]
    rfl

theorem cutUnquoted?_quoted {value : Bytes} (h : 0x22 ∉ value) (more : Bytes) :
    cutUnquoted? (some 0x22) (value ++ 0x22 :: more) =
      (cutUnquoted? none more).map fun found => (value ++ 0x22 :: found.1, found.2) := by
  induction value with
  | nil => rfl
  | cons b rest ih =>
    have hb : b ≠ 0x22 := fun he => h (he ▸ List.mem_cons_self)
    rw [List.cons_append, cutUnquoted?]
    simp only [beq_iff_eq, hb, ↓reduceIte]
    rw [ih fun hm => h (List.mem_cons_of_mem b hm), Option.map_map]
    rfl

theorem passed_quoted {value : Bytes} (h : 0x22 ∉ value) : Passed (0x22 :: value ++ [0x22]) := by
  intro more
  rw [List.append_assoc, List.cons_append, cutUnquoted?]
  change Option.map _ (cutUnquoted? (some 0x22) (value ++ 0x22 :: more)) = _
  rw [cutUnquoted?_quoted h, Option.map_map]
  simp only [Function.comp_def, List.append_assoc, List.cons_append, List.nil_append]

theorem passed_name {name : Bytes} (h : ∀ b ∈ name, isNameByte b) : Passed name := by
  refine passed_of_plain fun b hb => ⟨ne_of_isNameByte (h b hb) (by decide), ?_⟩
  simp [isQuote, ne_of_isNameByte (h b hb) (by decide : isNameByte 0x22 = false),
    ne_of_isNameByte (h b hb) (by decide : isNameByte 0x27 = false)]

section
variable (numerals : Numerals) {name : Bytes} {attributes : List Attribute}

theorem passed_writeAttributes (h : ∀ att ∈ attributes, isName att.name) :
    Passed (writeAttributes numerals attributes) := by
  induction attributes with
  | nil => exact .nil
  | cons att rest ih =>
    have hname := passed_name (isNameByte_of_isName (h att List.mem_cons_self))
    have hvalue := passed_quoted (not_mem_escape_value numerals (.inl rfl) att.value)
    have hspace : Passed [0x20] := passed_of_plain (List.forall_mem_singleton.mpr (by decide))
    have hequals : Passed [0x3D] := passed_of_plain (List.forall_mem_singleton.mpr (by decide))
    have hwrite : Passed (att.write numerals) := by
      have := ((hspace.append hname).append hequals).append hvalue
      simpa [Attribute.write] using this
    exact hwrite.append (ih fun other hm => h other (List.mem_cons_of_mem att hm))

theorem cutUnquoted?_write (h : Tree.ProperTag isName name attributes) {slash : Bytes}
    (hslash : Passed slash) (more : Bytes) :
    cutUnquoted? none (name ++ writeAttributes numerals attributes ++ slash ++ 0x3E :: more) =
      some (name ++ writeAttributes numerals attributes ++ slash, more) := by
  have hpassed := ((passed_name (isNameByte_of_isName h.name)).append
    (passed_writeAttributes numerals h.names)).append hslash
  rw [hpassed, cutUnquoted?]
  simp

/-- Without a slash a tag ends with a quotation mark or a byte of the name. -/
theorem getLast?_writeAttributes (hname : isName name) :
    (name ++ writeAttributes numerals attributes).getLast? ≠ some 0x2F := by
  rcases List.eq_nil_or_concat attributes with rfl | ⟨init, att, rfl⟩
  · rw [writeAttributes, List.flatMap_nil, List.append_nil]
    intro hlast
    have := isNameByte_of_isName hname 0x2F (List.mem_of_getLast? hlast)
    revert this
    decide
  · rw [writeAttributes, List.concat_eq_append, List.flatMap_append, List.flatMap_singleton,
      Attribute.write, ← List.append_assoc, ← List.append_assoc, List.getLast?_append]
    simp

end

end XmlStore
