import Mathlib.Data.List.DropRight
import XmlStore.Proofs.Rereading

/-!
# Written document type declarations

A document type declaration as it is written, with the parts of its internal subset. The reader of
the subset takes back each part as a whole, whatever stands in it.
-/

namespace XmlStore

-- ---------------------------------------------------------------------------
-- Declarations
-- ---------------------------------------------------------------------------

/-- Bytes in which each quoted text ends and no `>` stands outside quotes. -/
inductive Quoted : Bytes → Prop
  | nil : Quoted []
  | byte {b : UInt8} {rest : Bytes} (hb : isQuote b = false) (hend : b ≠ 0x3E) (h : Quoted rest) :
    Quoted (b :: rest)
  | literal {quote : UInt8} {text rest : Bytes} (hq : isQuote quote) (ht : quote ∉ text)
    (h : Quoted rest) : Quoted (quote :: (text ++ quote :: rest))

def IsSpaces (bytes : Bytes) : Prop := ∀ b ∈ bytes, isSpace b

instance (bytes : Bytes) : Decidable (IsSpaces bytes) :=
  List.decidableBAll (fun b => isSpace b) bytes

/-- Bytes that mean nothing in a declaration. -/
def IsInert (bytes : Bytes) : Prop := ∀ b ∈ bytes, isQuote b = false ∧ b ∉ ascii "[]<>"

instance (bytes : Bytes) : Decidable (IsInert bytes) :=
  List.decidableBAll (fun b => isQuote b = false ∧ b ∉ ascii "[]<>") bytes

theorem isInert_nil : IsInert [] := List.forall_mem_nil _

/-- No name goes on here. -/
def EndsName (rest : Bytes) : Prop := ∀ b, rest.head? = some b → isNameByte b = false

/-- A declaration of an entity without a literal text, or of something else. -/
def IsSkipped (body : Bytes) : Prop :=
  ¬ ascii "ENTITY" <+: body ∨
    ∃ before rest, body = ascii "ENTITY" ++ before ++ rest ∧ IsSpaces before ∧
      (rest.head? = some 0x25 ∨ ∃ name tail, rest = name ++ tail ∧ isName name ∧ EndsName tail ∧
        (trimStart tail).head?.any isQuote = false)

/-- A part of an internal subset. -/
inductive SubsetPart where
  | space (bytes : Bytes)
  | comment (text : Bytes)
  /-- The data with the white space before it. -/
  | instruction (target data : Bytes)
  /-- A reference to a parameter entity. -/
  | reference (name : Bytes)
  /-- A declaration of an entity with a literal text, after which anything quoted may come. -/
  | entity (before name between : Bytes) (quote : UInt8) (value after : Bytes)
  /-- Any other declaration. -/
  | declaration (body : Bytes)

namespace SubsetPart

def write : SubsetPart → Bytes
  | .space bytes => bytes
  | .comment text => ascii "<!--" ++ text ++ ascii "-->"
  | .instruction target data => ascii "<?" ++ target ++ data ++ ascii "?>"
  | .reference name => 0x25 :: name ++ [0x3B]
  | .entity before name between quote value after =>
    ascii "<!ENTITY" ++ (before ++ name ++ between ++ quote :: (value ++ quote :: after)) ++ [0x3E]
  | .declaration body => ascii "<!" ++ body ++ [0x3E]

def writeAll (parts : List SubsetPart) : Bytes := parts.flatMap write

/-- What is kept of a part. -/
def item? : SubsetPart → Option SubsetItem
  | .comment text => some (.comment text)
  | .instruction target data => some (.instruction target (trimStart data))
  | .entity _ name _ _ value _ => some (.entity name value)
  | .space _ | .reference _ | .declaration _ => none

inductive Proper : SubsetPart → Prop
  | space {bytes : Bytes} (h : IsSpaces bytes) : Proper (.space bytes)
  | comment {text : Bytes} (h : ¬ ascii "-->" <:+: text) : Proper (.comment text)
  | instruction {target data : Bytes} (ht : isName target) (hd : EndsName data)
    (hend : ¬ ascii "?>" <:+: data) : Proper (.instruction target data)
  | reference {name : Bytes} (h : isName name) : Proper (.reference name)
  | entity {before name between : Bytes} {quote : UInt8} {value after : Bytes}
    (hbefore : IsSpaces before) (hn : isName name) (hbetween : IsSpaces between)
    (hq : isQuote quote) (hv : quote ∉ value) (ha : Quoted after) :
    Proper (.entity before name between quote value after)
  | declaration {body : Bytes} (h : Quoted body) (hc : ¬ ascii "--" <+: body)
    (hs : IsSkipped body) : Proper (.declaration body)

end SubsetPart

/-- A text in quotes with the white space before it. -/
structure QuotedLiteral where
  space : Bytes
  quote : UInt8
  text : Bytes

structure QuotedLiteral.Proper (literal : QuotedLiteral) : Prop where
  space : IsSpaces literal.space
  quote : isQuote literal.quote
  text : literal.quote ∉ literal.text

def QuotedLiteral.write (literal : QuotedLiteral) : Bytes :=
  literal.space ++ literal.quote :: (literal.text ++ [literal.quote])

inductive ExternalId where
  | nothing
  | system (systemId : QuotedLiteral)
  | both (publicId systemId : QuotedLiteral)

namespace ExternalId

def write : ExternalId → Bytes
  | .nothing => []
  | .system systemId => ascii "SYSTEM" ++ systemId.write
  | .both publicId systemId => ascii "PUBLIC" ++ (publicId.write ++ systemId.write)

def publicId? : ExternalId → Option Bytes
  | .both publicId _ => some publicId.text
  | _ => none

def systemId? : ExternalId → Option Bytes
  | .nothing => none
  | .system systemId | .both _ systemId => some systemId.text

inductive Proper : ExternalId → Prop
  | nothing : Proper .nothing
  | system {systemId : QuotedLiteral} (h : systemId.Proper) : Proper (.system systemId)
  | both {publicId systemId : QuotedLiteral} (h : publicId.Proper) (h' : systemId.Proper) :
    Proper (.both publicId systemId)

end ExternalId

/-- A document type declaration as it is written. -/
structure WrittenDoctype where
  /-- White space before the name, after it, and before the subset. -/
  before : Bytes := [0x20]
  name : Bytes
  gap : Bytes := []
  externalId : ExternalId := .nothing
  between : Bytes := []
  /-- The internal subset with the white space after it. -/
  subset : Option (List SubsetPart × Bytes) := none

namespace WrittenDoctype

def writeSubset : Option (List SubsetPart × Bytes) → Bytes
  | none => []
  | some (parts, after) => 0x5B :: (SubsetPart.writeAll parts ++ 0x5D :: after)

/-- What stands between the name and the end. -/
def rest (d : WrittenDoctype) : Bytes :=
  d.gap ++ (d.externalId.write ++ (d.between ++ writeSubset d.subset))

/-- What stands between `<!` and the last `>`. -/
def body (d : WrittenDoctype) : Bytes := ascii "DOCTYPE" ++ (d.before ++ (d.name ++ d.rest))

def write (d : WrittenDoctype) : Bytes := ascii "<!" ++ d.body ++ [0x3E]

def parts (d : WrittenDoctype) : List SubsetPart := (d.subset.map (·.1)).getD []

structure Proper (d : WrittenDoctype) : Prop where
  before : IsSpaces d.before
  name : isName d.name
  gap : IsSpaces d.gap
  apart : d.gap = [] → d.externalId = .nothing
  externalId : d.externalId.Proper
  between : IsSpaces d.between
  parts : ∀ part ∈ d.parts, part.Proper
  after : ∀ parts after, d.subset = some (parts, after) → IsSpaces after

/-- What a declaration says. -/
def content (d : WrittenDoctype) : Doctype where
  name := d.name
  publicId := d.externalId.publicId?
  systemId := d.externalId.systemId?
  items := d.parts.filterMap SubsetPart.item?

end WrittenDoctype

-- ---------------------------------------------------------------------------
-- Reading the parts back
-- ---------------------------------------------------------------------------

section
variable {stop : Nat} {bytes before name between value after rest : Bytes} {quote : UInt8}

theorem forall_head?_cons {p : UInt8 → Prop} {b : UInt8} (h : p b) (rest : Bytes) :
    ∀ d, (b :: rest).head? = some d → p d := by
  intro d hd
  obtain rfl := Option.some.inj hd
  exact h

theorem trimStart_spaces (h : IsSpaces bytes) (rest : Bytes) :
    trimStart (bytes ++ rest) = trimStart rest :=
  List.dropWhile_append_of_pos h

theorem exists_spaces (text : Bytes) : ∃ space, IsSpaces space ∧ text = space ++ trimStart text :=
  ⟨text.takeWhile isSpace, fun _ hb => List.mem_takeWhile_imp hb,
    List.takeWhile_append_dropWhile.symm⟩

theorem isSpace_of_isQuote (h : isQuote quote) : isSpace quote = false := by
  rcases Bool.or_eq_true_iff.mp h with h | h <;> (rw [eq_of_beq h]; rfl)

theorem isNameByte_of_isQuote (h : isQuote quote) : isNameByte quote = false := by
  rcases Bool.or_eq_true_iff.mp h with h | h <;> (rw [eq_of_beq h]; rfl)

theorem isNameByte_of_isSpace {b : UInt8} (h : isSpace b) : isNameByte b = false := by
  cases hn : isNameByte b with
  | false => rfl
  | true => exact absurd h (by rw [isSpace_of_isNameByte hn]; exact Bool.false_ne_true)

theorem endsName_spaces (h : IsSpaces bytes) (hrest : EndsName rest) :
    EndsName (bytes ++ rest) := by
  cases bytes with
  | nil => exact hrest
  | cons b more =>
    exact forall_head?_cons (isNameByte_of_isSpace (h b List.mem_cons_self)) _

theorem trimStart_quote (h : isQuote quote) : trimStart (quote :: rest) = quote :: rest :=
  trimStart_of_head? (forall_head?_cons (isSpace_of_isQuote h) rest)

theorem head?_name_ne {d : UInt8} (h : isName name) (hd : isNameByte d = false) (rest : Bytes) :
    (name ++ rest).head? ≠ some d := by
  obtain ⟨b, tail, rfl, hb⟩ := exists_cons_of_isName h
  exact fun he => isNameStart_ne hb hd (Option.some.inj he)

theorem cutAt?_quote (h : quote ∉ value) (rest : Bytes) :
    cutAt? (· == quote) (value ++ quote :: rest) = some (value, rest) :=
  cutAt?_self (fun _ hb => beq_eq_false_iff_ne.mpr (ne_of_mem_of_not_mem hb h))
    (beq_self_eq_true quote) rest

theorem cutLastBracket?_eq_some_iff {text before after : Bytes} :
    cutLastBracket? text = some (before, after) ↔
      text = before ++ 0x5D :: after ∧ 0x5D ∉ after := by
  constructor
  · intro h
    obtain ⟨⟨behind, front⟩, hcut, hfound⟩ := Option.map_eq_some_iff.mp h
    obtain ⟨rfl, rfl⟩ := Prod.mk.inj hfound
    obtain ⟨b, hb, htext, hbehind⟩ := cutAt?_append hcut
    obtain rfl : b = 0x5D := eq_of_beq hb
    constructor
    · rw [← List.reverse_reverse text, htext]
      simp
    · intro hm
      cases hbehind _ (List.mem_reverse.mp hm)
  · rintro ⟨rfl, hafter⟩
    rw [cutLastBracket?, List.reverse_append, List.reverse_cons, List.append_assoc,
      List.singleton_append, cutAt?_quote (fun hm => hafter (List.mem_reverse.mp hm))]
    simp

theorem readLiteral_quoted (hs : IsSpaces bytes) (hq : isQuote quote) (hv : quote ∉ value)
    (rest : Bytes) :
    readLiteral stop (bytes ++ quote :: (value ++ quote :: rest)) = .ok (value, rest) := by
  rw [readLiteral, trimStart_spaces hs, trimStart_quote hq]
  simp only [hq, if_true, cutAt?_quote hv]

theorem isInert_spaces (h : IsSpaces bytes) : IsInert bytes := by
  intro b hb
  have hs := h b hb
  unfold isSpace at hs
  simp only [Bool.or_eq_true, beq_iff_eq] at hs
  rcases hs with ((rfl | rfl) | rfl) | rfl <;> decide

theorem isInert_name (h : isName name) : IsInert name := by
  intro b hb
  have hn := isNameByte_of_isName h b hb
  refine ⟨?_, fun hm => ?_⟩
  · cases hq : isQuote b with
    | false => rfl
    | true => exact absurd hn (by rw [isNameByte_of_isQuote hq]; exact Bool.false_ne_true)
  · change b ∈ [0x5B, 0x5D, 0x3C, 0x3E] at hm
    simp only [List.mem_cons, List.not_mem_nil, or_false] at hm
    rcases hm with rfl | rfl | rfl | rfl <;> exact Bool.noConfusion hn

theorem IsInert.cons {b : UInt8} (h : IsInert (b :: rest)) :
    isQuote b = false ∧ b ≠ 0x5B ∧ b ≠ 0x5D ∧ b ≠ 0x3C ∧ b ≠ 0x3E ∧ IsInert rest := by
  obtain ⟨⟨hq, hm⟩, hrest⟩ := List.forall_mem_cons.mp h
  have hne {d : UInt8} (hd : d ∈ ascii "[]<>") : b ≠ d := fun he => hm (he ▸ hd)
  exact ⟨hq, hne (by decide), hne (by decide), hne (by decide), hne (by decide), hrest⟩

theorem Quoted.prepend (h : IsInert bytes) (hrest : Quoted rest) : Quoted (bytes ++ rest) := by
  induction bytes with
  | nil => exact hrest
  | cons b more ih =>
    obtain ⟨hq, -, -, -, he, hmore⟩ := h.cons
    exact .byte hq he (ih hmore)

theorem Quoted.of_prepend (h : IsInert bytes) (hall : Quoted (bytes ++ rest)) : Quoted rest := by
  induction bytes with
  | nil => exact hall
  | cons b more ih =>
    obtain ⟨hq, -, -, -, -, hmore⟩ := h.cons
    rw [List.cons_append] at hall
    generalize more ++ rest = all at hall ih
    cases hall with
    | byte _ _ hall => exact ih hmore hall
    | literal hq' => cases hq'.symm.trans hq

theorem prefix_append_iff (h : ∀ b, rest.head? = some b → b ∉ bytes) :
    bytes <+: before ++ rest ↔ bytes <+: before := by
  refine ⟨fun hp => ?_, fun hp => hp.trans (List.prefix_append _ _)⟩
  rcases List.prefix_or_prefix_of_prefix hp (List.prefix_append before rest) with hb | hb
  · exact hb
  · obtain ⟨more, rfl⟩ := hb
    rw [List.prefix_append_right_inj] at hp
    cases more with
    | nil => exact ⟨[], by simp⟩
    | cons b more =>
      obtain ⟨after, rfl⟩ := hp
      exact absurd (List.mem_append_right _ List.mem_cons_self) (h b rfl)

theorem isPrefixOf_append_eq_false (h : ¬ bytes <+: before)
    (hrest : ∀ b, rest.head? = some b → b ∉ bytes) : bytes.isPrefixOf (before ++ rest) = false := by
  rw [Bool.eq_false_iff, Ne, List.isPrefixOf_iff_prefix, prefix_append_iff hrest]
  exact h

theorem Quoted.cut (h : Quoted bytes) (rest : Bytes) :
    cutUnquoted? none (bytes ++ 0x3E :: rest) = some (bytes, rest) := by
  have hquoted {quote : UInt8} {text : Bytes} (ht : quote ∉ text) (rest : Bytes) :
      cutUnquoted? (some quote) (text ++ quote :: rest) =
        (cutUnquoted? none rest).map fun found => (text ++ quote :: found.1, found.2) := by
    induction text with
    | nil => simp [cutUnquoted?]
    | cons b more ih =>
      rw [List.mem_cons, not_or] at ht
      have hb : (b == quote) = false := beq_eq_false_iff_ne.mpr (Ne.symm ht.1)
      rw [List.cons_append, cutUnquoted?, hb]
      simp [ih ht.2, Function.comp_def]
  induction h with
  | nil => simp [cutUnquoted?]
  | byte hb hend _ ih =>
    rw [List.cons_append, cutUnquoted?]
    simp [hend, hb, ih]
  | @literal quote text more hq ht _ ih =>
    have hne : (quote == 0x3E) = false := by
      rcases Bool.or_eq_true_iff.mp hq with hq | hq <;> (rw [eq_of_beq hq]; rfl)
    rw [List.cons_append, cutUnquoted?]
    simp [hne, hq, hquoted ht, ih]

/-- What is cut off is quoted, behind the quote that was open at its start. -/
theorem quoted_of_cut {quote : Option UInt8} (hq : ∀ q ∈ quote, isQuote q)
    {bs before after : Bytes} (h : cutUnquoted? quote bs = some (before, after)) :
    Quoted (quote.toList ++ before) := by
  fun_induction cutUnquoted? quote bs generalizing before after with
  | case1 => cases h
  | case2 b rest continueWith q ih =>
    obtain ⟨⟨more, _⟩, hcut, hfound⟩ := Option.map_eq_some_iff.mp h
    obtain ⟨rfl, rfl⟩ := Prod.mk.inj hfound
    have hquote : isQuote q := hq q rfl
    have hmore := ih _ (by split <;> simp [hquote]) hcut
    split at hmore
    next hb =>
      obtain rfl := eq_of_beq hb
      exact .literal hquote List.not_mem_nil hmore
    next hb =>
      cases hmore with
      | byte hd => cases hd.symm.trans hquote
      | @literal _ text rest _ ht hrest =>
        have hb : q ≠ b := fun he => hb (beq_iff_eq.mpr he.symm)
        have ht : q ∉ b :: text := List.not_mem_cons_of_ne_of_not_mem hb ht
        exact .literal hquote ht hrest
  | case3 =>
    obtain ⟨rfl, rfl⟩ := Prod.mk.inj (Option.some.inj h)
    exact .nil
  | case4 b rest continueWith hb ih =>
    obtain ⟨⟨more, _⟩, hcut, hfound⟩ := Option.map_eq_some_iff.mp h
    obtain ⟨rfl, rfl⟩ := Prod.mk.inj hfound
    have hmore := ih _ (by split <;> simp [*]) hcut
    split at hmore
    next => exact hmore
    next hquote =>
      exact .byte (Bool.eq_false_iff.mpr hquote) (fun he => hb (beq_iff_eq.mpr he)) hmore

end

namespace SubsetPart

variable {part : SubsetPart} {parts : List SubsetPart} {stop : Nat}

theorem readItem_comment {text : Bytes} (h : ¬ ascii "-->" <:+: text) (rest : Bytes) :
    readItem stop ((comment text).write ++ rest) = .ok (some (.comment text), rest) := by
  have hform : (comment text).write ++ rest = ascii "<!--" ++ (text ++ ascii "-->" ++ rest) := by
    simp [write]
  have hprefix : (ascii "<!--").isPrefixOf (ascii "<!--" ++ (text ++ ascii "-->" ++ rest)) :=
    List.isPrefixOf_iff_prefix.mpr (List.prefix_append _ _)
  have hcut : cut? (ascii "-->") ((ascii "<!--" ++ (text ++ ascii "-->" ++ rest)).drop 4) =
      some (text, rest) := cut?_comment h rest
  rw [hform, readItem, if_pos hprefix, hcut]

theorem readItem_instruction {target data : Bytes} (ht : isName target) (hd : EndsName data)
    (hend : ¬ ascii "?>" <:+: data) (rest : Bytes) :
    readItem stop ((instruction target data).write ++ rest) =
      .ok (some (.instruction target (trimStart data)), rest) := by
  have hname : readName? (target ++ data) = some (target, data) := readName?_append ht hd
  have hcut := cut?_instruction ht hend rest
  have hform : (instruction target data).write ++ rest =
      0x3C :: 0x3F :: (target ++ data ++ ascii "?>" ++ rest) := rfl
  -- The opening shares no byte with the end, for there is a target between them.
  have hshared : (ascii "<?>").isPrefixOf
      (0x3C :: 0x3F :: (target ++ data ++ ascii "?>" ++ rest)) = false := by
    obtain ⟨b, tail, rfl, hb⟩ := exists_cons_of_isName ht
    have hne : ((0x3E : UInt8) == b) = false :=
      beq_eq_false_iff_ne.mpr (isNameStart_ne hb (by decide)).symm
    show ((0x3E : UInt8) == b && true) = false
    rw [hne]
    rfl
  have hcomment : (ascii "<!--").isPrefixOf
      (0x3C :: 0x3F :: (target ++ data ++ ascii "?>" ++ rest)) = false := rfl
  have hopen : (ascii "<?").isPrefixOf
      (0x3C :: 0x3F :: (target ++ data ++ ascii "?>" ++ rest)) = true := rfl
  have hcut : cut? (ascii "?>") ((0x3C :: 0x3F :: (target ++ data ++ ascii "?>" ++ rest)).drop 2) =
      some (target ++ data, rest) := hcut
  rw [hform, readItem]
  simp only [hcomment, hshared, hopen, hcut, hname, Bool.false_eq_true, ↓reduceIte]

/-- A reference reaches to its semicolon, or to the end if there is none. -/
theorem readItem_percent (text : Bytes) :
    readItem stop (0x25 :: text) =
      .ok (none, ((cutAt? (· == 0x3B) text).map Prod.snd).getD []) := by
  have hcomment : (ascii "<!--").isPrefixOf (0x25 :: text) = false := rfl
  have hshared : (ascii "<?>").isPrefixOf (0x25 :: text) = false := rfl
  have hopen : (ascii "<?").isPrefixOf (0x25 :: text) = false := rfl
  have hentity : (ascii "<!ENTITY").isPrefixOf (0x25 :: text) = false := rfl
  have hother : (ascii "<!").isPrefixOf (0x25 :: text) = false := rfl
  have hcut : cutAt? (· == 0x3B) (0x25 :: text) =
      (cutAt? (· == 0x3B) text).map fun found => (0x25 :: found.1, found.2) := rfl
  rw [readItem]
  simp only [hcomment, hshared, hopen, hentity, hother, hcut, List.head?_cons, Bool.false_eq_true,
    ↓reduceIte]
  cases cutAt? (· == 0x3B) text with
  | none => rfl
  | some found => rfl

theorem readItem_reference {name : Bytes} (h : 0x3B ∉ name) (rest : Bytes) :
    readItem stop ((reference name).write ++ rest) = .ok (none, rest) := by
  have hform : (reference name).write ++ rest = 0x25 :: (name ++ 0x3B :: rest) := by simp [write]
  rw [hform, readItem_percent, cutAt?_quote h]
  rfl

/-- The declaration of an entity ends where its quoted body does. -/
theorem readItem_entityBody {body : Bytes} (h : Quoted body) (rest : Bytes) :
    readItem stop (ascii "<!ENTITY" ++ body ++ 0x3E :: rest) =
      match readEntity body.length body with
      | .error fault =>
        .error (fault.shift (stop - (ascii "<!ENTITY" ++ body ++ 0x3E :: rest).length))
      | .ok item => .ok (item, rest) := by
  have hentity : (ascii "<!ENTITY").isPrefixOf (ascii "<!ENTITY" ++ body ++ 0x3E :: rest) := by
    rw [List.isPrefixOf_iff_prefix, List.append_assoc]
    exact List.prefix_append _ _
  have hcut : cutUnquoted? none ((ascii "<!ENTITY" ++ body ++ 0x3E :: rest).drop 8) =
      some (body, rest) := by
    rw [List.append_assoc]
    exact h.cut rest
  have hcomment : (ascii "<!--").isPrefixOf (ascii "<!ENTITY" ++ body ++ 0x3E :: rest) = false :=
    rfl
  have hshared : (ascii "<?>").isPrefixOf (ascii "<!ENTITY" ++ body ++ 0x3E :: rest) = false := rfl
  have hopen : (ascii "<?").isPrefixOf (ascii "<!ENTITY" ++ body ++ 0x3E :: rest) = false := rfl
  rw [readItem]
  cases hread : readEntity body.length body with
  | error fault =>
    simp only [hcomment, hshared, hopen, hentity, hcut, hread, Bool.false_eq_true, ↓reduceIte]
  | ok item =>
    simp only [hcomment, hshared, hopen, hentity, hcut, hread, Bool.false_eq_true, ↓reduceIte]

theorem readItem_entityDeclaration {body : Bytes} (h : Quoted body) {item : Option SubsetItem}
    (hr : readEntity body.length body = .ok item) (rest : Bytes) :
    readItem stop (ascii "<!ENTITY" ++ body ++ 0x3E :: rest) = .ok (item, rest) := by
  rw [readItem_entityBody h, hr]

theorem readItem_entity {before name between : Bytes} {quote : UInt8} {value after : Bytes}
    (hbefore : IsSpaces before) (hn : isName name) (hbetween : IsSpaces between)
    (hq : isQuote quote) (hv : quote ∉ value) (ha : Quoted after) (rest : Bytes) :
    readItem stop ((entity before name between quote value after).write ++ rest) =
      .ok (some (.entity name value), rest) := by
  have hquoted : Quoted (before ++ name ++ between ++ quote :: (value ++ quote :: after)) := by
    rw [List.append_assoc, List.append_assoc]
    exact .prepend (isInert_spaces hbefore) (.prepend (isInert_name hn)
      (.prepend (isInert_spaces hbetween) (.literal hq hv ha)))
  have hform : (entity before name between quote value after).write ++ rest =
      ascii "<!ENTITY" ++ (before ++ name ++ between ++ quote :: (value ++ quote :: after)) ++
        0x3E :: rest := by
    simp [write]
  rw [hform]
  refine readItem_entityDeclaration hquoted ?_ rest
  have hname : readName? (name ++ (between ++ quote :: (value ++ quote :: after))) =
      some (name, between ++ quote :: (value ++ quote :: after)) :=
    readName?_append hn (endsName_spaces hbetween (forall_head?_cons (isNameByte_of_isQuote hq) _))
  have hhead := head?_name_ne hn (by decide : isNameByte 0x25 = false)
    (between ++ quote :: (value ++ quote :: after))
  rw [readEntity]
  generalize (before ++ name ++ between ++ quote :: (value ++ quote :: after)).length = stop
  simp only [List.append_assoc, trimStart_spaces hbefore, trimStart_name hn, hhead, hname,
    trimStart_spaces hbetween, trimStart_quote hq, List.head?_cons, Option.any_some, hq,
    ↓reduceIte]
  rw [← List.nil_append (quote :: _), readLiteral_quoted (by simp [IsSpaces]) hq hv after]
  rfl

theorem readItem_declaration {body : Bytes} (h : Quoted body) (hc : ¬ ascii "--" <+: body)
    (hs : IsSkipped body) (rest : Bytes) :
    readItem stop ((declaration body).write ++ rest) = .ok (none, rest) := by
  rcases hs with hs | ⟨before, tail, rfl, hbefore, htail⟩
  · have hform : (declaration body).write ++ rest = 0x3C :: 0x21 :: (body ++ 0x3E :: rest) := by
      show ascii "<!" ++ body ++ [0x3E] ++ rest = _
      rw [List.append_assoc]
      rfl
    have hcomment : (ascii "<!--").isPrefixOf (0x3C :: 0x21 :: (body ++ 0x3E :: rest)) = false :=
      isPrefixOf_append_eq_false hc (forall_head?_cons (by decide) rest)
    have hentity :
        (ascii "<!ENTITY").isPrefixOf (0x3C :: 0x21 :: (body ++ 0x3E :: rest)) = false :=
      isPrefixOf_append_eq_false hs (forall_head?_cons (by decide) rest)
    have hshared : (ascii "<?>").isPrefixOf (0x3C :: 0x21 :: (body ++ 0x3E :: rest)) = false := rfl
    have hopen : (ascii "<?").isPrefixOf (0x3C :: 0x21 :: (body ++ 0x3E :: rest)) = false := rfl
    have hother : (ascii "<!").isPrefixOf (0x3C :: 0x21 :: (body ++ 0x3E :: rest)) = true := rfl
    have hcut : cutUnquoted? none ((0x3C :: 0x21 :: (body ++ 0x3E :: rest)).drop 2) =
        some (body, rest) := h.cut rest
    rw [hform, readItem]
    simp only [hcomment, hshared, hopen, hentity, hother, hcut, Bool.false_eq_true, ↓reduceIte]
  · have hform : (declaration (ascii "ENTITY" ++ before ++ tail)).write ++ rest =
        ascii "<!ENTITY" ++ (before ++ tail) ++ 0x3E :: rest := by
      simp [write, ascii]
    have hquoted : Quoted (before ++ tail) := by
      rw [List.append_assoc] at h
      exact h.of_prepend (by decide)
    rw [hform]
    refine readItem_entityDeclaration hquoted ?_ rest
    rw [readEntity]
    generalize (before ++ tail).length = stop
    rw [trimStart_spaces hbefore]
    rcases htail with hhead | ⟨name, more, rfl, hn, hends, hmore⟩
    · have htrim : trimStart tail = tail := trimStart_of_head? fun b hb => by
        obtain rfl := Option.some.inj (hhead.symm.trans hb)
        rfl
      rw [htrim, if_pos hhead]
    · have hhead := head?_name_ne hn (by decide : isNameByte 0x25 = false) more
      simp only [trimStart_name hn, hhead, readName?_append hn hends, hmore, Bool.false_eq_true,
        ↓reduceIte]

theorem readItem_write (h : part.Proper) (hpart : ∀ bytes, part ≠ .space bytes) (rest : Bytes) :
    readItem stop (part.write ++ rest) = .ok (part.item?, rest) := by
  cases h with
  | space => exact absurd rfl (hpart _)
  | comment h => exact readItem_comment h rest
  | instruction ht hd hend => exact readItem_instruction ht hd hend rest
  | reference h =>
    refine readItem_reference (fun hm => ?_) rest
    exact ne_of_isNameByte (isNameByte_of_isName h _ hm) (by decide : isNameByte 0x3B = false) rfl
  | entity hbefore hn hbetween hq hv ha =>
    exact readItem_entity hbefore hn hbetween hq hv ha rest
  | declaration h hc hs => exact readItem_declaration h hc hs rest

/-- A part that is not white space begins with another byte. -/
theorem exists_cons_of_proper (h : part.Proper) (hpart : ∀ bytes, part ≠ .space bytes) :
    ∃ b tail, part.write = b :: tail ∧ isSpace b = false := by
  cases h with
  | space => exact absurd rfl (hpart _)
  | reference => exact ⟨0x25, _, rfl, rfl⟩
  | _ => exact ⟨0x3C, _, rfl, rfl⟩

theorem readItems_trimStart (stop fuel : Nat) (text : Bytes) :
    readItems stop fuel (trimStart text) = readItems stop fuel text := by
  cases fuel with
  | zero => rfl
  | succ fuel =>
    have htrim : trimStart (trimStart text) = trimStart text :=
      List.dropWhile_idempotent isSpace text
    rw [readItems, htrim, readItems]

theorem readItems_writeAll (h : ∀ part ∈ parts, part.Proper) (stop : Nat) {fuel : Nat}
    (hf : (writeAll parts).length ≤ fuel) :
    readItems stop fuel (writeAll parts) = .ok (parts.filterMap item?) := by
  induction parts generalizing fuel with
  | nil =>
    cases fuel with
    | zero => rfl
    | succ fuel => rfl
  | cons part rest ih =>
    obtain ⟨hproper, hrest⟩ := List.forall_mem_cons.mp h
    have hwrite : writeAll (part :: rest) = part.write ++ writeAll rest := rfl
    rw [hwrite, List.length_append] at hf
    rw [hwrite]
    by_cases hspace : ∃ bytes, part = .space bytes
    · obtain ⟨bytes, rfl⟩ := hspace
      cases hproper with
      | space hs =>
        -- White space is no item of its own: it is skipped with what follows it.
        rw [← readItems_trimStart]
        have htrim := trimStart_spaces hs (writeAll rest)
        rw [show trimStart ((space bytes).write ++ writeAll rest) = trimStart (writeAll rest) from
          htrim, readItems_trimStart, ih hrest (by omega)]
        rfl
    · have hpart : ∀ bytes, part ≠ .space bytes := fun bytes he => hspace ⟨bytes, he⟩
      obtain ⟨b, tail, hb, hs⟩ := exists_cons_of_proper hproper hpart
      have htrim : trimStart (part.write ++ writeAll rest) = part.write ++ writeAll rest := by
        rw [hb]
        exact trimStart_of_head? (forall_head?_cons hs _)
      have hlength : part.write.length = tail.length + 1 := by rw [hb, List.length_cons]
      obtain ⟨fuel, rfl⟩ : ∃ more, fuel = more + 1 := ⟨fuel - 1, by omega⟩
      rw [readItems, htrim]
      have hne : (part.write ++ writeAll rest).isEmpty = false := by rw [hb]; rfl
      simp only [hne, Bool.false_eq_true, ↓reduceIte, readItem_write hproper hpart]
      simp only [bind, Except.bind, ih hrest (by omega : (writeAll rest).length ≤ fuel), pure,
        Except.pure, List.filterMap_cons]
      cases part.item? <;> rfl

end SubsetPart

namespace WrittenDoctype

variable {d : WrittenDoctype}

theorem readLiteral_write {literal : QuotedLiteral} (h : literal.Proper) (stop : Nat)
    (rest : Bytes) : readLiteral stop (literal.write ++ rest) = .ok (literal.text, rest) := by
  have hform : literal.write ++ rest =
      literal.space ++ literal.quote :: (literal.text ++ literal.quote :: rest) := by
    simp [QuotedLiteral.write]
  rw [hform, readLiteral_quoted h.space h.quote h.text rest]

/-- External identifiers are read back, with the white space before them, if nothing or an opening
bracket follows. -/
theorem readExternalId_write {externalId : ExternalId} (h : externalId.Proper)
    {between tail : Bytes} (hb : IsSpaces between) (ht : ∀ b, tail.head? = some b → b = 0x5B)
    (stop : Nat) :
    ∃ rest, readExternalId stop (trimStart (externalId.write ++ (between ++ tail))) =
        .ok (externalId.publicId?, externalId.systemId?, rest) ∧
      trimStart rest = tail := by
  have htrim : trimStart tail = tail := trimStart_of_head? fun b hhead => ht b hhead ▸ rfl
  have hbetween : trimStart (between ++ tail) = tail := by
    rw [trimStart_spaces hb, htrim]
  cases h with
  | nothing =>
    refine ⟨tail, ?_, htrim⟩
    rw [ExternalId.write, List.nil_append, hbetween]
    cases tail with
    | nil => rfl
    | cons b inner =>
      obtain rfl := ht b rfl
      rfl
  | @system systemId h =>
    refine ⟨between ++ tail, ?_, hbetween⟩
    generalize between ++ tail = rest
    have hread := readLiteral_write h stop rest
    rw [ExternalId.write, List.append_assoc]
    have hspace : trimStart (ascii "SYSTEM" ++ (systemId.write ++ rest)) =
        ascii "SYSTEM" ++ (systemId.write ++ rest) := rfl
    have hpublic : (ascii "PUBLIC").isPrefixOf (ascii "SYSTEM" ++ (systemId.write ++ rest)) =
        false := rfl
    have hsystem : (ascii "SYSTEM").isPrefixOf (ascii "SYSTEM" ++ (systemId.write ++ rest)) =
        true := List.isPrefixOf_iff_prefix.mpr (List.prefix_append _ _)
    have hdrop : (ascii "SYSTEM" ++ (systemId.write ++ rest)).drop 6 = systemId.write ++ rest := rfl
    rw [hspace, readExternalId]
    simp only [hpublic, hsystem, hdrop, hread, Bool.false_eq_true, ↓reduceIte]
    rfl
  | @both publicId systemId h h' =>
    refine ⟨between ++ tail, ?_, hbetween⟩
    generalize between ++ tail = rest
    have hread := readLiteral_write h stop (systemId.write ++ rest)
    have hread' := readLiteral_write h' stop rest
    rw [ExternalId.write, List.append_assoc, List.append_assoc]
    have hspace : trimStart (ascii "PUBLIC" ++ (publicId.write ++ (systemId.write ++ rest))) =
        ascii "PUBLIC" ++ (publicId.write ++ (systemId.write ++ rest)) := rfl
    have hpublic : (ascii "PUBLIC").isPrefixOf
        (ascii "PUBLIC" ++ (publicId.write ++ (systemId.write ++ rest))) = true :=
      List.isPrefixOf_iff_prefix.mpr (List.prefix_append _ _)
    have hdrop : (ascii "PUBLIC" ++ (publicId.write ++ (systemId.write ++ rest))).drop 6 =
        publicId.write ++ (systemId.write ++ rest) := rfl
    rw [hspace, readExternalId]
    simp only [hpublic, hdrop, hread, bind, Except.bind, hread', ↓reduceIte]
    rfl

/-- What is read as a literal is one, with the white space before it. -/
theorem exists_quotedLiteral {stop : Nat} {text : Bytes} {found : Bytes × Bytes}
    (h : readLiteral stop text = .ok found) :
    ∃ literal : QuotedLiteral, literal.Proper ∧ literal.text = found.1 ∧
      text = literal.write ++ found.2 := by
  obtain ⟨space, hspace, hsplit⟩ := exists_spaces text
  unfold readLiteral at h
  split at h
  next => cases h
  next quote quoted hquoted =>
    rw [hquoted] at hsplit
    split at h
    next hq =>
      split at h
      next => cases h
      next hcut =>
        cases h
        obtain ⟨b, hb, rfl, hv⟩ := cutAt?_append hcut
        obtain rfl := eq_of_beq hb
        refine ⟨⟨space, b, found.1⟩, ⟨hspace, hq, fun hm => ?_⟩, rfl, ?_⟩
        · simpa using hv b hm
        · simp [hsplit, QuotedLiteral.write]
    next => cases h

theorem exists_externalId {stop : Nat} {text rest : Bytes} {publicId systemId : Option Bytes}
    (h : readExternalId stop text = .ok (publicId, systemId, rest)) :
    ∃ externalId : ExternalId, externalId.Proper ∧ externalId.publicId? = publicId ∧
      externalId.systemId? = systemId ∧ text = externalId.write ++ rest := by
  have hdrop {keyword : Bytes} (hl : keyword.length = 6) (hk : keyword.isPrefixOf text) :
      text = keyword ++ text.drop 6 := by
    obtain ⟨more, rfl⟩ := List.isPrefixOf_iff_prefix.mp hk
    rw [← hl, List.drop_left]
  unfold readExternalId at h
  split at h
  next hk =>
    obtain ⟨⟨publicId, more⟩, hpublic, h⟩ := exists_of_bind_eq_ok h
    obtain ⟨⟨systemId, last⟩, hsystem, h⟩ := exists_of_bind_eq_ok h
    cases h
    obtain ⟨first, hfirst, rfl, hsplit⟩ := exists_quotedLiteral hpublic
    obtain ⟨second, hsecond, rfl, hmore⟩ := exists_quotedLiteral hsystem
    refine ⟨.both first second, .both hfirst hsecond, rfl, rfl, ?_⟩
    rw [hdrop rfl hk, hsplit]
    simp only at hmore
    simp [hmore, ExternalId.write]
  next =>
    split at h
    next hk =>
      obtain ⟨⟨systemId, last⟩, hsystem, h⟩ := exists_of_bind_eq_ok h
      cases h
      obtain ⟨literal, hliteral, rfl, hsplit⟩ := exists_quotedLiteral hsystem
      refine ⟨.system literal, .system hliteral, rfl, rfl, ?_⟩
      rw [hdrop rfl hk, hsplit]
      simp [ExternalId.write]
    next =>
      cases h
      exact ⟨.nothing, .nothing, rfl, rfl, rfl⟩

theorem readHeading_write {before name gap between tail : Bytes} {externalId : ExternalId}
    (hbefore : IsSpaces before) (hn : isName name) (hgap : IsSpaces gap)
    (happart : gap = [] → externalId = .nothing) (he : externalId.Proper)
    (hbetween : IsSpaces between) (ht : ∀ b, tail.head? = some b → b = 0x5B) (stop : Nat) :
    ∃ rest more, readName? (trimStart
        (before ++ (name ++ (gap ++ (externalId.write ++ (between ++ tail)))))) =
        some (name, rest) ∧
      readExternalId stop (trimStart rest) =
        .ok (externalId.publicId?, externalId.systemId?, more) ∧
      trimStart more = tail := by
  have hends : EndsName (gap ++ (externalId.write ++ (between ++ tail))) := by
    cases gap with
    | nil =>
      -- Then no identifier follows, and the name ends before white space or the subset.
      rw [happart rfl]
      show EndsName (between ++ tail)
      exact endsName_spaces hbetween fun b hhead => ht b hhead ▸ rfl
    | cons b more => exact forall_head?_cons (isNameByte_of_isSpace (hgap b List.mem_cons_self)) _
  obtain ⟨more, hexternal, hmore⟩ := readExternalId_write he hbetween ht stop
  refine ⟨gap ++ (externalId.write ++ (between ++ tail)), more, ?_, ?_, hmore⟩
  · rw [trimStart_spaces hbefore, trimStart_name hn, readName?_append hn hends]
  · rw [trimStart_spaces hgap, hexternal]

theorem readDoctype_write (h : d.Proper) (stop : Nat) :
    readDoctype stop (d.body.drop 7) = .ok d.content := by
  have hopen : ∀ b, (writeSubset d.subset).head? = some b → b = 0x5B := by
    unfold writeSubset
    split
    · rintro b ⟨⟩
    · rintro b ⟨⟩
      rfl
  obtain ⟨rest, more, hname, hexternal, htrim⟩ :=
    readHeading_write h.before h.name h.gap h.apart h.externalId h.between hopen stop
  have hdrop : d.body.drop 7 = d.before ++ (d.name ++ d.rest) := rfl
  rw [hdrop, readDoctype, WrittenDoctype.rest]
  simp only [hname, hexternal, bind, Except.bind, htrim]
  cases hsubset : d.subset with
  | none =>
    simp only [writeSubset, content, parts, hsubset]
    rfl
  | some subset =>
    obtain ⟨written, after⟩ := subset
    have hparts : d.parts = written := by rw [parts, hsubset]; rfl
    have hafter : 0x5D ∉ after := fun hm =>
      Bool.false_ne_true (h.after written after hsubset _ hm)
    have hcut := cutLastBracket?_eq_some_iff.mpr
      ⟨(rfl : SubsetPart.writeAll written ++ 0x5D :: after = _), hafter⟩
    have hitems := SubsetPart.readItems_writeAll (hparts ▸ h.parts)
      (stop - (after.length + 1)) (Nat.le_refl _)
    simp only [writeSubset, hcut, readSubset, hitems, content, hparts]
    rfl

end WrittenDoctype

end XmlStore
