import XmlStore.Proofs.Agreement
import XmlStore.Proofs.Lexical
import XmlStore.Proofs.Summarizing
import XmlStore.Proofs.Writing

/-!
# Names of ingested nodes

A parser tells names that are names, an assembly passes them on, and a builder keeps them. So the
path to a node of an ingested document can be written, and is found in the summary of paths.
-/

namespace XmlStore

-- ---------------------------------------------------------------------------
-- Names that are read
-- ---------------------------------------------------------------------------

/-- An element and its attributes have names. -/
def Event.Named : Event → Prop
  | .startElement name attributes => isName name ∧ ∀ att ∈ attributes, isName att.name
  | _ => True

theorem Event.Named.of_isRemark {event : Event} (h : event.isRemark) : event.Named := by
  cases event with
  | startElement => cases h
  | _ => trivial

theorem isName_spanName {b : UInt8} (h : isNameStart b) (rest : Bytes) :
    isName (spanName (b :: rest)).1 := by
  have hb : isNameByte b = true := by simp [isNameByte, h]
  simp [spanName, hb, isName, h, List.all_takeWhile]

theorem readName?_named {text name rest : Bytes} (h : readName? text = some (name, rest)) :
    isName name := by
  cases text with
  | nil => cases h
  | cons b text =>
    rw [readName?, Option.ite_none_right_eq_some] at h
    obtain ⟨hb, hspan⟩ := h
    obtain rfl : (spanName (b :: text)).1 = name := congrArg Prod.fst (Option.some.inj hspan)
    exact isName_spanName hb text

/-- A name is read just if one stands at the start, and as much of it as there is. -/
theorem readName?_eq_some_iff {text name rest : Bytes} : readName? text = some (name, rest) ↔
    isName name ∧ text = name ++ rest ∧ ∀ b, rest.head? = some b → isNameByte b = false := by
  constructor
  · intro h
    refine ⟨readName?_named h, ?_⟩
    cases text with
    | nil => cases h
    | cons b more =>
      rw [readName?, Option.ite_none_right_eq_some] at h
      obtain ⟨rfl, rfl⟩ := Prod.mk.inj (Option.some.inj h.2)
      refine ⟨List.takeWhile_append_dropWhile.symm, fun d hd => ?_⟩
      have hhead := List.head?_dropWhile_not isNameByte (b :: more)
      rw [hd] at hhead
      exact hhead
  · rintro ⟨hn, rfl, hrest⟩
    exact readName?_append hn hrest

theorem readAttribute_named {stop : Nat} {text rest : Bytes} {att : Attribute}
    (h : readAttribute stop text = .ok (att, rest)) : isName att.name := by
  unfold readAttribute at h
  split at h
  next => cases h
  next name afterName hname =>
    have hnamed := readName?_named hname
    repeat' split at h
    all_goals cases h
    exact hnamed

theorem rawAttributes_named (stop : Nat) (text : Bytes) :
    ∀ att ∈ (rawAttributes stop text).1, isName att.name := by
  fun_induction rawAttributes stop text with
  | case1 => simp
  | case2 => simp
  | case3 _ _ _ _ _ _ hr _ ih => exact List.forall_mem_cons.mpr ⟨readAttribute_named hr, ih⟩

theorem decodeAttributes_named {entities : Entities} {attributes decoded : List Attribute}
    (hn : ∀ att ∈ attributes, isName att.name)
    (h : (decodeAttributes entities attributes).2 = .ok decoded) :
    ∀ att ∈ decoded, isName att.name := by
  fun_induction decodeAttributes entities attributes generalizing decoded with
  | case1 =>
    cases h
    exact hn
  | case2 => cases h
  | case3 =>
    rename_i ih
    obtain ⟨hatt, hrest⟩ := List.forall_mem_cons.mp hn
    obtain ⟨others, hothers, rfl⟩ := Reading.map_eq_ok h
    exact List.forall_mem_cons.mpr ⟨hatt, ih hrest hothers⟩

theorem readAttributes_named {entities : Entities} {stop : Nat} {text : Bytes}
    {attributes : List Attribute} (h : (readAttributes entities stop text).2 = .ok attributes) :
    ∀ att ∈ attributes, isName att.name := by
  unfold readAttributes at h
  simp only at h
  split at h
  · cases h
  · exact decodeAttributes_named (rawAttributes_named stop text) h

/-- The elements and attributes that a reading tells have names. -/
def Reading.Named {α : Type} (reading : Reading α) : Prop :=
  ∀ event ∈ reading.events, event.2.Named

namespace Reading.Named

variable {α : Type} {c : Context}

theorem fail (fault : Error) : (c.fail fault : Reading α).Named := by
  rintro event ⟨⟩

theorem failAt (position : Nat) (fault : Fault) : (c.failAt position fault : Reading α).Named :=
  fail _

theorem incomplete (here : Nat) (last : Bool) (fault : Fault) :
    (c.incomplete here last fault).Named := by
  unfold Context.incomplete
  split
  · exact failAt _ _
  · rintro event ⟨⟩

/-- What is known may change once the events are told. -/
theorem readTo {c' : Context} {events : List Event} (h : ∀ event ∈ events, event.Named)
    (outcome : Except Error α) :
    ({ events := events.map (c, ·), context := c', outcome } : Reading α).Named := by
  intro event hm
  obtain ⟨told, ht, rfl⟩ := List.mem_map.mp hm
  exact h told ht

theorem read {events : List Event} (h : ∀ event ∈ events, event.Named) (taken : Nat) :
    (c.read events taken).Named := readTo h _

end Reading.Named

namespace Construct

variable {c : Context} {here : Nat} {last : Bool} {bs : Bytes}

theorem openingEvents_named {name : Bytes} {attributes : List Attribute} (hname : isName name)
    (hattributes : ∀ att ∈ attributes, isName att.name) :
    ∀ event ∈ openingEvents name attributes, event.Named := by
  intro event hm
  unfold openingEvents at hm
  rcases List.mem_append.mp hm with hm | hm
  · obtain ⟨att, -, hdeclares⟩ := List.mem_filterMap.mp hm
    obtain ⟨qualifier, -, rfl⟩ := Option.map_eq_some_iff.mp hdeclares
    trivial
  · rw [List.mem_singleton.mp hm]
    exact ⟨hname, fun att ha => hattributes att (List.mem_filter.mp ha).1⟩

/-- A tag begins with the first byte of a name, which is not the slash at its end. -/
theorem tag_head {b : UInt8} (hb : bs[1]? = some b) (hstart : isNameStart b) {tag after : Bytes}
    (hcut : cutUnquoted? none (bs.drop 1) = some (tag, after)) :
    ∃ rest, (if tag.getLast? == some 0x2F then tag.dropLast else tag) = b :: rest := by
  have hbytes := cutUnquoted?_append hcut
  have hhead : (bs.drop 1).head? = some b := by rw [List.head?_drop, hb]
  rw [hbytes] at hhead
  cases tag with
  | nil =>
    cases hhead
    cases hstart
  | cons first rest =>
    cases hhead
    split
    next hslash =>
      cases rest with
      | nil =>
        rw [List.getLast?_singleton, beq_iff_eq, Option.some.injEq] at hslash
        subst hslash
        cases hstart
      | cons next rest => exact ⟨_, List.dropLast_cons_cons⟩
    next => exact ⟨rest, rfl⟩

theorem startTag_named {b : UInt8} (hb : bs[1]? = some b) (hstart : isNameStart b) :
    (startTag c here last bs).Named := by
  unfold startTag
  split
  · exact .incomplete _ _ _
  next tag after hcut =>
    split
    · exact .failAt _ _
    · obtain ⟨rest, hbody⟩ := tag_head hb hstart hcut
      simp only [hbody]
      split
      · exact .fail _
      next attributes hattributes =>
        have hopening := openingEvents_named (isName_spanName hstart rest)
          (readAttributes_named hattributes)
        split
        · exact .failAt _ _
        · split
          · refine .readTo ?_ _
            rw [List.forall_mem_append, List.forall_mem_singleton]
            exact ⟨hopening, trivial⟩
          · exact .readTo hopening _

theorem subsetEvents_named (items : List SubsetItem) (c : Context) :
    ∀ event ∈ (subsetEvents c items).1, event.2.Named := by
  obtain ⟨hremarks, -⟩ := subsetEvents_follows items c
  intro event hm
  exact .of_isRemark (List.all_eq_true.mp hremarks _ (List.mem_map_of_mem hm))

theorem text_named : (text c here last bs).Named := by
  obtain ⟨run, rest, rfl, hrun, hrest⟩ := exists_run bs
  rw [text_run hrun hrest]
  have htold (run : Bytes) (progress : Progress) :
      (told c (textEvents c here run) progress).Named := by
    rw [← told_textEvents]
    split
    · split
      · rintro event ⟨⟩
      · intro event hm
        rw [List.mem_singleton.mp hm]
        trivial
    · split
      · exact .failAt _ _
      · rintro event ⟨⟩
  split <;> exact htold _ _

theorem reference_named : (reference c here last bs).Named := by
  unfold reference
  split
  · exact .incomplete _ _ _
  · split
    · exact .failAt _ _
    · split
      · exact .failAt _ _
      · simp only
        split
        · exact .fail _
        · exact .read (by simp [Event.Named]) _

theorem endTag_named : (endTag c here last bs).Named := by
  unfold endTag
  split
  · exact .incomplete _ _ _
  · simp only
    split
    · exact .failAt _ _
    · split
      · exact .failAt _ _
      · exact .readTo (by simp [Event.Named]) _

theorem instruction_named : (instruction c here last bs).Named := by
  unfold instruction
  split
  · exact .incomplete _ _ _
  · split
    · exact .failAt _ _
    · simp only
      split
      · unfold xmlDeclaration
        split
        · exact .failAt _ _
        · split
          · exact .failAt _ _
          · exact .read (by simp) _
          · simp only
            split
            · exact .read (by simp) _
            · exact .fail _
      · exact .read (by simp [Event.Named]) _

theorem comment_named : (comment c here last bs).Named := by
  unfold comment
  split
  · exact .incomplete _ _ _
  · split
    · exact .failAt _ _
    · exact .read (by simp [Event.Named]) _

theorem literalSection_named : (literalSection c here last bs).Named := by
  unfold literalSection
  split
  · exact .failAt _ _
  · split
    · exact .incomplete _ _ _
    · exact .read (by simp [Event.Named]) _

theorem doctype_named : (doctype c here last bs).Named := by
  unfold doctype
  split
  · exact .failAt _ _
  · split
    · exact .incomplete _ _ _
    · simp only
      split
      · exact .fail _
      next doctype _ =>
        intro event hm
        rcases List.mem_append.mp hm with hm | hm
        · rcases List.mem_cons.mp hm with rfl | hm
          · trivial
          · exact subsetEvents_named _ _ event hm
        · rw [List.mem_singleton.mp hm]
          trivial

theorem declaration_named : (declaration c here last bs).Named := by
  unfold declaration
  split
  · exact .incomplete _ _ _
  · split
    · exact comment_named
    · split
      · exact literalSection_named
      · split
        · exact doctype_named
        · exact .failAt _ _

theorem read_named (c : Context) (here : Nat) (last : Bool) (bs : Bytes) :
    (read c here last bs).Named := by
  unfold read
  split
  · unfold markup
    split
    · exact .incomplete _ _ _
    next b hb =>
      split
      · exact endTag_named
      · split
        · exact instruction_named
        · split
          · exact declaration_named
          · split
            next hstart => exact startTag_named hb hstart
            next => exact .failAt _ _
  · exact reference_named
  · exact text_named

end Construct

theorem readConstructs_named (last : Bool) (c : Context) (here : Nat) (bs : Bytes) :
    (readConstructs last c here bs).Named := by
  induction hn : bs.length using Nat.strongRecOn generalizing c here bs with
  | ind n ih =>
    subst hn
    by_cases hbs : bs = []
    · rw [hbs, readConstructs_nil]
      rintro event ⟨⟩
    have hread := Construct.read_named c here last bs
    rw [readConstructs_eq_resume hbs]
    unfold Reading.resume
    split
    next => exact hread
    next => exact hread
    next taken ho =>
      obtain ⟨h0, hlen⟩ := (read_sound hbs c here last).2 _ ho
      have hrest := ih (bs.drop taken).length (by rw [List.length_drop]; omega)
        (Construct.read c here last bs).context (here + taken) (bs.drop taken) rfl
      exact List.forall_mem_append.mpr ⟨hread, hrest⟩

namespace Parser

variable {parser last : Parser} {pieces : List Bytes} {events : List Event}

theorem opening_named (parser : Parser) : ∀ event ∈ parser.start.1.map (·.2), event.Named := by
  rw [start_events, opening]
  split <;> simp [Event.Named]

theorem process_named (parser : Parser) (last : Bool) :
    ∀ event ∈ (parser.process last).events.map (·.2), event.Named := by
  rw [(process_tells parser last).events, List.nil_append]
  exact List.forall_mem_map.mpr (readConstructs_named last _ _ _)

theorem feed_named (h : parser.finished = false) (piece : Bytes) :
    ∀ event ∈ (parser.feed piece).events.map (·.2), event.Named := by
  rw [feed_eq h]
  split
  · exact opening_named parser
  · rw [List.map_append, List.forall_mem_append]
    exact ⟨opening_named parser, process_named _ false⟩

theorem finish_named (parser : Parser) :
    ∀ event ∈ parser.finish.events.map (·.2), event.Named := by
  have hall : ∀ event ∈ (parser.start.1 ++ (parser.start.2.process true).events).map (·.2),
      event.Named := by
    rw [List.map_append, List.forall_mem_append]
    exact ⟨opening_named parser, process_named _ true⟩
  unfold finish
  split
  · simp
  · simp only
    split
    · exact hall
    · split
      · exact hall
      · rw [List.map_append, List.forall_mem_append]
        exact ⟨hall, by simp [Event.Named]⟩

theorem Recounts.named {place : Place} (h : parser.Recounts pieces events last)
    (hat : parser.At place) : ∀ event ∈ events, event.Named := by
  induction h generalizing place with
  | finish => exact finish_named _
  | @feed parser _ piece _ _ h _ ih =>
    obtain ⟨⟨next, -, hp⟩, -⟩ := hat.feed_follows piece
    exact List.forall_mem_append.mpr ⟨feed_named hat.unfinished piece, ih (hp h)⟩

end Parser

-- ---------------------------------------------------------------------------
-- Names that are passed on
-- ---------------------------------------------------------------------------

def Call.Named : Call → Prop
  | .startElement name attributes => isName name ∧ ∀ att ∈ attributes, isName att.name
  | _ => True

namespace Event

theorem Named.call {event : Event} {call : Call} (h : event.Named)
    (hc : event.call? = some call) : call.Named := by
  cases event <;> cases hc <;> exact h

theorem Relayed.named {waiting events : List Event} {calls : List Call}
    (h : Relayed waiting events calls) (hn : ∀ event ∈ events, event.Named) :
    ∀ call ∈ calls, call.Named := by
  induction h with
  | done => simp
  | waits _ _ ih => exact ih (List.forall_mem_cons.mp hn).2
  | passes hc _ _ ih =>
    obtain ⟨hevent, hrest⟩ := List.forall_mem_cons.mp hn
    refine List.forall_mem_append.mpr ⟨?_, List.forall_mem_cons.mpr ⟨hevent.call hc, ih hrest⟩⟩
    intro call hm
    rcases List.mem_append.mp hm with hm | hm
    · split at hm
      · cases hm
      · rw [List.mem_singleton.mp hm]
        trivial
    · obtain ⟨ns, -, rfl⟩ := List.mem_map.mp hm
      trivial

theorem Transcript.named {name : Bytes} {events : List Event} {calls : List Call}
    (h : Transcript name events calls) (hn : ∀ event ∈ events, event.Named) :
    ∀ call ∈ calls, call.Named := by
  cases h with
  | nothing => simp
  | document h =>
    exact List.forall_mem_cons.mpr ⟨trivial, h.named (List.forall_mem_cons.mp hn).2⟩

end Event

-- ---------------------------------------------------------------------------
-- Names that are kept
-- ---------------------------------------------------------------------------

def Item.Named : Item → Prop
  | .element name _ | .attr name _ => isName name
  | _ => True

theorem Outline.added_named (outline : Outline) {call : Call} (h : call.Named) :
    ∀ row ∈ outline.added call, row.item.Named := by
  cases call with
  | startElement name attributes =>
    refine List.forall_mem_cons.mpr ⟨h.1, List.forall_mem_map.mpr ?_⟩
    exact h.2
  | text content raw =>
    intro row hm
    simp only [added] at hm
    split at hm
    · cases hm
    · rw [List.mem_singleton.mp hm]
      trivial
  | comment content | instruction content => exact fun row hm => List.mem_singleton.mp hm ▸ trivial
  | _ => simp [added]

namespace Phase

variable {options : IndexOptions} {chop : Bool} {phase later : Phase} {call : Call}
  {calls : List Call}

/-- The nodes so far have names. -/
def Named (phase : Phase) : Prop := ∀ entry ∈ phase.table.resolved, entry.1.Named

theorem Step.named (hs : Step options chop phase call later) (h : phase.Named)
    (hc : call.Named) : later.Named := by
  cases hs with
  | startDocument name => exact List.forall_mem_singleton.mpr trivial
  | @goOn outline later account call ht =>
    unfold Named table
    rw [Outline.take_resolved ht, List.forall_mem_append]
    exact ⟨h, List.forall_mem_map.mpr (outline.added_named hc)⟩
  | endDocument =>
    unfold Named table
    rw [NodeTable.resolved_close]
    exact h
  | nothing => exact h

theorem Steps.named (hs : Steps options chop .unstarted calls phase)
    (hc : ∀ call ∈ calls, call.Named) : phase.Named := by
  induction hs with
  | start => simp [Named, table, NodeTable.resolved]
  | next _ hs ih =>
    obtain ⟨hcalls, hcall⟩ := List.forall_mem_append.mp hc
    exact hs.named (ih hcalls) (List.forall_mem_singleton.mp hcall)

end Phase

theorem Noted.rows {options : IndexOptions} {table : NodeTable} {path : List Nat}
    {indexes : Indexes} {height : Nat} (h : Noted options table path indexes height) :
    ∀ row ∈ table, row.parent = none ∧ row.item.kind = .document ∧ row.item.name = [] ∨
      (∃ p, row.parent = some p) ∧ row.item.kind ≠ .document := by
  have hbelow {path : List Nat} {row : Row} (hopen : path ≠ [])
      (hparent : row.parent = path.head?) : ∃ p, row.parent = some p := by
    obtain ⟨p, rest, rfl⟩ := List.exists_cons_of_ne_nil hopen
    exact ⟨p, hparent⟩
  induction h with
  | document name => exact List.forall_mem_singleton.mpr (.inl ⟨rfl, rfl, rfl⟩)
  | @leaf _ _ _ _ row _ hopen hparent _ hitem ih =>
    refine List.forall_mem_append.mpr ⟨ih, List.forall_mem_singleton.mpr (.inr ⟨?_, ?_⟩)⟩
    · exact hbelow hopen hparent
    · intro hkind
      cases hrow : row.item with
      | document name =>
        rw [hrow] at hitem
        cases hitem
      | _ =>
        rw [hrow] at hkind
        cases hkind
  | enter _ hopen hparent _ hitem ih =>
    refine List.forall_mem_append.mpr ⟨ih, List.forall_mem_singleton.mpr (.inr ⟨?_, ?_⟩)⟩
    · exact hbelow hopen hparent
    · rw [hitem]
      rintro ⟨⟩
  | leave _ ih | finish _ ih =>
    intro row hm
    obtain ⟨p, hrow⟩ := List.mem_iff_getElem?.mp hm
    obtain ⟨old, hold, hparent, -, hitem⟩ := NodeTable.of_getElem?_close hrow
    rw [hparent, hitem]
    exact ih old (List.mem_of_getElem? hold)

namespace NodeTable

end NodeTable

-- ---------------------------------------------------------------------------
-- Paths of a document
-- ---------------------------------------------------------------------------

namespace Ingestion

variable {name source : String} {inputSize : Nat} {reading : ReadOptions}
  {indexing : IndexOptions} {encoding : Encoding} {pieces : List Bytes} {db : Database}

end Ingestion

end XmlStore
