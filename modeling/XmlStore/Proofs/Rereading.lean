import XmlStore.Proofs.Pieces
import XmlStore.Proofs.Writing

/-!
# Reading what was written

A parser takes back what a writer makes of a tree. Each part of it is read from its bytes alone,
whatever bytes follow, so that the parts of an element may be read one after the other and the
element around them.
-/

namespace XmlStore

-- ---------------------------------------------------------------------------
-- Bytes that are read as events
-- ---------------------------------------------------------------------------

def Context.spend (c : Context) (count : Nat) : Context :=
  { c with entities := c.entities.spend count }

/-- In this context the bytes are read as these events, but for the cutting of text, and the
context is another afterwards. What follows makes no difference. -/
def Yields (c : Context) (bs : Bytes) (events : List Event) (after : Context) : Prop :=
  ∀ here more, (readConstructs true c here (bs ++ more)).Alike
    ((readConstructs true after (here + bs.length) more).prepend (events.map (c, ·)) bs.length)

section
variable {c c' c'' : Context} {bs first second : Bytes} {events others : List Event}

theorem Reading.prepend_alike {told others : List (Context × Event)}
    (h : Log.seen (told.map (·.2)) = Log.seen (others.map (·.2))) (rest : Reading Nat)
    (taken : Nat) : (rest.prepend told taken).Alike (rest.prepend others taken) := by
  refine ⟨?_, rfl, rfl⟩
  rw [Reading.seen_prepend, Reading.seen_prepend]
  exact Log.seen_append_congr h rfl

theorem map_snd_map_mk (c : Context) (events : List Event) :
    (events.map (c, ·)).map (·.2) = events := by
  simp [Function.comp_def]

theorem Yields.nil (c : Context) : Yields c [] [] c :=
  fun _ _ => .of_eq (Reading.prepend_nothing _).symm

theorem Yields.congr (h : Yields c bs events c') (he : Log.seen events = Log.seen others) :
    Yields c bs others c' := by
  intro here more
  refine (h here more).trans (Reading.prepend_alike ?_ _ _)
  rw [map_snd_map_mk, map_snd_map_mk, he]

theorem Yields.trans (h : Yields c first events c') (h' : Yields c' second others c'') :
    Yields c (first ++ second) (events ++ others) c'' := by
  intro here more
  have hfirst := h here (second ++ more)
  have hsecond := (h' (here + first.length) more).prepend (events.map (c, ·)) first.length
  rw [Reading.prepend_prepend] at hsecond
  rw [List.append_assoc, List.length_append, ← Nat.add_assoc]
  refine (hfirst.trans hsecond).trans (Reading.prepend_alike ?_ _ _)
  rw [List.map_append, map_snd_map_mk, map_snd_map_mk, map_snd_map_mk]

/-- A reading of one construct as these events. -/
structure Reading.Is (reading : Reading Progress) (events : List Event) (after : Context)
    (taken : Nat) : Prop where
  events : reading.events.map (·.2) = events
  context : reading.context = after
  outcome : reading.outcome = .ok (.advance taken)

theorem Reading.Is.read (c : Context) (events : List Event) (taken : Nat) :
    (c.read events taken).Is events c taken := ⟨map_snd_map_mk c events, rfl, rfl⟩

theorem yields_of_read (hbs : bs ≠ [])
    (h : ∀ here more, (Construct.read c here true (bs ++ more)).Is events c' bs.length) :
    Yields c bs events c' := by
  intro here more
  obtain ⟨hevents, hcontext, houtcome⟩ := h here more
  rw [readConstructs_eq_resume (List.append_ne_nil_of_left_ne_nil hbs more)]
  simp only [Reading.resume, houtcome, hcontext, List.drop_left]
  refine Reading.prepend_alike ?_ _ _
  rw [hevents, map_snd_map_mk]

end

-- ---------------------------------------------------------------------------
-- Text
-- ---------------------------------------------------------------------------

section
variable {c : Context}

theorem yields_literal {b : UInt8} (hc : c.stage = .content) (h : textEscape? b = none) :
    Yields c [b] [.text (.utf8 [b])] c := by
  have hb : b ≠ 0x26 ∧ b ≠ 0x3C ∧ b ≠ 0x0D := by
    refine ⟨?_, ?_, ?_⟩ <;> (rintro rfl; revert h; decide)
  intro here more
  have hlast : [b].getLast? = some 0x0D → ∃ d, more.head? = some d ∧ d ≠ 0x0A := by simp [hb]
  have htext := readConstructs_text (by simp [Construct.isText, hb]) hlast true c here
  have hevents : Construct.textEvents c here [b] = .ok [(c, .text (.utf8 [b]))] := by
    simp [Construct.textEvents, hc, normalizeLineEnds, hb]
  rw [hevents] at htext
  exact htext

theorem isReference_textEscape? {b : UInt8} {name : Bytes} (h : textEscape? b = some name) :
    Construct.isReference name := by
  simp only [textEscape?] at h
  split at h
  next => exact Option.some.inj h ▸ by decide
  next =>
    split at h
    next => exact Option.some.inj h ▸ by decide
    next =>
      split at h
      next => exact Option.some.inj h ▸ by decide
      next => cases h

theorem yields_reference {b : UInt8} {name : Bytes} (hc : c.stage = .content)
    (h : textEscape? b = some name) (hlimit : c.entities.expanded < c.entities.limit) :
    Yields c (0x26 :: name ++ [0x3B]) [.text (.utf8 [b])] (c.spend 1) := by
  have hstands := textEscape?_standsFor h
  refine yields_of_read (by simp) fun here more => ?_
  have hcut : cutAt? (· == 0x3B) (name ++ 0x3B :: more) = some (name, more) := by
    refine cutAt?_self (fun d hd => ?_) rfl more
    simpa using fun he : d = 0x3B => hstands.not_mem (by decide) (he ▸ hd)
  have hexpand : c.entities.expandReference name =
      { output := [b], expanded := c.entities.expanded + 1 } :=
    hstands.replaced _ _ _ hlimit
  have hstage : ¬ c.stage ≠ .content := not_not_intro hc
  rw [List.append_assoc, List.cons_append]
  change (Construct.reference c here true _).Is _ _ _
  simp only [Construct.reference, List.drop_succ_cons, List.drop_zero, List.cons_append,
    List.nil_append, hcut, isReference_textEscape? h, hexpand, hstage, Bool.not_true,
    Bool.false_eq_true, ↓reduceIte]
  have hlen : (0x26 :: (name ++ [0x3B])).length = name.length + 2 := by simp
  rw [hlen]
  exact .read (c.spend 1) [.text (.utf8 [b])] (name.length + 2)

theorem yields_text {bytes : Bytes} (hc : c.stage = .content)
    (hlimit : c.entities.expanded + escapes textEscape? bytes ≤ c.entities.limit) :
    Yields c (escape textEscape? bytes) [.text (.utf8 bytes)]
      (c.spend (escapes textEscape? bytes)) := by
  -- Byte by byte: a parser may cut text anywhere, and what is seen joins it again.
  induction bytes generalizing c with
  | nil => exact (Yields.nil c).congr rfl
  | cons b rest ih =>
    rw [escape, List.flatMap_cons, ← escape, escapeByte]
    rw [escapes, List.countP_cons, ← escapes] at hlimit ⊢
    cases hb : textEscape? b with
    | none =>
      simp only [hb, Option.isSome_none, Bool.false_eq_true, ↓reduceIte, Nat.add_zero] at hlimit ⊢
      exact ((yields_literal hc hb).trans (ih hc hlimit)).congr (Log.seen_text_append [b] rest).symm
    | some name =>
      simp only [hb, Option.isSome_some, ↓reduceIte] at hlimit ⊢
      have hrest := ih (c := c.spend 1) hc (by simp only [Context.spend, Entities.spend]; omega)
      have hspend : (c.spend 1).spend (escapes textEscape? rest) =
          c.spend (escapes textEscape? rest + 1) := by
        simp only [Context.spend, Entities.spend_spend, Nat.add_comm]
      rw [hspend] at hrest
      exact ((yields_reference hc hb (by omega)).trans hrest).congr
        (Log.seen_text_append [b] rest).symm

end

-- ---------------------------------------------------------------------------
-- Comments and processing instructions
-- ---------------------------------------------------------------------------

section
variable {c : Context}

theorem cut?_comment {bytes : Bytes} (h : ¬ ascii "-->" <:+: bytes) (after : Bytes) :
    cut? (ascii "-->") (bytes ++ ascii "-->" ++ after) = some (bytes, after) :=
  cut?_first (by decide : (0x3E : UInt8) ∉ ascii "--") h after

/-- Which declaration begins is decided once an opening is complete. -/
theorem Construct.not_truncated {opening : Bytes} (h : opening ∈ declarationOpenings)
    (rest : Bytes) :
    ¬ declarationOpenings.any fun other =>
      (opening ++ rest).isPrefixOf other && (opening ++ rest).length < other.length := by
  have hapart : ∀ first ∈ declarationOpenings, ∀ second ∈ declarationOpenings,
      first <+: second → first = second := by decide
  intro hany
  obtain ⟨other, ho, hp⟩ := List.any_eq_true.mp hany
  rw [Bool.and_eq_true, decide_eq_true_eq, List.isPrefixOf_iff_prefix] at hp
  obtain rfl := hapart _ h _ ho ((List.prefix_append _ _).trans hp.1)
  rw [List.length_append] at hp
  omega

theorem declaration_comment (c : Context) (here : Nat) (last : Bool) (rest : Bytes) :
    Construct.declaration c here last (ascii "<!--" ++ rest) =
      Construct.comment c here last (ascii "<!--" ++ rest) := by
  rw [Construct.declaration, if_neg (Construct.not_truncated (by decide) rest), if_pos]
  exact List.isPrefixOf_iff_prefix.mpr (List.prefix_append _ _)

theorem yields_comment {bytes : Bytes} (hhyphens : ¬ ascii "--" <:+: bytes)
    (hlast : bytes.getLast? ≠ some 0x2D) :
    Yields c (ascii "<!--" ++ bytes ++ ascii "-->") [.comment bytes] c := by
  refine yields_of_read (by simp [ascii]) fun here more => ?_
  have hread : Construct.read c here true (ascii "<!--" ++ bytes ++ ascii "-->" ++ more) =
      Construct.comment c here true (ascii "<!--" ++ bytes ++ ascii "-->" ++ more) := by
    simp only [List.append_assoc]
    exact declaration_comment ..
  have hcut : cut? (ascii "-->") ((ascii "<!--" ++ bytes ++ ascii "-->" ++ more).drop 4) =
      some (bytes, more) := by
    have hwithin : ascii "--" <:+: ascii "-->" := ⟨[], [0x3E], rfl⟩
    have hdrop : (ascii "<!--" ++ bytes ++ ascii "-->" ++ more).drop 4 =
        bytes ++ ascii "-->" ++ more := by
      simp only [List.append_assoc]
      rfl
    rw [hdrop, cut?_comment fun hend => hhyphens (hwithin.trans hend)]
  have hfine : ((cut? (ascii "--") bytes).isSome || bytes.getLast? == some 0x2D) = false := by
    rw [(cut?_eq_none_iff (by decide)).mpr hhyphens]
    simpa using hlast
  have hlen : (ascii "<!--" ++ bytes ++ ascii "-->").length = bytes.length + 7 := by
    simp [ascii]
  rw [hread, hlen, Construct.comment, hcut]
  simp only [hfine, Bool.false_eq_true, ↓reduceIte]
  exact .read c [.comment bytes] (bytes.length + 7)

/-- A processing instruction ends at the first place where one can end. -/
theorem cut?_instruction {target data : Bytes} (htarget : isName target)
    (hend : ¬ ascii "?>" <:+: data) (after : Bytes) :
    cut? (ascii "?>") (target ++ data ++ ascii "?>" ++ after) = some (target ++ data, after) := by
  have hdata : cut? (ascii "?>") (data ++ ascii "?>" ++ after) = some (data, after) :=
    cut?_first (by decide : (0x3E : UInt8) ∉ ascii "?") hend after
  have hfree : 0x3F ∉ target := fun hm =>
    ne_of_isNameByte (isNameByte_of_isName htarget _ hm)
      (by decide : isNameByte 0x3F = false) rfl
  have hassoc : target ++ data ++ ascii "?>" ++ after =
      target ++ (data ++ ascii "?>" ++ after) := by simp
  rw [hassoc]
  change cut? (0x3F :: [0x3E]) _ = _
  rw [cut?_free hfree]
  change (cut? (ascii "?>") _).map _ = _
  rw [hdata]
  rfl

theorem isNameStart_ne {b d : UInt8} (hb : isNameStart b) (hd : isNameByte d = false) : b ≠ d :=
  ne_of_isNameByte (by simp [isNameByte, hb]) hd

theorem yields_instruction {target data : Bytes} (htarget : isName target)
    (hreserved : target.map asciiUpper ≠ ascii "XML") (hend : ¬ ascii "?>" <:+: data)
    (hspace : ∀ b, data.head? = some b → isSpace b = false) :
    Yields c (ascii "<?" ++ target ++ 0x20 :: data ++ ascii "?>") [.instruction target data] c := by
  refine yields_of_read (by simp [ascii]) fun here more => ?_
  have hread : Construct.read c here true
      (ascii "<?" ++ target ++ 0x20 :: data ++ ascii "?>" ++ more) =
        Construct.instruction c here true
          (ascii "<?" ++ target ++ 0x20 :: data ++ ascii "?>" ++ more) := by
    simp only [List.append_assoc]
    rfl
  have hcut : cut? (ascii "?>")
      ((ascii "<?" ++ target ++ 0x20 :: data ++ ascii "?>" ++ more).drop 2) =
        some (target ++ 0x20 :: data, more) := by
    have hdata : ¬ ascii "?>" <:+: 0x20 :: data := by
      rw [List.infix_cons_iff]
      rintro (hp | hi)
      · exact absurd (List.cons_prefix_cons.mp hp).1 (by decide)
      · exact hend hi
    have hdrop : (ascii "<?" ++ target ++ 0x20 :: data ++ ascii "?>" ++ more).drop 2 =
        target ++ 0x20 :: data ++ ascii "?>" ++ more := by
      simp only [List.append_assoc]
      rfl
    rw [hdrop, cut?_instruction htarget hdata]
  have hname : readName? (target ++ 0x20 :: data) = some (target, 0x20 :: data) :=
    readName?_append htarget (by simp; decide)
  have htrim : trimStart (0x20 :: data) = data := trimStart_of_head? hspace
  have hlen : (ascii "<?" ++ target ++ 0x20 :: data ++ ascii "?>").length =
      (target ++ 0x20 :: data).length + 4 := by
    simp [ascii]
    omega
  rw [hread, hlen, Construct.instruction, hcut]
  simp only [hname, htrim, hreserved, ↓reduceIte]
  exact .read c [.instruction target data] _

end

-- ---------------------------------------------------------------------------
-- Tags
-- ---------------------------------------------------------------------------

section
variable {c : Context} {numerals : Numerals} {name : Bytes} {attributes : List Attribute}

theorem read_startTag (hname : isName name) (here : Nat) (rest : Bytes) :
    Construct.read c here true (0x3C :: (name ++ rest)) =
      Construct.startTag c here true (0x3C :: (name ++ rest)) := by
  obtain ⟨b, tail, rfl, hb⟩ := exists_cons_of_isName hname
  change Construct.markup c here true (0x3C :: b :: (tail ++ rest)) = _
  unfold Construct.markup
  simp only [List.getElem?_cons_succ, List.getElem?_cons_zero, beq_iff_eq, hb, ↓reduceIte,
    isNameStart_ne hb (by decide : isNameByte 0x2F = false),
    isNameStart_ne hb (by decide : isNameByte 0x3F = false),
    isNameStart_ne hb (by decide : isNameByte 0x21 = false)]
  rfl

/-- What a document is after a start tag, but for the element that it has opened. -/
def Context.enter (c : Context) (count : Nat) : Context := { c.spend count with stage := .content }

theorem startTag_write (htag : Tree.ProperTag isName name attributes) (hstage : c.stage ≠ .epilog)
    (hlimit : c.entities.expanded + attributeEscapes numerals attributes ≤ c.entities.limit)
    {bs tag more : Bytes} {closed : Bool} (here : Nat)
    (hcut : cutUnquoted? none (bs.drop 1) = some (tag, more))
    (hclosed : (tag.getLast? == some 0x2F) = closed)
    (hbody : (if closed then tag.dropLast else tag) =
      name ++ writeAttributes numerals attributes) :
    Construct.startTag c here true bs =
      if closed then
        { (c.enter (attributeEscapes numerals attributes)).read
            [.startElement name attributes, .endElement name] (tag.length + 2) with
          context := (c.enter (attributeEscapes numerals attributes)).leaveElement }
      else
        { (c.enter (attributeEscapes numerals attributes)).read
            [.startElement name attributes] (tag.length + 2) with
          context :=
            { c.enter (attributeEscapes numerals attributes) with path := name :: c.path } } := by
  have hspan : spanName (name ++ writeAttributes numerals attributes) =
      (name, writeAttributes numerals attributes) := by
    refine spanName_append (isNameByte_of_isName htag.name) fun b hb => ?_
    cases attributes with
    | nil => cases hb
    | cons att rest =>
      obtain rfl := Option.some.inj hb
      decide
  have hduplicate : Construct.duplicate? [] attributes = none :=
    duplicate?_eq_none (by simp) htag.distinct
  unfold Construct.startTag
  simp only [hcut, hstage, hclosed, hbody, hspan, readAttributes_write htag.names hlimit,
    hduplicate, openingEvents_plain_names htag.plain, ↓reduceIte]
  rfl

theorem yields_startTag (htag : Tree.ProperTag isName name attributes)
    (hstage : c.stage ≠ .epilog)
    (hlimit : c.entities.expanded + attributeEscapes numerals attributes ≤ c.entities.limit) :
    Yields c (0x3C :: (name ++ writeAttributes numerals attributes) ++ [0x3E])
      [.startElement name attributes]
      { c.enter (attributeEscapes numerals attributes) with path := name :: c.path } := by
  refine yields_of_read (by simp) fun here more => ?_
  have hcut := cutUnquoted?_write numerals htag .nil more
  rw [List.append_nil] at hcut
  have hlast : ((name ++ writeAttributes numerals attributes).getLast? == some 0x2F) = false := by
    simpa using getLast?_writeAttributes numerals htag.name
  have hlen : (0x3C :: (name ++ writeAttributes numerals attributes) ++ [0x3E]).length =
      (name ++ writeAttributes numerals attributes).length + 2 := by
    simp only [List.length_append, List.length_cons, List.length_nil]
  have hbytes : 0x3C :: (name ++ writeAttributes numerals attributes) ++ [0x3E] ++ more =
      0x3C :: (name ++ (writeAttributes numerals attributes ++ 0x3E :: more)) := by simp
  rw [hlen, hbytes, read_startTag htag.name,
    startTag_write htag hstage hlimit here (by simpa using hcut) hlast rfl]
  exact ⟨map_snd_map_mk .., rfl, rfl⟩

theorem yields_emptyTag (htag : Tree.ProperTag isName name attributes)
    (hstage : c.stage ≠ .epilog)
    (hlimit : c.entities.expanded + attributeEscapes numerals attributes ≤ c.entities.limit) :
    Yields c (0x3C :: (name ++ writeAttributes numerals attributes) ++ [0x2F, 0x3E])
      [.startElement name attributes, .endElement name]
      (c.enter (attributeEscapes numerals attributes)).leaveElement := by
  refine yields_of_read (by simp) fun here more => ?_
  have hslash : Passed [0x2F] := passed_of_plain (List.forall_mem_singleton.mpr (by decide))
  have hcut := cutUnquoted?_write numerals htag hslash more
  have hlast : ((name ++ writeAttributes numerals attributes ++ [0x2F]).getLast? ==
      some 0x2F) = true := by simp
  have hbody : (name ++ writeAttributes numerals attributes ++ [0x2F]).dropLast =
      name ++ writeAttributes numerals attributes := List.dropLast_concat
  have hbytes : 0x3C :: (name ++ writeAttributes numerals attributes) ++ [0x2F, 0x3E] ++ more =
      0x3C :: (name ++ (writeAttributes numerals attributes ++ [0x2F] ++ 0x3E :: more)) := by
    simp
  have hlen : (0x3C :: (name ++ writeAttributes numerals attributes) ++ [0x2F, 0x3E]).length =
      (name ++ writeAttributes numerals attributes ++ [0x2F]).length + 2 := by
    simp only [List.length_append, List.length_cons, List.length_nil]
  rw [hlen, hbytes, read_startTag htag.name,
    startTag_write htag hstage hlimit here (by simpa using hcut) hlast hbody]
  exact ⟨map_snd_map_mk .., rfl, rfl⟩

theorem yields_endTag (hname : isName name) {path : List Bytes} (hpath : c.path = name :: path) :
    Yields c (0x3C :: 0x2F :: name ++ [0x3E]) [.endElement name]
      { c with path }.leaveElement := by
  refine yields_of_read (by simp) fun here more => ?_
  have hcut : cutAt? (· == 0x3E) (name ++ 0x3E :: more) = some (name, more) := by
    refine cutAt?_self (fun d hd => ?_) rfl more
    simpa using ne_of_isNameByte (isNameByte_of_isName hname d hd) (by decide)
  have hbytes : 0x3C :: 0x2F :: name ++ [0x3E] ++ more =
      0x3C :: 0x2F :: (name ++ 0x3E :: more) := by simp
  have hlen : (0x3C :: 0x2F :: name ++ [0x3E]).length = name.length + 3 := by simp
  rw [hlen, hbytes]
  change (Construct.endTag c here true _).Is _ _ _
  unfold Construct.endTag
  simp only [List.drop_succ_cons, List.drop_zero, hcut, hpath, trimEnd_name hname, ne_eq,
    not_true_eq_false, ↓reduceIte]
  exact ⟨map_snd_map_mk .., rfl, rfl⟩

end

-- ---------------------------------------------------------------------------
-- Trees
-- ---------------------------------------------------------------------------

theorem Context.spend_spend (c : Context) (a b : Nat) :
    (c.spend a).spend b = c.spend (a + b) := by
  simp only [spend, Entities.spend_spend]

/-- Inside an element the tree is read as it was written. -/
def Tree.Returns (numerals : Numerals) (tree : Tree) : Prop :=
  ∀ c : Context, c.stage = .content → c.path ≠ [] →
    c.entities.expanded + tree.escapes numerals ≤ c.entities.limit →
    Yields c (tree.write numerals) tree.events (c.spend (tree.escapes numerals))

section
variable {c : Context} {numerals : Numerals} {name : Bytes} {attributes : List Attribute}
  {content : List Tree}

theorem yields_writeAll (h : ∀ part ∈ content, part.Returns numerals) (hstage : c.stage = .content)
    (hpath : c.path ≠ [])
    (hlimit : c.entities.expanded + Tree.escapesAll numerals content ≤ c.entities.limit) :
    Yields c (Tree.writeAll numerals content) (Tree.eventsAll content)
      (c.spend (Tree.escapesAll numerals content)) := by
  induction content generalizing c with
  | nil =>
    rw [Tree.writeAll, Tree.eventsAll, Tree.escapesAll]
    exact .nil c
  | cons part rest ih =>
    rw [Tree.escapesAll] at hlimit ⊢
    rw [Tree.writeAll, Tree.eventsAll, ← Context.spend_spend]
    have hpart := h part List.mem_cons_self c hstage hpath (by omega)
    have hrest := ih (fun other hm => h other (List.mem_cons_of_mem part hm))
      (c := c.spend (part.escapes numerals)) hstage hpath
      (by simp only [Context.spend, Entities.spend]; omega)
    exact hpart.trans hrest

/-- An element is read as it was written if each part of its content is. -/
theorem yields_element (htag : Tree.ProperTag isName name attributes)
    (hcontent : ∀ part ∈ content, part.Returns numerals) (hstage : c.stage ≠ .epilog)
    (hlimit : c.entities.expanded + (Tree.element name attributes content).escapes numerals ≤
      c.entities.limit) :
    Yields c ((Tree.element name attributes content).write numerals)
      (Tree.element name attributes content).events
      (c.enter ((Tree.element name attributes content).escapes numerals)).leaveElement := by
  rw [Tree.escapes] at hlimit ⊢
  rw [Tree.write, Tree.events]
  have hattributes : c.entities.expanded + attributeEscapes numerals attributes ≤
      c.entities.limit := by omega
  cases content with
  | nil =>
    rw [Tree.eventsAll, Tree.escapesAll]
    exact yields_emptyTag htag hstage hattributes
  | cons part rest =>
    -- The content is read with the name on the path, which the end tag takes off again.
    have hstart := yields_startTag htag hstage hattributes
    have hinner := yields_writeAll hcontent rfl (List.cons_ne_nil name c.path)
      (c := { c.enter (attributeEscapes numerals attributes) with path := name :: c.path })
      (by simp only [Context.enter, Context.spend, Entities.spend]; omega)
    have hend := yields_endTag htag.name
      (c := { c.enter (attributeEscapes numerals attributes) with path := name :: c.path }.spend
        (Tree.escapesAll numerals (part :: rest))) rfl
    have hafter : { c.enter (attributeEscapes numerals attributes) with
        path := name :: c.path }.spend (Tree.escapesAll numerals (part :: rest)) =
          { c.enter (attributeEscapes numerals attributes +
            Tree.escapesAll numerals (part :: rest)) with path := name :: c.path } := by
      simp only [Context.enter, Context.spend, Entities.spend_spend]
    rw [hafter] at hinner hend
    exact (hstart.trans hinner).trans hend

end

theorem Tree.Proper.returns {numerals : Numerals} {tree : Tree} (h : tree.Proper isName) :
    tree.Returns numerals := by
  induction h with
  | element htag _ _ ih =>
    intro c hstage hpath hlimit
    have hyields := yields_element htag ih (c := c)
      (by rw [hstage]; decide) hlimit
    -- An element is open around this one, so that its end is not that of the root.
    have henter : ∀ count, (c.enter count).leaveElement = c.spend count := by
      intro count
      have hopen : (c.enter count).path.isEmpty = false := List.isEmpty_eq_false_iff.mpr hpath
      rw [Context.leaveElement, hopen, Context.enter, ← hstage]
      rfl
    rw [henter] at hyields
    exact hyields
  | text _ =>
    intro c hstage _ hlimit
    rw [Tree.escapes] at hlimit ⊢
    rw [Tree.write, Tree.events]
    exact yields_text hstage hlimit
  | comment hhyphens hlast =>
    intro c _ _ _
    rw [Tree.escapes, Tree.write, Tree.events]
    exact yields_comment hhyphens hlast
  | instruction htarget hreserved hend hspace =>
    intro c _ _ _
    rw [Tree.escapes, Tree.write, Tree.events]
    exact yields_instruction htarget hreserved hend hspace

-- ---------------------------------------------------------------------------
-- Events of trees
-- ---------------------------------------------------------------------------

/-- Whether a text before these events would become one with their first. -/
def beginsWithText : List Event → Bool
  | .text _ :: _ => true
  | _ => false

theorem Log.seen_text_cons {bytes : Bytes} (hne : bytes ≠ []) {rest : List Event}
    (h : beginsWithText (seen rest) = false) :
    seen (.text (.utf8 bytes) :: rest) = .text (.utf8 bytes) :: seen rest := by
  have hkept : kept (.text (.utf8 bytes) :: rest) = .text (.utf8 bytes) :: kept rest := by
    cases bytes with
    | nil => exact absurd rfl hne
    | cons b tail => rfl
  rw [seen, hkept, coalesce_cons, join, ← seen]
  generalize seen rest = others at h ⊢
  fun_cases joinText bytes others with
  | case1 => cases h
  | case2 => rfl

namespace Tree

/-- Before events that look as they are, those of the tree look as they are. -/
def Stays (tree : Tree) : Prop :=
  ∀ after, Log.seen after = after → (tree.isText → beginsWithText after = false) →
    Log.seen (tree.events ++ after) = tree.events ++ after

theorem beginsWithText_events {tree : Tree} (h : ¬ tree.isText) (after : List Event) :
    beginsWithText (tree.events ++ after) = false := by
  cases tree with
  | text bytes => exact absurd rfl h
  | element name attributes content => rw [events]; rfl
  | comment bytes => rw [events]; rfl
  | instruction target data => rw [events]; rfl

theorem seen_eventsAll {content : List Tree} (h : ∀ part ∈ content, part.Stays)
    (hapart : content.IsChain fun first second => ¬ (first.isText ∧ second.isText))
    {after : List Event} (hafter : Log.seen after = after)
    (htext : beginsWithText after = false) :
    Log.seen (eventsAll content ++ after) = eventsAll content ++ after := by
  induction content with
  | nil =>
    rw [eventsAll]
    exact hafter
  | cons part rest ih =>
    obtain ⟨hnext, hrest⟩ := List.isChain_cons.mp hapart
    rw [eventsAll, List.append_assoc]
    refine h part List.mem_cons_self _
      (ih (fun other hm => h other (List.mem_cons_of_mem part hm)) hrest) fun hp => ?_
    cases rest with
    | nil =>
      rw [eventsAll]
      exact htext
    | cons next rest =>
      rw [eventsAll, List.append_assoc]
      exact beginsWithText_events (fun hn => hnext next rfl ⟨hp, hn⟩) _

theorem Proper.stays {attributeName : Bytes → Bool} {tree : Tree}
    (h : tree.Proper attributeName) : tree.Stays := by
  induction h with
  | @element name attributes content _ hapart _ ih =>
    intro after hafter _
    have hend : Log.seen (.endElement name :: after) = .endElement name :: after := by
      rw [Log.seen_cons (by simp), hafter]
    have hinner := seen_eventsAll ih hapart hend rfl
    rw [events]
    simp only [List.cons_append, List.append_assoc, List.nil_append]
    rw [Log.seen_cons (by simp), hinner]
  | text hne =>
    intro after hafter htext
    rw [events]
    simp only [List.cons_append, List.nil_append]
    rw [Log.seen_text_cons hne (by rw [hafter]; exact htext rfl), hafter]
  | comment =>
    intro after hafter _
    rw [events]
    simp only [List.cons_append, List.nil_append]
    rw [Log.seen_cons (by simp), hafter]
  | instruction =>
    intro after hafter _
    rw [events]
    simp only [List.cons_append, List.nil_append]
    rw [Log.seen_cons (by simp), hafter]

end Tree

-- ---------------------------------------------------------------------------
-- Documents
-- ---------------------------------------------------------------------------

namespace Session

/-- A parser takes back what was written of a tree, however it is cut into pieces. -/
theorem run_write {numerals : Numerals} {options : ReadOptions} {name : Bytes}
    {attributes : List Attribute} {content : List Tree} {pieces : List Bytes}
    (h : (Tree.element name attributes content).Proper isName)
    (hlimit : (Tree.element name attributes content).escapes numerals ≤ options.expansionLimit)
    (hpieces : pieces.flatten = (Tree.element name attributes content).write numerals) :
    view (run Log.record pieces (recording options)) =
      { result := .ok ()
        events :=
          .startDocument :: (Tree.element name attributes content).events ++ [.endDocument]
        encoding := none
        expanded := (Tree.element name attributes content).escapes numerals } := by
  have hseen : Log.seen
      (.startDocument :: ((Tree.element name attributes content).events ++ [.endDocument])) =
        .startDocument :: ((Tree.element name attributes content).events ++ [.endDocument]) := by
    rw [Log.seen_cons (by simp), h.stays [.endDocument] rfl fun _ => rfl]
  cases h with
  | element htag _ hcontent =>
    have hcount : (Parser.ofOptions options).context.entities.expanded +
        (Tree.element name attributes content).escapes numerals ≤
          (Parser.ofOptions options).context.entities.limit := by
      simpa only [Parser.ofOptions, Nat.zero_add] using hlimit
    have hyields := yields_element htag (fun part hm => (hcontent part hm).returns)
      (show (Parser.ofOptions options).context.stage ≠ .epilog by simp [Parser.ofOptions]) hcount
    have hread := hyields 0 []
    rw [List.append_nil, readConstructs_nil, ← reading, ← hpieces] at hread
    have hverdict : (reading options true pieces.flatten).verdict 0 pieces.flatten.length =
        .ok () := by
      rw [hread.verdict, Reading.verdict_prepend _ (Nat.le_refl _), Nat.sub_self]
      rfl
    have hevents := hread.seen
    rw [Reading.seen_prepend, map_snd_map_mk, List.map_nil, List.append_nil] at hevents
    rw [view_run_eq, View.of, hverdict, hread.context]
    have hshown := (Log.seen_append_congr (a := [.startDocument]) rfl
      (Log.seen_append_congr hevents (b := [.endDocument]) rfl)).trans hseen
    rw [View.mk.injEq]
    exact ⟨rfl, hshown, rfl, Nat.zero_add _⟩

/-- An element with an attribute, text, a comment and an empty element, in two pieces. -/
theorem run_write_in_two_pieces :
    let tree := Tree.element (ascii "a") [⟨ascii "b", ascii "\"<"⟩]
      [.text (ascii "x&"), .comment (ascii "-c"), .element (ascii "d") [] []]
    tree.Proper isName ∧ tree.escapes .decimal ≤ ({} : ReadOptions).expansionLimit ∧
      [ascii "<a b=\"&#34;&", ascii "lt;\">x&amp;<!---c--><d/></a>"].flatten =
        tree.write .decimal ∧
      view (run Log.record [ascii "<a b=\"&#34;&", ascii "lt;\">x&amp;<!---c--><d/></a>"]
        (recording {})) =
        { result := .ok ()
          events :=
            [.startDocument, .startElement (ascii "a") [⟨ascii "b", ascii "\"<"⟩],
              .text (.utf8 (ascii "x&")), .comment (ascii "-c"), .startElement (ascii "d") [],
              .endElement (ascii "d"), .endElement (ascii "a"), .endDocument]
          encoding := none
          expanded := 3 } := by
  intro tree
  have hempty : (Tree.element (ascii "d") [] []).Proper isName :=
    .element ⟨by decide, by simp, by simp, by simp⟩ .nil (by simp)
  have hproper : tree.Proper isName := by
    refine .element ⟨by decide, by decide, by decide, by decide⟩ (by simp [Tree.isText]) ?_
    simp only [List.mem_cons, List.not_mem_nil, or_false, forall_eq_or_imp, forall_eq]
    exact ⟨.text (by decide), .comment (by decide) (by decide), hempty⟩
  have hlimit : tree.escapes .decimal ≤ ({} : ReadOptions).expansionLimit := by decide
  have hpieces : [ascii "<a b=\"&#34;&", ascii "lt;\">x&amp;<!---c--><d/></a>"].flatten =
      tree.write .decimal := by decide
  exact ⟨hproper, hlimit, hpieces, run_write hproper hlimit hpieces⟩

/-- An attribute may not have a name that no element may have. -/
theorem attribute_name_is_checked :
    let tree := Tree.element (ascii "a") [⟨ascii "1", ascii "v"⟩] []
    tree.Proper (fun _ => true) ∧ tree.escapes .decimal ≤ ({} : ReadOptions).expansionLimit ∧
      [ascii "<a 1=\"v\"/>"].flatten = tree.write .decimal ∧
      (view (run Log.record [ascii "<a 1=\"v\"/>"] (recording {}))).result =
        .error (.malformed 3 .attributeName) := by
  refine ⟨.element ⟨by decide, by decide, by decide, by decide⟩ .nil (by simp), by decide,
    by decide, ?_⟩
  have hattributes : readAttributes (Parser.ofOptions {}).context.entities 8
      (ascii " 1=\"v\"") =
        ((Parser.ofOptions {}).context.entities, .error (.malformed 3 .attributeName)) := by
    rw [readAttributes, rawAttributes]
    rfl
  have hbytes : [ascii "<a 1=\"v\"/>"].flatten = 0x3C :: (ascii "a" ++ ascii " 1=\"v\"/>") := by
    decide
  have hcut : cutUnquoted? none (ascii "a" ++ ascii " 1=\"v\"/>") =
      some (ascii "a 1=\"v\"/", []) := by decide
  have hlast : ((ascii "a 1=\"v\"/").getLast? == some 0x2F) = true := by decide
  have hspan : spanName (ascii "a 1=\"v\"/").dropLast = (ascii "a", ascii " 1=\"v\"") := by decide
  have hlen : 0 + 1 + (ascii "a 1=\"v\"/").dropLast.length = 8 := by decide
  have hread : (Construct.startTag (Parser.ofOptions {}).context 0 true
      (0x3C :: (ascii "a" ++ ascii " 1=\"v\"/>"))).outcome =
        .error (.malformed 3 .attributeName) := by
    have hstage : ¬ (Parser.ofOptions {}).context.stage = .epilog := by decide
    simp only [Construct.startTag, List.drop_succ_cons, List.drop_zero, hcut, hlast, hspan, hlen,
      hattributes, hstage, ↓reduceIte]
    rfl
  rw [view_run_eq, hbytes, View.of, reading, readConstructs_eq_resume (by simp),
    read_startTag (by decide), Reading.verdict, Reading.resume, hread]

end Session

end XmlStore
