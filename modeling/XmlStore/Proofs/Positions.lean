import XmlStore.Proofs.Mirroring
import XmlStore.Proofs.Pieces

/-!
# Where faults are

The position of a fault in the markup is counted from the end of the text that a reader was given,
or from the start of a construct. Either way it is the position of a byte that had arrived when the
fault was found, so that the bytes before it show no fault yet.
-/

namespace XmlStore

-- ---------------------------------------------------------------------------
-- Faults between two positions
-- ---------------------------------------------------------------------------

/-- If the outcome is a fault in the markup, its position is `first` or behind it, and before
`last`. -/
def FaultWithin {α : Type} (first last : Nat) (outcome : Except Error α) : Prop :=
  ∀ position fault, outcome = .error (.malformed position fault) →
    first ≤ position ∧ position < last

namespace FaultWithin

variable {α β : Type} {first last first' last' position : Nat}

theorem ok (a : α) : FaultWithin first last (.ok a) := by
  rintro _ _ ⟨⟩

theorem malformed {fault : Fault} (h : first ≤ position) (h' : position < last) :
    FaultWithin first last (.error (.malformed position fault) : Except Error α) := by
  rintro _ _ ⟨⟩
  exact ⟨h, h'⟩

theorem reference (fault : ReferenceFault) :
    FaultWithin first last (.error (.reference fault) : Except Error α) := by
  rintro _ _ ⟨⟩

/-- The same fault, whatever was to be read. -/
theorem again {error : Error} (h : FaultWithin first last (.error error : Except Error α)) :
    FaultWithin first last (.error error : Except Error β) := fun position fault ho =>
  h position fault (congrArg Except.error (Except.error.inj ho))

theorem mono {outcome : Except Error α} (h : FaultWithin first last outcome) (hf : first' ≤ first)
    (hl : last ≤ last') : FaultWithin first' last' outcome := fun position fault ho =>
  have hp := h position fault ho
  ⟨hf.trans hp.1, hp.2.trans_le hl⟩

theorem bind {outcome : Except Error α} {next : α → Except Error β}
    (h : FaultWithin first last outcome)
    (hn : ∀ a, outcome = .ok a → FaultWithin first last (next a)) :
    FaultWithin first last (outcome >>= next) := by
  cases outcome with
  | error error => exact h.again
  | ok a => exact hn a rfl

theorem map {outcome : Except Error α} (h : FaultWithin first last outcome) (f : α → β) :
    FaultWithin first last (outcome.map f) := by
  cases outcome with
  | error error => exact h.again
  | ok a => exact .ok _

theorem shift {fault : Error} (h : FaultWithin first last (.error fault : Except Error α))
    (distance : Nat) :
    FaultWithin (first + distance) (last + distance)
      (.error (fault.shift distance) : Except Error β) := by
  cases fault with
  | malformed position fault =>
    obtain ⟨hf, hl⟩ := h position fault rfl
    exact .malformed (by omega) (by omega)
  | _ => rintro _ _ ⟨⟩

end FaultWithin

-- ---------------------------------------------------------------------------
-- Readers of a text
-- ---------------------------------------------------------------------------

/-- A fault in a text that ends at `stop`, if that is the outcome, is at one of its bytes or at its
end. -/
abbrev FaultInText {α : Type} (stop : Nat) (text : Bytes) (outcome : Except Error α) : Prop :=
  FaultWithin (stop - text.length) (stop + 1) outcome

section
variable {stop : Nat} {text rest : Bytes}

/-- A fault at a place in a text, told by what is left of the text there. -/
theorem FaultWithin.left {α : Type} {fault : Fault} (h : rest.length ≤ text.length) :
    FaultInText stop text (.error (.malformed (stop - rest.length) fault) : Except Error α) :=
  .malformed (Nat.sub_le_sub_left h stop) (Nat.lt_succ_of_le (Nat.sub_le stop _))

theorem FaultWithin.atStop {α : Type} {fault : Fault} :
    FaultInText stop text (.error (.malformed stop fault) : Except Error α) :=
  .malformed (Nat.sub_le stop _) (Nat.lt_succ_self stop)

theorem FaultWithin.ofRest {α : Type} {outcome : Except Error α}
    (h : FaultInText stop rest outcome) (hr : rest.length ≤ text.length) :
    FaultInText stop text outcome :=
  h.mono (Nat.sub_le_sub_left hr stop) (Nat.le_refl _)

theorem length_readName?_le {name : Bytes} (h : readName? text = some (name, rest)) :
    rest.length ≤ text.length := by
  obtain ⟨-, rfl, -⟩ := readName?_eq_some_iff.mp h
  exact (List.suffix_append name rest).length_le

theorem readAttribute_faultInText (stop : Nat) (text : Bytes) :
    FaultInText stop text (readAttribute stop text) := by
  unfold readAttribute
  split
  next => exact .left (Nat.le_refl _)
  next name afterName hname =>
    have hafterName := (length_trimStart_le afterName).trans (length_readName?_le hname)
    split
    next afterEquals hequals =>
      rw [hequals, List.length_cons] at hafterName
      have hafterEquals := length_trimStart_le afterEquals
      split
      next => exact .atStop
      next quote quoted hquoted =>
        rw [hquoted, List.length_cons] at hafterEquals
        split
        next =>
          split
          next => exact .left (by omega)
          next =>
            split
            next => exact .left (by omega)
            next => exact .ok _
        next => exact .left (by rw [List.length_cons]; omega)
    next => exact .left hafterName

theorem rawAttributes_faultInText {fault : Error}
    (h : (rawAttributes stop text).2 = some fault) :
    FaultInText stop text (.error fault : Except Error Unit) := by
  fun_induction rawAttributes stop text with
  | case1 => cases h
  | case2 text b more hs fault' hr =>
    obtain rfl := Option.some.inj h
    have hlength := length_trimStart_le text
    rw [hs] at hlength
    have hattribute := (readAttribute_faultInText stop _).ofRest hlength
    rw [hr] at hattribute
    exact hattribute.again
  | case3 text b more hs att rest hr others =>
    rename_i ih
    have hlength := length_trimStart_le text
    rw [hs] at hlength
    exact (ih h).ofRest ((readAttribute_length hr).le.trans hlength)

theorem decodeAttributes_faultWithin (first last : Nat) (entities : Entities)
    (attributes : List Attribute) :
    FaultWithin first last (decodeAttributes entities attributes).2 := by
  fun_induction decodeAttributes entities attributes with
  | case1 => exact .ok _
  | case2 => exact .reference _
  | case3 _ _ _ _ _ _ _ ih => exact ih.map _

theorem readAttributes_faultInText (entities : Entities) (stop : Nat) (text : Bytes) :
    FaultInText stop text (readAttributes entities stop text).2 := by
  unfold readAttributes
  simp only
  split
  next hr => exact (rawAttributes_faultInText hr).again
  next => exact decodeAttributes_faultWithin _ _ entities _

theorem readLiteral_faultInText (stop : Nat) (text : Bytes) :
    FaultInText stop text (readLiteral stop text) := by
  have hlength := length_trimStart_le text
  unfold readLiteral
  split
  next => exact .atStop
  next quote quoted hquoted =>
    rw [hquoted, List.length_cons] at hlength
    split
    next =>
      split
      next => exact .left (by omega)
      next => exact .ok _
    next => exact .left (by rwa [List.length_cons])

theorem length_readLiteral_le {literal : Bytes} (h : readLiteral stop text = .ok (literal, rest)) :
    rest.length ≤ text.length := by
  obtain ⟨written, -, -, rfl⟩ := WrittenDoctype.exists_quotedLiteral h
  exact (List.suffix_append written.write rest).length_le

theorem readEntity_faultInText (stop : Nat) (body : Bytes) :
    FaultInText stop body (readEntity stop body) := by
  have hlength := length_trimStart_le body
  unfold readEntity
  simp only
  split
  · exact .ok _
  · split
    next => exact .left hlength
    next name rest hname =>
      have hrest := (length_trimStart_le rest).trans (length_readName?_le hname)
      split
      · exact ((readLiteral_faultInText stop _).ofRest (hrest.trans hlength)).map _
      · exact .ok _

theorem failAtStart_faultInText {α : Type} (stop : Nat) (text : Bytes) (fault : Fault) :
    FaultInText stop text (failAtStart stop text fault : Except Error α) :=
  .left (Nat.le_refl _)

/-- A fault in a declaration of an entity is counted as if the keyword took no space, which leaves
it before the end of the declaration. -/
theorem readItem_faultInText (h : text.length ≤ stop) :
    FaultInText stop text (readItem stop text) := by
  unfold readItem
  repeat' split
  all_goals first
    | exact .ok _
    | exact failAtStart_faultInText _ _ _
    | skip
  · rintro _ _ ⟨⟩
  next body rest hcut _ fault hr =>
    have hbody := congrArg List.length (cutUnquoted?_append hcut)
    rw [List.length_drop, List.length_append, List.length_cons] at hbody
    have hentity : FaultInText body.length body (.error fault : Except Error (Option SubsetItem)) :=
      hr ▸ readEntity_faultInText body.length body
    exact (hentity.shift (stop - text.length)).mono (by omega) (by omega)

theorem readItems_faultInText {fuel : Nat} (h : text.length ≤ stop) :
    FaultInText stop text (readItems stop fuel text) := by
  induction fuel generalizing text with
  | zero => exact .ok _
  | succ fuel ih =>
    have hlength := length_trimStart_le text
    unfold readItems
    simp only
    split
    next => exact .ok _
    next hne =>
      have hne : trimStart text ≠ [] := fun ht => hne (by rw [ht]; rfl)
      refine .bind ((readItem_faultInText (hlength.trans h)).ofRest hlength) ?_
      rintro ⟨item, rest⟩ hitem
      have hrest := (readItem_sound hne hitem).1.le.trans hlength
      exact .bind ((ih (hrest.trans h)).ofRest hrest) fun _ _ => .ok _

theorem readExternalId_faultInText (stop : Nat) (text : Bytes) :
    FaultInText stop text (readExternalId stop text) := by
  have hdrop : (text.drop 6).length ≤ text.length := by
    rw [List.length_drop]
    omega
  have hliteral := (readLiteral_faultInText stop (text.drop 6)).ofRest hdrop
  unfold readExternalId
  split
  · refine .bind hliteral ?_
    rintro ⟨publicId, rest⟩ hpublic
    have hrest := (length_readLiteral_le hpublic).trans hdrop
    exact .bind ((readLiteral_faultInText stop rest).ofRest hrest) fun _ _ => .ok _
  · split
    · exact .bind hliteral fun _ _ => .ok _
    · exact .ok _

theorem readDoctype_faultInText (h : text.length ≤ stop) :
    FaultInText stop text (readDoctype stop text) := by
  have htrim := length_trimStart_le text
  unfold readDoctype
  simp only
  split
  next => exact .left htrim
  next name rest hname =>
    have hrest := (length_trimStart_le rest).trans ((length_readName?_le hname).trans htrim)
    refine .bind ((readExternalId_faultInText stop (trimStart rest)).ofRest hrest) ?_
    rintro ⟨publicId, systemId, more⟩ hfound
    obtain ⟨externalId, -, -, -, hsplit⟩ := WrittenDoctype.exists_externalId hfound
    rw [hsplit, List.length_append] at hrest
    have hmore := (length_trimStart_le more).trans ((Nat.le_add_left _ _).trans hrest)
    simp only
    split
    next inner hinner =>
      rw [hinner, List.length_cons] at hmore
      split
      next =>
        have hopen : (0x5B :: inner).length ≤ text.length := by rwa [List.length_cons]
        exact .left hopen
      next subset after hcut =>
        obtain ⟨rfl, -⟩ := cutLastBracket?_eq_some_iff.mp hcut
        rw [List.length_append, List.length_cons] at hmore
        have hstop : subset.length ≤ stop - (after.length + 1) := by omega
        refine .bind ?_ fun _ _ => .ok _
        exact (readItems_faultInText hstop).mono (by omega) (by omega)
    next => exact .ok _

end

-- ---------------------------------------------------------------------------
-- Constructs
-- ---------------------------------------------------------------------------

namespace Construct

section
variable {c : Context} {here : Nat} {last : Bool} {bs : Bytes} {fault : Fault}

theorem failAt_faultWithin (hbs : 1 ≤ bs.length) :
    FaultWithin here (here + bs.length) (c.failAt here fault : Reading Progress).outcome :=
  .malformed (Nat.le_refl here) (by omega)

theorem incomplete_faultWithin (hbs : 1 ≤ bs.length) :
    FaultWithin here (here + bs.length) (c.incomplete here last fault).outcome := by
  unfold Context.incomplete
  split
  · exact failAt_faultWithin hbs
  · exact .ok _

theorem text_faultWithin :
    FaultWithin here (here + bs.length) (text c here last bs).outcome := by
  obtain ⟨run, rest, rfl, hrun, hrest⟩ := exists_run bs
  rw [text_run hrun hrest]
  have htold (part : Bytes) (progress : Progress) (hpart : part.length ≤ (run ++ rest).length) :
      FaultWithin here (here + (run ++ rest).length)
        (told c (textEvents c here part) progress).outcome := by
    unfold textEvents
    split
    · exact .ok _
    · split
      next i hi =>
        have hlt := (List.findIdx?_eq_some_iff_findIdx_eq.mp hi).1
        exact .malformed (by omega) (by omega)
      next => exact .ok _
  split
  · exact htold _ _ (by rw [List.length_dropLast, List.length_append]; omega)
  · exact htold _ _ (by rw [List.length_append]; omega)

theorem reference_faultWithin (hbs : 1 ≤ bs.length) :
    FaultWithin here (here + bs.length) (reference c here last bs).outcome := by
  unfold reference
  split
  next => exact incomplete_faultWithin hbs
  next =>
    split
    · exact failAt_faultWithin hbs
    · split
      · exact failAt_faultWithin hbs
      · simp only
        split
        · exact .reference _
        · exact .ok _

theorem startTag_faultWithin (hbs : 1 ≤ bs.length) :
    FaultWithin here (here + bs.length) (startTag c here last bs).outcome := by
  unfold startTag
  split
  next => exact incomplete_faultWithin hbs
  next tag after hcut =>
    have htag := (cutUnquoted?_delimits none).length hcut
    rw [List.length_drop] at htag
    split
    · exact failAt_faultWithin hbs
    · simp only
      generalize hbody : (if (tag.getLast? == some 0x2F) = true then tag.dropLast else tag) = body
      have hle : body.length ≤ tag.length := by
        rw [← hbody]
        split
        · rw [List.length_dropLast]
          omega
        · exact Nat.le_refl _
      have hname : (spanName body).1.length + (spanName body).2.length = body.length := by
        rw [spanName, ← List.length_append, List.takeWhile_append_dropWhile]
      have hattributes := readAttributes_faultInText c.entities (here + 1 + body.length)
        (spanName body).2
      split
      next error herror =>
        rw [herror] at hattributes
        exact hattributes.again.mono (by omega) (by omega)
      next =>
        split
        · exact .malformed (by omega) (by omega)
        · split
          · exact .ok _
          · exact .ok _

theorem endTag_faultWithin (hbs : 1 ≤ bs.length) :
    FaultWithin here (here + bs.length) (endTag c here last bs).outcome := by
  unfold endTag
  split
  next => exact incomplete_faultWithin hbs
  next =>
    simp only
    split
    · exact failAt_faultWithin hbs
    · split
      · exact failAt_faultWithin hbs
      · exact .ok _

theorem xmlDeclaration_faultWithin (taken : Nat) (data : Bytes) (hbs : 1 ≤ bs.length) :
    FaultWithin here (here + bs.length) (xmlDeclaration c here taken data).outcome := by
  unfold xmlDeclaration
  split
  · exact failAt_faultWithin hbs
  · split
    · exact failAt_faultWithin hbs
    · exact .ok _
    · simp only
      split
      · exact .ok _
      · rintro _ _ ⟨⟩

theorem instruction_faultWithin (hbs : 1 ≤ bs.length) :
    FaultWithin here (here + bs.length) (instruction c here last bs).outcome := by
  unfold instruction
  split
  next => exact incomplete_faultWithin hbs
  next body after hcut =>
    have hbody : _ = _ + 2 + _ := cut?_length hcut
    rw [List.length_drop] at hbody
    split
    next => exact .malformed (by omega) (by omega)
    next =>
      simp only
      split
      · exact xmlDeclaration_faultWithin _ _ hbs
      · exact .ok _

theorem comment_faultWithin (hbs : 1 ≤ bs.length) :
    FaultWithin here (here + bs.length) (comment c here last bs).outcome := by
  unfold comment
  split
  next => exact incomplete_faultWithin hbs
  next =>
    split
    · exact failAt_faultWithin hbs
    · exact .ok _

theorem literalSection_faultWithin (hbs : 1 ≤ bs.length) :
    FaultWithin here (here + bs.length) (literalSection c here last bs).outcome := by
  unfold literalSection
  split
  · exact failAt_faultWithin hbs
  · split
    next => exact incomplete_faultWithin hbs
    next => exact .ok _

theorem doctype_faultWithin (hbs : 1 ≤ bs.length) :
    FaultWithin here (here + bs.length) (doctype c here last bs).outcome := by
  unfold doctype
  split
  · exact failAt_faultWithin hbs
  · split
    next => exact incomplete_faultWithin hbs
    next declaration after hcut =>
      have hlength := (cutDoctype?_delimits 0 none).length hcut
      rw [List.length_drop] at hlength
      have hcontent : (declaration.drop 7).length ≤ declaration.length := by
        rw [List.length_drop]
        omega
      have hstop := hcontent.trans (Nat.le_add_left _ (here + 2))
      simp only
      split
      next error herror =>
        have hdoctype := readDoctype_faultInText hstop
        rw [herror] at hdoctype
        exact hdoctype.again.mono (by omega) (by omega)
      next => exact .ok _

theorem declaration_faultWithin (hbs : 1 ≤ bs.length) :
    FaultWithin here (here + bs.length) (declaration c here last bs).outcome := by
  unfold declaration
  split
  · exact incomplete_faultWithin hbs
  split
  · exact comment_faultWithin hbs
  split
  · exact literalSection_faultWithin hbs
  split
  · exact doctype_faultWithin hbs
  · exact failAt_faultWithin hbs

theorem markup_faultWithin (hbs : 1 ≤ bs.length) :
    FaultWithin here (here + bs.length) (markup c here last bs).outcome := by
  unfold markup
  split
  next => exact incomplete_faultWithin hbs
  next b hb =>
    obtain ⟨hlength, -⟩ := List.getElem?_eq_some_iff.mp hb
    split
    · exact endTag_faultWithin hbs
    split
    · exact instruction_faultWithin hbs
    split
    · exact declaration_faultWithin hbs
    split
    · exact startTag_faultWithin hbs
    · exact .malformed (by omega) (by omega)

theorem read_faultWithin (hbs : 1 ≤ bs.length) :
    FaultWithin here (here + bs.length) (read c here last bs).outcome := by
  unfold read
  split
  · exact markup_faultWithin hbs
  · exact reference_faultWithin hbs
  · exact text_faultWithin

end

end Construct

-- ---------------------------------------------------------------------------
-- Documents
-- ---------------------------------------------------------------------------

/-- Construct after construct, a fault is at one of the bytes that were there to read. -/
theorem readConstructs_faultWithin (last : Bool) (c : Context) (here : Nat) (bs : Bytes) :
    FaultWithin here (here + bs.length) (readConstructs last c here bs).outcome := by
  induction hn : bs.length using Nat.strongRecOn generalizing c here bs with
  | ind n ih =>
    subst hn
    by_cases hbs : bs = []
    · subst hbs
      rw [readConstructs_nil]
      exact .ok _
    have hread : FaultWithin here (here + bs.length) (Construct.read c here last bs).outcome :=
      Construct.read_faultWithin (List.length_pos_iff.mpr hbs)
    obtain ⟨-, hprogress⟩ := read_sound hbs c here last
    rw [readConstructs_eq_resume hbs]
    unfold Reading.resume
    split
    next error herror => exact (herror ▸ hread).again
    next => exact .ok _
    next taken ho =>
      obtain ⟨h0, hlen⟩ := hprogress _ ho
      have hrest := ih (bs.drop taken).length (by rw [List.length_drop]; omega)
        (Construct.read c here last bs).context (here + taken) (bs.drop taken) rfl
      rw [List.length_drop] at hrest
      exact (hrest.map _).mono (by omega) (by omega)

namespace Session

variable {options : ReadOptions} {bs : Bytes} {position : Nat} {fault : Fault}

/-- What is missing at the end is missing at a byte that was not taken or at the end. -/
theorem verdict_faultWithin (options : ReadOptions) (bs : Bytes) :
    FaultWithin 0 (bs.length + 1) ((reading options true bs).verdict 0 bs.length) := by
  have hread := readConstructs_faultWithin true (Parser.ofOptions options).context 0 bs
  have hsound := (readConstructs_sound true (Parser.ofOptions options).context 0 bs).2
  rw [← reading] at hread hsound
  unfold Reading.verdict
  split
  next error herror => exact (herror ▸ hread).again.mono (Nat.le_refl 0) (by omega)
  next taken htaken =>
    have hle := hsound taken htaken
    split
    · exact .malformed (by omega) (by omega)
    · split
      · exact .malformed (by omega) (by omega)
      · exact .ok _

/-- The bytes before a fault show no fault: it would be the same one, and behind them. -/
theorem reading_take_ok
    (h : (reading options false bs).outcome = .error (.malformed position fault)) :
    ∃ taken, (reading options false (bs.take position)).outcome = .ok taken := by
  cases ho : (reading options false (bs.take position)).outcome with
  | ok taken => exact ⟨taken, rfl⟩
  | error found =>
    have halike := (reading_append_fault ho false (bs.drop position)).outcome
    rw [List.take_append_drop, h, ho] at halike
    obtain rfl := Except.error.inj halike
    have hlast := (readConstructs_faultWithin _ _ _ _ position fault ho).2
    rw [List.length_take] at hlast
    omega

/-- A fault in the markup is no farther than the end of the document. If pieces of it show the
fault, it is at one of their bytes, and the bytes before it are taken without a fault, however they
are cut. -/
theorem fault_within_input (options : ReadOptions) (pieces : List Bytes) {stopped : Session Log}
    (h : run Log.record pieces (recording options) =
      .error (.malformed position fault) stopped) :
    position ≤ pieces.flatten.length ∧
      (feedAll Log.record pieces (recording options) = .error (.malformed position fault) stopped →
        position < pieces.flatten.length ∧
          ∀ beginning : List Bytes, beginning.flatten = pieces.flatten.take position →
            ∃ session, feedAll Log.record beginning (recording options) = .ok () session) := by
  constructor
  · have hview := congrArg View.result (view_run_eq options pieces)
    rw [h] at hview
    have hlast := (verdict_faultWithin options pieces.flatten position fault hview.symm).2
    omega
  · intro hfeed
    obtain ⟨session, hok, -⟩ | ⟨found, session, herror, hreading⟩ :=
      (recording_fed options).feedAll pieces
    · rw [hok] at hfeed
      cases hfeed
    · rw [herror] at hfeed
      obtain ⟨rfl, rfl⟩ := EStateM.Result.error.inj hfeed
      have houtcome := (hreading false).1
      rw [List.nil_append] at houtcome
      refine ⟨?_, fun beginning hbeginning => ?_⟩
      · have hlast := (readConstructs_faultWithin _ _ _ _ position fault houtcome).2
        omega
      · obtain ⟨taken, htaken⟩ := reading_take_ok houtcome
        obtain ⟨session, hok, -⟩ | ⟨other, session, -, hother⟩ :=
          (recording_fed options).feedAll beginning
        · exact ⟨session, hok⟩
        · have hfault := (hother false).1
          rw [List.nil_append, hbeginning, htaken] at hfault
          cases hfault

theorem end_tag_behind_comment_stops_there :
    ∃ stopped,
      run Log.record [ascii "<!--", ascii "c--></a>"] (recording {}) =
        .error (.malformed 8 (.unexpectedEndTag (ascii "a"))) stopped ∧
      feedAll Log.record [ascii "<!--", ascii "c--></a>"] (recording {}) =
        .error (.malformed 8 (.unexpectedEndTag (ascii "a"))) stopped ∧
      8 < [ascii "<!--", ascii "c--></a>"].flatten.length ∧
      ∃ session, feedAll Log.record [ascii "<!--c", ascii "-->"] (recording {}) =
        .ok () session := by
  have hread : (reading {} false [ascii "<!--", ascii "c--></a>"].flatten).outcome =
      .error (.malformed 8 (.unexpectedEndTag (ascii "a"))) := by
    rw [reading, readConstructs_eq_resume (by decide)]
    change (Reading.prepend _ 8 (readConstructs false _ _ (ascii "</a>"))).outcome = _
    rw [readConstructs_eq_resume (by decide)]
    rfl
  obtain ⟨session, -, hfed, -⟩ | ⟨fault, stopped, hfeed, hfault⟩ :=
    (recording_fed {}).feedAll [ascii "<!--", ascii "c--></a>"]
  · have ho := hfed.outcome
    rw [List.nil_append, hread] at ho
    cases ho
  · have ho := (hfault false).1
    rw [List.nil_append, hread] at ho
    obtain rfl := Except.error.inj ho
    have hrun : run Log.record [ascii "<!--", ascii "c--></a>"] (recording {}) =
        .error (.malformed 8 (.unexpectedEndTag (ascii "a"))) stopped := run_bind_error hfeed
    obtain ⟨-, hbefore⟩ := fault_within_input {} _ hrun
    obtain ⟨hlast, hshow⟩ := hbefore hfeed
    exact ⟨stopped, hrun, hfeed, hlast, hshow [ascii "<!--c", ascii "-->"] (by decide)⟩

end Session

end XmlStore
