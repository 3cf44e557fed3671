import XmlStore.Proofs.Doctypes
import XmlStore.Proofs.Replacing

/-!
# Constructs with line feeds for line ends

A construct is read to the same end before and after its line ends become line feeds, and what is
known about the document afterwards is the same but for the line ends of declared texts. Its
events differ in line ends only: those of comments and instructions always, as nothing there
makes line feeds of them, and others as far as declared texts with carriage returns replace
references.
-/

namespace XmlStore

-- ---------------------------------------------------------------------------
-- Declared encodings
-- ---------------------------------------------------------------------------

namespace Utf8

/-- The bytes after the first that are part of the sequence or of the ill-formed part. -/
def Head.passed : Head → Bytes → Bytes
  | .scalar trailing, rest | .illFormed trailing, rest => rest.take trailing
  | .truncated, rest => rest

theorem Head.follow_passed {ranges : List (UInt8 × UInt8)} (h : ∀ range ∈ ranges, 0x80 ≤ range.1)
    {before : Bytes} (hbefore : ∀ b ∈ before, 0x80 ≤ b) (rest : Bytes) :
    ∀ b ∈ (follow before.length ranges rest).passed (before ++ rest), 0x80 ≤ b := by
  induction ranges generalizing before rest with
  | nil => simpa [follow, passed] using hbefore
  | cons range ranges ih =>
    obtain ⟨hrange, hranges⟩ := List.forall_mem_cons.mp h
    cases rest with
    | nil => simpa [follow, passed] using hbefore
    | cons b rest =>
      rw [follow]
      split
      next hb =>
        simp only [Bool.and_eq_true, decide_eq_true_eq] at hb
        have hnext : ∀ c ∈ before ++ [b], 0x80 ≤ c := by
          simp only [List.forall_mem_append, List.forall_mem_singleton]
          exact ⟨hbefore, UInt8.le_trans hrange hb.1⟩
        simpa using ih hranges hnext rest
      next => simpa [passed] using hbefore

/-- Only bytes outside ASCII are part of what another byte begins. -/
theorem head_passed (lead : UInt8) (rest : Bytes) :
    ∀ b ∈ (head lead rest).passed rest, 0x80 ≤ b := by
  unfold head
  split
  next => simp [Head.passed]
  next ranges h =>
    have hranges : ∀ range ∈ ranges, 0x80 ≤ range.1 := by
      unfold trailingRanges at h
      repeat' split at h
      all_goals cases h
      all_goals simp [continuation]
    exact @Head.follow_passed ranges hranges [] (by simp) rest

theorem head_ascii {lead : UInt8} (h : lead < 0x80) (rest : Bytes) :
    head lead rest = .scalar 0 := by
  simp [head, trailingRanges, h, Head.follow]

/-- An ASCII byte stands for its own character wherever it stands. -/
theorem mem_decodeLossy {b : UInt8} (hb : b < 0x80) {bs : Bytes} (h : b ∈ bs) :
    Char.ofNat b.toNat ∈ decodeLossy bs := by
  have hleft {lead : UInt8} {rest : Bytes} {trailing : Nat} (h : b ∈ rest)
      (hp : (head lead rest).passed rest = rest.take trailing) : b ∈ rest.drop trailing := by
    rw [← List.take_append_drop trailing rest, ← hp] at h
    refine (List.mem_append.mp h).resolve_left fun hpassed => ?_
    exact absurd hb (UInt8.not_lt.mpr (head_passed lead rest b hpassed))
  fun_induction decodeLossy bs with
  | case1 => cases h
  | case2 lead rest trailing hhead ih =>
    rcases List.mem_cons.mp h with rfl | h
    · rw [head_ascii hb] at hhead
      cases hhead
      simp [scalarValue, hb]
    · exact List.mem_cons_of_mem _ (ih (hleft h (by rw [hhead, Head.passed])))
  | case3 lead rest trailing hhead ih =>
    rcases List.mem_cons.mp h with rfl | h
    · rw [head_ascii hb] at hhead
      cases hhead
    · exact List.mem_cons_of_mem _ (ih (hleft h (by rw [hhead, Head.passed])))
  | case4 lead rest hhead =>
    rcases List.mem_cons.mp h with rfl | h
    · rw [head_ascii hb] at hhead
      cases hhead
    · have hpassed := head_passed lead rest b (by rwa [hhead])
      exact absurd hb (UInt8.not_lt.mpr hpassed)

end Utf8

namespace Construct

theorem oneLine_of_known {value : Bytes}
    (h : knownEncodings.contains (String.ofList ((Utf8.decodeLossy value).map Char.toUpper))) :
    OneLine value := by
  have hknown : (knownEncodings.all fun name =>
      name.toList.all fun c => c != '\n' && c != '\r') = true := by decide
  simp only [List.all_eq_true, Bool.and_eq_true, bne_iff_ne] at hknown
  have hchars := hknown _ (List.contains_iff_mem.mp h)
  rw [String.toList_ofList] at hchars
  intro b hb
  rw [Bool.eq_false_iff]
  intro hend
  have hascii : b < 0x80 := by
    rcases Bool.or_eq_true_iff.mp hend with hb | hb <;>
      · rw [eq_of_beq hb]
        decide
  have hmem := List.mem_map_of_mem (f := Char.toUpper) (Utf8.mem_decodeLossy hascii hb)
  obtain ⟨hn, hr⟩ := hchars _ hmem
  rcases Bool.or_eq_true_iff.mp hend with hb | hb
  · rw [eq_of_beq hb] at hn
    exact hn (by decide)
  · rw [eq_of_beq hb] at hr
    exact hr (by decide)

end Construct

-- ---------------------------------------------------------------------------
-- Readings
-- ---------------------------------------------------------------------------

/-- A comment or an instruction with a line feed for every line end. -/
def Event.fed : Event → Event
  | .comment bytes => .comment (normalizeLineEnds bytes)
  | .instruction target data => .instruction target (normalizeLineEnds data)
  | event => event

/-- Two events that differ in line ends only: of a comment or an instruction all of them may, and
what declared texts bring may keep some. -/
inductive Event.Relined : Event → Event → Prop
  | fed (event : Event) : Relined event event.fed
  | text {x y : Bytes} (h : XmlStore.Relined x y) : Relined (.text (.utf8 x)) (.text (.utf8 y))
  | startElement (name : Bytes) {attributes attributes' : List Attribute}
    (h : List.Forall₂ Attribute.Relined attributes attributes') :
    Relined (.startElement name attributes) (.startElement name attributes')
  | declareNamespace (qualifier : Bytes) {x y : Bytes} (h : XmlStore.Relined x y) :
    Relined (.declareNamespace qualifier x) (.declareNamespace qualifier y)

/-- The second events are those of the first with line feeds, exactly so if no declared text holds
a carriage return. -/
structure Retold (entities : Entities) (first second : List Event) : Prop where
  relined : List.Forall₂ Event.Relined first second
  fed : entities.Unreturned → second = first.map Event.fed

namespace Retold

variable {entities : Entities}

theorem of_fed (entities : Entities) (events : List Event) :
    Retold entities events (events.map Event.fed) where
  relined := by
    rw [List.forall₂_map_right_iff]
    exact List.forall₂_same.mpr fun event _ => .fed event
  fed _ := rfl

theorem append {first second first' second' : List Event} (h : Retold entities first second)
    (h' : Retold entities first' second') :
    Retold entities (first ++ first') (second ++ second') where
  relined := List.rel_append h.relined h'.relined
  fed hu := by rw [h.fed hu, h'.fed hu, List.map_append]

theorem mono {entities' : Entities} {first second : List Event} (h : Retold entities first second)
    (hd : entities.declared ⊆ entities'.declared) : Retold entities' first second where
  relined := h.relined
  fed hu := h.fed fun d hm => hu d (hd hm)

end Retold

namespace Context

/-- The same knowledge, of the document with line feeds. -/
def fed (c : Context) : Context := { c with entities := c.entities.fed }

/-- The names that are known hold no line ends. -/
structure Named (c : Context) : Prop where
  path : ∀ name ∈ c.path, OneLine name
  entities : c.entities.Named

theorem Named.leaveElement {c : Context} (h : c.Named) : c.leaveElement.Named := by
  unfold Context.leaveElement
  split
  next => exact ⟨h.path, h.entities⟩
  next => exact h

theorem entities_leaveElement (c : Context) : c.leaveElement.entities = c.entities := by
  unfold leaveElement
  split <;> rfl

theorem leaveElement_fed (c : Context) : c.fed.leaveElement = c.leaveElement.fed := by
  unfold Context.leaveElement
  rw [apply_ite fed]
  rfl

end Context

/-- The readings of some bytes and of the same bytes with line feeds for their line ends, from a
context on. They come to `done` and `done'`. -/
inductive Reading.Relined {α : Type} (c : Context) (done done' : α) : Reading α → Reading α → Prop
  | fail {first second : Reading α} {fault fault' : Error} (ho : first.outcome = .error fault)
    (ho' : second.outcome = .error fault') : Relined c done done' first second
  | ok {first second : Reading α} (ho : first.outcome = .ok done)
    (ho' : second.outcome = .ok done') (hcontext : second.context = first.context.fed)
    (hnamed : first.context.Named)
    (hdeclared : c.entities.declared ⊆ first.context.entities.declared)
    (hevents : Retold first.context.entities (first.events.map (·.2)) (second.events.map (·.2))) :
    Relined c done done' first second

namespace Construct

section
variable {c : Context} {here here' taken taken' : Nat} {bs : Bytes}

/-- The readings of a construct of `taken` bytes, which has `taken'` bytes with line feeds. -/
abbrev Relined (c : Context) (taken taken' : Nat) : Reading Progress → Reading Progress → Prop :=
  Reading.Relined c (.advance taken) (.advance taken')

theorem Relined.failAt {d d' : Context} (position position' : Nat) (fault fault' : Fault) :
    Relined c taken taken' (d.failAt position fault) (d'.failAt position' fault') :=
  .fail rfl rfl

theorem Relined.leave {e e' d d' : Context} {events events' : List Event} (hd' : d' = d.fed)
    (hd : d.Named) (hdeclared : c.entities.declared ⊆ d.entities.declared)
    (h : Retold d.entities events events') :
    Relined c taken taken' { e.read events taken with context := d }
      { e'.read events' taken' with context := d' } := by
  refine .ok rfl rfl hd' hd hdeclared ?_
  simpa [Context.read] using h

theorem Relined.read (hc : c.Named) {events events' : List Event}
    (h : Retold c.entities events events') :
    Relined c taken taken' (c.read events taken) (c.fed.read events' taken') :=
  .leave rfl hc (List.Subset.refl _) h

/-- The readings end at the same place of the document. -/
def Meets (c : Context) (bs : Bytes) (first second : Reading Progress) : Prop :=
  ∃ taken taken', lineFeeds false (bs.drop taken) = (lineFeeds false bs).drop taken' ∧
    Relined c taken taken' first second

theorem Meets.failAt {d d' : Context} (position position' : Nat) (fault fault' : Fault) :
    Meets c bs (d.failAt position fault) (d'.failAt position' fault') :=
  ⟨0, 0, rfl, .failAt ..⟩

/-- How a delimiter is cut off, before and after line ends become line feeds. -/
structure CutsLines (closing : Bytes) (cut : Bytes → Option (Bytes × Bytes)) : Prop where
  oneLine : OneLine closing
  nonempty : closing ≠ []
  append {bs before after : Bytes} : cut bs = some (before, after) →
    bs = before ++ closing ++ after
  fed (bs : Bytes) : cut (lineFeeds false bs) = (cut bs).map (feedParts false)

theorem cut?_cutsLines (closing : Bytes) (h : OneLine closing) (hne : closing ≠ []) :
    CutsLines closing (cut? closing) where
  oneLine := h
  nonempty := hne
  append := cut?_append
  fed := cut?_lineFeeds h hne false

theorem cutAt?_cutsLines {z : UInt8} (h : isLineEnd z = false) :
    CutsLines [z] (cutAt? (· == z)) where
  oneLine := by simpa [OneLine] using h
  nonempty := List.cons_ne_nil _ _
  append hcut := by
    obtain ⟨b, hb, hs, -⟩ := cutAt?_append hcut
    rw [hs, eq_of_beq hb, List.append_assoc]
    rfl
  fed := cutAt?_mark_lineFeeds h

theorem cutUnquoted?_cutsLines : CutsLines [0x3E] (cutUnquoted? none) where
  oneLine := by decide
  nonempty := List.cons_ne_nil _ _
  append hcut := by
    rw [cutUnquoted?_append hcut, List.append_assoc]
    rfl
  fed := cutUnquoted?_lineFeeds (by simp) false

theorem cutDoctype?_cutsLines : CutsLines [0x3E] (cutDoctype? 0 none) where
  oneLine := by decide
  nonempty := List.cons_ne_nil _ _
  append hcut := by
    rw [cutDoctype?_append hcut, List.append_assoc]
    rfl
  fed := cutDoctype?_lineFeeds (by simp) 0 false

/-- A reader that cuts off its construct after the opening cuts off the same construct with line
feeds. -/
theorem meets_of_cut {closing : Bytes} {cut : Bytes → Option (Bytes × Bytes)}
    (hcut : CutsLines closing cut) {opening : Bytes} (hopening : OneLine opening)
    (hp : opening.isPrefixOf bs) {fault : Fault} {body body' : Bytes → Reading Progress}
    {first second : Reading Progress}
    (hfirst : first =
      match cut (bs.drop opening.length) with
      | none => c.incomplete here true fault
      | some (before, _) => body before)
    (hsecond : second =
      match cut ((lineFeeds false bs).drop opening.length) with
      | none => c.fed.incomplete here' true fault
      | some (before, _) => body' before)
    (h : ∀ before after, cut (bs.drop opening.length) = some (before, after) →
      Relined c (before.length + (opening.length + closing.length))
        ((lineFeeds false before).length + (opening.length + closing.length))
        (body before) (body' (lineFeeds false before))) :
    Meets c bs first second := by
  rw [drop_lineFeeds hopening hp, hcut.fed] at hsecond
  cases hc : cut (bs.drop opening.length) with
  | none =>
    rw [hc] at hfirst hsecond
    rw [hfirst, hsecond]
    exact .failAt ..
  | some found =>
    obtain ⟨before, after⟩ := found
    rw [hc] at hfirst hsecond
    rw [hfirst, hsecond]
    refine ⟨_, _, ?_, h before after hc⟩
    obtain ⟨rest, rfl⟩ := List.isPrefixOf_iff_prefix.mp hp
    rw [List.drop_left] at hc
    obtain rfl := hcut.append hc
    rw [hopening.lineFeeds_append, hcut.oneLine.lineFeeds_delimiter hcut.nonempty]
    have hdrop (opening before after : Bytes) :
        (opening ++ (before ++ closing ++ after)).drop
          (before.length + (opening.length + closing.length)) = after := by
      rw [← List.append_assoc, ← List.append_assoc]
      refine List.drop_left' ?_
      simp only [List.length_append]
      omega
    rw [hdrop, hdrop]

-- ---------------------------------------------------------------------------
-- Each construct
-- ---------------------------------------------------------------------------

theorem oneLine_of_isReference {name : Bytes} (h : isReference name) : OneLine name := by
  cases name with
  | nil => exact fun _ hd => absurd hd List.not_mem_nil
  | cons b rest =>
    rw [isReference] at h
    split at h
    next hb =>
      simp only [Bool.and_eq_true, List.all_eq_true] at h
      rw [OneLine, List.forall_mem_cons, eq_of_beq hb]
      refine ⟨rfl, fun d hd => ?_⟩
      exact not_isLineEnd (p := fun d => isLetter d || isDigit d) rfl rfl (h.2 d hd)
    next => exact oneLine_of_isName h

theorem reference_meets (hc : c.Named) (hp : [0x26].isPrefixOf bs) :
    Meets c bs (reference c here true bs) (reference c.fed here' true (lineFeeds false bs)) := by
  refine meets_of_cut (cutAt?_cutsLines (z := 0x3B) rfl) (by decide) hp rfl rfl ?_
  intro name _ _
  have hreference : isReference (lineFeeds false name) = isReference name :=
    test_lineFeeds (fun _ => oneLine_of_isReference) name
  rw [hreference]
  cases hname : isReference name with
  | false => exact .failAt ..
  | true =>
    have hline := oneLine_of_isReference hname
    rw [hline.lineFeeds_eq]
    by_cases hs : c.stage = .content
    · have hexpansion := Entities.expandReference_relined hc.entities hline
      have hafter := Entities.after_fed c.entities hexpansion
      simp only [hs, Context.fed, Bool.not_true, Bool.false_eq_true, not_true_eq_false, ↓reduceIte,
        ne_eq]
      cases hfault : (c.entities.expandReference name).fault with
      | some fault =>
        obtain ⟨fault', hfault'⟩ := hexpansion.exists_fault hfault
        rw [hfault']
        exact .fail rfl rfl
      | none =>
        rw [hexpansion.fault_eq_none hfault, hafter]
        refine .ok rfl rfl rfl ⟨hc.path, hc.entities⟩ (List.Subset.refl _) ⟨?_, ?_⟩
        · exact .cons (.text hexpansion.output) .nil
        · intro hu
          have hfed : c.entities.fed = c.entities := Entities.Unreturned.fed_eq hu
          rw [hfed]
          rfl
    · simp only [hs, Context.fed, Bool.not_true, Bool.false_eq_true, not_false_eq_true, ↓reduceIte,
        ne_eq]
      exact .failAt ..

theorem comment_meets (hc : c.Named) (hp : (ascii "<!--").isPrefixOf bs) :
    Meets c bs (comment c here true bs) (comment c.fed here' true (lineFeeds false bs)) := by
  refine meets_of_cut (cut?_cutsLines (ascii "-->") (by decide) (by decide)) (by decide) hp
    rfl rfl ?_
  intro text _ _
  have hhyphens : (cut? (ascii "--") (lineFeeds false text)).isSome =
      (cut? (ascii "--") text).isSome := by
    rw [cut?_lineFeeds (by decide) (by decide), Option.isSome_map]
  rw [hhyphens, getLast?_beq_lineFeeds rfl]
  split
  next => exact .failAt ..
  next =>
    refine Relined.read hc ?_
    rw [← normalizeLineEnds_eq]
    exact .of_fed _ [.comment text]

theorem literalSection_meets (hc : c.Named) (hp : (ascii "<![CDATA[").isPrefixOf bs) :
    Meets c bs (literalSection c here true bs)
      (literalSection c.fed here' true (lineFeeds false bs)) := by
  by_cases hs : c.stage = .content
  · refine meets_of_cut (cut?_cutsLines (ascii "]]>") (by decide) (by decide)) (by decide) hp
      (if_neg (not_not_intro hs)) (if_neg (not_not_intro hs)) ?_
    intro text _ _
    refine Relined.read hc ?_
    rw [normalizeLineEnds_eq, normalizeLineEnds_eq, lineFeeds_of_not_mem (not_mem_lineFeeds _ _)]
    exact .of_fed _ [.text (.utf8 _)]
  · unfold literalSection
    rw [if_pos hs, if_pos (show c.fed.stage ≠ .content from hs)]
    exact .failAt ..

theorem endTag_meets (hc : c.Named) (hp : [0x3C, 0x2F].isPrefixOf bs) :
    Meets c bs (endTag c here true bs) (endTag c.fed here' true (lineFeeds false bs)) := by
  refine meets_of_cut (cutAt?_cutsLines (z := 0x3E) rfl) (by decide) hp rfl rfl ?_
  intro tag _ _
  simp only [trimEnd_lineFeeds]
  obtain ⟨stage, path, entities, seenDoctype, encoding⟩ := c
  cases path with
  | nil => exact .failAt ..
  | cons expected path =>
    obtain ⟨hexpected, hpath⟩ := List.forall_mem_cons.mp hc.path
    simp only [Context.fed, ne_eq, lineFeeds_eq_iff hexpected]
    split
    next => exact .failAt ..
    next hname =>
      obtain rfl := of_not_not hname
      rw [hexpected.lineFeeds_eq]
      have hafter : Context.Named ⟨stage, path, entities, seenDoctype, encoding⟩ :=
        ⟨hpath, hc.entities⟩
      refine .leave (Context.leaveElement_fed ⟨stage, path, entities, seenDoctype, encoding⟩)
        hafter.leaveElement ?_ (.of_fed _ [.endElement _])
      rw [Context.entities_leaveElement]
      exact List.Subset.refl _

theorem xmlDeclaration_relined (hc : c.Named) (hhere : here = 0 ↔ here' = 0) (data : Bytes) :
    Relined c taken taken' (xmlDeclaration c here taken data)
      (xmlDeclaration c.fed here' taken' (lineFeeds false data)) := by
  unfold xmlDeclaration
  by_cases h0 : here = 0
  · rw [if_neg (not_not_intro h0), if_neg (not_not_intro (hhere.mp h0))]
    have hdeclared := declaredEncoding?_mirrors data
    generalize declaredEncoding? data = first at hdeclared ⊢
    generalize declaredEncoding? (lineFeeds false data) = second at hdeclared ⊢
    cases hdeclared with
    | error => exact .failAt ..
    | ok value =>
      cases value with
      | none => exact .read hc (.of_fed _ [])
      | some value =>
        have hknown := test_lineFeeds (fun _ => oneLine_of_known) value
        simp only [Option.map_some, hknown]
        split
        next h =>
          rw [(oneLine_of_known h).lineFeeds_eq]
          exact .ok rfl rfl rfl ⟨hc.path, hc.entities⟩ (List.Subset.refl _) (.of_fed _ [])
        next => exact .fail rfl rfl
  · rw [if_pos h0, if_pos fun h => h0 (hhere.mpr h)]
    exact .failAt ..

theorem instruction_meets (hc : c.Named) (hhere : here = 0 ↔ here' = 0)
    (hp : (ascii "<?").isPrefixOf bs) :
    Meets c bs (instruction c here true bs)
      (instruction c.fed here' true (lineFeeds false bs)) := by
  refine meets_of_cut (cut?_cutsLines (ascii "?>") (by decide) (by decide)) (by decide) hp
    rfl rfl ?_
  intro body _ _
  rw [readName?_lineFeeds]
  cases readName? body with
  | none => exact .failAt ..
  | some found =>
    obtain ⟨target, rest⟩ := found
    simp only [Option.map_some, trimStart_lineFeeds]
    split
    next => exact xmlDeclaration_relined hc hhere _
    next =>
      refine Relined.read hc ?_
      rw [← normalizeLineEnds_eq]
      exact .of_fed _ [.instruction target (trimStart rest)]

theorem duplicate?_relined {attributes attributes' : List Attribute}
    (h : List.Forall₂ Attribute.Relined attributes attributes') (seen : List Bytes) :
    duplicate? seen attributes' = duplicate? seen attributes := by
  induction h generalizing seen with
  | nil => rfl
  | cons h _ ih => simp only [duplicate?, h.name, ih]

theorem openingEvents_relined {attributes attributes' : List Attribute}
    (h : List.Forall₂ Attribute.Relined attributes attributes') (name : Bytes) :
    List.Forall₂ Event.Relined (openingEvents name attributes)
      (openingEvents name attributes') := by
  have hdeclares {att att' : Attribute} (ha : att.Relined att') : att'.declares? = att.declares? :=
    congrArg declaredQualifier? ha.name
  refine List.rel_append ?_ (.cons (.startElement name ?_) .nil)
  · refine List.rel_filterMap (fun att att' ha => ?_) h
    rw [hdeclares ha]
    cases att.declares? with
    | none => exact .none
    | some qualifier => exact .some (.declareNamespace qualifier ha.value)
  · refine List.rel_filter (fun att att' ha => ?_) h
    simp only [hdeclares ha]

theorem openingEvents_fed (name : Bytes) (attributes : List Attribute) :
    (openingEvents name attributes).map Event.fed = openingEvents name attributes := by
  simp [openingEvents, List.map_filterMap, Event.fed, Function.comp_def]

theorem openingEvents_retold {entities : Entities} {attributes attributes' : List Attribute}
    (h : List.Forall₂ Attribute.Relined attributes attributes')
    (he : entities.Unreturned → attributes' = attributes) (name : Bytes) :
    Retold entities (openingEvents name attributes) (openingEvents name attributes') where
  relined := openingEvents_relined h name
  fed hu := by rw [he hu, openingEvents_fed]

/-- A slash at the end of a tag is no part of its body. -/
theorem slashless_lineFeeds (tag : Bytes) :
    (if tag.getLast? == some 0x2F then (lineFeeds false tag).dropLast else lineFeeds false tag) =
      lineFeeds false (if tag.getLast? == some 0x2F then tag.dropLast else tag) := by
  split
  next h => exact dropLast_lineFeeds rfl (eq_of_beq h) false
  next => rfl

theorem opening_relined (hc : c.Named) {entities : Entities}
    (hdeclared : entities.declared = c.entities.declared) {name : Bytes} (hname : OneLine name)
    {attributes attributes' : List Attribute}
    (h : List.Forall₂ Attribute.Relined attributes attributes')
    (he : c.entities.Unreturned → attributes' = attributes) (closed : Bool) :
    let inside : Context := { c with stage := .content, entities }
    let inside' : Context := { c.fed with stage := .content, entities := entities.fed }
    Relined c taken taken'
      (if closed then
        { inside.read (openingEvents name attributes ++ [.endElement name]) taken with
          context := inside.leaveElement }
      else
        { inside.read (openingEvents name attributes) taken with
          context := { inside with path := name :: inside.path } })
      (if closed then
        { inside'.read (openingEvents name attributes' ++ [.endElement name]) taken' with
          context := inside'.leaveElement }
      else
        { inside'.read (openingEvents name attributes') taken' with
          context := { inside' with path := name :: inside'.path } }) := by
  intro inside inside'
  have hsubset : c.entities.declared ⊆ entities.declared := by
    rw [hdeclared]
    exact List.Subset.refl _
  have hnamed : entities.Named := by
    rw [Entities.Named, hdeclared]
    exact hc.entities
  have hinside : inside.Named := ⟨hc.path, hnamed⟩
  have hopening : Retold entities (openingEvents name attributes)
      (openingEvents name attributes') := by
    refine openingEvents_retold h (fun hu => he ?_) name
    rwa [Entities.Unreturned, hdeclared] at hu
  cases closed with
  | true =>
    refine .leave (Context.leaveElement_fed inside) hinside.leaveElement ?_ ?_
    · rwa [Context.entities_leaveElement]
    · rw [Context.entities_leaveElement]
      exact hopening.append (.of_fed _ [.endElement name])
  | false =>
    refine .leave rfl ⟨?_, hnamed⟩ hsubset hopening
    exact List.forall_mem_cons.mpr ⟨hname, hc.path⟩

theorem startTag_meets (hc : c.Named) (hp : [0x3C].isPrefixOf bs) :
    Meets c bs (startTag c here true bs) (startTag c.fed here' true (lineFeeds false bs)) := by
  refine meets_of_cut cutUnquoted?_cutsLines (by decide) hp rfl rfl ?_
  intro tag _ _
  by_cases hs : c.stage = .epilog
  · rw [if_pos hs, if_pos (show c.fed.stage = .epilog from hs)]
    exact .failAt ..
  rw [if_neg hs, if_neg (show ¬ c.fed.stage = .epilog from hs)]
  simp only [getLast?_beq_lineFeeds (d := 0x2F) rfl, slashless_lineFeeds, spanName_lineFeeds]
  generalize (if tag.getLast? == some 0x2F then tag.dropLast else tag) = body
  have hname : OneLine (spanName body).1 := fun b hb =>
    not_isLineEnd rfl rfl (List.mem_takeWhile_imp hb)
  have hdeclared := readAttributes_declared c.entities (here + 1 + body.length)
    (spanName body).2
  obtain ⟨hentities, hattributes⟩ := readAttributes_relined hc.entities (here + 1 + body.length)
    (here' + 1 + (lineFeeds false body).length) false (spanName body).2
  generalize readAttributes c.entities (here + 1 + body.length) (spanName body).2 = first at *
  obtain ⟨entities, attributes⟩ := first
  have hfed : c.fed.entities = c.entities.fed := rfl
  rw [hfed]
  generalize readAttributes c.entities.fed (here' + 1 + (lineFeeds false body).length)
    (lineFeeds false (spanName body).2) = second at *
  obtain ⟨entities', attributes'⟩ := second
  cases hattributes with
  | error => exact .fail rfl rfl
  | @ok attributes attributes' h he =>
    obtain rfl : entities' = entities.fed := hentities
    simp only [duplicate?_relined h]
    split
    next => exact .failAt ..
    next => exact opening_relined hc hdeclared hname h he (tag.getLast? == some 0x2F)

theorem subsetEvents_relined {items : List SubsetItem} (h : ∀ item ∈ items, item.Named)
    (hc : c.Named) :
    (subsetEvents c.fed (items.map SubsetItem.fed)).1.map (·.2) =
        ((subsetEvents c items).1.map (·.2)).map Event.fed ∧
      (subsetEvents c.fed (items.map SubsetItem.fed)).2 = (subsetEvents c items).2.fed ∧
      (subsetEvents c items).2.Named ∧
      c.entities.declared ⊆ (subsetEvents c items).2.entities.declared := by
  induction items generalizing c with
  | nil => exact ⟨rfl, rfl, hc, List.Subset.refl _⟩
  | cons item rest ih =>
    obtain ⟨hitem, hrest⟩ := List.forall_mem_cons.mp h
    cases item with
    | entity name text =>
      have hdeclare := Entities.declare_fed hc.entities hitem text
      have hnext : Context.Named { c with entities := c.entities.declare name text } :=
        ⟨hc.path, hc.entities.declare hitem text⟩
      obtain ⟨hevents, hcontext, hnamed, hdeclared⟩ := ih hrest hnext
      have hfed : { c.fed with entities := c.fed.entities.declare name (lineFeeds false text) } =
          Context.fed { c with entities := c.entities.declare name text } := by
        simp only [Context.fed, hdeclare]
      simp only [List.map_cons, SubsetItem.fed, subsetEvents, hfed]
      exact ⟨hevents, hcontext, hnamed,
        List.Subset.trans (Entities.subset_declare name text) hdeclared⟩
    | comment text =>
      obtain ⟨hevents, hcontext, hnamed, hdeclared⟩ := ih hrest hc
      refine ⟨?_, hcontext, hnamed, hdeclared⟩
      simp only [List.map_cons, SubsetItem.fed, subsetEvents, hevents, Event.fed,
        normalizeLineEnds_eq]
    | instruction target data =>
      obtain ⟨hevents, hcontext, hnamed, hdeclared⟩ := ih hrest hc
      refine ⟨?_, hcontext, hnamed, hdeclared⟩
      simp only [List.map_cons, SubsetItem.fed, subsetEvents, hevents, Event.fed,
        normalizeLineEnds_eq]

theorem keyword_of_cutDoctype? {declaration after : Bytes}
    (hp : (ascii "<!DOCTYPE").isPrefixOf bs)
    (hcut : cutDoctype? 0 none (bs.drop 2) = some (declaration, after)) :
    (ascii "DOCTYPE").isPrefixOf declaration := by
  obtain ⟨rest, rfl⟩ := List.isPrefixOf_iff_prefix.mp hp
  have happend := cutDoctype?_append hcut
  have hopens : ascii "DOCTYPE" <+: declaration ++ 0x3E :: after := ⟨rest, happend⟩
  rw [List.isPrefixOf_iff_prefix, ← prefix_append_iff]
  · exact hopens
  · rintro b ⟨⟩
    decide

theorem doctype_meets (hc : c.Named) (hp : (ascii "<!DOCTYPE").isPrefixOf bs) :
    Meets c bs (doctype c here true bs) (doctype c.fed here' true (lineFeeds false bs)) := by
  by_cases hs : (c.stage ≠ .prolog || c.seenDoctype) = true
  · unfold doctype
    rw [if_pos hs, if_pos (show (c.fed.stage ≠ .prolog || c.fed.seenDoctype) = true from hs)]
    exact .failAt ..
  · have hopening : (ascii "<!").isPrefixOf bs := by
      rw [List.isPrefixOf_iff_prefix] at hp ⊢
      exact .trans (by decide) hp
    refine meets_of_cut cutDoctype?_cutsLines (by decide) hopening (if_neg hs) (if_neg hs) ?_
    intro declaration after hcut
    have hdrop : (lineFeeds false declaration).drop 7 = lineFeeds false (declaration.drop 7) :=
      drop_lineFeeds (by decide) (keyword_of_cutDoctype? hp hcut)
    have hread := readDoctype_mirrors (here + 2 + declaration.length)
      (here' + 2 + (lineFeeds false declaration).length) false (declaration.drop 7)
    simp only [hdrop]
    generalize hdoctype : readDoctype (here + 2 + declaration.length) (declaration.drop 7) =
      first at hread ⊢
    generalize readDoctype (here' + 2 + (lineFeeds false declaration).length)
      (lineFeeds false (declaration.drop 7)) = second at hread ⊢
    cases hread with
    | error => exact .fail rfl rfl
    | ok doctype =>
      have hafter : Context.Named { c with seenDoctype := true } := ⟨hc.path, hc.entities⟩
      obtain ⟨hevents, hcontext, hnamed, hdeclared⟩ :=
        subsetEvents_relined (readDoctype_named hdoctype) hafter
      refine .ok rfl rfl hcontext hnamed hdeclared ?_
      have hinner := Retold.of_fed
        (subsetEvents { c with seenDoctype := true } doctype.items).2.entities
        ((subsetEvents { c with seenDoctype := true } doctype.items).1.map (·.2))
      rw [← hevents] at hinner
      have hretold := (Retold.of_fed _ [.startDoctype doctype.name]).append
        (hinner.append (.of_fed _ [.endDoctype]))
      simp only [List.map_cons, List.map_append, List.map_nil]
      exact hretold

theorem textEvents_relined (hc : c.Named) {text : Bytes} (hne : text ≠ []) :
    Relined c taken taken' (told c (textEvents c here text) (.advance taken))
      (told c.fed (textEvents c.fed here' (lineFeeds false text)) (.advance taken')) := by
  by_cases hs : c.stage = .content
  · have hs' : c.fed.stage = .content := hs
    have hne' : lineFeeds false text ≠ [] := fun h => hne (lineFeeds_eq_nil_iff.mp h)
    unfold textEvents
    rw [if_pos hs, if_pos hs', if_neg (by simpa using hne), if_neg (by simpa using hne')]
    refine .ok rfl rfl rfl hc (List.Subset.refl _) ?_
    rw [normalizeLineEnds_eq, normalizeLineEnds_eq, lineFeeds_of_not_mem (not_mem_lineFeeds _ _)]
    exact .of_fed _ [.text (.utf8 _)]
  · have hs' : ¬ c.fed.stage = .content := hs
    have hspaces : ((lineFeeds false text).findIdx? fun b => !isSpace b).isSome =
        (text.findIdx? fun b => !isSpace b).isSome := by
      rw [List.findIdx?_isSome, List.findIdx?_isSome, Bool.eq_iff_iff, List.any_eq_true,
        List.any_eq_true]
      refine exists_congr fun b => and_congr_left fun hb => mem_lineFeeds_iff ?_
      exact not_isLineEnd_of_not_isSpace (by simpa using hb)
    unfold textEvents
    rw [if_neg hs, if_neg hs']
    cases hfirst : text.findIdx? fun b => !isSpace b with
    | some i =>
      rw [hfirst] at hspaces
      obtain ⟨i', hsecond⟩ := Option.isSome_iff_exists.mp hspaces
      rw [hsecond]
      exact .fail rfl rfl
    | none =>
      rw [hfirst, Option.isSome_none, Option.isSome_eq_false_iff,
        Option.isNone_iff_eq_none] at hspaces
      rw [hspaces]
      exact .ok rfl rfl rfl hc (List.Subset.refl _) (.of_fed _ [])

theorem not_isLineEnd_of_not_isText {b : UInt8} (h : isText b = false) : isLineEnd b = false :=
  not_isLineEnd (p := fun b => !isText b) rfl rfl (by rw [h]; rfl)

theorem run_meets {run rest : Bytes} (hc : c.Named) (hrun : ∀ b ∈ run, isText b) (hne : run ≠ [])
    (hrest : ∀ b, rest.head? = some b → isText b = false) :
    Meets c (run ++ rest) (read c here true (run ++ rest))
      (read c.fed here' true (lineFeeds false (run ++ rest))) := by
  have hsplit : lineFeeds false (run ++ rest) = lineFeeds false run ++ lineFeeds false rest := by
    cases rest with
    | nil => simp
    | cons b rest =>
      have hb := not_isLineEnd_of_not_isText (hrest b rfl)
      rw [lineFeeds_append_cons hb, lineFeeds_cons hb]
  have hrun' : ∀ b ∈ lineFeeds false run, isText b := by
    intro b hb
    cases ht : isText b with
    | true => rfl
    | false =>
      rw [← ht, hrun b ((mem_lineFeeds_iff (not_isLineEnd_of_not_isText ht)).mp hb)]
  have hrest' : ∀ b, (lineFeeds false rest).head? = some b → isText b = false := by
    cases rest with
    | nil => simp
    | cons d rest =>
      rw [lineFeeds_cons (not_isLineEnd_of_not_isText (hrest d rfl))]
      rintro b ⟨⟩
      exact hrest d rfl
  have hne' : lineFeeds false run ≠ [] := fun h => hne (lineFeeds_eq_nil_iff.mp h)
  rw [hsplit, read_text hrun hne, read_text hrun' hne', text_run hrun hrest,
    text_run hrun' hrest']
  have hlast (run rest : Bytes) : ¬ holdsBack true run rest = true := by simp [holdsBack]
  rw [if_neg (hlast run rest), if_neg (hlast _ _)]
  refine ⟨run.length, (lineFeeds false run).length, ?_, ?_⟩
  · rw [hsplit, List.drop_left, List.drop_left]
  · exact textEvents_relined hc hne

theorem declaration_meets (hc : c.Named) :
    Meets c bs (declaration c here true bs)
      (declaration c.fed here' true (lineFeeds false bs)) := by
  have htruncated : (declarationOpenings.any fun opening =>
      (lineFeeds false bs).isPrefixOf opening &&
        (lineFeeds false bs).length < opening.length) =
      declarationOpenings.any fun opening =>
        bs.isPrefixOf opening && bs.length < opening.length := by
    refine test_lineFeeds (p := fun bs => declarationOpenings.any fun opening =>
      bs.isPrefixOf opening && bs.length < opening.length) (fun bs h => ?_) bs
    obtain ⟨opening, ho, hopens⟩ := List.any_eq_true.mp h
    rw [Bool.and_eq_true, List.isPrefixOf_iff_prefix] at hopens
    have hline : ∀ opening ∈ declarationOpenings, OneLine opening := by decide
    exact fun b hb => hline opening ho b (hopens.1.subset hb)
  unfold declaration
  rw [htruncated, isPrefixOf_lineFeeds (by decide), isPrefixOf_lineFeeds (by decide),
    isPrefixOf_lineFeeds (by decide)]
  split
  next => exact .failAt ..
  next =>
    split
    next hcomment => exact comment_meets hc hcomment
    next =>
      split
      next hsection => exact literalSection_meets hc hsection
      next =>
        split
        next hdoctype => exact doctype_meets hc hdoctype
        next => exact .failAt ..

theorem markup_meets (hc : c.Named) (hhere : here = 0 ↔ here' = 0) (rest : Bytes) :
    Meets c (0x3C :: rest) (markup c here true (0x3C :: rest))
      (markup c.fed here' true (lineFeeds false (0x3C :: rest))) := by
  cases rest with
  | nil => exact .failAt ..
  | cons b rest =>
    cases hb : isLineEnd b with
    | true =>
      have hfirst : markup c here true (0x3C :: b :: rest) =
          c.failAt (here + 1) .afterLessThan := by
        rcases Bool.or_eq_true_iff.mp hb with hb | hb <;>
          · rw [eq_of_beq hb]
            rfl
      rw [hfirst, lineFeeds_cons rfl, lineFeeds_lineEnd hb]
      exact .failAt ..
    | false =>
      have hsecond : (lineFeeds false (0x3C :: b :: rest))[1]? = some b := by
        rw [lineFeeds_cons rfl, lineFeeds_cons hb]
        rfl
      simp only [markup, hsecond, List.getElem?_cons_succ, List.getElem?_cons_zero]
      split
      next h =>
        refine endTag_meets hc ?_
        simp [eq_of_beq h]
      next =>
        split
        next h =>
          refine instruction_meets hc hhere ?_
          rw [eq_of_beq h]
          rfl
        next =>
          split
          next => exact declaration_meets hc
          next =>
            split
            next => exact startTag_meets hc rfl
            next => exact .failAt ..

theorem read_meets (hc : c.Named) (hhere : here = 0 ↔ here' = 0) (hbs : bs ≠ []) :
    Meets c bs (read c here true bs) (read c.fed here' true (lineFeeds false bs)) := by
  obtain ⟨run, rest, rfl, hrun, hrest⟩ := exists_run bs
  by_cases hne : run = []
  · subst hne
    rw [List.nil_append] at hbs ⊢
    obtain ⟨b, rest, rfl⟩ := List.exists_cons_of_ne_nil hbs
    have hb : b = 0x3C ∨ b = 0x26 := by simpa [isText, or_iff_not_imp_left] using hrest b rfl
    rcases hb with rfl | rfl
    · have hmarkup := @markup_meets c here here' hc hhere rest
      rw [lineFeeds_cons rfl] at hmarkup ⊢
      exact hmarkup
    · have hreference := @reference_meets c here here' (0x26 :: rest) hc rfl
      rw [lineFeeds_cons rfl] at hreference ⊢
      exact hreference
  · exact run_meets hc hrun hne hrest

end

end Construct

end XmlStore
