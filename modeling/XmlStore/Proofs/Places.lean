import XmlStore.Proofs.Coalescing

/-!
# The order of events

The events of a document are words of a grammar: a prolog, one element, and remarks after it. An
automaton reads such words event by event. `Remains` says what may follow in each of its places,
so that a list of events that the automaton reads is the beginning of a word, and a list that it
reads to the end is a word.
-/

namespace XmlStore

def Event.isRemark : Event → Bool
  | .comment _ | .instruction _ _ => true
  | _ => false

/-- What an element contains besides other elements; text is UTF-8. -/
def Event.isLeaf : Event → Bool
  | .text (.utf8 _) | .comment _ | .instruction _ _ => true
  | _ => false

def Event.isDeclaration : Event → Bool
  | .declareNamespace _ _ => true
  | _ => false

theorem Event.isLeaf_of_isRemark {event : Event} (h : event.isRemark) : event.isLeaf := by
  cases event <;> first | rfl | cases h

-- ---------------------------------------------------------------------------
-- The grammar
-- ---------------------------------------------------------------------------

mutual

/-- An element: its namespace declarations, its start, what it contains, and its end. -/
inductive IsElement : List Event → Prop
  | element (declarations : List Event) {content : List Event} {name : Bytes}
      {attributes : List Attribute} (hd : declarations.all Event.isDeclaration)
      (hc : IsContent content) :
      IsElement (declarations ++ .startElement name attributes :: content ++ [.endElement name])

inductive IsContent : List Event → Prop
  | nil : IsContent []
  | leaf {event : Event} {rest : List Event} (h : event.isLeaf) (hr : IsContent rest) :
      IsContent (event :: rest)
  | element {first rest : List Event} (h : IsElement first) (hr : IsContent rest) :
      IsContent (first ++ rest)

end

/-- What stands before the root element: remarks, with at most one document type declaration among
them. Its internal subset has remarks, too. -/
inductive IsProlog : List Event → Prop
  | plain {remarks : List Event} (h : remarks.all Event.isRemark) : IsProlog remarks
  | doctype (before : List Event) {subset after : List Event} {name : Bytes}
      (hb : before.all Event.isRemark) (hs : subset.all Event.isRemark)
      (ha : after.all Event.isRemark) :
      IsProlog (before ++ .startDoctype name :: subset ++ .endDoctype :: after)

inductive IsDocument : List Event → Prop
  | document {prolog root epilog : List Event} (hp : IsProlog prolog) (hr : IsElement root)
      (he : epilog.all Event.isRemark) :
      IsDocument (.startDocument :: prolog ++ root ++ epilog ++ [.endDocument])

/-- The names are distinct, and none of them declares a namespace. -/
structure ProperAttributes (attributes : List Attribute) : Prop where
  distinct : (attributes.map (·.name)).Nodup
  undeclaring : ∀ att ∈ attributes, att.name ≠ ascii "xmlns" ∧ ¬ ascii "xmlns:" <+: att.name

/-- The open elements after an event, innermost first. -/
def Event.track (path : List Bytes) : Event → List Bytes
  | .startElement name _ => name :: path
  | .endElement _ => path.tail
  | _ => path

/-- The names of the elements whose start has no matching end yet, innermost first. -/
def openElements (events : List Event) : List Bytes := events.foldl Event.track []

-- ---------------------------------------------------------------------------
-- The automaton
-- ---------------------------------------------------------------------------

/-- How far a document has come. -/
inductive Place where
  | unstarted
  | prolog (seenDoctype : Bool)
  /-- In the internal subset of a document type declaration. -/
  | subset
  /-- After namespace declarations; the open elements are those around the one to come. -/
  | declaring (path : List Bytes)
  | content (name : Bytes) (path : List Bytes)
  | epilog
  | ended

namespace Place

def path : Place → List Bytes
  | declaring path => path
  | content name path => name :: path
  | _ => []

/-- After the end of an element that these elements contain. -/
def within : List Bytes → Place
  | [] => epilog
  | name :: path => content name path

@[simp] theorem path_within (path : List Bytes) : (within path).path = path := by
  cases path <;> rfl

/-- An element may begin here. -/
inductive Admits : Place → Prop
  | root (seenDoctype : Bool) : Admits (prolog seenDoctype)
  | child (name : Bytes) (path : List Bytes) : Admits (content name path)
  | declared (path : List Bytes) : Admits (declaring path)

inductive Step : Place → Event → Place → Prop
  | startDocument : Step unstarted .startDocument (prolog false)
  | remark {seenDoctype : Bool} {event : Event} (h : event.isRemark) :
      Step (prolog seenDoctype) event (prolog seenDoctype)
  | startDoctype (name : Bytes) : Step (prolog false) (.startDoctype name) subset
  | subsetRemark {event : Event} (h : event.isRemark) : Step subset event subset
  | endDoctype : Step subset .endDoctype (prolog true)
  | declare {place : Place} (h : place.Admits) (qualifier uri : Bytes) :
      Step place (.declareNamespace qualifier uri) (declaring place.path)
  | startElement {place : Place} (h : place.Admits) (name : Bytes) {attributes : List Attribute}
      (ha : ProperAttributes attributes) :
      Step place (.startElement name attributes) (content name place.path)
  | leaf {name : Bytes} {path : List Bytes} {event : Event} (h : event.isLeaf) :
      Step (content name path) event (content name path)
  | endElement (name : Bytes) (path : List Bytes) :
      Step (content name path) (.endElement name) (within path)
  | epilogRemark {event : Event} (h : event.isRemark) : Step epilog event epilog
  | endDocument : Step epilog .endDocument ended

inductive Steps : Place → List Event → Place → Prop
  | nil (place : Place) : Steps place [] place
  | cons {place next last : Place} {event : Event} {rest : List Event}
      (h : Step place event next) (hr : Steps next rest last) : Steps place (event :: rest) last

namespace Steps

variable {place next last : Place} {event : Event} {first rest events : List Event}

theorem single (h : Step place event next) : Steps place [event] next := .cons h (.nil next)

theorem append (h : Steps place first next) (hr : Steps next rest last) :
    Steps place (first ++ rest) last := by
  induction h with
  | nil => exact hr
  | cons h _ ih => exact .cons h (ih hr)

/-- Where nothing but events of one kind come, and such events change nothing. -/
theorem stay {kind : Event → Bool} (h : ∀ event, kind event → Step place event place)
    (he : events.all kind) : Steps place events place := by
  induction events with
  | nil => exact .nil place
  | cons event rest ih =>
    rw [List.all_cons, Bool.and_eq_true] at he
    exact .cons (h event he.1) (ih he.2)

end Steps

theorem Step.path_eq {place next : Place} {event : Event} (h : Step place event next) :
    next.path = event.track place.path := by
  cases h with
  | remark h | subsetRemark h | epilogRemark h =>
    cases event <;> first | rfl | cases h
  | leaf h => cases event <;> first | rfl | cases h
  | endElement name path => exact path_within path
  | _ => rfl

theorem Steps.path_eq {place last : Place} {events : List Event} (h : Steps place events last) :
    last.path = events.foldl Event.track place.path := by
  induction h with
  | nil => rfl
  | cons h _ ih => rw [ih, List.foldl_cons, h.path_eq]

theorem Steps.path_eq_openElements {place : Place} {events : List Event}
    (h : Steps unstarted events place) : place.path = openElements events := h.path_eq

theorem Steps.properAttributes {place last : Place} {events : List Event}
    (h : Steps place events last) {name : Bytes} {attributes : List Attribute}
    (hm : .startElement name attributes ∈ events) : ProperAttributes attributes := by
  induction h with
  | nil => cases hm
  | cons h _ ih =>
    rcases List.mem_cons.mp hm with rfl | hm
    · cases h with
      | startElement _ _ ha => exact ha
      | remark h | subsetRemark h | epilogRemark h | leaf h => cases h
    · exact ih hm

-- ---------------------------------------------------------------------------
-- What a log keeps
-- ---------------------------------------------------------------------------

theorem Step.kept {place next : Place} {event : Event} (h : Step place event next) :
    Steps place (Log.kept [event]) next := by
  have hsame : Log.kept [event] = [event] → Steps place (Log.kept [event]) next := by
    intro hk
    rw [hk]
    exact .single h
  cases h with
  | remark h | subsetRemark h | epilogRemark h =>
    cases event <;> first | exact hsame rfl | cases h
  | leaf h =>
    cases event with
    | text chunk =>
      cases chunk with
      | utf16 units => cases h
      | utf8 bytes =>
        cases bytes with
        | nil => exact .nil _
        | cons b rest => exact hsame rfl
    | comment text => exact hsame rfl
    | instruction target data => exact hsame rfl
    | _ => cases h
  | _ => exact hsame rfl

-- ---------------------------------------------------------------------------
-- What may follow
-- ---------------------------------------------------------------------------

/-- These events complete a document that has come so far. -/
inductive Remains : Place → List Event → Prop
  | unstarted {word : List Event} (h : IsDocument word) : Remains unstarted word
  | prolog {seenDoctype : Bool} (before : List Event) {root rest : List Event}
      (hp : IsProlog before) (hs : seenDoctype → before.all Event.isRemark) (he : IsElement root)
      (hr : Remains epilog rest) : Remains (prolog seenDoctype) (before ++ root ++ rest)
  | subset (remarks : List Event) {after root rest : List Event}
      (hs : remarks.all Event.isRemark) (ha : after.all Event.isRemark) (he : IsElement root)
      (hr : Remains epilog rest) :
      Remains subset (remarks ++ .endDoctype :: after ++ root ++ rest)
  | declaring {path : List Bytes} {first rest : List Event} (he : IsElement first)
      (hr : Remains (within path) rest) : Remains (declaring path) (first ++ rest)
  | content {name : Bytes} {path : List Bytes} {inner rest : List Event} (hc : IsContent inner)
      (hr : Remains (within path) rest) :
      Remains (content name path) (inner ++ .endElement name :: rest)
  | epilog (remarks : List Event) (h : remarks.all Event.isRemark) :
      Remains epilog (remarks ++ [.endDocument])
  | ended : Remains ended []

theorem Admits.remains {place : Place} (h : place.Admits) {first rest : List Event}
    (he : IsElement first) (hr : Remains (within place.path) rest) :
    Remains place (first ++ rest) := by
  cases h with
  | root seenDoctype => exact .prolog [] (.plain rfl) (fun _ => rfl) he hr
  | declared path => exact .declaring he hr
  | child name path =>
    cases hr with
    | content hc hr =>
      rw [← List.append_assoc]
      exact .content (.element he hc) hr

theorem Step.remains {place next : Place} {event : Event} {rest : List Event}
    (h : Step place event next) (hr : Remains next rest) : Remains place (event :: rest) := by
  cases h with
  | startDocument =>
    cases hr with
    | prolog _ hp _ he hr =>
      cases hr with
      | epilog _ h => simpa using Remains.unstarted (.document hp he h)
  | remark h =>
    cases hr with
    | prolog before hp hs he hr =>
      refine .prolog (event :: before) ?_ ?_ he hr
      · cases hp with
        | plain hp => exact .plain (by simp [h, hp])
        | doctype _ hb hi ha => exact .doctype (event :: _) (by simp [h, hb]) hi ha
      · intro seen
        simp [h, hs seen]
  | startDoctype name =>
    cases hr with
    | subset _ hs ha he hr =>
      simpa using Remains.prolog _ (.doctype [] rfl hs ha) (by simp) he hr
  | subsetRemark h =>
    cases hr with
    | subset remarks hs ha he hr =>
      exact .subset (event :: remarks) (by simp [h, hs]) ha he hr
  | endDoctype =>
    cases hr with
    | prolog _ _ hs he hr => exact .subset [] rfl (hs rfl) he hr
  | declare h qualifier uri =>
    cases hr with
    | declaring he hr =>
      cases he with
      | element _ hd hc =>
        exact h.remains (.element (.declareNamespace qualifier uri :: _) hd hc) hr
  | startElement h name ha =>
    cases hr with
    | content hc hr => simpa using h.remains (.element [] rfl hc) hr
  | leaf h =>
    cases hr with
    | content hc hr => exact .content (.leaf h hc) hr
  | endElement name path => exact .content .nil hr
  | epilogRemark h =>
    cases hr with
    | epilog remarks hr => exact .epilog (event :: remarks) (by simp [h, hr])
  | endDocument =>
    cases hr with
    | ended => exact .epilog [] rfl

theorem Steps.remains {place last : Place} {first rest : List Event}
    (h : Steps place first last) (hr : Remains last rest) : Remains place (first ++ rest) := by
  induction h with
  | nil => exact hr
  | cons h _ ih => exact h.remains (ih hr)

theorem remains_within (path : List Bytes) : ∃ rest, Remains (within path) rest := by
  induction path with
  | nil => exact ⟨_, .epilog [] rfl⟩
  | cons name path ih =>
    obtain ⟨rest, hr⟩ := ih
    exact ⟨_, .content .nil hr⟩

/-- From every place a document can be completed. -/
theorem exists_remains (place : Place) : ∃ rest, Remains place rest := by
  have he : IsElement [.startElement [] [], .endElement []] :=
    .element [] rfl .nil
  have hp : IsProlog [] := .plain rfl
  have hnone : ([] : List Event).all Event.isRemark := rfl
  have hr : Remains epilog [.endDocument] := .epilog [] rfl
  cases place with
  | unstarted => exact ⟨_, .unstarted (.document hp he hnone)⟩
  | prolog seenDoctype => exact ⟨_, .prolog [] hp (fun _ => hnone) he hr⟩
  | subset => exact ⟨_, .subset [] hnone hnone he hr⟩
  | declaring path =>
    obtain ⟨rest, hr⟩ := remains_within path
    exact ⟨_, .declaring he hr⟩
  | content name path => exact remains_within (name :: path)
  | epilog => exact ⟨_, hr⟩
  | ended => exact ⟨_, .ended⟩

theorem Steps.isDocument {events : List Event} (h : Steps unstarted events ended) :
    IsDocument events := by
  have hr := h.remains .ended
  rw [List.append_nil] at hr
  cases hr with
  | unstarted hd => exact hd

theorem Steps.exists_document {events : List Event} {place : Place}
    (h : Steps unstarted events place) : ∃ word, IsDocument word ∧ events <+: word := by
  obtain ⟨rest, hr⟩ := exists_remains place
  cases h.remains hr with
  | unstarted hd => exact ⟨_, hd, List.prefix_append events rest⟩

end Place

end XmlStore
