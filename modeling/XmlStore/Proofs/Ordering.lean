import XmlStore.Proofs.Failing
import XmlStore.Proofs.Pieces
import XmlStore.Proofs.Places

/-!
# Documents are read in order

What is known about a document says in which place of it a reader stands. Each construct tells
events that lead from the place where it begins to the place where it ends, and so do readings,
pieces and whole documents. A receiver that keeps up with the place through each event does so
through all of them.
-/

namespace XmlStore

open Place (Step Steps)

/-- A fault of the bytes of a document, not of those who read them or who are told. -/
def Error.ofDocument : Error → Bool
  | .malformed _ _ | .reference _ | .encoding _ | .sharedDelimiter => true
  | _ => false

theorem Error.ofDocument_of_ofConstruct {error : Error} (h : error.ofConstruct) :
    error.ofDocument := by
  cases error <;> first | rfl | cases h

/-- A document of which this is known has come to the place. -/
inductive Context.At (c : Context) : Place → Prop
  | prolog {seenDoctype : Bool} (hs : c.stage = .prolog) (hp : c.path = [])
      (hd : c.seenDoctype = seenDoctype) : c.At (.prolog seenDoctype)
  | content {name : Bytes} {path : List Bytes} (hs : c.stage = .content)
      (hp : c.path = name :: path) : c.At (.content name path)
  | epilog (hs : c.stage = .epilog) (hp : c.path = []) : c.At .epilog

namespace Context.At

variable {c c' : Context} {place : Place}

theorem congr (h : c.At place) (hs : c'.stage = c.stage) (hp : c'.path = c.path)
    (hd : c'.seenDoctype = c.seenDoctype) : c'.At place := by
  cases h with
  | prolog hs' hp' hd' => exact .prolog (hs.trans hs') (hp.trans hp') (hd.trans hd')
  | content hs' hp' => exact .content (hs.trans hs') (hp.trans hp')
  | epilog hs' hp' => exact .epilog (hs.trans hs') (hp.trans hp')

theorem path_eq (h : c.At place) : place.path = c.path := by
  cases h with
  | prolog _ hp _ | content _ hp | epilog _ hp => exact hp.symm

theorem text {bytes : Bytes} (h : c.At place) (hs : c.stage = .content) :
    Step place (.text (.utf8 bytes)) place := by
  cases h with
  | content => exact .leaf rfl
  | prolog hs' | epilog hs' =>
    rw [hs] at hs'
    cases hs'

theorem remark {event : Event} (h : c.At place) (hr : event.isRemark) :
    Step place event place := by
  cases h with
  | prolog => exact .remark hr
  | content => exact .leaf (Event.isLeaf_of_isRemark hr)
  | epilog => exact .epilogRemark hr

theorem admits (h : c.At place) (hs : c.stage ≠ .epilog) : place.Admits := by
  cases h with
  | prolog => exact .root _
  | content => exact .child _ _
  | epilog hs' _ => exact absurd hs' hs

end Context.At

theorem Context.leaveElement_at {c : Context} {path : List Bytes} (hs : c.stage = .content)
    (hp : c.path = path) : c.leaveElement.At (.within path) := by
  unfold leaveElement
  rw [hp]
  cases path with
  | nil =>
    rw [List.isEmpty_nil, if_pos rfl]
    exact .epilog rfl rfl
  | cons name path => exact .content hs hp

-- ---------------------------------------------------------------------------
-- Faults are faults of the document
-- ---------------------------------------------------------------------------

/-- If there is no outcome, the document is to blame. -/
def Blames {α : Type} (outcome : Except Error α) : Prop :=
  ∀ fault, outcome = .error fault → fault.ofDocument

namespace Blames

variable {α β : Type}

theorem ok (a : α) : Blames (.ok a) := by
  rintro fault ⟨⟩

theorem error {fault : Error} (h : fault.ofDocument) : Blames (.error fault : Except Error α) := by
  rintro _ ⟨⟩
  exact h

theorem map {outcome : Except Error α} (h : Blames outcome) (f : α → β) :
    Blames (outcome.map f) := by
  cases outcome with
  | error fault => exact .error (h fault rfl)
  | ok a => exact .ok (f a)

end Blames

/-- The events of a reading go on from a place, and where they lead is known at its end. -/
structure Reading.Follows {α : Type} (reading : Reading α) (place : Place) : Prop where
  leads : ∃ next, Steps place (reading.events.map (·.2)) next ∧
    ∀ progress, reading.outcome = .ok progress → reading.context.At next
  blames : Blames reading.outcome

-- ---------------------------------------------------------------------------
-- Each construct
-- ---------------------------------------------------------------------------

namespace Reading.Follows

variable {α : Type} {c c' : Context} {place next : Place}

theorem fail {fault : Error} (hf : fault.ofDocument) :
    (c.fail fault : Reading α).Follows place where
  leads := ⟨place, .nil place, by rintro _ ⟨⟩⟩
  blames := .error hf

theorem failAt (position : Nat) (fault : Fault) :
    (c.failAt position fault : Reading α).Follows place := fail rfl

theorem told {events : List (Context × Event)} (hs : Steps place (events.map (·.2)) next)
    (h : c.At next) (progress : α) :
    ({ events, context := c, outcome := .ok progress } : Reading α).Follows place where
  leads := ⟨next, hs, fun _ _ => h⟩
  blames := .ok progress

theorem quiet (h : c.At place) (progress : α) :
    ({ context := c, outcome := .ok progress } : Reading α).Follows place :=
  told (.nil place) h progress

theorem incomplete (h : c.At place) (here : Nat) (last : Bool) (fault : Fault) :
    (c.incomplete here last fault).Follows place := by
  unfold Context.incomplete
  split
  · exact failAt ..
  · exact quiet h _

/-- What is known may change once the events are told. -/
theorem readTo {events : List Event} (hs : Steps place events next) (h : c'.At next)
    (progress : α) : ({ events := events.map (c, ·), context := c', outcome := .ok progress } :
      Reading α).Follows place := by
  refine told ?_ h progress
  rwa [List.map_map, show (·.2) ∘ (c, ·) = (id : Event → Event) from rfl, List.map_id]

theorem read {events : List Event} (hs : Steps place events next) (h : c.At next)
    (taken : Nat) : (c.read events taken).Follows place := readTo hs h _

end Reading.Follows

namespace Construct

variable {c : Context} {place : Place} {here : Nat} {last : Bool} {bs : Bytes}

theorem told_follows (h : c.At place) (run : Bytes) (progress : Progress) :
    (told c (textEvents c here run) progress).Follows place := by
  rw [← told_textEvents]
  by_cases hs : c.stage = .content
  · rw [if_pos hs]
    split
    · exact .quiet h _
    · exact .told (.single (h.text hs)) h _
  · rw [if_neg hs]
    split
    · exact .failAt ..
    · exact .quiet h _

theorem text_follows (h : c.At place) : (text c here last bs).Follows place := by
  obtain ⟨run, rest, rfl, hrun, hrest⟩ := exists_run bs
  rw [text_run hrun hrest]
  split <;> exact told_follows h _ _

theorem reference_follows (h : c.At place) : (reference c here last bs).Follows place := by
  unfold reference
  split
  · exact .incomplete h ..
  · split
    · exact .failAt ..
    · split
      · exact .failAt ..
      · rename_i hs
        simp only
        split
        · exact .fail rfl
        · refine .read (.single (h.text (not_not.mp hs))) ?_ _
          exact h.congr rfl rfl rfl

theorem nodup_of_duplicate? {seen : List Bytes} {attributes : List Attribute}
    (h : duplicate? seen attributes = none) :
    (attributes.map (·.name)).Nodup ∧ ∀ att ∈ attributes, att.name ∉ seen := by
  induction attributes generalizing seen with
  | nil => simp
  | cons att rest ih =>
    unfold duplicate? at h
    split at h
    · cases h
    · rename_i hs
      obtain ⟨hn, hr⟩ := ih h
      simp only [List.mem_cons, not_or] at hr
      have hm : att.name ∉ rest.map (·.name) := by
        rw [List.mem_map]
        rintro ⟨other, ho, he⟩
        exact (hr other ho).1 he
      refine ⟨List.nodup_cons.mpr ⟨hm, hn⟩, ?_⟩
      simpa using ⟨by simpa using hs, fun other ho => (hr other ho).2⟩

theorem properAttributes_of_duplicate? {attributes : List Attribute}
    (h : duplicate? [] attributes = none) :
    ProperAttributes (attributes.filter fun att => att.declares?.isNone) where
  distinct := (nodup_of_duplicate? h).1.sublist (List.filter_sublist.map _)
  undeclaring := by
    intro att ha
    obtain ⟨-, hn⟩ := List.mem_filter.mp ha
    unfold Attribute.declares? declaredQualifier? at hn
    split at hn
    · cases hn
    · split at hn
      · cases hn
      · rename_i hx hp
        exact ⟨hx, by simpa using hp⟩

/-- Namespace declarations keep an element to come at bay. -/
theorem openingEvents_steps {attributes : List Attribute} (h : duplicate? [] attributes = none)
    (hp : place.Admits) (name : Bytes) :
    Steps place (openingEvents name attributes) (.content name place.path) := by
  have hproper := properAttributes_of_duplicate? h
  unfold openingEvents
  generalize attributes.filter (fun att => att.declares?.isNone) = others at hproper
  generalize hd : (attributes.filterMap fun att =>
    att.declares?.map fun qualifier => Event.declareNamespace qualifier att.value) = declarations
  have hall : declarations.all Event.isDeclaration := by
    simp only [← hd, List.all_eq_true, List.mem_filterMap, Option.map_eq_some_iff]
    rintro event ⟨_, _, _, _, rfl⟩
    rfl
  clear hd
  induction declarations generalizing place with
  | nil => exact .single (.startElement hp name hproper)
  | cons event rest ih =>
    rw [List.all_cons, Bool.and_eq_true] at hall
    cases event with
    | declareNamespace qualifier uri =>
      exact .cons (.declare hp qualifier uri) (ih (.declared _) hall.2)
    | _ => cases hall.1

theorem startTag_follows (h : c.At place) : (startTag c here last bs).Follows place := by
  unfold startTag
  split
  · exact .incomplete h ..
  · split
    · exact .failAt ..
    · rename_i hs
      simp only
      split
      next hr =>
        exact .fail (Error.ofDocument_of_ofConstruct (readAttributes_failsInside _ _ _ _ hr))
      next =>
        split
        · exact .failAt ..
        · rename_i hd
          have hopening := openingEvents_steps hd (h.admits hs)
          rw [h.path_eq] at hopening
          split
          · refine .readTo ((hopening _).append (.single (.endElement ..))) ?_ _
            exact Context.leaveElement_at rfl rfl
          · refine .readTo (hopening _) ?_ _
            exact .content rfl rfl

theorem endTag_follows (h : c.At place) : (endTag c here last bs).Follows place := by
  unfold endTag
  split
  · exact .incomplete h ..
  · simp only
    split
    · exact .failAt ..
    · rename_i expected path hp
      split
      · exact .failAt ..
      · rename_i hn
        cases h with
        | content hs hp' =>
          cases hp.symm.trans hp'
          rw [not_not.mp hn]
          refine .readTo (.single (.endElement ..)) ?_ _
          exact Context.leaveElement_at hs rfl
        | prolog _ hp' | epilog _ hp' => cases hp.symm.trans hp'

theorem xmlDeclaration_follows (h : c.At place) (taken : Nat) (data : Bytes) :
    (xmlDeclaration c here taken data).Follows place := by
  unfold xmlDeclaration
  split
  · exact .failAt ..
  · split
    · exact .failAt ..
    · exact .read (.nil place) h _
    · simp only
      split
      · refine .readTo (.nil place) ?_ _
        exact h.congr rfl rfl rfl
      · exact .fail rfl

theorem instruction_follows (h : c.At place) : (instruction c here last bs).Follows place := by
  unfold instruction
  split
  · exact .incomplete h ..
  · split
    · exact .failAt ..
    · simp only
      split
      · exact xmlDeclaration_follows h _ _
      · exact .read (.single (h.remark rfl)) h _

theorem comment_follows (h : c.At place) : (comment c here last bs).Follows place := by
  unfold comment
  split
  · exact .incomplete h ..
  · split
    · exact .failAt ..
    · exact .read (.single (h.remark rfl)) h _

theorem literalSection_follows (h : c.At place) :
    (literalSection c here last bs).Follows place := by
  unfold literalSection
  split
  · exact .failAt ..
  · rename_i hs
    split
    · exact .incomplete h ..
    · exact .read (.single (h.text (not_not.mp hs))) h _

theorem subsetEvents_follows (items : List SubsetItem) (c : Context) :
    ((subsetEvents c items).1.map (·.2)).all Event.isRemark ∧
      ∃ entities, (subsetEvents c items).2 = { c with entities } := by
  fun_induction subsetEvents c items with
  | case1 => exact ⟨rfl, _, rfl⟩
  | case2 c name text rest ih => exact ih
  | case3 c text rest others ih => exact ih
  | case4 c target data rest others ih => exact ih

theorem doctype_follows (h : c.At place) : (doctype c here last bs).Follows place := by
  unfold doctype
  split
  · exact .failAt ..
  · rename_i hc
    split
    · exact .incomplete h ..
    · simp only
      split
      next hr => exact .fail (Error.ofDocument_of_ofConstruct (readDoctype_failsInside _ _ _ hr))
      next doctype _ =>
        simp only [Bool.or_eq_true, decide_eq_true_eq, not_or, not_not] at hc
        obtain ⟨hremarks, entities, hafter⟩ :=
          subsetEvents_follows doctype.items { c with seenDoctype := true }
        cases h with
        | prolog hs hp hd =>
          rw [Bool.not_eq_true, hd] at hc
          rw [hc.2, hafter]
          have hat : ({ c with entities, seenDoctype := true } : Context).At (.prolog true) :=
            .prolog hs hp rfl
          refine .told ?_ hat _
          rw [List.map_append, List.map_cons]
          exact .cons (.startDoctype _)
            ((Steps.stay (fun _ => .subsetRemark) hremarks).append (.single .endDoctype))
        | content hs | epilog hs => simp [hs] at hc

theorem declaration_follows (h : c.At place) : (declaration c here last bs).Follows place := by
  unfold declaration
  split
  · exact .incomplete h ..
  · split
    · exact comment_follows h
    · split
      · exact literalSection_follows h
      · split
        · exact doctype_follows h
        · exact .failAt ..

theorem markup_follows (h : c.At place) : (markup c here last bs).Follows place := by
  unfold markup
  split
  · exact .incomplete h ..
  · split
    · exact endTag_follows h
    · split
      · exact instruction_follows h
      · split
        · exact declaration_follows h
        · split
          · exact startTag_follows h
          · exact .failAt ..

theorem read_follows (h : c.At place) : (read c here last bs).Follows place := by
  unfold read
  split
  · exact markup_follows h
  · exact reference_follows h
  · exact text_follows h

end Construct

-- ---------------------------------------------------------------------------
-- Construct after construct
-- ---------------------------------------------------------------------------

theorem Reading.Follows.prepend {first : Reading Progress} {place next : Place}
    {rest : Reading Nat} (hs : Steps place (first.events.map (·.2)) next)
    (hr : rest.Follows next) (taken : Nat) : (rest.prepend first.events taken).Follows place := by
  obtain ⟨⟨last, hl, hk⟩, hb⟩ := hr
  refine ⟨⟨last, ?_, fun progress hp => ?_⟩, hb.map _⟩
  · rw [Reading.prepend, List.map_append]
    exact hs.append hl
  · obtain ⟨more, hm, -⟩ := Reading.map_eq_ok hp
    exact hk more hm

theorem readConstructs_follows (last : Bool) {c : Context} {place : Place} (h : c.At place)
    (here : Nat) (bs : Bytes) : (readConstructs last c here bs).Follows place := by
  induction hn : bs.length using Nat.strongRecOn generalizing c place here bs with
  | ind n ih =>
    subst hn
    by_cases hbs : bs = []
    · rw [hbs, readConstructs_nil]
      exact .quiet h 0
    have hread : (Construct.read c here last bs).Follows place := Construct.read_follows h
    obtain ⟨⟨next, hs, hk⟩, hb⟩ := hread
    rw [readConstructs_eq_resume hbs]
    unfold Reading.resume
    split
    next ho => exact ⟨⟨next, hs, by rintro _ ⟨⟩⟩, .error (hb _ ho)⟩
    next ho => exact .told hs (hk _ ho) _
    next taken ho =>
      obtain ⟨h0, hlen⟩ := (read_sound hbs c here last).2 _ ho
      exact .prepend hs (ih _ (by rw [List.length_drop]; omega) (hk _ ho) _ _ rfl) taken

-- ---------------------------------------------------------------------------
-- Pieces
-- ---------------------------------------------------------------------------

/-- A parser that goes on from this place with the next piece. -/
inductive Parser.At (parser : Parser) : Place → Prop
  | unstarted (hf : parser.finished = false) (hs : parser.started = false)
      (h : parser.context.At (.prolog false)) : parser.At .unstarted
  | started {place : Place} (hf : parser.finished = false) (hs : parser.started = true)
      (h : parser.context.At place) : parser.At place

/-- A parser after the end of the input. -/
def Parser.Ended (parser : Parser) (place : Place) : Prop :=
  place = .ended ∧ parser.context.path = []

/-- The events of a response go on from a place, and lead to one that suits the parser. -/
structure Response.Follows (response : Response) (place : Place) (post : Parser → Place → Prop) :
    Prop where
  leads : ∃ next, Steps place (response.events.map (·.2)) next ∧
    (response.result = .ok () → post response.parser next)
  blames : Blames response.result

namespace Parser

variable {parser : Parser} {place : Place}

theorem ofOptions_at (options : ReadOptions) : (ofOptions options).At .unstarted :=
  .unstarted rfl rfl (.prolog rfl rfl rfl)

theorem At.unfinished (h : parser.At place) : parser.finished = false := by
  cases h with
  | unstarted hf | started hf => exact hf

theorem At.path_eq (h : parser.At place) : place.path = parser.context.path := by
  cases h with
  | unstarted _ _ h | started _ _ h => exact h.path_eq

theorem At.opening (h : parser.At place) :
    ∃ next, Steps place (parser.start.1.map (·.2)) next ∧ parser.context.At next := by
  rw [start_events, Parser.opening]
  cases h with
  | unstarted _ hs h => exact ⟨_, by simpa [hs] using .single .startDocument, h⟩
  | started _ hs h => exact ⟨_, by simpa [hs] using .nil _, h⟩

theorem process_flags (parser : Parser) (last : Bool) :
    (parser.process last).parser.started = parser.started ∧
      (parser.process last).parser.finished = parser.finished := by
  unfold process
  simp only
  split
  · exact ⟨rfl, rfl⟩
  · split <;> exact ⟨rfl, rfl⟩

theorem process_follows (parser : Parser) (h : parser.context.At place) (last : Bool) :
    (parser.process last).Follows place fun after next =>
      after.context.At next ∧ after.started = parser.started ∧
        after.finished = parser.finished := by
  obtain ⟨⟨next, hs, hk⟩, hb⟩ := readConstructs_follows last h parser.position parser.unread
  have ht := process_tells parser last
  refine ⟨⟨next, by rwa [ht.events], fun hr => ⟨?_, process_flags parser last⟩⟩, ?_⟩
  · rw [ht.context]
    cases ho : (readConstructs last parser.context parser.position parser.unread).outcome with
    | error fault => cases (process_fault ho).symm.trans hr
    | ok taken => exact hk taken ho
  · unfold process
    simp only
    split
    next ho => exact .error (hb _ ho)
    next => split <;> first | exact .error rfl | exact .ok ()

theorem At.feed_follows (h : parser.At place) (piece : Bytes) :
    (parser.feed piece).Follows place At := by
  obtain ⟨begun, hs, hc⟩ := h.opening
  rw [feed_eq h.unfinished]
  split
  · exact ⟨⟨begun, hs, fun _ => .started h.unfinished rfl hc⟩, .ok ()⟩
  · obtain ⟨⟨next, hn, hk⟩, hb⟩ := process_follows (parser.hold piece) hc false
    refine ⟨⟨next, ?_, fun hr => ?_⟩, hb⟩
    · rw [List.map_append]
      exact hs.append hn
    · obtain ⟨hat, hstarted, hfinished⟩ := hk hr
      exact .started (hfinished.trans h.unfinished) hstarted hat

theorem at_epilog_of_unfinished? (h : parser.context.At place) (hn : parser.unfinished? = none) :
    place = .epilog ∧ parser.context.path = [] := by
  unfold unfinished? at hn
  cases h with
  | epilog _ hp => exact ⟨rfl, hp⟩
  | prolog hs hp => simp [hs, hp] at hn
  | content hs hp => simp [hp] at hn

theorem At.finish_follows (h : parser.At place) : parser.finish.Follows place Ended := by
  obtain ⟨begun, hs, hc⟩ := h.opening
  obtain ⟨⟨next, hn, hk⟩, hb⟩ := process_follows parser.begun hc true
  have hall : Steps place ((parser.start.1 ++ (parser.begun.process true).events).map (·.2))
      next := by
    rw [List.map_append]
    exact hs.append hn
  unfold finish
  simp only [h.unfinished, start_snd, Bool.false_eq_true, ↓reduceIte]
  split
  next hr => exact ⟨⟨next, hall, fun ho => by rw [hr] at ho; cases ho⟩, hb⟩
  next hr =>
    obtain ⟨hat, -, -⟩ := hk hr
    split
    · exact ⟨⟨next, hall, by rintro ⟨⟩⟩, .error rfl⟩
    next hu =>
      obtain ⟨rfl, hp⟩ := at_epilog_of_unfinished? hat hu
      refine ⟨⟨.ended, ?_, fun _ => ⟨rfl, hp⟩⟩, .ok ()⟩
      rw [List.map_append]
      exact hall.append (.single .endDocument)

end Parser

-- ---------------------------------------------------------------------------
-- Receivers that keep up
-- ---------------------------------------------------------------------------

/-- A receiver that suits a place takes each event that may come there, and suits the place after
it. A fault of its own is one of those that are allowed. -/
def Handler.Keeps {σ : Type} (handle : Handler σ) (suits : Place → σ → Prop)
    (allowed : Error → Prop) : Prop :=
  ∀ place event next receiver, Step place event next → suits place receiver →
    Triple (handle event) receiver (fun _ after => suits next after) fun fault _ => allowed fault

namespace Session

variable {σ : Type} {handle : Handler σ} {suits : Place → σ → Prop} {allowed : Error → Prop}
  {session : Session σ}

theorem deliver_keeps (hk : handle.Keeps suits allowed) {response : Response} {place : Place}
    {post : Parser → Place → Prop} (h : response.Follows place post)
    (hi : suits place session.receiver) :
    Triple (deliver handle response) session
      (fun _ after => ∃ next, post after.parser next ∧ suits next after.receiver)
      fun fault _ => fault.ofDocument ∨ allowed fault := by
  obtain ⟨⟨last, hs, hp⟩, hb⟩ := h
  suffices ∀ (events : List (Parser × Event)) (place : Place) (receiver : σ),
      Steps place (events.map (·.2)) last → suits place receiver →
      Triple (fun _ => deliver.go handle response events receiver) session
        (fun _ after => ∃ next, post after.parser next ∧ suits next after.receiver)
        fun fault _ => fault.ofDocument ∨ allowed fault from
    this response.events place session.receiver hs hi
  -- The receiver suits the place that the events so far have led to, also if it refuses the next.
  intro events
  unfold Triple
  induction events with
  | nil =>
    intro place receiver hs hi
    simp only [deliver.go]
    cases hs
    cases hr : response.result with
    | ok _ => exact ⟨last, hp hr, hi⟩
    | error fault => exact .inl (hb fault hr)
  | cons event rest ih =>
    intro place receiver hs hi
    simp only [deliver.go]
    cases hs with
    | cons hstep hrest =>
      have htake := hk _ _ _ _ hstep hi
      unfold Triple at htake
      split at htake
      next hr =>
        rw [hr]
        exact ih _ _ hrest htake
      next hr =>
        rw [hr]
        exact .inr htake

/-- The parser is in a place that suits the receiver. -/
def Stands (suits : Place → σ → Prop) (session : Session σ) : Prop :=
  ∃ place, session.parser.At place ∧ suits place session.receiver

/-- The same after the end of the input. -/
def Ended (suits : Place → σ → Prop) (session : Session σ) : Prop :=
  session.parser.context.path = [] ∧ suits .ended session.receiver

theorem feedAll_keeps (hk : handle.Keeps suits allowed) (h : session.Stands suits)
    (pieces : List Bytes) :
    Triple (feedAll handle pieces) session (fun _ after => after.Stands suits)
      fun fault _ => fault.ofDocument ∨ allowed fault := by
  induction pieces generalizing session with
  | nil => exact .pure h
  | cons piece rest ih =>
    obtain ⟨place, hat, hi⟩ := h
    have hfeed : Triple (feed handle piece) session (fun _ after => after.Stands suits)
        fun fault _ => fault.ofDocument ∨ allowed fault :=
      deliver_keeps hk (hat.feed_follows piece) hi
    exact hfeed.bind fun _ _ h => ih h

theorem finish_keeps (hk : handle.Keeps suits allowed) (h : session.Stands suits) :
    Triple (finish handle) session (fun _ after => after.Ended suits)
      fun fault _ => fault.ofDocument ∨ allowed fault := by
  obtain ⟨place, hat, hi⟩ := h
  have hfinish : Triple (finish handle) session
      (fun _ after => ∃ next, after.parser.Ended next ∧ suits next after.receiver)
      fun fault _ => fault.ofDocument ∨ allowed fault :=
    deliver_keeps hk hat.finish_follows hi
  refine hfinish.mono ?_ fun _ _ hf => hf
  rintro _ after ⟨_, ⟨rfl, hp⟩, hi⟩
  exact ⟨hp, hi⟩

theorem run_keeps (hk : handle.Keeps suits allowed) (h : session.Stands suits)
    (pieces : List Bytes) :
    Triple (run handle pieces) session (fun _ after => after.Ended suits)
      fun fault _ => fault.ofDocument ∨ allowed fault :=
  (feedAll_keeps hk h pieces).bind fun _ _ h => finish_keeps hk h

-- ---------------------------------------------------------------------------
-- Logs are in order
-- ---------------------------------------------------------------------------

/-- A log that has led to a place. -/
def Logged (place : Place) (log : Log) : Prop := Steps .unstarted log.events place

theorem record_keeps : Handler.Keeps Log.record Logged fun _ => True := by
  intro place event next log hstep hlog
  have hkept := hstep.kept
  unfold Triple Log.record
  unfold Log.kept at hkept
  cases he : Log.stored? event with
  | error fault => trivial
  | ok entry =>
    simp only [List.filterMap_cons, he] at hkept
    cases entry with
    | none =>
      cases hkept
      exact hlog
    | some entry =>
      change Steps .unstarted (log.push entry).events next
      rw [Log.events_push]
      exact hlog.append hkept

theorem recording_stands (options : ReadOptions) : (recording options).Stands Logged :=
  ⟨_, Parser.ofOptions_at options, .nil _⟩

/-- The log begins a document, and the parser knows which of its elements are open. -/
structure InOrder (session : Session Log) : Prop where
  events : ∃ word, IsDocument word ∧ session.receiver.events <+: word
  path : session.parser.context.path = openElements session.receiver.events
  depth : session.parser.depth = (openElements session.receiver.events).length
  attributes : ∀ name attributes, .startElement name attributes ∈ session.receiver.events →
    ProperAttributes attributes

theorem InOrder.of_steps {session : Session Log} {place : Place}
    (h : Steps .unstarted session.receiver.events place)
    (hp : session.parser.context.path = place.path) : session.InOrder where
  events := h.exists_document
  path := hp.trans h.path_eq_openElements
  depth := congrArg List.length (hp.trans h.path_eq_openElements)
  attributes := fun _ _ => h.properAttributes

/-- As long as nothing fails, what a parser tells is the beginning of a document, and at the end it
is a document. -/
theorem tells_document (options : ReadOptions) (pieces : List Bytes) (session : Session Log) :
    (feedAll Log.record pieces (recording options) = .ok () session → session.InOrder) ∧
      (run Log.record pieces (recording options) = .ok () session →
        session.InOrder ∧ IsDocument session.receiver.events) := by
  constructor
  · intro h
    obtain ⟨place, hat, hlog⟩ :=
      (feedAll_keeps record_keeps (recording_stands options) pieces).run_ok h
    exact .of_steps hlog hat.path_eq.symm
  · intro h
    obtain ⟨hp, hlog⟩ := (run_keeps record_keeps (recording_stands options) pieces).run_ok h
    exact ⟨.of_steps hlog hp, hlog.isDocument⟩

/-- A start tag in two pieces tells a document. -/
theorem cut_element_tells_document :
    ∃ fed session, feedAll Log.record [ascii "<a", ascii "/>"] (recording {}) = .ok () fed ∧
      run Log.record [ascii "<a", ascii "/>"] (recording {}) = .ok () session ∧
      fed.InOrder ∧ session.InOrder ∧ IsDocument session.receiver.events := by
  have hresult : (view (run Log.record [ascii "<a", ascii "/>"] (recording {}))).result.isOk := by
    decide +kernel
  cases hr : run Log.record [ascii "<a", ascii "/>"] (recording {}) with
  | error fault session =>
    rw [hr] at hresult
    cases hresult
  | ok _ session =>
    obtain ⟨⟨⟩, fed, hf, -⟩ := of_run_bind hr
    obtain ⟨hfed, -⟩ := tells_document {} [ascii "<a", ascii "/>"] fed
    obtain ⟨-, hrun⟩ := tells_document {} [ascii "<a", ascii "/>"] session
    exact ⟨fed, session, hf, rfl, hfed hf, hrun hr⟩

end Session

end XmlStore
