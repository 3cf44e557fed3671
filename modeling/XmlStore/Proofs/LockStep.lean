import XmlStore.Ingest
import XmlStore.Proofs.Building
import XmlStore.Proofs.Ordering
import XmlStore.Proofs.Relaying

/-!
# Parser, assembly and builder in step

The place that a parser has come to says how many elements an assembly counts and which of them a
builder has open. Each event that may come there leads all three on, so that none of them ever
refuses one for its order: what is left are faults of the document, and prefixes that no element
declares.
-/

namespace XmlStore

open Place (Step Steps)

-- ---------------------------------------------------------------------------
-- Builders
-- ---------------------------------------------------------------------------

namespace Builder

variable {builder : Builder} {outline : Outline} {path path' : List Bytes}
  {pending pending' : List (Bytes × Bytes)} {call : Call}

/-- A builder with these elements open, innermost first, and with declarations for the next one. -/
def Stands (builder : Builder) (path : List Bytes) (pending : List (Bytes × Bytes)) : Prop :=
  ∃ outline, Builds outline builder ∧ outline.WellFormed ∧
    outline.opened.map (·.name) = path ∧ outline.pending = pending

/-- A call that goes on with every outline of these elements is taken. -/
theorem Stands.take_run (h : builder.Stands path pending) (hc : call ≠ .endDocument)
    (hn : ∀ outline : Outline, outline.WellFormed → outline.opened.map (·.name) = path →
      outline.pending = pending → ∃ later, outline.take call = some later ∧
        later.opened.map (·.name) = path' ∧ later.pending = pending') :
    Triple (take call) builder (fun _ after => after.Stands path' pending')
      fun fault _ => Exceeds fault := by
  obtain ⟨outline, hb, hw, hp, hd⟩ := h
  obtain ⟨later, ht, hp', hd'⟩ := hn outline hw hp hd
  refine (take_follows hb hw hc).mono ?_ fun _ _ hf => ?_
  · rintro _ after ⟨later', ht', hb'⟩
    cases ht.symm.trans ht'
    exact ⟨later, hb', hw.take ht, hp', hd'⟩
  · rcases hf with hnone | he
    · cases ht.symm.trans hnone
    · exact he

theorem Stands.text (h : builder.Stands path pending) (content : Bytes) (raw : Bool) :
    Triple (take (.text content raw)) builder (fun _ after => after.Stands path pending)
      fun fault _ => Exceeds fault := by
  refine h.take_run (by rintro ⟨⟩) fun outline _ hp hd => ⟨_, rfl, ?_⟩
  split <;> exact ⟨hp, hd⟩

theorem Stands.comment (h : builder.Stands path pending) (content : Bytes) :
    Triple (take (.comment content)) builder (fun _ after => after.Stands path pending)
      fun fault _ => Exceeds fault :=
  h.take_run (by rintro ⟨⟩) fun _ _ hp hd => ⟨_, rfl, hp, hd⟩

theorem Stands.instruction (h : builder.Stands path pending) (content : Bytes) :
    Triple (take (.instruction content)) builder (fun _ after => after.Stands path pending)
      fun fault _ => Exceeds fault :=
  h.take_run (by rintro ⟨⟩) fun _ _ hp hd => ⟨_, rfl, hp, hd⟩

theorem Stands.declareNamespace (h : builder.Stands path pending) (qualifier uri : Bytes) :
    Triple (take (.declareNamespace qualifier uri)) builder
      (fun _ after => after.Stands path (pending ++ [(qualifier, uri)]))
      fun fault _ => Exceeds fault :=
  h.take_run (by rintro ⟨⟩) fun _ _ hp hd => ⟨_, rfl, hp, congrArg (· ++ _) hd⟩

theorem Stands.endElement {name : Bytes} (h : builder.Stands (name :: path) pending) :
    Triple (take (.endElement name)) builder (fun _ after => after.Stands path pending)
      fun fault _ => Exceeds fault := by
  refine h.take_run (by rintro ⟨⟩) fun outline hw hp hd => ?_
  obtain ⟨position, rest, hpath⟩ := hw.exists_path
  cases ho : outline.opened with
  | nil => simp [ho] at hp
  | cons element opened =>
    simp only [ho, List.map_cons, List.cons.injEq] at hp
    refine ⟨{ outline with table := outline.table.close position, path := rest, opened },
      ?_, hp.2, hd⟩
    simp only [Outline.take, ho, hpath, hp.1, ↓reduceIte]

/-- A prefix that no element declares. -/
def Undeclared (fault : BuildFault) : Prop := ∃ qualifier, fault = .undeclaredQualifier qualifier

/-- The start of an element is refused for its prefixes, or because there is no room for it. -/
def RefusesElement (fault : BuildFault) : Prop := Undeclared fault ∨ Exceeds fault

theorem resolve_refuses (name : Bytes) (isAttribute : Bool) (builder : Builder) :
    Triple (resolve name isAttribute) builder (fun _ _ => True)
      fun fault _ => RefusesElement fault := by
  unfold resolve
  refine .step rfl ?_
  split
  · split
    · exact .pure trivial
    · exact .throw (.inl ⟨_, rfl⟩)
  · exact .pure trivial

theorem measure_refuses (n : Nat) (counted : Counted) (builder : Builder) :
    Triple (measure n counted) builder (fun _ _ => True) fun fault _ => RefusesElement fault :=
  (measure_run builder n counted).mono (fun _ _ _ => trivial) fun _ _ hf => .inr hf.2.1

theorem keep_refuses (value : Bytes) (builder : Builder) :
    Triple (keep value) builder (fun _ _ => True) fun fault _ => RefusesElement fault :=
  (keep_run builder value).mono (fun _ _ _ => trivial) fun _ _ hf => .inr hf.2.1

theorem commit_refuses (node : Node) (builder : Builder) :
    Triple (commit node) builder (fun _ _ => True) fun fault _ => RefusesElement fault :=
  (commit_run builder node).mono (fun _ _ _ => trivial) fun _ _ hf => .inr hf.2.1

theorem addAttributes_refuses (element depth : Nat) (attributes : List Attribute)
    (builder : Builder) :
    Triple (attributes.forM (addAttribute element depth)) builder (fun _ _ => True)
      fun fault _ => RefusesElement fault := by
  induction attributes generalizing builder with
  | nil => exact .pure trivial
  | cons att rest ih =>
    have hatt : Triple (addAttribute element depth att) builder (fun _ _ => True)
        fun fault _ => RefusesElement fault :=
      (resolve_refuses att.name true builder).bind fun _ _ _ => .step rfl <|
        (keep_refuses att.value _).bind fun _ _ _ => (commit_refuses _ _).bind fun _ _ _ =>
          .step rfl (.of_run rfl trivial)
    exact hatt.bind fun _ builder _ => ih builder

theorem startElement_refuses (h : Builds outline builder) (hw : outline.WellFormed)
    (name : Bytes) (attributes : List Attribute) :
    Triple (take (.startElement name attributes)) builder (fun _ _ => True)
      fun fault _ => RefusesElement fault := by
  obtain ⟨p, rest, hpath⟩ := hw.exists_path
  have hp : outline.path.head? = some p := by rw [hpath]; rfl
  unfold take startElement
  refine .step (parent_run h hp) (.step rfl (.step rfl ?_))
  refine (resolve_refuses name false _).bind fun _ _ _ => .step rfl ?_
  refine (measure_refuses _ _ _).bind fun _ _ _ => (measure_refuses _ _ _).bind fun _ _ _ => ?_
  refine (commit_refuses _ _).bind fun _ _ _ => .step rfl (.step rfl ?_)
  refine (addAttributes_refuses ..).bind fun _ _ _ => ?_
  exact .step rfl (.of_run rfl trivial)

theorem Stands.startElement (h : builder.Stands path pending) (name : Bytes)
    (attributes : List Attribute) :
    Triple (take (.startElement name attributes)) builder
      (fun _ after => after.Stands (name :: path) []) fun fault _ => RefusesElement fault := by
  obtain ⟨outline, hb, hw, hp, hd⟩ := h
  refine ((take_follows hb hw (by rintro ⟨⟩)).and
    (startElement_refuses hb hw name attributes)).mono ?_ fun _ _ hf => hf.2
  rintro _ after ⟨⟨later, ht, hb'⟩, -⟩
  refine ⟨later, hb', hw.take ht, ?_⟩
  simp only [Outline.take] at ht
  split at ht
  · cases ht
    exact ⟨congrArg (name :: ·) hp, rfl⟩
  · cases ht

theorem Stands.endDocument (h : builder.Stands [] []) :
    Triple (take .endDocument) builder
      (fun _ after => after.finished = true ∧ after.stack = #[]) fun fault _ => Exceeds fault := by
  obtain ⟨outline, hb, hw, hp, hd⟩ := h
  refine (endDocument_spec hb hw (List.map_eq_nil_iff.mp hp) hd).mono ?_ fun _ _ hf => hf.1
  rintro _ after ⟨hf, -, -, hs⟩
  exact ⟨hf, hs⟩

theorem Fresh.startDocument (h : Fresh builder) (name : Bytes) :
    Triple (take (.startDocument name)) builder (fun _ after => after.Stands [] [])
      fun fault _ => Exceeds fault :=
  (startDocument_spec h name).mono
    (fun _ _ hb => ⟨_, hb, Outline.ofName_wellFormed _ _, rfl, rfl⟩) fun _ _ hf => hf

/-- The open positions above the document are those of the open elements. -/
theorem Stands.names (h : builder.Stands path pending) :
    builder.stack.toList.tail.map builder.store.name = path.reverse := by
  obtain ⟨outline, hb, hw, rfl, -⟩ := h
  have hopens : ∀ {positions : List Nat} {opened : List Opened},
      Outline.Opens outline.table positions opened →
      ∃ elements, positions = elements ++ [0] ∧
        elements.map builder.store.name = opened.map (·.name) := by
    intro positions opened ho
    induction ho with
    | document => exact ⟨[], rfl, rfl⟩
    | element hrow hitem _ ih =>
      obtain ⟨elements, rfl, he⟩ := ih
      refine ⟨_ :: elements, rfl, ?_⟩
      rw [← hb.table] at hrow
      rw [List.map_cons, List.map_cons, he, hb.sound.name_eq hrow, hitem]
      rfl
  obtain ⟨elements, hpath, he⟩ := hopens hw.opens
  rw [hb.stack, hpath, List.reverse_append, List.map_tail]
  simp [← he]

end Builder

-- ---------------------------------------------------------------------------
-- Assemblies
-- ---------------------------------------------------------------------------

def Place.isSubset : Place → Bool
  | .subset => true
  | _ => false

def Place.isDeclaring : Place → Bool
  | .declaring _ => true
  | _ => false

namespace Assembly

variable {state : Assembly Builder} {place : Place} {path : List Bytes}

/-- An assembly between the start and the end of a document. -/
structure Carries (state : Assembly Builder) (place : Place) : Prop where
  started : state.started = true
  open_ : state.ended = false
  inDoctype : state.inDoctype = place.isSubset
  depth : state.depth = place.path.length
  namespaces : place.isDeclaring = false → state.namespaces = []
  stands : state.receiver.Stands place.path []

structure Awaits (state : Assembly Builder) : Prop where
  unstarted : state.started = false
  open_ : state.ended = false
  inDoctype : state.inDoctype = false
  depth : state.depth = 0
  namespaces : state.namespaces = []
  fresh : state.receiver.Fresh

structure Done (state : Assembly Builder) : Prop where
  depth : state.depth = 0
  finished : state.receiver.finished = true
  stack : state.receiver.stack = #[]

/-- An assembly and a builder that suit the place of a parser. -/
def InStep (place : Place) (state : Assembly Builder) : Prop :=
  match place with
  | .unstarted => state.Awaits
  | .ended => state.Done
  | place => state.Carries place

/-- What may be wrong with a document that is read in order. -/
def Allowed (fault : Error) : Prop :=
  (∃ reason, fault = .encoding reason) ∨ ∃ reason, fault = .build reason ∧
    Builder.RefusesElement reason

theorem Carries.inStep_within (h : state.Carries (.within path)) : InStep (.within path) state := by
  cases path <;> exact h

theorem InStep.carries (h : InStep place state) (ha : place.Admits) : state.Carries place := by
  cases ha <;> exact h

theorem InStep.agrees (h : InStep place state) :
    state.depth = place.path.length ∧
      state.receiver.stack.toList.tail.map state.receiver.store.name = place.path.reverse := by
  cases place with
  | unstarted =>
    have h : state.Awaits := h
    exact ⟨h.depth, by rw [h.fresh.stack]; rfl⟩
  | ended =>
    have h : state.Done := h
    exact ⟨h.depth, by rw [h.stack]; rfl⟩
  | _ => exact ⟨Carries.depth h, (Carries.stands h).names⟩

theorem send_triple {call : Call} {post : Unit → Builder → Prop}
    {fault : BuildFault → Builder → Prop}
    (h : Triple (Builder.take call) state.receiver post fault) :
    Triple (send Builder.take call) state
      (fun _ after => ∃ receiver, after = { state with receiver } ∧ post () receiver)
      fun e _ => ∃ reason receiver, e = .build reason ∧ fault reason receiver := by
  unfold Triple send at *
  split at h
  next hr =>
    rw [hr]
    exact ⟨_, rfl, h⟩
  next hr =>
    rw [hr]
    exact ⟨_, _, rfl, h⟩

theorem send_fits {call : Call} {post : Unit → Builder → Prop}
    (h : Triple (Builder.take call) state.receiver post fun fault _ => Exceeds fault) :
    Triple (send Builder.take call) state
      (fun _ after => ∃ receiver, after = { state with receiver } ∧ post () receiver)
      fun fault _ => Allowed fault :=
  (send_triple h).mono (fun _ _ hp => hp) fun _ _ ⟨reason, _, hbuild, he⟩ =>
    .inr ⟨reason, hbuild, .inr he⟩

theorem flushText_triple (h : state.receiver.Stands path []) :
    Triple (flushText Builder.take) state
      (fun _ after => ∃ receiver text, after = { state with receiver, text } ∧
        receiver.Stands path [])
      fun fault _ => Allowed fault := by
  unfold flushText
  refine .step rfl ?_
  simp only
  split
  · exact .pure ⟨state.receiver, state.text, rfl, h⟩
  · split
    · exact .throw (.inl ⟨_, rfl⟩)
    · refine (send_fits (h.text _ _)).bind ?_
      rintro _ _ ⟨receiver, rfl, hr⟩
      exact .of_run rfl ⟨receiver, {}, rfl, hr⟩

theorem declareAll_triple {pending : List (Bytes × Bytes)} (h : state.receiver.Stands path pending)
    (waiting : List (Bytes × Bytes)) :
    Triple (waiting.forM fun declared =>
        send Builder.take (.declareNamespace declared.1 declared.2)) state
      (fun _ after => ∃ receiver, after = { state with receiver } ∧
        receiver.Stands path (pending ++ waiting))
      fun fault _ => Allowed fault := by
  induction waiting generalizing state pending with
  | nil => exact .pure ⟨state.receiver, rfl, by rwa [List.append_nil]⟩
  | cons declared rest ih =>
    refine (send_fits (h.declareNamespace declared.1 declared.2)).bind ?_
    rintro _ _ ⟨receiver, rfl, hr⟩
    rw [List.append_cons]
    exact ih hr

theorem flush_triple (h : state.receiver.Stands path []) :
    Triple (flush Builder.take) state
      (fun _ after => ∃ receiver text, after = { state with receiver, text, namespaces := [] } ∧
        receiver.Stands path state.namespaces)
      fun fault _ => Allowed fault := by
  unfold flush flushNamespaces
  refine (flushText_triple h).bind ?_
  rintro _ _ ⟨receiver, text, rfl, hr⟩
  refine .step rfl (.step rfl ?_)
  refine (declareAll_triple hr state.namespaces).mono ?_ fun _ _ hf => hf
  rintro _ _ ⟨receiver, rfl, hr⟩
  exact ⟨receiver, text, rfl, hr⟩

theorem Carries.ensureOpen_run (h : state.Carries place) (kind : EventKind) :
    ensureOpen kind state = .ok () state := by
  unfold ensureOpen
  rw [run_get_bind, h.started, h.open_]
  rfl

-- ---------------------------------------------------------------------------
-- One event
-- ---------------------------------------------------------------------------

theorem Awaits.startDocument_keeps (h : state.Awaits) :
    Triple (startDocument Builder.take) state (fun _ after => after.Carries (.prolog false))
      fun fault _ => Allowed fault := by
  unfold startDocument
  refine .step rfl ?_
  rw [h.unstarted]
  refine .step rfl (.step rfl ?_)
  have hsend := @send_fits { state with started := true } _ _ (h.fresh.startDocument state.name)
  refine hsend.mono ?_ fun _ _ hf => hf
  rintro _ _ ⟨receiver, rfl, hr⟩
  exact ⟨rfl, h.open_, h.inDoctype, h.depth, fun _ => h.namespaces, hr⟩

/-- A node without content, in a place where no declarations wait. -/
theorem Carries.leaf_keeps (h : state.Carries place) (hd : place.isDeclaring = false)
    (kind : EventKind) {call : Call}
    (hc : ∀ {builder : Builder}, builder.Stands place.path [] →
      Triple (Builder.take call) builder (fun _ after => after.Stands place.path [])
        fun fault _ => Exceeds fault) :
    Triple (leaf Builder.take kind call) state (fun _ after => after.Carries place)
      fun fault _ => Allowed fault := by
  unfold leaf
  refine .step rfl ?_
  split
  · exact .pure h
  · refine .step (h.ensureOpen_run kind) ((flush_triple h.stands).bind ?_)
    rintro _ _ ⟨receiver, text, rfl, hr⟩
    rw [h.namespaces hd] at hr
    refine (send_fits (hc hr)).mono ?_ fun _ _ hf => hf
    rintro _ _ ⟨receiver, rfl, hr⟩
    exact ⟨h.started, h.open_, h.inDoctype, h.depth, fun _ => rfl, hr⟩

theorem Carries.startElement_keeps (h : state.Carries place) (hs : place.isSubset = false)
    (name : Bytes) (attributes : List Attribute) :
    Triple (startElement Builder.take name attributes) state
      (fun _ after => after.Carries (.content name place.path)) fun fault _ => Allowed fault := by
  unfold startElement
  refine .step (h.ensureOpen_run _) ((flush_triple h.stands).bind ?_)
  rintro _ _ ⟨receiver, text, rfl, hr⟩
  refine .step rfl ((send_triple (hr.startElement name _)).bind_mono ?_ ?_)
  · rintro _ _ ⟨reason, _, rfl, hr⟩
    exact .inr ⟨reason, rfl, hr⟩
  · rintro _ _ ⟨receiver, rfl, hr⟩
    refine .of_run rfl ⟨h.started, h.open_, h.inDoctype.trans hs, ?_, fun _ => rfl, hr⟩
    exact congrArg (· + 1) h.depth

theorem Carries.endElement_keeps {name : Bytes} (h : state.Carries (.content name path)) :
    Triple (endElement Builder.take name) state (fun _ after => after.Carries (.within path))
      fun fault _ => Allowed fault := by
  have hdepth : state.depth = path.length + 1 := h.depth
  unfold endElement
  refine .step (h.ensureOpen_run _) (.step rfl ?_)
  rw [if_neg (by omega)]
  refine (flush_triple h.stands).bind ?_
  rintro _ _ ⟨receiver, text, rfl, hr⟩
  rw [h.namespaces rfl] at hr
  refine (send_fits hr.endElement).bind ?_
  rintro _ _ ⟨receiver, rfl, hr⟩
  have hplace : Place.isSubset (.within path) = false := by cases path <;> rfl
  refine .of_run rfl ⟨h.started, h.open_, h.inDoctype.trans hplace.symm, ?_, fun _ => rfl, ?_⟩
  · simp [hdepth]
  · simpa using hr

theorem Carries.endDocument_keeps (h : state.Carries .epilog) :
    Triple (endDocument Builder.take) state (fun _ after => after.Done)
      fun fault _ => Allowed fault := by
  unfold endDocument
  refine .step (h.ensureOpen_run _) (.step rfl ?_)
  have hdepth : state.depth = 0 := h.depth
  simp only [hdepth, ne_eq, not_true, ↓reduceIte]
  refine (flush_triple h.stands).bind ?_
  rintro _ _ ⟨receiver, text, rfl, hr⟩
  rw [h.namespaces rfl] at hr
  refine (send_fits hr.endDocument).bind ?_
  rintro _ _ ⟨receiver, rfl, hf, hs⟩
  exact .of_run rfl ⟨h.depth, hf, hs⟩

theorem Carries.addText_keeps (h : state.Carries place) (chunk : Chunk) :
    Triple (addText chunk) state (fun _ after => after.Carries place)
      fun fault _ => Allowed fault := by
  unfold addText
  refine .step (h.ensureOpen_run _) ?_
  unfold Triple
  simp only
  cases TextRun.push chunk state.text with
  | ok _ text => exact ⟨h.started, h.open_, h.inDoctype, h.depth, h.namespaces, h.stands⟩
  | error fault text => exact .inl ⟨fault, rfl⟩

theorem Carries.declareNamespace_keeps (h : state.Carries place) (hs : place.isSubset = false)
    (qualifier uri : Bytes) :
    Triple (declareNamespace qualifier uri) state
      (fun _ after => after.Carries (.declaring place.path)) fun fault _ => Allowed fault := by
  unfold declareNamespace
  refine .step (h.ensureOpen_run _) (.of_run rfl ?_)
  exact ⟨h.started, h.open_, h.inDoctype.trans hs, h.depth, by rintro ⟨⟩, h.stands⟩

theorem isSubset_of_admits (h : place.Admits) : place.isSubset = false := by
  cases h <;> rfl

theorem Carries.remark_keeps {event : Event} (h : state.Carries place)
    (hd : place.isDeclaring = false) (hr : event.isRemark) :
    Triple (handle Builder.take event) state (fun _ after => after.Carries place)
      fun fault _ => Allowed fault := by
  cases event with
  | comment text => exact h.leaf_keeps hd .comment fun hb => hb.comment text
  | instruction target data => exact h.leaf_keeps hd .instruction fun hb => hb.instruction _
  | _ => cases hr

theorem handle_keeps : Handler.Keeps (handle Builder.take) InStep Allowed := by
  intro place event next state hstep h
  -- One case for each event that may come, in each place where it may.
  cases hstep with
  | startDocument => exact Awaits.startDocument_keeps h
  | remark hr | subsetRemark hr | epilogRemark hr => exact Carries.remark_keeps h rfl hr
  | startDoctype name =>
    have h : state.Carries (.prolog false) := h
    exact .of_run rfl ⟨h.started, h.open_, rfl, h.depth, fun _ => h.namespaces rfl, h.stands⟩
  | endDoctype =>
    have h : state.Carries .subset := h
    exact .of_run rfl ⟨h.started, h.open_, rfl, h.depth, fun _ => h.namespaces rfl, h.stands⟩
  | declare ha qualifier uri =>
    exact (h.carries ha).declareNamespace_keeps (isSubset_of_admits ha) qualifier uri
  | startElement ha name _ =>
    exact (h.carries ha).startElement_keeps (isSubset_of_admits ha) name _
  | leaf hl =>
    cases event with
    | text chunk => exact Carries.addText_keeps h chunk
    | comment text => exact Carries.remark_keeps h rfl rfl
    | instruction target data => exact Carries.remark_keeps h rfl rfl
    | _ => cases hl
  | endElement name path =>
    exact (Carries.endElement_keeps h).mono (fun _ _ hc => hc.inStep_within) fun _ _ hf => hf
  | endDocument => exact Carries.endDocument_keeps h

end Assembly

-- ---------------------------------------------------------------------------
-- Ingestions
-- ---------------------------------------------------------------------------

namespace Ingestion

/-- The same elements are open for the parser, the assembly and the builder. -/
structure Agrees (ingestion : Ingestion) : Prop where
  depth : ingestion.receiver.depth = ingestion.parser.depth
  names : ingestion.receiver.receiver.stack.toList.tail.map
      ingestion.receiver.receiver.store.name = ingestion.parser.context.path.reverse

variable {ingestion : Ingestion} (name source : String) (inputSize : Nat) (reading : ReadOptions)
  (indexing : IndexOptions)

theorem start_stands :
    (start name source inputSize reading indexing).Stands Assembly.InStep :=
  ⟨.unstarted, Parser.ofOptions_at reading,
    ⟨rfl, rfl, rfl, rfl, rfl, Builder.ofOptions_fresh indexing reading.chop _⟩⟩

theorem agrees_of_stands (h : ingestion.Stands Assembly.InStep) : ingestion.Agrees := by
  obtain ⟨place, hat, hi⟩ := h
  obtain ⟨hdepth, hnames⟩ := hi.agrees
  rw [hat.path_eq] at hdepth hnames
  exact ⟨hdepth, hnames⟩

theorem agrees_of_ended (h : ingestion.Ended Assembly.InStep) : ingestion.Agrees := by
  obtain ⟨hp, hi⟩ := h
  obtain ⟨hdepth, hnames⟩ := hi.agrees
  refine ⟨?_, ?_⟩
  · rw [hdepth, Parser.depth, hp]
    rfl
  · rw [hnames, hp]
    rfl

theorem finish_faults (h : ingestion.Stands Assembly.InStep) {encoding : Encoding} {fault : Error}
    (hf : ingestion.finish encoding = .error fault) :
    fault.ofDocument ∨ Assembly.Allowed fault := by
  have hfinish := Session.finish_keeps Assembly.handle_keeps h
  unfold Triple at hfinish
  unfold finish handle at hf
  split at hfinish
  next ended hr =>
    have hdone : ended.receiver.Done := hfinish.2
    simp only [hr, Builder.finish, hdone.finished, ↓reduceIte] at hf
    cases hf
  next hr =>
    simp only [hr] at hf
    cases hf
    exact hfinish

theorem run_faults (h : ingestion.Stands Assembly.InStep) {encoding : Encoding}
    {pieces : List Bytes} {fault : Error} (hf : ingestion.run encoding pieces = .error fault) :
    fault.ofDocument ∨ Assembly.Allowed fault := by
  have hfeed := Session.feedAll_keeps Assembly.handle_keeps h pieces
  unfold Triple at hfeed
  unfold run at hf
  have hrun : feed pieces ingestion =
      Session.feedAll (Assembly.handle Builder.take) pieces ingestion := rfl
  rw [hrun] at hf
  split at hfeed
  next hr =>
    rw [hr] at hf
    exact finish_faults hfeed hf
  next hr =>
    rw [hr] at hf
    cases hf
    exact hfeed

/-- The faults of a document: its bytes, or a prefix that it does not declare. -/
inductive Reported : Error → Prop
  | malformed (position : Nat) (fault : Fault) : Reported (.malformed position fault)
  | reference (fault : ReferenceFault) : Reported (.reference fault)
  | encoding (fault : EncodingFault) : Reported (.encoding fault)
  | undeclared (qualifier : Bytes) : Reported (.build (.undeclaredQualifier qualifier))

theorem reported_of_faults {fault : Error} (h : fault.ofDocument ∨ Assembly.Allowed fault)
    (hs : fault ≠ .sharedDelimiter) (hfits : ∀ counted, fault ≠ .build (.exceeded counted)) :
    Reported fault := by
  rcases h with h | ⟨reason, rfl⟩ | ⟨_, rfl, ⟨qualifier, rfl⟩ | ⟨counted, rfl⟩⟩
  · cases fault with
    | malformed position fault => exact .malformed position fault
    | reference fault => exact .reference fault
    | encoding fault => exact .encoding fault
    | sharedDelimiter => exact absurd rfl hs
    | _ => cases h
  · exact .encoding reason
  · exact .undeclared qualifier
  · exact absurd rfl (hfits counted)

/-- Parser, assembly and builder never disagree, so that the nesting of nodes and the order of
events are never what is reported, as long as positions and offsets fit. That they do not is
reported only for a call that the tables have no room for. An item that `sharedDelimiter` stands for
ends reading without any result. -/
theorem stays_in_step (name : String) (reading : ReadOptions) (indexing : IndexOptions) :
    (∀ input fault, ingest name input reading indexing = .error fault →
      fault ≠ .sharedDelimiter → (∀ counted, fault ≠ .build (.exceeded counted)) →
      Reported fault) ∧
    (∀ builder call counted later, Builder.take call builder = .error (.exceeded counted) later →
      ¬ builder.Room (builder.added call)) ∧
    (∀ source inputSize pieces ingestion,
      (feed pieces (start name source inputSize reading indexing) = .ok () ingestion →
        ingestion.Agrees) ∧
      (Session.run handle pieces (start name source inputSize reading indexing) =
        .ok () ingestion → ingestion.Agrees)) := by
  have hstart := fun source inputSize => start_stands name source inputSize reading indexing
  refine ⟨fun input fault hf hs hfits => reported_of_faults ?_ hs hfits,
    fun builder call counted later hr => ?_, fun source inputSize pieces _ => ?_⟩
  · unfold ingest at hf
    cases hu : Encoding.toUtf8 input with
    | error reason =>
      rw [hu] at hf
      cases hf
      exact .inl rfl
    | ok utf8 =>
      rw [hu] at hf
      exact run_faults (hstart "" input.length) hf
  · have hadds := Builder.take_adds builder call
    rw [Triple, hr] at hadds
    exact hadds ⟨counted, rfl⟩
  · constructor
    · intro h
      exact agrees_of_stands
        ((Session.feedAll_keeps Assembly.handle_keeps (hstart source inputSize) pieces).run_ok h)
    · intro h
      exact agrees_of_ended
        ((Session.run_keeps Assembly.handle_keeps (hstart source inputSize) pieces).run_ok h)

/-- A prefix is reported, a name that does not fit is refused, and an element is open or closed for
all three. -/
theorem element_stays_in_step :
    ∃ (fault : Error) (fed session : Ingestion) (builder later : Builder),
      ingest "n" (ascii "<p:a/>") {} {} = .error fault ∧
      fault ≠ .sharedDelimiter ∧ (∀ counted, fault ≠ .build (.exceeded counted)) ∧
      Reported fault ∧
      Builder.take (.startDocument longValue) builder = .error (.exceeded .values) later ∧
      ¬ builder.Room (builder.added (.startDocument longValue)) ∧
      feed [ascii "<a>"] (start "n" "" 3 {} {}) = .ok () fed ∧ fed.Agrees ∧
      Session.run handle [ascii "<a", ascii "/>"] (start "n" "" 4 {} {}) = .ok () session ∧
      session.Agrees := by
  have hfault : (match ingest "n" (ascii "<p:a/>") {} {} with
      | .ok _ => none
      | .error fault => some fault) = some (.build (.undeclaredQualifier (ascii "p"))) := by
    decide +kernel
  have hfed : (match feed [ascii "<a>"] (start "n" "" 3 {} {}) with
      | .ok _ fed => fed.parser.depth == 1
      | .error _ _ => false) = true := by
    decide +kernel
  have hrun : (match Session.run handle [ascii "<a", ascii "/>"] (start "n" "" 4 {} {}) with
      | .ok _ session => session.parser.finished
      | .error _ _ => false) = true := by
    decide +kernel
  obtain ⟨hreported, hroom, hagrees⟩ := stays_in_step "n" {} {}
  have hlater := Builder.startDocument_exceeds (Builder.ofOptions_fresh {} false {}).unstarted
    (Nat.lt_of_lt_of_le lt_length_longValue (Nat.le_add_left ..))
  cases hi : ingest "n" (ascii "<p:a/>") {} {} with
  | ok db => simp [hi] at hfault
  | error fault =>
    simp only [hi, Option.some.injEq] at hfault
    cases hf : feed [ascii "<a>"] (start "n" "" 3 {} {}) with
    | error _ _ => simp [hf] at hfed
    | ok _ fed =>
      cases hr : Session.run handle [ascii "<a", ascii "/>"] (start "n" "" 4 {} {}) with
      | error _ _ => simp [hr] at hrun
      | ok _ session =>
        have hs : fault ≠ .sharedDelimiter := by simp [hfault]
        have hfits : ∀ counted, fault ≠ .build (.exceeded counted) := by simp [hfault]
        exact ⟨fault, fed, session, _, _, rfl, hs, hfits, hreported _ fault hi hs hfits, hlater,
          hroom _ _ _ _ hlater, rfl, (hagrees "" 3 [ascii "<a>"] fed).1 hf, rfl,
          (hagrees "" 4 [ascii "<a", ascii "/>"] session).2 hr⟩

end Ingestion

end XmlStore
