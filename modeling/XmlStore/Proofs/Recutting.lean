import XmlStore.Proofs.Accumulating
import XmlStore.Proofs.Ordering
import XmlStore.Proofs.Relaying

/-!
# Documents that are cut anew

A session that succeeds recounts events, and its receiver takes all of them. Cut differently, the
same bytes recount events that look the same, and an assembly relays the same calls for them.
-/

namespace XmlStore

open Place (Step Steps)

-- ---------------------------------------------------------------------------
-- What a session recounts
-- ---------------------------------------------------------------------------

namespace Parser

/-- The events of pieces and of the end of the input after them, if nothing fails, and the parser
that is left. -/
inductive Recounts : Parser → List Bytes → List Event → Parser → Prop
  | finish {parser : Parser} (h : parser.finish.result = .ok ()) :
      Recounts parser [] (parser.finish.events.map (·.2)) parser.finish.parser
  | feed {parser last : Parser} {piece : Bytes} {rest : List Bytes} {events : List Event}
      (h : (parser.feed piece).result = .ok ())
      (hr : Recounts (parser.feed piece).parser rest events last) :
      Recounts parser (piece :: rest) ((parser.feed piece).events.map (·.2) ++ events) last

theorem Recounts.steps {parser last : Parser} {pieces : List Bytes} {events : List Event}
    {place : Place} (h : parser.Recounts pieces events last) (hat : parser.At place) :
    Steps place events .ended := by
  induction h generalizing place with
  | finish h =>
    obtain ⟨⟨next, hs, hp⟩, -⟩ := hat.finish_follows
    obtain ⟨rfl, -⟩ := hp h
    exact hs
  | @feed parser _ piece _ _ h _ ih =>
    obtain ⟨⟨next, hs, hp⟩, -⟩ := hat.feed_follows piece
    exact hs.append (ih (hp h))

end Parser

namespace Session

variable {σ : Type} {handle : Handler σ} {session after : Session σ}

theorem deliver_ok_iff {response : Response} :
    deliver handle response session = .ok () after ↔
      response.result = .ok () ∧ after.parser = response.parser ∧
        (response.events.map (·.2)).forM handle session.receiver = .ok () after.receiver := by
  suffices ∀ (events : List (Parser × Event)) (receiver : σ),
      deliver.go handle response events receiver = .ok () after ↔
        response.result = .ok () ∧ after.parser = response.parser ∧
          (events.map (·.2)).forM handle receiver = .ok () after.receiver from
    this response.events session.receiver
  intro events
  induction events with
  | nil =>
    intro receiver
    rw [deliver.go]
    cases response.result with
    | error fault => simp
    | ok _ =>
      constructor
      · intro h
        cases h
        exact ⟨rfl, rfl, rfl⟩
      · rintro ⟨-, hp, hr⟩
        cases hr
        rw [← hp]
  | cons event rest ih =>
    intro receiver
    rw [deliver.go, List.map_cons]
    cases hr : handle event.2 receiver with
    | ok _ next => rw [run_forM_cons hr, ← ih next]
    | error fault next =>
      constructor
      · rintro ⟨⟩
      · rintro ⟨-, -, hrun⟩
        obtain ⟨t, ht, -⟩ := of_run_forM_cons hrun
        cases hr.symm.trans ht

theorem run_ok_iff {pieces : List Bytes} :
    run handle pieces session = .ok () after ↔
      ∃ events, session.parser.Recounts pieces events after.parser ∧
        events.forM handle session.receiver = .ok () after.receiver := by
  induction pieces generalizing session with
  | nil =>
    have hfinish : finish handle session = .ok () after ↔ _ :=
      deliver_ok_iff
    refine hfinish.trans ?_
    constructor
    · rintro ⟨hr, hp, ht⟩
      exact ⟨_, hp ▸ .finish hr, ht⟩
    · rintro ⟨events, hr, ht⟩
      generalize hp : after.parser = last at hr
      cases hr with
      | finish hr => exact ⟨hr, rfl, ht⟩
  | cons piece rest ih =>
    constructor
    · intro h
      obtain ⟨⟨⟩, fed, hfed, hfinish⟩ := of_run_bind h
      obtain ⟨next, hnext, hrest⟩ := of_run_forM_cons hfed
      obtain ⟨hr, hp, ht⟩ := deliver_ok_iff.mp hnext
      obtain ⟨events, hevents, htaken⟩ := ih.mp ((run_bind hrest).trans hfinish)
      rw [hp] at hevents
      exact ⟨_, .feed hr hevents, (run_forM_append ht).trans htaken⟩
    · rintro ⟨events, hr, ht⟩
      generalize hp : after.parser = last at hr
      cases hr with
      | feed h hr =>
        obtain ⟨receiver, hpiece, hrest⟩ := of_run_forM_append ht
        have hnext : feed handle piece session = .ok () ⟨_, receiver⟩ :=
          deliver_ok_iff.mpr ⟨h, rfl, hpiece⟩
        have hrun : run handle rest ⟨_, receiver⟩ = .ok () after :=
          ih.mpr ⟨_, hp ▸ hr, hrest⟩
        obtain ⟨⟨⟩, fed, hfed, hfinish⟩ := of_run_bind hrun
        exact (run_bind ((run_forM_cons hnext).trans hfed)).trans hfinish

end Session

-- ---------------------------------------------------------------------------
-- The same bytes, cut differently
-- ---------------------------------------------------------------------------

theorem Place.Step.plain {place next : Place} {event : Event} (h : Step place event next) :
    event.Plain := by
  cases h with
  | remark h | subsetRemark h | epilogRemark h | leaf h =>
    rintro units rfl
    cases h
  | _ => exact fun _ => Event.noConfusion

theorem Place.Steps.plain {place last : Place} {events : List Event} (h : Steps place events last) :
    ∀ event ∈ events, event.Plain := by
  induction h with
  | nil => simp
  | cons h _ ih => exact List.forall_mem_cons.mpr ⟨h.plain, ih⟩

theorem Log.forM_record {events : List Event} (h : ∀ event ∈ events, event.Plain) (log : Log) :
    events.forM record log = .ok () (log.extend events) := by
  induction events generalizing log with
  | nil => rfl
  | cons event rest ih =>
    obtain ⟨hevent, hrest⟩ := List.forall_mem_cons.mp h
    rw [run_forM_cons (record_plain hevent log), ih hrest, ← extend_cons]

theorem Parser.Recounts.recut {options : ReadOptions} {p q : List Bytes} {events : List Event}
    {last : Parser} (hr : (ofOptions options).Recounts p events last)
    (h : p.flatten = q.flatten) :
    ∃ others other, (ofOptions options).Recounts q others other ∧
      Log.seen others = Log.seen events ∧
      other.context.encoding = last.context.encoding := by
  have hplain := (hr.steps (ofOptions_at options)).plain
  have hp : Session.run Log.record p (Session.recording options) =
      .ok () ⟨last, Log.extend {} events⟩ :=
    Session.run_ok_iff.mpr ⟨events, hr, Log.forM_record hplain _⟩
  have hview : Session.view (Session.run Log.record q (Session.recording options)) =
      Session.view (.ok () ⟨last, Log.extend {} events⟩) := by
    rw [← hp, Session.view_run_eq, Session.view_run_eq, h]
  cases hq : Session.run Log.record q (Session.recording options) with
  | error fault session =>
    rw [hq] at hview
    cases congrArg Session.View.result hview
  | ok _ session =>
    obtain ⟨others, hothers, htaken⟩ := Session.run_ok_iff.mp hq
    have hplain' := (hothers.steps (ofOptions_at options)).plain
    rw [Log.forM_record hplain'] at htaken
    obtain ⟨parser, log⟩ := session
    cases htaken
    rw [hq] at hview
    have hevents : Log.coalesce (Log.extend {} others).events =
        Log.coalesce (Log.extend {} events).events := congrArg Session.View.events hview
    rw [Log.events_extend, Log.events_extend] at hevents
    exact ⟨others, _, hothers, hevents, congrArg Session.View.encoding hview⟩

-- ---------------------------------------------------------------------------
-- The calls for events
-- ---------------------------------------------------------------------------

namespace Event

def bytes? : Event → Option Bytes
  | .text (.utf8 bytes) => some bytes
  | _ => none

/-- The character data among events. -/
def spelled (events : List Event) : Bytes := (events.filterMap bytes?).flatten

/-- The calls for character data and declarations that have waited. -/
def flushed (run : Bytes) (declared : List (Bytes × Bytes)) : List Call :=
  (if run.isEmpty then [] else [.text run false]) ++
    declared.map fun ns => .declareNamespace ns.1 ns.2

/-- The calls that events become after those that wait, if each run of character data between
structural events is well formed. -/
def relay : List Event → Bytes → List (Bytes × Bytes) → Bool → Option (List Call)
  | [], _, _, _ => some []
  | .text (.utf8 bytes) :: rest, run, declared, inDoctype =>
    relay rest (run ++ bytes) declared inDoctype
  | .declareNamespace qualifier uri :: rest, run, declared, inDoctype =>
    relay rest run (declared ++ [(qualifier, uri)]) inDoctype
  | .startDoctype _ :: rest, run, declared, _ => relay rest run declared true
  | .endDoctype :: rest, run, declared, _ => relay rest run declared false
  | event :: rest, run, declared, inDoctype =>
    if inDoctype && event.isRemark then relay rest run declared inDoctype
    else
      match event.call? with
      | none => none
      | some call =>
        if Utf8.isValid run then
          (relay rest [] [] inDoctype).map fun calls => flushed run declared ++ call :: calls
        else none

end Event

namespace Event

variable {waiting rest others : List Event} {event : Event} {call : Call} {calls : List Call}

theorem chunks_eq (h : ∀ event ∈ waiting, event.Plain) :
    waiting.filterMap chunk? = (waiting.filterMap bytes?).map .utf8 := by
  induction waiting with
  | nil => rfl
  | cons event rest ih =>
    obtain ⟨hevent, hrest⟩ := List.forall_mem_cons.mp h
    cases event with
    | text chunk =>
      cases chunk with
      | utf8 bytes => simp [chunk?, bytes?, ih hrest]
      | utf16 units => exact absurd rfl (hevent units)
    | _ => exact ih hrest

theorem relay_passes {run : Bytes} {declared : List (Bytes × Bytes)} {inDoctype : Bool}
    (hc : event.call? = some call) (hr : (inDoctype && event.isRemark) = false) :
    relay (event :: rest) run declared inDoctype =
      if Utf8.isValid run then
        (relay rest [] [] inDoctype).map fun calls => flushed run declared ++ call :: calls
      else none := by
  cases event <;> simp_all [relay, call?]

theorem relayed_waits_iff (h : event.waits = true) :
    Relayed waiting (event :: rest) calls ↔ Relayed (waiting ++ [event]) rest calls :=
  ⟨fun hr => Assembly.Relayed.of_waits hr h, .waits h⟩

theorem relayed_passes_iff (hw : ∀ event ∈ waiting, event.Plain) (hc : event.call? = some call)
    {after : Option (List Call)} (ha : ∀ calls, Relayed [] rest calls ↔ after = some calls) :
    Relayed waiting (event :: rest) calls ↔
      (if Utf8.isValid (spelled waiting) then
        after.map fun calls => flushed (spelled waiting) (waiting.filterMap declared?) ++
          call :: calls
      else none) = some calls := by
  have hspell : ∀ text, Chunk.Spell (waiting.filterMap chunk?) text ↔
      Utf8.isValid (spelled waiting) ∧ text = spelled waiting := by
    intro text
    rw [chunks_eq hw]
    exact Chunk.spell_utf8_iff
  constructor
  · intro h
    obtain ⟨text, more, rfl, ht, hr⟩ := Assembly.Relayed.of_passes h hc
    obtain ⟨hv, rfl⟩ := (hspell text).mp ht
    rw [if_pos hv, (ha more).mp hr]
    rfl
  · intro h
    split at h
    next hv =>
      obtain ⟨more, hr, rfl⟩ := Option.map_eq_some_iff.mp h
      exact .passes hc ((hspell _).mpr ⟨hv, rfl⟩) ((ha more).mpr hr)
    next => cases h

theorem relayed_iff {events : List Event} (hw : ∀ event ∈ waiting, event.Plain)
    (he : ∀ event ∈ events, event.Plain) (inDoctype : Bool) :
    Relayed waiting (shown inDoctype events) calls ↔
      relay events (spelled waiting) (waiting.filterMap declared?) inDoctype = some calls := by
  induction events generalizing waiting calls inDoctype with
  | nil =>
    constructor
    · rintro ⟨⟩
      rfl
    · rintro ⟨⟩
      exact .done
  | cons event rest ih =>
    obtain ⟨hevent, hrest⟩ := List.forall_mem_cons.mp he
    have hwaits (h : event.waits = true)
        (hv : shown inDoctype (event :: rest) = event :: shown inDoctype rest) :
        Relayed waiting (shown inDoctype (event :: rest)) calls ↔
          relay rest (spelled (waiting ++ [event])) ((waiting ++ [event]).filterMap declared?)
            inDoctype = some calls := by
      rw [hv, relayed_waits_iff h]
      exact ih (by simpa [or_imp, forall_and] using ⟨hw, hevent⟩) hrest inDoctype
    have hpasses {call : Call} (hc : event.call? = some call)
        (hr : (inDoctype && event.isRemark) = false)
        (hv : shown inDoctype (event :: rest) = event :: shown inDoctype rest) :
        Relayed waiting (shown inDoctype (event :: rest)) calls ↔
          relay (event :: rest) (spelled waiting) (waiting.filterMap declared?) inDoctype =
            some calls := by
      rw [hv, relay_passes hc hr]
      exact relayed_passes_iff hw hc fun calls => ih (by simp) hrest inDoctype
    cases event with
    | text chunk =>
      cases chunk with
      | utf8 bytes =>
        have hv : shown inDoctype (.text (.utf8 bytes) :: rest) =
            .text (.utf8 bytes) :: shown inDoctype rest := by
          cases inDoctype <;> rfl
        simpa [relay, spelled, List.filterMap_cons, bytes?, declared?] using hwaits rfl hv
      | utf16 units => exact absurd rfl (hevent units)
    | declareNamespace qualifier uri =>
      have hv : shown inDoctype (.declareNamespace qualifier uri :: rest) =
          .declareNamespace qualifier uri :: shown inDoctype rest := by
        cases inDoctype <;> rfl
      simpa [relay, spelled, List.filterMap_cons, bytes?, declared?] using hwaits rfl hv
    | startDoctype name => exact ih hw hrest true
    | endDoctype => exact ih hw hrest false
    | comment text | instruction target data =>
      cases inDoctype with
      | true => exact ih hw hrest true
      | false => exact hpasses rfl rfl rfl
    | startDocument =>
      have hv : shown inDoctype (.startDocument :: rest) =
          .startDocument :: shown inDoctype rest := by
        cases inDoctype <;> rfl
      rw [hv]
      constructor
      · intro h
        cases h with
        | waits h => cases h
        | passes h => cases h
      · simp [relay, isRemark, call?]
    | _ => exact hpasses rfl (Bool.and_false _) (by cases inDoctype <;> rfl)

-- ---------------------------------------------------------------------------
-- Events that look the same
-- ---------------------------------------------------------------------------

theorem relay_joinText (bytes : Bytes) (events : List Event) :
    relay (Log.joinText bytes events) = relay (.text (.utf8 bytes) :: events) := by
  funext run declared inDoctype
  fun_cases Log.joinText bytes events with
  | case1 more others => simp [relay]
  | case2 => rfl

theorem relay_cons (event : Event) {first second : List Event} (h : relay first = relay second) :
    relay (event :: first) = relay (event :: second) := by
  funext run declared inDoctype
  cases event with
  | text chunk => cases chunk <;> simp [relay, h]
  | _ => simp [relay, h]

/-- How text is cut does not show in the calls. -/
theorem relay_seen {events : List Event} (h : ∀ event ∈ events, event.Plain) :
    relay (Log.seen events) = relay events := by
  induction events with
  | nil => rfl
  | cons event rest ih =>
    obtain ⟨hevent, hrest⟩ := List.forall_mem_cons.mp h
    by_cases ht : ∃ chunk, event = .text chunk
    · obtain ⟨chunk, rfl⟩ := ht
      cases chunk with
      | utf16 units => exact absurd rfl (hevent units)
      | utf8 bytes =>
        cases bytes with
        | nil =>
          funext run declared inDoctype
          have hempty : Log.seen (.text (.utf8 []) :: rest) = Log.seen rest := rfl
          simp [hempty, ih hrest, relay]
        | cons b more =>
          have hjoin : Log.seen (.text (.utf8 (b :: more)) :: rest) =
              Log.joinText (b :: more) (Log.seen rest) := Log.coalesce_cons ..
          rw [hjoin, relay_joinText]
          exact relay_cons _ (ih hrest)
    · rw [Log.seen_cons (fun chunk hc => ht ⟨chunk, hc⟩)]
      exact relay_cons event (ih hrest)

end Event

theorem Place.Step.ne_unstarted {place next : Place} {event : Event} (h : Step place event next) :
    next ≠ .unstarted := by
  cases h with
  | endElement name path => cases path <;> exact Place.noConfusion
  | _ => exact Place.noConfusion

theorem Place.Step.of_unstarted {next : Place} {event : Event} (h : Step .unstarted event next) :
    event = .startDocument ∧ next = .prolog false := by
  cases h with
  | startDocument => exact ⟨rfl, rfl⟩
  | declare h | startElement h => cases h

theorem Place.Steps.of_ended {last : Place} {events : List Event} (h : Steps .ended events last) :
    events = [] := by
  cases h with
  | nil => rfl
  | cons h _ =>
    cases h with
    | declare h | startElement h => cases h

theorem Place.Steps.of_unstarted {events : List Event} (h : Steps .unstarted events .ended) :
    ∃ rest, events = .startDocument :: rest ∧ Steps (.prolog false) rest .ended := by
  cases h with
  | cons h hr =>
    obtain ⟨rfl, rfl⟩ := h.of_unstarted
    exact ⟨_, rfl, hr⟩

theorem Place.Steps.balanced {place : Place} {events : List Event} (h : Steps place events .ended)
    (hs : place ≠ .unstarted) (he : place ≠ .ended) :
    Event.Balanced place.path.length events := by
  generalize hlast : Place.ended = last at h
  induction h with
  | nil => exact absurd hlast.symm he
  | @cons place next last event rest hstep hrest ih =>
    subst hlast
    have ih := fun hne => ih hstep.ne_unstarted hne rfl
    cases hstep with
    | startDocument => exact absurd rfl hs
    | endDocument =>
      obtain rfl := hrest.of_ended
      exact .endDocument
    | remark h | subsetRemark h | epilogRemark h =>
      cases event with
      | comment text => exact .comment (ih Place.noConfusion)
      | instruction target data => exact .instruction (ih Place.noConfusion)
      | _ => cases h
    | leaf h =>
      cases event with
      | text chunk => exact .text (ih Place.noConfusion)
      | comment text => exact .comment (ih Place.noConfusion)
      | instruction target data => exact .instruction (ih Place.noConfusion)
      | _ => cases h
    | startDoctype name => exact .startDoctype (ih Place.noConfusion)
    | endDoctype => exact .endDoctype (ih Place.noConfusion)
    | declare => exact .declareNamespace (ih Place.noConfusion)
    | startElement => exact .startElement (ih Place.noConfusion)
    | endElement name path =>
      refine .endElement ?_
      rw [← path_within path]
      exact ih (by cases path <;> exact Place.noConfusion)

/-- Events that look the same bring a receiver to the same state. What the receiver does not look
at may be different from the start. -/
theorem Assembly.run_alike {σ : Type} {receive : Receiver σ} {f : σ → σ}
    (hf : ∀ call, Commutes f (receive call)) {events others : List Event}
    (he : Steps .unstarted events .ended) (ho : Steps .unstarted others .ended)
    (hseen : Log.seen others = Log.seen events) {receiver : σ} {name : Bytes} {final : Assembly σ}
    (h : events.forM (handle receive) { receiver, name } = .ok () final) :
    ∃ final', others.forM (handle receive) { receiver := f receiver, name } = .ok () final' ∧
      final'.receiver = f final.receiver := by
  obtain ⟨rest, rfl, hrest⟩ := he.of_unstarted
  obtain ⟨rest', rfl, hrest'⟩ := ho.of_unstarted
  obtain ⟨calls, htranscript, hcalls, -⟩ := transcript_of_run rfl (waits_nil _ rfl rfl) h
  cases htranscript with
  | @document _ calls hrelayed =>
    have hsame : Log.seen rest' = Log.seen rest := by
      simpa [Log.seen_cons] using hseen
    have hrelay : Event.relay rest' = Event.relay rest := by
      rw [← Event.relay_seen hrest'.plain, hsame, Event.relay_seen hrest.plain]
    have hrelayed' : Event.Relayed [] (Event.shown false rest') calls := by
      have hcomputed := (Event.relayed_iff (by simp) hrest.plain false).mp hrelayed
      rwa [Event.relayed_iff (by simp) hrest'.plain, hrelay]
    obtain ⟨next, hnext, hmore⟩ := of_run_forM_cons ((Commutes.forM hf).run hcalls)
    let started : Assembly σ := { receiver := next, name, started := true }
    have hbalanced : Event.Balanced started.depth rest' :=
      hrest'.balanced Place.noConfusion Place.noConfusion
    obtain ⟨final', hfinal, hreceiver⟩ :=
      run_of_relayed hbalanced rfl rfl (waits_nil started rfl rfl) hrelayed' hmore
    exact ⟨final', (run_forM_cons (startDocument_run rfl hnext)).trans hfinal, hreceiver⟩

end XmlStore
