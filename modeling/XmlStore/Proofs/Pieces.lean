import XmlStore.Markup.Parser
import XmlStore.Proofs.Splitting
import XmlStore.Proofs.Triples

/-!
# Documents in pieces

However a document is cut into pieces, a parser that records what it reads comes to the same: the
events but for the cutting of text, the encoding, the number of references replaced, and the
result. The parser after some pieces is a function of their bytes alone, up to what it has put by.
-/

namespace XmlStore

-- ---------------------------------------------------------------------------
-- Parsers between pieces
-- ---------------------------------------------------------------------------

theorem readConstructs_rest {c : Context} {here taken : Nat} {bs : Bytes}
    (h : (readConstructs false c here bs).outcome = .ok taken) :
    (readConstructs false (readConstructs false c here bs).context (here + taken)
      (bs.drop taken)).outcome = .ok 0 := by
  have ho := (readConstructs_append false c here bs []).outcome
  rw [List.append_nil, Reading.andThen, h] at ho
  obtain ⟨more, hm, he⟩ := Reading.map_eq_ok ho.symm
  rw [List.append_nil] at hm
  rw [hm]
  congr
  omega

/-- Bytes that were left stay unread until the byte comes that they wait for. -/
theorem readConstructs_idle {c : Context} {here : Nat} {z : UInt8} {buffer later more : Bytes}
    (hz : Construct.awaited? buffer = some z) (hlater : z ∉ later) (hmore : z ∉ more)
    (h : (readConstructs false c here (buffer ++ later)).outcome = .ok 0) :
    readConstructs false c here (buffer ++ later ++ more) = { context := c, outcome := .ok 0 } := by
  have hbuffer : buffer ≠ [] := by
    rintro rfl
    simp [Construct.awaited?] at hz
  have hne : ∀ tail, buffer ++ tail ≠ [] := fun tail => List.append_ne_nil_of_left_ne_nil hbuffer _
  rcases Construct.read_awaits hz c here with ⟨position, fault, hw⟩ | ⟨hr, taken, h0, -, hc⟩
  · rw [List.append_assoc, readConstructs_eq_resume (hne _), hw false (later ++ more) (by simp_all)]
    rfl
  · -- Otherwise the buffer alone would have been read.
    rw [readConstructs_eq_resume (hne _), hr, Reading.resume] at h
    rcases hc.outcome with ho | ⟨fault, ho⟩
    · rw [ho] at h
      obtain ⟨n, -, he⟩ := Reading.map_eq_ok h
      omega
    · rw [ho] at h
      simp at h

namespace Parser

/-- A parser that has read all that it can. -/
structure Paused (parser : Parser) : Prop where
  unfinished : parser.finished = false
  idle : (readConstructs false parser.context parser.position parser.unread).outcome = .ok 0
  awaits : ∀ z, parser.awaited = some z →
    Construct.awaited? parser.buffer = some z ∧ z ∉ parser.later.reverse.flatten

theorem ofOptions_paused (options : ReadOptions) : (ofOptions options).Paused where
  unfinished := rfl
  idle := by rw [show (ofOptions options).unread = [] from rfl, readConstructs_nil]
  awaits := by simp [ofOptions]

/-- What a parser reads next if this piece comes, and if with `last` it is the end. -/
def next (parser : Parser) (last : Bool) (piece : Bytes) : Reading Nat :=
  readConstructs last parser.context parser.position (parser.unread ++ piece)

/-- The events at the start of a document, if it has not begun. -/
def opening (parser : Parser) : List Event := if parser.started then [] else [.startDocument]

theorem start_events (parser : Parser) : parser.start.1.map (·.2) = parser.opening := by
  unfold start opening
  split <;> rfl

end Parser

/-- A response that tells of this reading. -/
structure Response.Tells (response : Response) (opening : List Event) (reading : Reading Nat) :
    Prop where
  events : response.events.map (·.2) = opening ++ reading.events.map (·.2)
  context : response.parser.context = reading.context

namespace Parser

theorem process_tells (parser : Parser) (last : Bool) :
    (parser.process last).Tells []
      (readConstructs last parser.context parser.position parser.unread) := by
  constructor
  · unfold process
    simp only
    split
    · simp [gather]
    · split <;> simp [gather]
  · unfold process
    simp only
    split
    · rfl
    · split <;> rfl

theorem process_fault {parser : Parser} {last : Bool} {fault : Error}
    (h : (readConstructs last parser.context parser.position parser.unread).outcome =
      .error fault) : (parser.process last).result = .error fault := by
  unfold process
  simp only [gather, h]

theorem process_rest {parser : Parser} {taken : Nat}
    (h : (readConstructs false parser.context parser.position parser.unread).outcome =
      .ok taken) :
    parser.process false =
      { parser.process false with
        parser :=
          { parser with
            context := (readConstructs false parser.context parser.position parser.unread).context
            buffer := parser.unread.drop taken
            later := []
            awaited := Construct.awaited? (parser.unread.drop taken)
            position := parser.position + taken }
        result := .ok () } := by
  unfold process
  simp only [gather, h, Bool.false_and, Bool.false_eq_true, ↓reduceIte]

def begun (parser : Parser) : Parser := { parser with started := true }

theorem start_snd (parser : Parser) : parser.start.2 = parser.begun := by
  unfold start begun
  split
  next h => rw [← h]
  next => rfl

/-- The parser with a piece that it has not looked at. -/
def hold (parser : Parser) (piece : Bytes) : Parser :=
  { parser with started := true, later := piece :: parser.later }

theorem unread_hold (parser : Parser) (piece : Bytes) :
    (parser.hold piece).unread = parser.unread ++ piece := by
  simp [unread, hold]

theorem next_hold (parser : Parser) (last : Bool) (piece : Bytes) :
    readConstructs last (parser.hold piece).context (parser.hold piece).position
      (parser.hold piece).unread = parser.next last piece := by
  rw [unread_hold]
  rfl

theorem feed_eq {parser : Parser} (h : parser.finished = false) (piece : Bytes) :
    parser.feed piece =
      if parser.awaited.any fun b => !piece.contains b then
        { events := parser.start.1, parser := parser.hold piece, result := .ok () }
      else
        { (parser.hold piece).process false with
          events := parser.start.1 ++ ((parser.hold piece).process false).events } := by
  unfold feed hold
  simp only [h, start_snd, begun, Bool.false_eq_true, ↓reduceIte]

/-- A piece without the byte that is waited for is put by, as reading it would come to nothing. -/
theorem Paused.next_eq {parser : Parser} (h : parser.Paused) {piece : Bytes}
    (hw : (parser.awaited.any fun b => !piece.contains b) = true) :
    parser.next false piece = { context := parser.context, outcome := .ok 0 } := by
  obtain ⟨z, hz, hp⟩ := (Option.any_eq_true ..).mp hw
  obtain ⟨hb, hl⟩ := h.awaits z hz
  exact readConstructs_idle hb hl (by simpa using hp) h.idle

theorem Paused.feed_tells {parser : Parser} (h : parser.Paused) (piece : Bytes) :
    (parser.feed piece).Tells parser.opening (parser.next false piece) := by
  rw [feed_eq h.unfinished]
  split
  next hw =>
    rw [h.next_eq hw]
    refine ⟨?_, rfl⟩
    rw [start_events, List.map_nil, List.append_nil]
  next =>
    have hp := process_tells (parser.hold piece) false
    rw [next_hold] at hp
    refine ⟨?_, hp.context⟩
    rw [List.map_append, start_events, hp.events, List.nil_append]

theorem Paused.feed_fault {parser : Parser} (h : parser.Paused) {piece : Bytes} {fault : Error}
    (hn : (parser.next false piece).outcome = .error fault) :
    (parser.feed piece).result = .error fault := by
  rw [feed_eq h.unfinished]
  split
  next hw => simp [h.next_eq hw] at hn
  next =>
    rw [← next_hold] at hn
    exact process_fault hn

/-- Feeding succeeds if the reading does, and leaves a parser that has read all that it can. -/
theorem Paused.feed_ok {parser : Parser} (h : parser.Paused) {piece : Bytes} {taken : Nat}
    (hn : (parser.next false piece).outcome = .ok taken) :
    (parser.feed piece).result = .ok () ∧ (parser.feed piece).parser.Paused ∧
      (parser.feed piece).parser.started = true ∧
      (parser.feed piece).parser.position = parser.position + taken ∧
      (parser.feed piece).parser.unread = (parser.unread ++ piece).drop taken := by
  rw [feed_eq h.unfinished]
  split
  next hw =>
    have hnext := h.next_eq hw
    rw [hnext] at hn
    obtain rfl := Except.ok.inj hn
    refine ⟨rfl, ⟨h.unfinished, ?_, ?_⟩, rfl, rfl, unread_hold ..⟩
    · rw [next_hold, hnext]
    · intro z hz
      obtain ⟨hb, hl⟩ := h.awaits z hz
      refine ⟨hb, ?_⟩
      simp_all [hold]
  next =>
    rw [← next_hold] at hn
    rw [process_rest hn]
    have hunread : (parser.hold piece).unread.drop taken ++ ([] : List Bytes).reverse.flatten =
        (parser.hold piece).unread.drop taken := List.append_nil _
    refine ⟨rfl, ⟨h.unfinished, ?_, ?_⟩, rfl, rfl, ?_⟩
    · exact (congrArg (fun rest => (readConstructs false _ _ rest).outcome) hunread).trans
        (readConstructs_rest hn)
    · intro z hz
      exact ⟨hz, by simp⟩
    · exact hunread.trans (by rw [unread_hold])

/-- What is missing at the end of a document after this reading. -/
def missing? (reading : Reading Nat) : Option Fault :=
  unfinished? { context := reading.context }

end Parser

/-- The result of reading all of the `length` bytes that stand at `here`. -/
def Reading.verdict (reading : Reading Nat) (here length : Nat) : Except Error Unit :=
  match reading.outcome with
  | .error fault => .error fault
  | .ok taken =>
    if taken < length then .error (.malformed (here + taken) .unexpectedEnd)
    else
      match Parser.missing? reading with
      | some fault => .error (.malformed (here + taken) fault)
      | none => .ok ()

theorem Reading.Alike.verdict {first second : Reading Nat} (h : first.Alike second)
    (here length : Nat) : first.verdict here length = second.verdict here length := by
  unfold Reading.verdict Parser.missing?
  rw [h.outcome, h.context]

theorem Reading.verdict_prepend (events : List (Context × Event)) {taken length : Nat}
    (h : taken ≤ length) (rest : Reading Nat) (here : Nat) :
    (rest.prepend events taken).verdict here length =
      rest.verdict (here + taken) (length - taken) := by
  unfold verdict prepend
  cases rest.outcome with
  | error fault => rfl
  | ok more =>
    have hlt : taken + more < length ↔ more < length - taken := by omega
    simp only [Except.map, hlt, Nat.add_assoc]
    rfl

def closing : Except Error Unit → List Event
  | .error _ => []
  | .ok () => [.endDocument]

namespace Parser

/-- What is left waits for more; at the end of the input it is a fault. -/
theorem process_taken {parser : Parser} {last : Bool} {taken : Nat}
    (h : (readConstructs last parser.context parser.position parser.unread).outcome =
      .ok taken) :
    (parser.process last).result =
        (if last && taken < parser.unread.length then
          .error (.malformed (parser.position + taken) .unexpectedEnd)
        else .ok ()) ∧
      (¬ (last && taken < parser.unread.length) →
        (parser.process last).parser =
          { parser with
            context := (readConstructs last parser.context parser.position parser.unread).context
            buffer := parser.unread.drop taken
            later := []
            awaited := Construct.awaited? (parser.unread.drop taken)
            position := parser.position + taken }) := by
  have hread : (readConstructs last parser.gather.context parser.gather.position
      parser.gather.buffer).outcome = .ok taken := h
  have hbuffer : parser.unread = parser.gather.buffer := rfl
  rw [hbuffer]
  unfold process
  simp only [hread]
  cases last && decide (taken < parser.gather.buffer.length) with
  | true => exact ⟨rfl, fun hn => absurd rfl hn⟩
  | false => exact ⟨rfl, fun _ => rfl⟩

/-- The end of the input has the reading of what is left told. -/
theorem finish_spec {parser : Parser} (h : parser.finished = false) :
    let reading := parser.next true []
    let result := reading.verdict parser.position parser.unread.length
    parser.finish.events.map (·.2) =
        parser.opening ++ reading.events.map (·.2) ++ closing result ∧
      parser.finish.parser.context = reading.context ∧ parser.finish.result = result := by
  have hnext : readConstructs true parser.begun.context parser.begun.position
      parser.begun.unread = parser.next true [] := by
    rw [next, List.append_nil]
    rfl
  have hp := process_tells parser.begun true
  rw [hnext] at hp
  have hevents : parser.start.1.map (·.2) ++ (parser.begun.process true).events.map (·.2) =
      parser.opening ++ (parser.next true []).events.map (·.2) := by
    rw [start_events, hp.events, List.nil_append]
  unfold finish
  simp only [h, start_snd, Bool.false_eq_true, ↓reduceIte]
  unfold Reading.verdict
  cases ho : (parser.next true []).outcome with
  | error fault =>
    have hr := process_fault (hnext ▸ ho)
    simp only [hr, List.map_append, hevents]
    exact ⟨by simp [closing], hp.context, trivial⟩
  | ok taken =>
    obtain ⟨hr, hleft⟩ := process_taken (hnext ▸ ho)
    simp only [Bool.true_and, decide_eq_true_eq] at hr hleft
    by_cases hlt : taken < parser.begun.unread.length
    · rw [if_pos hlt] at hr
      have hlt' : taken < parser.unread.length := hlt
      simp only [hr, hlt', ↓reduceIte, List.map_append, hevents]
      exact ⟨by simp [closing], hp.context, rfl⟩
    · rw [if_neg hlt] at hr
      have hlt' : ¬ taken < parser.unread.length := hlt
      have hmissing : (parser.begun.process true).parser.unfinished? =
          missing? (parser.next true []) := by
        unfold missing? unfinished?
        rw [hp.context]
      simp only [hr, hlt', ↓reduceIte, hmissing]
      cases missing? (parser.next true []) with
      | some fault =>
        simp only [List.map_append, hevents, congrArg Parser.position (hleft hlt)]
        exact ⟨by simp [closing], hp.context, rfl⟩
      | none =>
        simp only [List.map_append, hevents]
        exact ⟨by simp [closing], hp.context, trivial⟩

end Parser

-- ---------------------------------------------------------------------------
-- Sessions that record
-- ---------------------------------------------------------------------------

theorem Log.record_plain {event : Event} (h : event.Plain) (log : Log) :
    record event log = .ok () (log.extend [event]) := by
  cases event with
  | text chunk =>
    cases chunk with
    | utf8 bytes => cases bytes <;> rfl
    | utf16 units => exact absurd rfl (h units)
  | _ => rfl

namespace Session

theorem deliver_record {response : Response} (h : ∀ event ∈ response.events, event.2.Plain)
    (session : Session Log) :
    deliver Log.record response session =
      match response.result with
      | .ok () =>
        .ok () ⟨response.parser, session.receiver.extend (response.events.map (·.2))⟩
      | .error fault =>
        .error fault ⟨response.parser, session.receiver.extend (response.events.map (·.2))⟩ := by
  suffices ∀ (events : List (Parser × Event)) (log : Log), (∀ event ∈ events, event.2.Plain) →
      deliver.go Log.record response events log =
        match response.result with
        | .ok () => .ok () ⟨response.parser, log.extend (events.map (·.2))⟩
        | .error fault => .error fault ⟨response.parser, log.extend (events.map (·.2))⟩ from
    this response.events session.receiver h
  intro events
  induction events with
  | nil =>
    intro log _
    rw [deliver.go]
    cases response.result <;> rfl
  | cons event rest ih =>
    intro log hplain
    rw [deliver.go, Log.record_plain (hplain event List.mem_cons_self)]
    simp only
    rw [ih _ fun e he => hplain e (List.mem_cons_of_mem event he), List.map_cons,
      ← Log.extend_cons log event.2]

variable {options : ReadOptions} {bs : Bytes} {session : Session Log}

/-- A session before any byte of the document, with an empty log. -/
def recording (options : ReadOptions) : Session Log := ⟨.ofOptions options, {}⟩

/-- Reading these bytes as the beginning of a document. -/
def reading (options : ReadOptions) (last : Bool) (bs : Bytes) : Reading Nat :=
  readConstructs last (Parser.ofOptions options).context 0 bs

/-- A session that has told a reading from the start of the document on. -/
structure Told (reading : Reading Nat) (session : Session Log) : Prop where
  context : session.parser.context = reading.context
  events : Log.coalesce session.receiver.events =
    Log.seen (.startDocument :: reading.events.map (·.2))

/-- A session that has read the pieces that came, which these bytes make up, as far as they go. -/
structure Fed (options : ReadOptions) (bs : Bytes) (session : Session Log) : Prop where
  paused : session.parser.Paused
  context : session.parser.context = (reading options false bs).context
  outcome : (reading options false bs).outcome = .ok session.parser.position
  unread : session.parser.unread = bs.drop session.parser.position
  events : Log.coalesce (session.receiver.events ++ session.parser.opening) =
    Log.seen (.startDocument :: (reading options false bs).events.map (·.2))

theorem recording_fed (options : ReadOptions) : Fed options [] (recording options) where
  paused := Parser.ofOptions_paused options
  context := by rw [reading, readConstructs_nil]; rfl
  outcome := by rw [reading, readConstructs_nil]; rfl
  unread := rfl
  events := by rw [reading, readConstructs_nil]; rfl

/-- What is read next goes on from what has been read. -/
theorem Fed.alike (h : Fed options bs session) (last : Bool) (more : Bytes) :
    (reading options last (bs ++ more)).Alike
      ((session.parser.next last more).prepend (reading options false bs).events
        session.parser.position) := by
  have ha := readConstructs_append last (Parser.ofOptions options).context 0 bs more
  rw [← reading, ← reading, Reading.andThen, h.outcome, ← h.context] at ha
  rw [Parser.next, h.unread]
  simpa using ha

theorem Fed.events_extend (h : Fed options bs session) (last : Bool) (more : Bytes)
    (closing : List Event) :
    Log.coalesce (session.receiver.extend (session.parser.opening ++
        (session.parser.next last more).events.map (·.2) ++ closing)).events =
      Log.seen (.startDocument :: (reading options last (bs ++ more)).events.map (·.2) ++
        closing) := by
  have hopening : Log.kept session.parser.opening = session.parser.opening := by
    unfold Parser.opening
    split <;> rfl
  have ha := (h.alike last more).seen
  rw [Reading.seen_prepend] at ha
  calc
    _ = Log.coalesce (session.receiver.events ++ session.parser.opening ++
          Log.kept ((session.parser.next last more).events.map (·.2) ++ closing)) := by
      rw [Log.events_extend, List.append_assoc, Log.kept_append, hopening, List.append_assoc]
    _ = Log.seen (.startDocument :: (reading options false bs).events.map (·.2) ++
          ((session.parser.next last more).events.map (·.2) ++ closing)) := by
      rw [← Log.coalesce_coalesce_append, h.events, Log.seen, Log.coalesce_coalesce_append,
        ← Log.kept_append]
      rfl
    _ = _ := by
      rw [← List.append_assoc]
      refine Log.seen_append_congr ?_ rfl
      exact (Log.seen_append_congr (a := [.startDocument]) rfl ha).symm

theorem reading_append_fault {fault : Error} (h : (reading options false bs).outcome = .error fault)
    (last : Bool) (more : Bytes) :
    (reading options last (bs ++ more)).Alike (reading options false bs) := by
  have ha := readConstructs_append last (Parser.ofOptions options).context 0 bs more
  rwa [← reading, ← reading, Reading.andThen, h] at ha

theorem Told.congr {first second : Reading Nat} (h : Told first session)
    (ha : second.Alike first) : Told second session where
  context := h.context.trans ha.context.symm
  events := h.events.trans (Log.seen_append_congr (a := [.startDocument]) rfl ha.seen.symm)

theorem next_plain (parser : Parser) (last : Bool) (more : Bytes) :
    ∀ event ∈ (parser.next last more).events.map (·.2), event.Plain := by
  rw [List.forall_mem_map]
  exact (readConstructs_sound ..).1

theorem opening_plain (parser : Parser) : ∀ event ∈ parser.opening, event.Plain := by
  unfold Parser.opening
  split <;> simp [Event.Plain]

theorem response_plain {response : Response} {events : List Event}
    (he : response.events.map (·.2) = events) (h : ∀ event ∈ events, event.Plain) :
    ∀ event ∈ response.events, event.2.Plain := by
  rw [← he, List.forall_mem_map] at h
  exact h

theorem feed_eq (h : session.parser.Paused) (piece : Bytes) :
    feed Log.record piece session =
      match (session.parser.feed piece).result with
      | .ok () => .ok () ⟨(session.parser.feed piece).parser, session.receiver.extend
          (session.parser.opening ++ (session.parser.next false piece).events.map (·.2))⟩
      | .error fault => .error fault ⟨(session.parser.feed piece).parser, session.receiver.extend
          (session.parser.opening ++ (session.parser.next false piece).events.map (·.2))⟩ := by
  have he := (h.feed_tells piece).events
  have hplain := response_plain he <| List.forall_mem_append.mpr
    ⟨opening_plain session.parser, next_plain session.parser false piece⟩
  rw [← he]
  exact deliver_record hplain session

theorem Fed.told (h : Fed options bs session) (piece : Bytes) :
    Told (reading options false (bs ++ piece))
      ⟨(session.parser.feed piece).parser, session.receiver.extend
        (session.parser.opening ++ (session.parser.next false piece).events.map (·.2))⟩ where
  context := (h.paused.feed_tells piece).context.trans (h.alike false piece).context.symm
  events := by simpa using h.events_extend false piece []

theorem Fed.feed_ok (h : Fed options bs session) {piece : Bytes} {taken : Nat}
    (hn : (session.parser.next false piece).outcome = .ok taken) :
    ∃ session', feed Log.record piece session = .ok () session' ∧
      Fed options (bs ++ piece) session' ∧ session'.parser.started = true := by
  obtain ⟨hr, hpaused, hstarted, hposition, hunread⟩ := h.paused.feed_ok hn
  have hlen : session.parser.position ≤ bs.length := (readConstructs_sound ..).2 _ h.outcome
  rw [feed_eq h.paused, hr]
  refine ⟨_, rfl, ⟨hpaused, (h.told piece).context, ?_, ?_, ?_⟩, hstarted⟩
  · rw [(h.alike false piece).outcome, Reading.prepend, hn, hposition]
    rfl
  · rw [hunread, hposition, h.unread, ← List.drop_drop, List.drop_append_of_le_length hlen]
  · have hopening : (session.parser.feed piece).parser.opening = [] := if_pos hstarted
    rw [hopening, List.append_nil]
    exact (h.told piece).events

theorem Fed.feed_fault (h : Fed options bs session) {piece : Bytes} {fault : Error}
    (hn : (session.parser.next false piece).outcome = .error fault) :
    ∃ session', feed Log.record piece session = .error fault session' ∧
      (reading options false (bs ++ piece)).outcome = .error fault ∧
      Told (reading options false (bs ++ piece)) session' := by
  rw [feed_eq h.paused, h.paused.feed_fault hn]
  refine ⟨_, rfl, ?_, h.told piece⟩
  rw [(h.alike false piece).outcome, Reading.prepend, hn]
  rfl

-- ---------------------------------------------------------------------------
-- All pieces
-- ---------------------------------------------------------------------------

/-- Takes pieces in order, up to the first fault. -/
def feedAll {σ : Type} (handle : Handler σ) (pieces : List Bytes) :
    EStateM Error (Session σ) Unit :=
  pieces.forM (feed handle)

/-- Takes pieces in order and then the end of the input, up to the first fault. -/
def run {σ : Type} (handle : Handler σ) (pieces : List Bytes) : EStateM Error (Session σ) Unit := do
  feedAll handle pieces
  finish handle

theorem feedAll_cons_ok {piece : Bytes} {rest : List Bytes} {session' : Session Log}
    (h : feed Log.record piece session = .ok () session') :
    feedAll Log.record (piece :: rest) session = feedAll Log.record rest session' :=
  run_forM_cons h

theorem feedAll_cons_fault {piece : Bytes} {rest : List Bytes} {session' : Session Log}
    {fault : Error} (h : feed Log.record piece session = .error fault session') :
    feedAll Log.record (piece :: rest) session = .error fault session' :=
  run_bind_error h

/-- Either all pieces are taken, or the document cannot be read whatever follows. -/
theorem Fed.feedAll (h : Fed options bs session) (pieces : List Bytes) :
    (∃ session', Session.feedAll Log.record pieces session = .ok () session' ∧
        Fed options (bs ++ pieces.flatten) session' ∧
        (session.parser.started = true ∨ pieces ≠ [] → session'.parser.started = true)) ∨
      ∃ fault session', Session.feedAll Log.record pieces session = .error fault session' ∧
        ∀ last, (reading options last (bs ++ pieces.flatten)).outcome = .error fault ∧
          Told (reading options last (bs ++ pieces.flatten)) session' := by
  induction pieces generalizing bs session with
  | nil =>
    refine .inl ⟨session, rfl, ?_, fun hs => hs.resolve_right fun hne => hne rfl⟩
    rwa [List.flatten_nil, List.append_nil]
  | cons piece rest ih =>
    rw [List.flatten_cons, ← List.append_assoc]
    cases hn : (session.parser.next false piece).outcome with
    | ok taken =>
      obtain ⟨next, hfeed, hfed, hstarted⟩ := h.feed_ok hn
      rw [feedAll_cons_ok hfeed]
      rcases ih hfed with ⟨session', hrun, hfed', hs⟩ | hfault
      · exact .inl ⟨session', hrun, hfed', fun _ => hs (.inl hstarted)⟩
      · exact .inr hfault
    | error fault =>
      obtain ⟨session', hfeed, ho, htold⟩ := h.feed_fault hn
      refine .inr ⟨fault, session', feedAll_cons_fault hfeed, fun last => ?_⟩
      have ha := reading_append_fault ho last rest.flatten
      exact ⟨ha.outcome.trans ho, htold.congr ha⟩

/-- What shows of a session and its result, but for the cutting of text. -/
structure View where
  result : Except Error Unit
  events : List Event
  encoding : Option String
  expanded : Nat

def view : EStateM.Result Error (Session Log) Unit → View
  | .ok () session =>
    { result := .ok ()
      events := Log.coalesce session.receiver.events
      encoding := session.parser.context.encoding
      expanded := session.parser.expanded }
  | .error fault session =>
    { result := .error fault
      events := Log.coalesce session.receiver.events
      encoding := session.parser.context.encoding
      expanded := session.parser.expanded }

/-- What is to show of a document of `length` bytes that reads like this. -/
def View.of (reading : Reading Nat) (length : Nat) : View :=
  let result := reading.verdict 0 length
  { result
    events := Log.seen (.startDocument :: reading.events.map (·.2) ++ closing result)
    encoding := reading.context.encoding
    expanded := reading.context.entities.expanded }

theorem Told.view_eq {reading : Reading Nat} (h : Told reading session) {fault : Error}
    (ho : reading.outcome = .error fault) (length : Nat) :
    view (.error fault session) = View.of reading length := by
  have hverdict : reading.verdict 0 length = .error fault := by rw [Reading.verdict, ho]
  simp only [view, View.of, hverdict, closing, List.append_nil, h.events, Parser.expanded,
    h.context]

theorem Fed.view_finish (h : Fed options bs session) :
    view (finish Log.record session) = View.of (reading options true bs) bs.length := by
  have hlen : session.parser.position ≤ bs.length := (readConstructs_sound ..).2 _ h.outcome
  obtain ⟨he, hc, hr⟩ := Parser.finish_spec h.paused.unfinished
  have halike := h.alike true []
  have hevents := h.events_extend true [] (closing ((reading options true bs).verdict 0 bs.length))
  rw [List.append_nil] at halike hevents
  have hverdict : (session.parser.next true []).verdict session.parser.position
      session.parser.unread.length = (reading options true bs).verdict 0 bs.length := by
    rw [halike.verdict, Reading.verdict_prepend _ hlen, Nat.zero_add, h.unread, List.length_drop]
  rw [hverdict] at he hr
  have hplain : ∀ event ∈ session.parser.finish.events, event.2.Plain := by
    refine response_plain he ?_
    simp only [List.forall_mem_append]
    refine ⟨⟨opening_plain session.parser, next_plain session.parser true []⟩, ?_⟩
    cases (reading options true bs).verdict 0 bs.length <;> simp [closing, Event.Plain]
  have hfinish : finish Log.record session =
      deliver Log.record session.parser.finish session := rfl
  rw [hfinish, deliver_record hplain, hr, he]
  unfold View.of
  cases hv : (reading options true bs).verdict 0 bs.length with
  | error fault =>
    rw [hv] at hevents
    simp only [view, hevents, Parser.expanded, hc, halike.context]
    rfl
  | ok _ =>
    rw [hv] at hevents
    simp only [view, hevents, Parser.expanded, hc, halike.context]
    rfl

theorem view_run_eq (options : ReadOptions) (pieces : List Bytes) :
    view (run Log.record pieces (recording options)) =
      View.of (reading options true pieces.flatten) pieces.flatten.length := by
  rcases (recording_fed options).feedAll pieces with
    ⟨session, hfeed, hfed, -⟩ | ⟨fault, session, hfeed, h⟩
  · rw [run, run_bind hfeed]
    exact hfed.view_finish
  · rw [run, run_bind_error hfeed]
    exact (h true).2.view_eq (h true).1 _

theorem feedAll_nil {σ : Type} {handle : Handler σ} {first second : Session σ}
    (h : feedAll handle [] first = .ok () second) : second = first := by
  cases h
  rfl

theorem Fed.events_started (h : Fed options bs session) (hs : session.parser.started = true) :
    Log.coalesce session.receiver.events =
      Log.seen (.startDocument :: (reading options false bs).events.map (·.2)) := by
  have hopening : session.parser.opening = [] := if_pos hs
  rw [← h.events, hopening, List.append_nil]

/-- How a document is cut into pieces does not show, neither at the end nor after all pieces. The
one exception are the events after no piece at all, when the document has not begun. -/
theorem pieces_do_not_show (options : ReadOptions) {p q : List Bytes} (h : p.flatten = q.flatten) :
    view (run Log.record p (recording options)) = view (run Log.record q (recording options)) ∧
      ∀ first, feedAll Log.record p (recording options) = .ok () first →
        ∃ second, feedAll Log.record q (recording options) = .ok () second ∧
          second.parser.position = first.parser.position ∧
          second.parser.depth = first.parser.depth ∧
          ((p = [] ↔ q = []) →
            Log.coalesce second.receiver.events = Log.coalesce first.receiver.events) ∧
          (p = [] → q ≠ [] → Log.coalesce first.receiver.events = [] ∧
            Log.coalesce second.receiver.events = [.startDocument]) := by
  refine ⟨by rw [view_run_eq, view_run_eq, h], fun first hp => ?_⟩
  obtain ⟨first', hp', hfirst, hstarted⟩ | ⟨fault, session, hp', -⟩ :=
    (recording_fed options).feedAll p
  · obtain rfl : first' = first := by
      rw [hp'] at hp
      cases hp
      rfl
    rw [List.nil_append, h] at hfirst
    obtain ⟨second, hq, hsecond, hstarted'⟩ | ⟨fault, session, -, hfault⟩ :=
      (recording_fed options).feedAll q
    · rw [List.nil_append] at hsecond
      refine ⟨second, hq, ?_, ?_, fun hpq => ?_, fun hp0 hq0 => ⟨?_, ?_⟩⟩
      · exact Except.ok.inj (hsecond.outcome.symm.trans hfirst.outcome)
      · rw [Parser.depth, Parser.depth, hsecond.context, hfirst.context]
      · by_cases hp0 : p = []
        · obtain rfl := hp0
          obtain rfl := hpq.mp rfl
          rw [feedAll_nil hq, feedAll_nil hp]
        · rw [hfirst.events_started (hstarted (.inr hp0)),
            hsecond.events_started (hstarted' (.inr fun hq0 => hp0 (hpq.mpr hq0)))]
      · subst hp0
        rw [feedAll_nil hp]
        rfl
      · rw [hsecond.events_started (hstarted' (.inr hq0)), ← h, hp0, List.flatten_nil, reading,
          readConstructs_nil]
        rfl
    · -- A fault of the bytes would have shown in the other pieces, too.
      have ho := (hfault false).1
      rw [List.nil_append, hfirst.outcome] at ho
      cases ho
  · rw [hp'] at hp
    cases hp

theorem cut_comment_does_not_show :
    [ascii "<!--", ascii "c-->"].flatten = [ascii "<!--c-->"].flatten ∧
      view (run Log.record [ascii "<!--", ascii "c-->"] (recording {})) =
        view (run Log.record [ascii "<!--c-->"] (recording {})) ∧
      ∃ first second, feedAll Log.record [ascii "<!--", ascii "c-->"] (recording {}) =
          .ok () first ∧
        feedAll Log.record [ascii "<!--c-->"] (recording {}) = .ok () second ∧
        second.parser.position = first.parser.position ∧
        second.parser.depth = first.parser.depth ∧
        Log.coalesce second.receiver.events = Log.coalesce first.receiver.events := by
  have hflat : [ascii "<!--", ascii "c-->"].flatten = [ascii "<!--c-->"].flatten := by decide
  have hread : (reading {} false [ascii "<!--", ascii "c-->"].flatten).outcome = .ok 8 := by
    rw [reading, readConstructs_eq_resume (by decide)]
    change (Reading.prepend _ 8 (readConstructs false _ _ [])).outcome = _
    rw [readConstructs_nil]
    rfl
  obtain ⟨hview, hfeed⟩ := pieces_do_not_show {} hflat
  obtain ⟨first, hfirst, -⟩ | ⟨fault, session, -, hfault⟩ :=
    (recording_fed {}).feedAll [ascii "<!--", ascii "c-->"]
  · obtain ⟨second, hsecond, hposition, hdepth, hevents, -⟩ := hfeed first hfirst
    exact ⟨hflat, hview, first, second, hfirst, hsecond, hposition, hdepth, hevents (by simp)⟩
  · have ho := (hfault false).1
    rw [List.nil_append, hread] at ho
    cases ho

/-- No piece and an empty piece make up the same bytes, but the empty piece begins the document. -/
theorem no_piece_shows :
    ∃ first second, ([] : List Bytes).flatten = [[]].flatten ∧
      feedAll Log.record [] (recording {}) = .ok () first ∧
      feedAll Log.record [[]] (recording {}) = .ok () second ∧
      Log.coalesce first.receiver.events ≠ Log.coalesce second.receiver.events := by
  have hread : (Parser.next (.ofOptions {}) false []).outcome = .ok 0 := by
    rw [Parser.next, show (Parser.ofOptions {}).unread ++ [] = [] from rfl, readConstructs_nil]
  obtain ⟨second, hfeed, hfed, hstarted⟩ := (recording_fed {}).feed_ok hread
  refine ⟨recording {}, second, rfl, rfl, feedAll_cons_ok hfeed, ?_⟩
  rw [hfed.events_started hstarted, List.nil_append, reading, readConstructs_nil]
  decide

end Session

end XmlStore
