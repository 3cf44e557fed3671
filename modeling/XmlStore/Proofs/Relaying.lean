import XmlStore.Event.Assembly
import XmlStore.Proofs.Packing
import XmlStore.Proofs.Spelling

/-!
# What an assembly passes on

An assembly passes a structural event on in one call, after one call for all the text and one for
each declaration since the structural event before. Events that a document type declaration hides
leave no trace.
-/

namespace XmlStore

-- ---------------------------------------------------------------------------
-- Events and the calls they become
-- ---------------------------------------------------------------------------

namespace Event

/-- The call that a structural event becomes. -/
def call? : Event → Option Call
  | .endDocument => some .endDocument
  | .startElement name attributes => some (.startElement name attributes)
  | .endElement name => some (.endElement name)
  | .comment value => some (.comment value)
  | .instruction target data => some (.instruction (target ++ 0x20 :: data))
  | _ => none

def chunk? : Event → Option Chunk
  | .text chunk => some chunk
  | _ => none

def declared? : Event → Option (Bytes × Bytes)
  | .declareNamespace qualifier uri => some (qualifier, uri)
  | _ => none

/-- Character data and declarations wait. -/
def waits : Event → Bool
  | .text _ | .declareNamespace _ _ => true
  | _ => false

def isElementStart : Event → Bool
  | .startElement _ _ => true
  | _ => false

/-- The events but document type declarations and the comments and instructions in them. -/
def shown : Bool → List Event → List Event
  | _, [] => []
  | _, .startDoctype _ :: rest => shown true rest
  | _, .endDoctype :: rest => shown false rest
  | true, .comment _ :: rest | true, .instruction _ _ :: rest => shown true rest
  | inDoctype, event :: rest => event :: shown inDoctype rest

/-- The calls for what has waited, where `text` is its text. -/
def waitingCalls (waiting : List Event) (text : Bytes) : List Call :=
  (if text.isEmpty then [] else [.text text false]) ++
    (waiting.filterMap declared?).map fun ns => .declareNamespace ns.1 ns.2

/-- The calls that events become after those that wait already. -/
inductive Relayed : List Event → List Event → List Call → Prop
  | done {waiting : List Event} : Relayed waiting [] []
  | waits {waiting rest : List Event} {event : Event} {calls : List Call}
    (hw : event.waits = true) (h : Relayed (waiting ++ [event]) rest calls) :
    Relayed waiting (event :: rest) calls
  | passes {waiting rest : List Event} {event : Event} {call : Call} {text : Bytes}
    {calls : List Call} (hc : event.call? = some call)
    (ht : Chunk.Spell (waiting.filterMap chunk?) text) (h : Relayed [] rest calls) :
    Relayed waiting (event :: rest) (waitingCalls waiting text ++ call :: calls)

/-- The calls for a document, or for no document at all. -/
inductive Transcript (name : Bytes) : List Event → List Call → Prop
  | nothing : Transcript name [] []
  | document {events : List Event} {calls : List Call} (h : Relayed [] events calls) :
    Transcript name (.startDocument :: events) (.startDocument name :: calls)

/-- Events that close the open elements and then the document. Names are not compared. -/
inductive Balanced : Nat → List Event → Prop
  | endDocument : Balanced 0 [.endDocument]
  | startElement {n : Nat} {name : Bytes} {attributes : List Attribute} {rest : List Event}
    (h : Balanced (n + 1) rest) : Balanced n (.startElement name attributes :: rest)
  | endElement {n : Nat} {name : Bytes} {rest : List Event} (h : Balanced n rest) :
    Balanced (n + 1) (.endElement name :: rest)
  | text {n : Nat} {chunk : Chunk} {rest : List Event} (h : Balanced n rest) :
    Balanced n (.text chunk :: rest)
  | comment {n : Nat} {text : Bytes} {rest : List Event} (h : Balanced n rest) :
    Balanced n (.comment text :: rest)
  | instruction {n : Nat} {target data : Bytes} {rest : List Event} (h : Balanced n rest) :
    Balanced n (.instruction target data :: rest)
  | declareNamespace {n : Nat} {qualifier uri : Bytes} {rest : List Event} (h : Balanced n rest) :
    Balanced n (.declareNamespace qualifier uri :: rest)
  | startDoctype {n : Nat} {name : Bytes} {rest : List Event} (h : Balanced n rest) :
    Balanced n (.startDoctype name :: rest)
  | endDoctype {n : Nat} {rest : List Event} (h : Balanced n rest) :
    Balanced n (.endDoctype :: rest)

theorem Balanced.endDocument_mem {n : Nat} {events : List Event} (h : Balanced n events)
    (inDoctype : Bool) : .endDocument ∈ shown inDoctype events := by
  induction h generalizing inDoctype with
  | endDocument => cases inDoctype <;> exact List.mem_singleton_self _
  | startDoctype _ ih => exact ih true
  | endDoctype _ ih => exact ih false
  | comment _ ih =>
    cases inDoctype with
    | true => exact ih true
    | false => exact List.mem_cons_of_mem _ (ih false)
  | instruction _ ih =>
    cases inDoctype with
    | true => exact ih true
    | false => exact List.mem_cons_of_mem _ (ih false)
  | _ _ ih => cases inDoctype <;> exact List.mem_cons_of_mem _ (ih _)

theorem call?_of_waits {event : Event} (h : event.waits = true) : event.call? = none := by
  cases event with
  | text chunk => rfl
  | declareNamespace qualifier uri => rfl
  | _ => cases h

/-- What waits is the beginning of a text as long as a structural event is to come. -/
theorem Relayed.spells {waiting events : List Event} {calls : List Call}
    (h : Relayed waiting events calls) (he : ∃ event ∈ events, event.call?.isSome) :
    ∃ more text, Chunk.Spell ((waiting ++ more).filterMap chunk?) text := by
  induction h with
  | done => simp at he
  | @waits waiting rest event calls hw _ ih =>
    obtain ⟨other, hm, hc⟩ := he
    rcases List.mem_cons.mp hm with rfl | hm
    · rw [call?_of_waits hw] at hc
      cases hc
    · obtain ⟨more, text, ht⟩ := ih ⟨other, hm, hc⟩
      refine ⟨event :: more, text, ?_⟩
      rwa [List.append_cons]
  | @passes waiting rest event call text calls hc ht _ ih =>
    refine ⟨[], text, ?_⟩
    rwa [List.append_nil]

end Event

-- ---------------------------------------------------------------------------
-- Passing on
-- ---------------------------------------------------------------------------

namespace Assembly

open Event

variable {σ : Type} {receive : Receiver σ}

def Willing (receive : Receiver σ) : Prop :=
  ∀ call receiver, ∃ receiver', receive call receiver = .ok () receiver'

theorem Willing.forM (h : Willing receive) (calls : List Call) (receiver : σ) :
    ∃ receiver', calls.forM receive receiver = .ok () receiver' := by
  induction calls generalizing receiver with
  | nil => exact ⟨receiver, rfl⟩
  | cons call rest ih =>
    obtain ⟨next, hnext⟩ := h call receiver
    obtain ⟨last, hlast⟩ := ih next
    exact ⟨last, (run_forM_cons hnext).trans hlast⟩

/-- A receiver does not take all of these calls. -/
def Balks (receive : Receiver σ) (receiver : σ) (calls : List Call) : Prop :=
  ∀ receiver', calls.forM receive receiver ≠ .ok () receiver'

section
variable {calls more : List Call} {receiver next : σ}

theorem Balks.append (h : Balks receive receiver calls) (more : List Call) :
    Balks receive receiver (calls ++ more) := by
  intro last hrun
  obtain ⟨next, hnext, -⟩ := of_run_forM_append hrun
  exact h next hnext

theorem Balks.after (h : Balks receive next more)
    (hrun : calls.forM receive receiver = .ok () next) :
    Balks receive receiver (calls ++ more) := by
  intro last hlast
  rw [run_forM_append hrun] at hlast
  exact h last hlast

end

structure Waits (state : Assembly σ) (waiting : List Event) : Prop where
  text : (waiting.filterMap chunk?).forM TextRun.push {} = .ok () state.text
  namespaces : state.namespaces = waiting.filterMap declared?

variable {state state' : Assembly σ} {waiting : List Event} {receiver : σ}

theorem send_run {call : Call} (h : receive call state.receiver = .ok () receiver) :
    send receive call state = .ok () { state with receiver } := by
  rw [send, h]

theorem send_spec (call : Call) :
    Triple (send receive call) state
      (fun _ state' => ∃ receiver, [call].forM receive state.receiver = .ok () receiver ∧
        state' = { state with receiver })
      fun _ _ => Balks receive state.receiver [call] := by
  unfold Triple send
  cases hr : receive call state.receiver with
  | ok _ receiver => exact ⟨receiver, run_forM_cons hr, rfl⟩
  | error fault receiver =>
    intro receiver' hrun
    obtain ⟨next, hnext, -⟩ := of_run_forM_cons hrun
    cases hr.symm.trans hnext

theorem forM_send_spec {α : Type} (items : List α) (call : α → Call) :
    Triple (items.forM fun item => send receive (call item)) state
      (fun _ state' => ∃ receiver,
        (items.map call).forM receive state.receiver = .ok () receiver ∧
        state' = { state with receiver })
      fun _ _ => Balks receive state.receiver (items.map call) := by
  induction items generalizing state with
  | nil => exact .pure ⟨state.receiver, rfl, rfl⟩
  | cons item rest ih =>
    refine .bind ((send_spec (call item)).mono (fun _ _ hp => hp) fun _ _ hb => hb.append _) ?_
    rintro _ _ ⟨next, hnext, rfl⟩
    refine ih.mono ?_ fun _ _ hb => hb.after hnext
    rintro _ _ ⟨last, hlast, rfl⟩
    exact ⟨last, (run_forM_append hnext).trans hlast, rfl⟩

/-- What waits cannot be passed on: it ends inside a character, or its calls are not all taken. -/
def Stuck (receive : Receiver σ) (state : Assembly σ) (waiting : List Event) : Prop :=
  state.text.held ≠ .nothing ∨ ∃ text, Chunk.Spell (waiting.filterMap chunk?) text ∧
    Balks receive state.receiver (waitingCalls waiting text)

theorem flushText_spec (hw : Waits state waiting) :
    Triple (flushText receive) state
      (fun _ state' => ∃ text receiver, Chunk.Spell (waiting.filterMap chunk?) text ∧
        (if text.isEmpty then [] else [Call.text text false]).forM receive state.receiver =
          .ok () receiver ∧
        state' = { state with receiver, text := {} })
      fun _ _ => Stuck receive state waiting := by
  unfold flushText
  refine .step rfl ?_
  have hspell : state.text.held = .nothing →
      Chunk.Spell (waiting.filterMap chunk?) state.text.text :=
    fun hh => Chunk.spell_iff.mpr ⟨_, hw.text, hh, rfl⟩
  cases he : state.text.isEmpty with
  | true =>
    have hempty := TextRun.eq_empty he
    rw [hempty] at hspell
    simp only [he, ↓reduceIte]
    exact .pure ⟨[], state.receiver, hspell rfl, rfl, by rw [← hempty]⟩
  | false =>
    simp only [he, Bool.false_eq_true, ↓reduceIte]
    cases hh : state.text.held with
    | bytes lead following =>
      simp only [TextRun.ensureComplete, hh]
      exact .throw (.inl (by rw [hh]; exact HeldBack.noConfusion))
    | surrogate high =>
      simp only [TextRun.ensureComplete, hh]
      exact .throw (.inl (by rw [hh]; exact HeldBack.noConfusion))
    | nothing =>
      have hne : state.text.text.isEmpty = false := by
        rw [TextRun.isEmpty, hh] at he
        simpa [TextRun.text] using he
      simp only [TextRun.ensureComplete, hh]
      refine .bind ((send_spec _).mono (fun _ _ hp => hp) fun _ _ hb => ?_) ?_
      · refine .inr ⟨state.text.text, hspell hh, ?_⟩
        rw [waitingCalls, hne]
        exact hb.append _
      · rintro _ _ ⟨receiver, hrun, rfl⟩
        refine .of_run rfl ⟨state.text.text, receiver, hspell hh, ?_, rfl⟩
        rw [hne]
        exact hrun

theorem flush_spec (hw : Waits state waiting) :
    Triple (flush receive) state
      (fun _ state' => ∃ text receiver, Chunk.Spell (waiting.filterMap chunk?) text ∧
        (waitingCalls waiting text).forM receive state.receiver = .ok () receiver ∧
        state' = { state with receiver, text := {}, namespaces := [] })
      fun _ _ => Stuck receive state waiting := by
  unfold flush
  refine (flushText_spec hw).bind ?_
  rintro _ _ ⟨text, receiver1, hspell, hrun, rfl⟩
  unfold flushNamespaces
  refine .step rfl (.step rfl ?_)
  simp only [hw.namespaces]
  refine (forM_send_spec _ _).mono ?_ fun _ _ hb => .inr ⟨text, hspell, hb.after hrun⟩
  rintro _ _ ⟨receiver2, hrun', rfl⟩
  exact ⟨text, receiver2, hspell, (run_forM_append hrun).trans hrun', rfl⟩

-- ---------------------------------------------------------------------------
-- One event
-- ---------------------------------------------------------------------------

def depthAfter (depth : Nat) : Event → Nat
  | .startElement _ _ => depth + 1
  | .endElement _ => depth - 1
  | _ => depth

/-- What becomes of an event that is taken: it is hidden, it waits, or it is passed on. -/
inductive Outcome (receive : Receiver σ) (state state' : Assembly σ) (waiting : List Event)
    (event : Event) : Prop
  | hidden
    (hv : ∀ rest, shown state.inDoctype (event :: rest) = shown state'.inDoctype rest)
    (hw : Waits state' waiting) (hr : state'.receiver = state.receiver)
  | waits
    (hv : ∀ rest, shown state.inDoctype (event :: rest) = event :: shown state'.inDoctype rest)
    (he : event.waits = true) (hw : Waits state' (waiting ++ [event]))
    (hr : state'.receiver = state.receiver)
  | passes {call : Call} {text : Bytes}
    (hv : ∀ rest, shown state.inDoctype (event :: rest) = event :: shown state'.inDoctype rest)
    (hc : event.call? = some call) (ht : Chunk.Spell (waiting.filterMap chunk?) text)
    (hw : Waits state' [])
    (hr : (waitingCalls waiting text ++ [call]).forM receive state.receiver =
      .ok () state'.receiver)

structure Taken (receive : Receiver σ) (state state' : Assembly σ) (waiting : List Event)
    (event : Event) : Prop where
  started : state'.started = true
  ended : state'.ended = true → state.ended = true ∨ event = .endDocument
  depth : state'.depth = depthAfter state.depth event
  elements : state'.elements = state.elements + if event.isElementStart then 1 else 0
  outcome : Outcome receive state state' waiting event

/-- Why an event after the start of the document is refused. -/
inductive Refused (receive : Receiver σ) (state : Assembly σ) (waiting : List Event) :
    Event → Prop
  | startDocument : Refused receive state waiting .startDocument
  | ended {event : Event} (h : state.ended = true) : Refused receive state waiting event
  | openElements (h : state.depth ≠ 0) : Refused receive state waiting .endDocument
  | unmatched {name : Bytes} (h : state.depth = 0) :
    Refused receive state waiting (.endElement name)
  | text {chunk : Chunk} (h : ∀ run, TextRun.push chunk state.text ≠ .ok () run) :
    Refused receive state waiting (.text chunk)
  | cutOff {event : Event}
    (hv : ∀ rest, shown state.inDoctype (event :: rest) = event :: shown state.inDoctype rest)
    (hc : event.call?.isSome) (h : state.text.held ≠ .nothing) :
    Refused receive state waiting event
  | balks {event : Event} {call : Call} {text : Bytes}
    (hv : ∀ rest, shown state.inDoctype (event :: rest) = event :: shown state.inDoctype rest)
    (hc : event.call? = some call) (ht : Chunk.Spell (waiting.filterMap chunk?) text)
    (h : Balks receive state.receiver (waitingCalls waiting text ++ [call])) :
    Refused receive state waiting event

theorem Stuck.refused (h : Stuck receive state waiting) {event : Event} {call : Call}
    (hv : ∀ rest, shown state.inDoctype (event :: rest) = event :: shown state.inDoctype rest)
    (hc : event.call? = some call) : Refused receive state waiting event := by
  rcases h with h | ⟨text, ht, h⟩
  · exact .cutOff hv (by rw [hc]; rfl) h
  · exact .balks hv hc ht (h.append _)

theorem ensureOpen_spec (hs : state.started = true) (kind : EventKind) :
    Triple (ensureOpen kind) state (fun _ state' => state' = state ∧ state.ended = false)
      fun _ _ => state.ended = true := by
  unfold ensureOpen
  refine .step rfl ?_
  rw [hs]
  cases he : state.ended with
  | true => exact .throw rfl
  | false => exact .pure ⟨rfl, rfl⟩

theorem waits_nil (state : Assembly σ) (ht : state.text = {}) (hn : state.namespaces = []) :
    Waits state [] := ⟨congrArg (EStateM.Result.ok ()) ht.symm, hn⟩

theorem Waits.append_text (h : Waits state waiting) {chunk : Chunk} {run : TextRun}
    (hp : TextRun.push chunk state.text = .ok () run) :
    Waits { state with text := run } (waiting ++ [.text chunk]) where
  text := by
    rw [List.filterMap_append]
    exact (run_forM_append h.text).trans (run_forM_cons hp)
  namespaces := by
    rw [List.filterMap_append]
    exact h.namespaces.trans (List.append_nil _).symm

theorem Waits.append_declaration (h : Waits state waiting) (qualifier uri : Bytes) :
    Waits { state with namespaces := state.namespaces ++ [(qualifier, uri)] }
      (waiting ++ [.declareNamespace qualifier uri]) where
  text := by
    rw [List.filterMap_append]
    exact (run_forM_append h.text).trans rfl
  namespaces := by
    rw [List.filterMap_append, h.namespaces]
    rfl

theorem leaf_spec (hs : state.started = true) (hw : Waits state waiting)
    {kind : EventKind} {event : Event} {call : Call} (hc : event.call? = some call)
    (hd : ∀ depth, depthAfter depth event = depth) (hn : event.isElementStart = false)
    (hv : ∀ rest, shown true (event :: rest) = shown true rest ∧
      shown false (event :: rest) = event :: shown false rest) :
    Triple (leaf receive kind call) state
      (fun _ state' => Taken receive state state' waiting event)
      fun _ _ => Refused receive state waiting event := by
  unfold leaf
  refine .step rfl ?_
  cases hdoctype : state.inDoctype with
  | true =>
    refine .pure ⟨hs, .inl, (hd _).symm, by rw [hn]; rfl, .hidden ?_ hw rfl⟩
    rw [hdoctype]
    exact fun rest => (hv rest).1
  | false =>
    refine .bind ((ensureOpen_spec hs _).mono (fun _ _ hp => hp) fun _ _ hf => .ended hf) ?_
    rintro _ state ⟨rfl, he⟩
    have hshown : ∀ rest, shown state.inDoctype (event :: rest) =
        event :: shown state.inDoctype rest := by
      rw [hdoctype]
      exact fun rest => (hv rest).2
    refine .bind ((flush_spec hw).mono (fun _ _ hp => hp) fun _ _ hf => hf.refused hshown hc) ?_
    rintro _ _ ⟨text, receiver1, hspell, hrun, rfl⟩
    refine (send_spec call).mono ?_ fun _ _ hb => .balks hshown hc hspell (hb.after hrun)
    rintro _ _ ⟨receiver2, hcall, rfl⟩
    refine ⟨hs, .inl, (hd _).symm, by rw [hn]; rfl, ?_⟩
    exact .passes hshown hc hspell (waits_nil _ rfl rfl) ((run_forM_append hrun).trans hcall)

theorem handle_spec (hs : state.started = true) (hw : Waits state waiting) (event : Event) :
    Triple (handle receive event) state
      (fun _ state' => Taken receive state state' waiting event)
      fun _ _ => Refused receive state waiting event := by
  have hopen : ∀ kind, Triple (ensureOpen kind) state
      (fun _ state' => state' = state ∧ state.ended = false)
      fun _ _ => Refused receive state waiting event :=
    fun kind => (ensureOpen_spec hs kind).mono (fun _ _ hp => hp) fun _ _ hf => .ended hf
  cases event with
  | startDocument =>
    unfold handle startDocument
    refine .step rfl ?_
    rw [hs]
    exact .throw .startDocument
  | endDocument =>
    unfold handle endDocument
    refine (hopen _).bind ?_
    rintro _ state ⟨rfl, he⟩
    have hshown : ∀ rest, shown state.inDoctype (.endDocument :: rest) =
        .endDocument :: shown state.inDoctype rest := by
      cases state.inDoctype <;> exact fun _ => rfl
    refine .step rfl ?_
    by_cases hd : state.depth = 0
    · rw [if_neg (not_not_intro hd)]
      refine .bind ((flush_spec hw).mono (fun _ _ hp => hp) fun _ _ hf => hf.refused hshown rfl) ?_
      rintro _ _ ⟨text, receiver1, hspell, hrun, rfl⟩
      refine .bind ((send_spec _).mono (fun _ _ hp => hp)
        fun _ _ hb => .balks hshown rfl hspell (hb.after hrun)) ?_
      rintro _ _ ⟨receiver2, hcall, rfl⟩
      refine .of_run rfl ⟨hs, fun _ => .inr rfl, rfl, rfl, ?_⟩
      exact .passes hshown rfl hspell (waits_nil _ rfl rfl) ((run_forM_append hrun).trans hcall)
    · rw [if_pos hd]
      exact .throw (.openElements hd)
  | startElement name attributes =>
    unfold handle startElement
    refine (hopen _).bind ?_
    rintro _ state ⟨rfl, he⟩
    have hshown : ∀ rest, shown state.inDoctype (.startElement name attributes :: rest) =
        .startElement name attributes :: shown state.inDoctype rest := by
      cases state.inDoctype <;> exact fun _ => rfl
    refine .bind ((flush_spec hw).mono (fun _ _ hp => hp) fun _ _ hf => hf.refused hshown rfl) ?_
    rintro _ _ ⟨text, receiver1, hspell, hrun, rfl⟩
    simp only [PackedAttributes.toList_ofList]
    refine .step rfl (.bind ((send_spec _).mono (fun _ _ hp => hp)
      fun _ _ hb => .balks hshown rfl hspell (hb.after hrun)) ?_)
    rintro _ _ ⟨receiver2, hcall, rfl⟩
    refine .of_run rfl ⟨hs, .inl, rfl, rfl, ?_⟩
    exact .passes hshown rfl hspell (waits_nil _ rfl rfl) ((run_forM_append hrun).trans hcall)
  | endElement name =>
    unfold handle endElement
    refine (hopen _).bind ?_
    rintro _ state ⟨rfl, he⟩
    have hshown : ∀ rest, shown state.inDoctype (.endElement name :: rest) =
        .endElement name :: shown state.inDoctype rest := by
      cases state.inDoctype <;> exact fun _ => rfl
    refine .step rfl ?_
    by_cases hd : state.depth = 0
    · rw [if_pos hd]
      exact .throw (.unmatched hd)
    · rw [if_neg hd]
      refine .bind ((flush_spec hw).mono (fun _ _ hp => hp) fun _ _ hf => hf.refused hshown rfl) ?_
      rintro _ _ ⟨text, receiver1, hspell, hrun, rfl⟩
      refine .bind ((send_spec _).mono (fun _ _ hp => hp)
        fun _ _ hb => .balks hshown rfl hspell (hb.after hrun)) ?_
      rintro _ _ ⟨receiver2, hcall, rfl⟩
      refine .of_run rfl ⟨hs, .inl, rfl, rfl, ?_⟩
      exact .passes hshown rfl hspell (waits_nil _ rfl rfl) ((run_forM_append hrun).trans hcall)
  | text chunk =>
    unfold handle addText
    refine (hopen _).bind ?_
    rintro _ state ⟨rfl, he⟩
    unfold Triple
    cases hp : TextRun.push chunk state.text with
    | ok _ run =>
      simp only [hp]
      refine ⟨hs, .inl, rfl, rfl, ?_⟩
      refine .waits ?_ rfl (hw.append_text hp) rfl
      intro rest
      cases state.inDoctype <;> rfl
    | error fault run =>
      simp only [hp]
      refine .text fun run' hok => ?_
      cases hp.symm.trans hok
  | comment text =>
    exact leaf_spec hs hw rfl (fun _ => rfl) rfl fun rest => ⟨rfl, rfl⟩
  | instruction target data =>
    exact leaf_spec hs hw rfl (fun _ => rfl) rfl fun rest => ⟨rfl, rfl⟩
  | declareNamespace qualifier uri =>
    unfold handle declareNamespace
    refine (hopen _).bind ?_
    rintro _ state ⟨rfl, he⟩
    refine .of_run rfl ⟨hs, .inl, rfl, rfl, ?_⟩
    refine .waits ?_ rfl (hw.append_declaration qualifier uri) rfl
    intro rest
    cases state.inDoctype <;> rfl
  | startDoctype name =>
    exact .of_run rfl ⟨hs, .inl, rfl, rfl, .hidden (fun _ => rfl) ⟨hw.text, hw.namespaces⟩ rfl⟩
  | endDoctype =>
    exact .of_run rfl ⟨hs, .inl, rfl, rfl, .hidden (fun _ => rfl) ⟨hw.text, hw.namespaces⟩ rfl⟩

-- ---------------------------------------------------------------------------
-- All events
-- ---------------------------------------------------------------------------

theorem relayed_of_run {events : List Event} {final : Assembly σ}
    (hs : state.started = true) (hw : Waits state waiting)
    (h : events.forM (handle receive) state = .ok () final) :
    ∃ calls, Relayed waiting (shown state.inDoctype events) calls ∧
      calls.forM receive state.receiver = .ok () final.receiver ∧
      final.elements = state.elements + events.countP isElementStart := by
  induction events generalizing state waiting with
  | nil =>
    cases h
    exact ⟨[], .done, rfl, rfl⟩
  | cons event rest ih =>
    obtain ⟨next, hnext, hrest⟩ := of_run_forM_cons h
    have ht := (handle_spec hs hw event).run_ok hnext
    have hcount : final.elements = next.elements + rest.countP isElementStart →
        final.elements = state.elements + (event :: rest).countP isElementStart := by
      rw [List.countP_cons, ht.elements]
      omega
    cases ht.outcome with
    | hidden hv hw' hsame =>
      obtain ⟨calls, hrel, hrun, helements⟩ := ih ht.started hw' hrest
      rw [hv, ← hsame]
      exact ⟨calls, hrel, hrun, hcount helements⟩
    | waits hv he hw' hsame =>
      obtain ⟨calls, hrel, hrun, helements⟩ := ih ht.started hw' hrest
      rw [hv, ← hsame]
      exact ⟨calls, .waits he hrel, hrun, hcount helements⟩
    | passes hv hc hspell hw' hpass =>
      obtain ⟨calls, hrel, hrun, helements⟩ := ih ht.started hw' hrest
      rw [hv]
      refine ⟨_, .passes hc hspell hrel, ?_, hcount helements⟩
      rw [List.append_cons]
      exact (run_forM_append hpass).trans hrun

theorem Balanced.next {n : Nat} {event : Event} {rest : List Event}
    (h : Balanced n (event :: rest)) :
    event = .endDocument ∧ rest = [] ∨
      event ≠ .endDocument ∧ Balanced (depthAfter n event) rest := by
  cases h with
  | endDocument => exact .inl ⟨rfl, rfl⟩
  | _ h => exact .inr ⟨Event.noConfusion, h⟩

theorem Relayed.of_waits {event : Event} {rest : List Event} {calls : List Call}
    (h : Relayed waiting (event :: rest) calls) (he : event.waits = true) :
    Relayed (waiting ++ [event]) rest calls := by
  cases h with
  | waits _ h => exact h
  | passes hc =>
    rw [call?_of_waits he] at hc
    cases hc

theorem Relayed.of_passes {event : Event} {rest : List Event} {call : Call} {calls : List Call}
    (h : Relayed waiting (event :: rest) calls) (he : event.call? = some call) :
    ∃ text more, calls = waitingCalls waiting text ++ call :: more ∧
      Chunk.Spell (waiting.filterMap chunk?) text ∧ Relayed [] rest more := by
  cases h with
  | waits hw =>
    rw [call?_of_waits hw] at he
    cases he
  | passes hc ht h =>
    cases hc.symm.trans he
    exact ⟨_, _, rfl, ht, h⟩

theorem not_refused {event : Event} {rest : List Event} {calls : List Call}
    (hb : Balanced state.depth (event :: rest)) (he : state.ended = false)
    (hw : Waits state waiting) (h : Relayed waiting (shown state.inDoctype (event :: rest)) calls)
    (hr : calls.forM receive state.receiver = .ok () receiver) :
    ¬ Refused receive state waiting event := by
  intro hf
  cases hf with
  | startDocument =>
    generalize state.depth = n at hb
    cases hb
  | ended hended => cases he.symm.trans hended
  | openElements hd =>
    generalize state.depth = n at hb hd
    cases hb
    exact hd rfl
  | unmatched hd =>
    rw [hd] at hb
    cases hb
  | @text chunk hno =>
    have hv : shown state.inDoctype (.text chunk :: rest) =
        .text chunk :: shown state.inDoctype rest := by
      cases state.inDoctype <;> rfl
    rw [hv] at h
    have hlast : ∃ event ∈ shown state.inDoctype rest, event.call?.isSome := by
      rcases Balanced.next hb with ⟨hend, -⟩ | ⟨-, hb⟩
      · cases hend
      · exact ⟨_, hb.endDocument_mem _, rfl⟩
    obtain ⟨more, text, hspell⟩ := (Relayed.of_waits h rfl).spells hlast
    obtain ⟨run, hrun, -⟩ := Chunk.spell_iff.mp hspell
    rw [List.append_assoc, List.filterMap_append, run_forM_append hw.text] at hrun
    obtain ⟨next, hnext, -⟩ := of_run_forM_cons hrun
    exact hno next hnext
  | cutOff hv hc hheld =>
    rw [hv] at h
    obtain ⟨call, hc⟩ := Option.isSome_iff_exists.mp hc
    obtain ⟨text, -, -, hspell, -⟩ := Relayed.of_passes h hc
    obtain ⟨run, hrun, hnothing, -⟩ := Chunk.spell_iff.mp hspell
    rw [hw.text] at hrun
    cases hrun
    exact hheld hnothing
  | balks hv hc ht hno =>
    rw [hv] at h
    obtain ⟨text, more, rfl, hspell, -⟩ := Relayed.of_passes h hc
    obtain rfl := ht.unique hspell
    rw [List.append_cons] at hr
    obtain ⟨next, hnext, -⟩ := of_run_forM_append hr
    exact hno next hnext

/-- Events that close all elements and the document are taken if all their texts are spelled and
all their calls are taken. -/
theorem run_of_relayed {events : List Event} {calls : List Call}
    (hb : Balanced state.depth events) (hs : state.started = true) (he : state.ended = false)
    (hw : Waits state waiting) (h : Relayed waiting (shown state.inDoctype events) calls)
    (hr : calls.forM receive state.receiver = .ok () receiver) :
    ∃ final, events.forM (handle receive) state = .ok () final ∧ final.receiver = receiver := by
  induction events generalizing state waiting calls with
  | nil =>
    cases h
    cases hr
    exact ⟨state, rfl, rfl⟩
  | cons event rest ih =>
    obtain ⟨⟨⟩, next, hnext, ht⟩ :=
      (handle_spec hs hw event).succeeds fun _ _ => not_refused hb he hw h hr
    have hgo : ∃ waiting calls, Waits next waiting ∧
        Relayed waiting (shown next.inDoctype rest) calls ∧
        calls.forM receive next.receiver = .ok () receiver := by
      cases ht.outcome with
      | hidden hv hw' hsame =>
        rw [hv] at h
        exact ⟨waiting, calls, hw', h, hsame ▸ hr⟩
      | waits hv hev hw' hsame =>
        rw [hv] at h
        exact ⟨_, calls, hw', Relayed.of_waits h hev, hsame ▸ hr⟩
      | passes hv hc ht hw' hpass =>
        rw [hv] at h
        obtain ⟨text, more, rfl, hspell, hrel⟩ := Relayed.of_passes h hc
        obtain rfl := ht.unique hspell
        rw [List.append_cons, run_forM_append hpass] at hr
        exact ⟨[], more, hw', hrel, hr⟩
    obtain ⟨waiting', calls', hw', hrel, hr'⟩ := hgo
    rcases Balanced.next hb with ⟨rfl, rfl⟩ | ⟨hne, hb⟩
    · cases hrel
      cases hr'
      exact ⟨next, run_forM_cons hnext, rfl⟩
    · have hopen : next.ended = false := by
        rw [← Bool.not_eq_true]
        intro hended
        rcases ht.ended hended with hended | hend
        · cases he.symm.trans hended
        · exact hne hend
      rw [← ht.depth] at hb
      obtain ⟨final, hfinal, hreceiver⟩ := ih hb ht.started hopen hw' hrel hr'
      exact ⟨final, (run_forM_cons hnext).trans hfinal, hreceiver⟩

theorem startDocument_spec (hs : state.started = false) :
    Triple (handle receive .startDocument) state
      (fun _ state' => ∃ receiver,
        [.startDocument state.name].forM receive state.receiver = .ok () receiver ∧
        state' = { state with started := true, receiver })
      fun _ _ => True := by
  unfold handle startDocument
  refine .step rfl ?_
  rw [hs]
  exact .step rfl ((send_spec _).mono (fun _ _ hp => hp) fun _ _ _ => trivial)

theorem startDocument_run (hs : state.started = false)
    (h : receive (.startDocument state.name) state.receiver = .ok () receiver) :
    handle receive .startDocument state = .ok () { state with started := true, receiver } := by
  show startDocument receive state = _
  unfold startDocument
  rw [run_get_bind, hs]
  have hsend : send receive (.startDocument state.name) { state with started := true } =
      .ok () { state with started := true, receiver } := send_run h
  exact hsend

/-- An event before the start of the document that leaves no trace. -/
def Unseen (state state' : Assembly σ) (event : Event) : Prop :=
  event.isElementStart = false ∧ ∃ inDoctype, state' = { state with inDoctype } ∧
    ∀ rest, shown state.inDoctype (event :: rest) = shown inDoctype rest

theorem ensureOpen_unstarted (hs : state.started = false) (kind : EventKind) :
    Triple (ensureOpen kind) state (fun _ _ => False) fun _ _ => True := by
  unfold ensureOpen
  refine .step rfl ?_
  rw [hs]
  exact .throw trivial

theorem leaf_unstarted (hs : state.started = false) {kind : EventKind} {event : Event}
    {call : Call} (hn : event.isElementStart = false)
    (hv : ∀ rest, shown true (event :: rest) = shown true rest) :
    Triple (leaf receive kind call) state (fun _ state' => Unseen state state' event)
      fun _ _ => True := by
  unfold leaf
  refine .step rfl ?_
  cases hd : state.inDoctype with
  | true =>
    refine .pure ⟨hn, true, by rw [← hd], ?_⟩
    rw [hd]
    exact hv
  | false => exact (ensureOpen_unstarted hs kind).bind fun _ _ hf => hf.elim

/-- Before the start of the document nothing else than the start is passed on. -/
theorem unstarted_spec (hs : state.started = false) {event : Event}
    (hne : event ≠ .startDocument) :
    Triple (handle receive event) state (fun _ state' => Unseen state state' event)
      fun _ _ => True := by
  cases event with
  | startDocument => exact absurd rfl hne
  | comment text => exact leaf_unstarted hs rfl fun _ => rfl
  | instruction target data => exact leaf_unstarted hs rfl fun _ => rfl
  | startDoctype name => exact .of_run rfl ⟨rfl, true, rfl, fun _ => rfl⟩
  | endDoctype => exact .of_run rfl ⟨rfl, false, rfl, fun _ => rfl⟩
  | _ => exact (ensureOpen_unstarted hs _).bind fun _ _ hf => hf.elim

theorem transcript_of_run {events : List Event} {final : Assembly σ}
    (hs : state.started = false) (hw : Waits state [])
    (h : events.forM (handle receive) state = .ok () final) :
    ∃ calls, Transcript state.name (shown state.inDoctype events) calls ∧
      calls.forM receive state.receiver = .ok () final.receiver ∧
      final.elements = state.elements + events.countP isElementStart := by
  induction events generalizing state with
  | nil =>
    cases h
    exact ⟨[], .nothing, rfl, rfl⟩
  | cons event rest ih =>
    obtain ⟨next, hnext, hrest⟩ := of_run_forM_cons h
    by_cases hstart : event = .startDocument
    · subst hstart
      obtain ⟨receiver, hcall, rfl⟩ := (startDocument_spec hs).run_ok hnext
      have hw' : Waits { state with started := true, receiver } [] := ⟨hw.text, hw.namespaces⟩
      obtain ⟨calls, hrel, hrun, helements⟩ := relayed_of_run rfl hw' hrest
      have hv : shown state.inDoctype (.startDocument :: rest) =
          .startDocument :: shown state.inDoctype rest := by
        cases state.inDoctype <;> rfl
      rw [hv]
      refine ⟨_, .document hrel, (run_forM_append hcall).trans hrun, ?_⟩
      rw [helements, List.countP_cons_of_neg (by decide)]
    · obtain ⟨hcount, inDoctype, rfl, hv⟩ := (unstarted_spec hs hstart).run_ok hnext
      have hs' : Assembly.started { state with inDoctype } = false := hs
      have hw' : Waits { state with inDoctype } [] := ⟨hw.text, hw.namespaces⟩
      obtain ⟨calls, htrans, hrun, helements⟩ := ih hs' hw' hrest
      rw [hv]
      refine ⟨calls, htrans, hrun, ?_⟩
      rw [helements, List.countP_cons_of_neg (by rw [hcount]; exact Bool.false_ne_true)]

/-- The calls of events that are taken are their transcript, and a balanced document whose texts
are spelled is taken. -/
theorem relays_transcript (hr : Willing receive) (receiver : σ) (name : Bytes) :
    (∀ (events : List Event) (final : Assembly σ),
      events.forM (handle receive) { receiver, name } = .ok () final →
      ∃ calls, Transcript name (shown false events) calls ∧
        calls.forM receive receiver = .ok () final.receiver ∧
        final.elements = events.countP isElementStart) ∧
      ∀ (events : List Event) (calls : List Call), Balanced 0 events →
        Transcript name (shown false (.startDocument :: events)) calls →
        ∃ final, (.startDocument :: events).forM (handle receive) { receiver, name } =
          .ok () final := by
  constructor
  · intro events final h
    obtain ⟨calls, htrans, hrun, helements⟩ :=
      transcript_of_run rfl ⟨rfl, rfl⟩ h
    exact ⟨calls, htrans, hrun, helements.trans (Nat.zero_add _)⟩
  · intro events calls hb ht
    obtain ⟨receiver', hcall⟩ := hr (.startDocument name) receiver
    cases ht with
    | document hrel =>
      have hw : Waits { receiver := receiver', name, started := true } [] := ⟨rfl, rfl⟩
      obtain ⟨last, hlast⟩ := hr.forM _ receiver'
      obtain ⟨final, hfinal, -⟩ := run_of_relayed hb rfl rfl hw hrel hlast
      exact ⟨final, (run_forM_cons (startDocument_run rfl hcall)).trans hfinal⟩

def collect : Receiver (List Call) := fun call calls => .ok () (calls ++ [call])

/-- Without a start of the document there is no call at all. -/
theorem doctype_alone_starts_nothing :
    ¬ ∀ (events : List Event) (final : Assembly (List Call)),
      events.forM (handle collect) { receiver := [], name := ascii "doc" } = .ok () final →
        final.receiver.head? = some (.startDocument (ascii "doc")) := by
  intro h
  cases h [.startDoctype (ascii "d")] _ rfl

/-- A character that is cut by a document type declaration, and a declaration after it. -/
def cutCharacter : List Event :=
  [.startElement (ascii "a") [], .text (.utf8 [0xC3]), .startDoctype (ascii "d"),
    .comment (ascii "c"), .endDoctype, .declareNamespace (ascii "p") (ascii "u"),
    .text (.utf8 [0xA9]), .endElement (ascii "a"), .endDocument]

theorem relays_cut_character :
    Willing collect ∧ Balanced 0 cutCharacter ∧
      Transcript (ascii "doc") (shown false (.startDocument :: cutCharacter))
        [.startDocument (ascii "doc"), .startElement (ascii "a") [], .text [0xC3, 0xA9] false,
          .declareNamespace (ascii "p") (ascii "u"), .endElement (ascii "a"), .endDocument] ∧
      ∃ final, (.startDocument :: cutCharacter).forM (handle collect)
          { receiver := [], name := ascii "doc" } = .ok () final ∧
        ∃ calls, Transcript (ascii "doc") (shown false (.startDocument :: cutCharacter)) calls ∧
          calls.forM collect [] = .ok () final.receiver ∧ final.elements = 1 := by
  have hr : Willing collect := fun call calls => ⟨calls ++ [call], rfl⟩
  have hb : Balanced 0 cutCharacter :=
    .startElement (.text (.startDoctype (.comment (.endDoctype (.declareNamespace
      (.text (.endElement .endDocument)))))))
  have hnone : Chunk.Spell [] [] := .nil
  have hcut : Chunk.Spell [.utf8 [0xC3], .utf8 [0xA9]] [0xC3, 0xA9] := by
    have hv : Utf8.isValid (List.flatten [[0xC3], [0xA9]]) = true :=
      Utf8.isValid_cons_iff.mpr ⟨1, by decide, Utf8.isValid_nil⟩
    exact .utf8 hv .nil
  have ht : Transcript (ascii "doc") (shown false (.startDocument :: cutCharacter)) _ :=
    .document (.passes rfl hnone (.waits rfl (.waits rfl (.waits rfl (.passes rfl hcut
      (.passes rfl hnone .done))))))
  obtain ⟨final, hfinal⟩ := (relays_transcript hr [] (ascii "doc")).2 cutCharacter _ hb ht
  exact ⟨hr, hb, ht, final, hfinal, (relays_transcript hr [] (ascii "doc")).1 _ final hfinal⟩

end Assembly

end XmlStore
