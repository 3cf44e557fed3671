import XmlStore.Event.Assembly
import XmlStore.Proofs.CodePoints
import XmlStore.Proofs.Coalescing
import XmlStore.Proofs.Relaying

/-!
# Recorded events sent on

A log decodes each chunk of UTF-16 by itself, where a run of text puts a surrogate pair together
that two chunks share. So a log takes fewer events than an assembly: those none of whose chunks
cuts a pair. What it keeps of them leads an assembly from state to state as the events do.
-/

namespace XmlStore

-- ---------------------------------------------------------------------------
-- Chunks that cut no pair
-- ---------------------------------------------------------------------------

/-- The chunk does not cut a surrogate pair: a log can decode it by itself. -/
def Chunk.Decodes : Chunk → Prop
  | .utf8 _ => True
  | .utf16 units => (Utf16.decode units).2 = none

/-- The text that a log keeps in place of the chunk. -/
def Chunk.toUtf8 : Chunk → Bytes
  | .utf8 bytes => bytes
  | .utf16 units => Utf8.encode (Utf16.decode units).1

namespace TextRun

variable {run run' : TextRun} {chunk : Chunk} {pending : Bytes}

/-- No surrogate is held back, and of a sequence of bytes only a beginning. -/
def HoldsNoSurrogate (run : TextRun) : Prop := ∃ pending, HoldsBytes run.held pending

theorem splitSurrogate_of_decode {units : Utf16.Units} (h : (Utf16.decode units).2 = none) :
    splitSurrogate units = (units, .nothing) := by
  rcases splitSurrogate_cases units with ⟨front, high, rfl, hhigh, -⟩ | ⟨hsplit, -⟩
  · have hapart : Utf16.Apart front [high] := by
      intro u v _ _ hv
      cases hv
      exact Utf16.isLowSurrogate_eq_false hhigh
    obtain ⟨_, after, -, hafter, -⟩ := Utf16.decode_of_append hapart (Prod.ext rfl h)
    simp [Utf16.decode, hhigh] at hafter
  · exact hsplit

theorem push_of_isEmpty (hh : run.HoldsNoSurrogate) (h : chunk.isEmpty) :
    push chunk run = .ok () run := by
  obtain ⟨pending, hheld⟩ := hh
  cases chunk with
  | utf16 units => simp_all [push, pushUtf16, Chunk.isEmpty]
  | utf8 bytes =>
    obtain rfl : bytes = [] := List.isEmpty_iff.mp h
    obtain ⟨reversed, held⟩ := run
    cases held with
    | nothing => simp [push, pushUtf8, appendUtf8, Utf8.split, extend]
    | bytes lead following =>
      have hmissing : 0 < Utf8.announcedLength lead - (following.length + 1) :=
        Nat.sub_pos_of_lt hheld.2
      simp only [push, pushUtf8, List.length_nil, hmissing, ↓reduceIte, List.append_nil]
    | surrogate high => exact hheld.elim

theorem push_toUtf8 (hd : chunk.Decodes) (h : push chunk run = .ok () run')
    (he : chunk.isEmpty = false) (hh : run.HoldsNoSurrogate) :
    push (.utf8 chunk.toUtf8) run = .ok () run' := by
  cases chunk with
  | utf8 bytes => exact h
  | utf16 units =>
    obtain ⟨pending, hheld⟩ := hh
    simp only [Chunk.isEmpty] at he
    simp only [push, pushUtf16, he, Bool.false_eq_true, ↓reduceIte] at h
    simp only [push, pushUtf8, Chunk.toUtf8]
    cases hr : run.held with
    | bytes lead following => simp [hr] at h
    | surrogate high =>
      rw [hr] at hheld
      exact hheld.elim
    | nothing =>
      have hdecoded : (Utf16.decode units).2 = none := hd
      rw [hr] at h
      simp only [appendUtf16, splitSurrogate_of_decode hdecoded, List.nil_append, hdecoded] at h
      simp only [appendUtf8, Utf8.split_of_isValid (Utf8.isValid_encode _)]
      exact h

theorem HoldsNoSurrogate.appendUtf8 {bytes : Bytes} (h : run.appendUtf8 bytes = .ok () run') :
    run'.HoldsNoSurrogate := by
  unfold TextRun.appendUtf8 at h
  simp only at h
  split at h
  · cases h
    exact ⟨[], rfl⟩
  next lead following _ =>
    split at h
    next ht =>
      cases h
      exact ⟨lead :: following, rfl, Utf8.truncated_lt ht⟩
    next => cases h

theorem HoldsNoSurrogate.push (hh : run.HoldsNoSurrogate) (hd : chunk.Decodes)
    (h : TextRun.push chunk run = .ok () run') : run'.HoldsNoSurrogate := by
  cases he : chunk.isEmpty with
  | true =>
    rw [push_of_isEmpty hh he] at h
    cases h
    exact hh
  | false =>
    replace h := push_toUtf8 hd h he hh
    generalize chunk.toUtf8 = bytes at h
    simp only [TextRun.push, pushUtf8] at h
    split at h
    · cases h
    · exact .appendUtf8 h
    next lead following _ =>
      split at h
      next hlt =>
        cases h
        refine ⟨_, rfl, ?_⟩
        simp only [List.length_append]
        omega
      next =>
        split at h
        · exact .appendUtf8 h
        · cases h

theorem HoldsNoSurrogate.forM_push {chunks : List Chunk} (hh : run.HoldsNoSurrogate)
    (hd : ∀ chunk ∈ chunks, chunk.Decodes) (h : chunks.forM TextRun.push run = .ok () run') :
    run'.HoldsNoSurrogate := by
  induction chunks generalizing run with
  | nil =>
    cases h
    exact hh
  | cons chunk rest ih =>
    obtain ⟨hchunk, hrest⟩ := List.forall_mem_cons.mp hd
    obtain ⟨next, hnext, hrun⟩ := of_run_forM_cons h
    exact ih (hh.push hchunk hnext) hrest hrun

end TextRun

-- ---------------------------------------------------------------------------
-- What is recorded
-- ---------------------------------------------------------------------------

/-- The event is no text that cuts a surrogate pair. -/
def Event.Decodes (event : Event) : Prop := ∀ chunk, event = .text chunk → chunk.Decodes

namespace Log

variable {event : Event} {events : List Event} {chunk : Chunk} {log log' : Log}

theorem stored?_text (h : chunk.Decodes) :
    stored? (.text chunk) =
      .ok (if chunk.isEmpty then none else some (.text (.utf8 chunk.toUtf8))) := by
  cases chunk with
  | utf8 bytes => cases bytes <;> rfl
  | utf16 units =>
    obtain ⟨chars, hchars⟩ : ∃ chars, Utf16.decode units = (chars, none) := ⟨_, Prod.ext rfl h⟩
    cases units with
    | nil => rfl
    | cons unit rest => simp [stored?, Chunk.isEmpty, Chunk.toUtf8, hchars]

theorem stored?_text_error (h : ¬ chunk.Decodes) :
    stored? (.text chunk) = .error .unpairedInChunk := by
  cases chunk with
  | utf8 bytes => exact absurd trivial h
  | utf16 units =>
    cases units with
    | nil => exact absurd rfl h
    | cons unit rest =>
      obtain ⟨high, hhigh⟩ := Option.ne_none_iff_exists'.mp h
      obtain ⟨chars, hchars⟩ : ∃ chars, Utf16.decode (unit :: rest) = (chars, some high) :=
        ⟨_, Prod.ext rfl hhigh⟩
      simp [stored?, Chunk.isEmpty, hchars]

theorem record_of_entry {entry : Option Event} (h : stored? event = .ok entry) (log : Log) :
    record event log = .ok () (log.extend [event]) := by
  cases entry <;> simp [record, h, extend, kept, Except.toOption, push]

theorem record_eq_ok_iff : record event log = .ok () log' ↔
    event.Decodes ∧ log' = log.extend [event] := by
  by_cases hd : event.Decodes
  · have hentry : ∃ entry, stored? event = .ok entry := by
      cases event with
      | text chunk => exact ⟨_, stored?_text (hd chunk rfl)⟩
      | _ => exact ⟨_, rfl⟩
    obtain ⟨entry, hentry⟩ := hentry
    rw [record_of_entry hentry log]
    simp only [EStateM.Result.ok.injEq, true_and, hd]
    exact eq_comm
  · obtain ⟨chunk, rfl, hchunk⟩ : ∃ chunk, event = .text chunk ∧ ¬ chunk.Decodes := by
      simpa [Event.Decodes] using hd
    simp [record, stored?_text_error hchunk, hd]

theorem forM_record_eq_ok_iff : events.forM record log = .ok () log' ↔
    (∀ event ∈ events, event.Decodes) ∧ log' = log.extend events := by
  induction events generalizing log with
  | nil =>
    show EStateM.Result.ok () log = .ok () log' ↔ _
    simp [extend, kept, eq_comm]
  | cons event rest ih =>
    rw [extend_cons]
    constructor
    · intro h
      obtain ⟨next, hnext, hrest⟩ := of_run_forM_cons h
      obtain ⟨hevent, rfl⟩ := record_eq_ok_iff.mp hnext
      obtain ⟨hall, rfl⟩ := ih.mp hrest
      exact ⟨List.forall_mem_cons.mpr ⟨hevent, hall⟩, rfl⟩
    · rintro ⟨h, rfl⟩
      obtain ⟨hevent, hrest⟩ := List.forall_mem_cons.mp h
      exact (run_forM_cons (record_eq_ok_iff.mpr ⟨hevent, rfl⟩)).trans (ih.mpr ⟨hrest, rfl⟩)

end Log

-- ---------------------------------------------------------------------------
-- What is kept leads to the same state
-- ---------------------------------------------------------------------------

namespace Assembly

open TextRun (HoldsNoSurrogate)

variable {σ : Type} {receive : Receiver σ} {state state' final : Assembly σ} {event : Event}
  {events : List Event}

/-- No chunk that waits cuts a surrogate pair. -/
def WaitsDecoded (state : Assembly σ) : Prop :=
  ∃ waiting, Waits state waiting ∧ ∀ event ∈ waiting, event.Decodes

theorem WaitsDecoded.holdsNoSurrogate (h : WaitsDecoded state) : state.text.HoldsNoSurrogate := by
  obtain ⟨waiting, hw, hd⟩ := h
  have hnone : HoldsNoSurrogate {} := ⟨[], rfl⟩
  refine hnone.forM_push (fun chunk hc => ?_) hw.text
  obtain ⟨event, he, hchunk⟩ := List.mem_filterMap.mp hc
  cases event with
  | text other =>
    cases hchunk
    exact hd _ he chunk rfl
  | _ => cases hchunk

theorem WaitsDecoded.handle (h : WaitsDecoded state) (hd : event.Decodes)
    (hr : handle receive event state = .ok () state') : WaitsDecoded state' := by
  obtain ⟨waiting, hw, hall⟩ := h
  cases hs : state.started with
  | true =>
    cases ((handle_spec hs hw event).run_ok hr).outcome with
    | hidden _ hw' _ => exact ⟨waiting, hw', hall⟩
    | waits _ _ hw' _ =>
      exact ⟨_, hw', List.forall_mem_append.mpr ⟨hall, List.forall_mem_singleton.mpr hd⟩⟩
    | passes _ _ _ hw' _ => exact ⟨[], hw', by simp⟩
  | false =>
    by_cases hstart : event = .startDocument
    · subst hstart
      obtain ⟨receiver, -, rfl⟩ := (startDocument_spec hs).run_ok hr
      exact ⟨waiting, ⟨hw.text, hw.namespaces⟩, hall⟩
    · obtain ⟨-, inDoctype, rfl, -⟩ := (unstarted_spec hs hstart).run_ok hr
      exact ⟨waiting, ⟨hw.text, hw.namespaces⟩, hall⟩

theorem addText_eq (hs : state.started = true) (he : state.ended = false) (chunk : Chunk) :
    addText chunk state =
      match TextRun.push chunk state.text with
      | .ok () text => .ok () { state with text }
      | .error fault text => .error (.encoding fault) { state with text } := by
  have hsafe : ∀ (_ : Error) (_ : Assembly σ), state.ended ≠ true := fun _ _ => by simp [he]
  obtain ⟨_, _, hopen, rfl, -⟩ := (ensureOpen_spec hs .characterData).succeeds hsafe
  exact run_bind hopen

theorem of_addText {chunk : Chunk} (h : addText chunk state = .ok () state') :
    state.started = true ∧ state.ended = false ∧
      ∃ run, TextRun.push chunk state.text = .ok () run ∧ state' = { state with text := run } := by
  obtain ⟨_, next, hopen, -⟩ := of_run_bind h
  rcases Bool.eq_false_or_eq_true state.started with hs | hs
  · obtain ⟨rfl, he⟩ := (ensureOpen_spec hs _).run_ok hopen
    rw [addText_eq hs he] at h
    split at h
    next run hr =>
      cases h
      exact ⟨hs, he, run, hr, rfl⟩
    next => cases h
  · exact ((ensureOpen_unstarted hs _).run_ok hopen).elim

theorem addText_kept {chunk : Chunk} (hd : chunk.Decodes) (hh : state.text.HoldsNoSurrogate)
    (h : addText chunk state = .ok () state') :
    (Log.kept [.text chunk]).forM (handle receive) state = .ok () state' := by
  obtain ⟨hs, he, run, hpush, rfl⟩ := of_addText h
  cases hempty : chunk.isEmpty with
  | true =>
    have hkept : Log.kept [.text chunk] = [] := by
      simp [Log.kept, Log.stored?_text hd, hempty, Except.toOption]
    rw [TextRun.push_of_isEmpty hh hempty] at hpush
    cases hpush
    rw [hkept]
    rfl
  | false =>
    have hkept : Log.kept [.text chunk] = [.text (.utf8 chunk.toUtf8)] := by
      simp [Log.kept, Log.stored?_text hd, hempty, Except.toOption]
    rw [hkept]
    have htaken : addText (.utf8 chunk.toUtf8) state = .ok () { state with text := run } := by
      rw [addText_eq hs he, TextRun.push_toUtf8 hd hpush hempty hh]
    exact run_forM_cons htaken

theorem kept_run (hw : WaitsDecoded state) (hd : ∀ event ∈ events, event.Decodes)
    (h : events.forM (handle receive) state = .ok () final) :
    (Log.kept events).forM (handle receive) state = .ok () final := by
  induction events generalizing state with
  | nil => exact h
  | cons event rest ih =>
    obtain ⟨hevent, hrest⟩ := List.forall_mem_cons.mp hd
    obtain ⟨next, hnext, hrun⟩ := of_run_forM_cons h
    have hkept : (Log.kept [event]).forM (handle receive) state = .ok () next := by
      cases event with
      | text chunk => exact addText_kept (hevent chunk rfl) hw.holdsNoSurrogate hnext
      | _ => exact run_forM_cons hnext
    have happend : Log.kept (event :: rest) = Log.kept [event] ++ Log.kept rest :=
      Log.kept_append [event] rest
    rw [happend]
    exact (run_forM_append hkept).trans (ih (hw.handle hevent hnext) hrest hrun)

/-- A log takes what an assembly has taken if and only if no chunk of it cuts a surrogate pair.
Sent on, the log then leads a new assembly to the same state: the same calls have reached the
receiver, and as many elements and the place in a document type declaration are the same. -/
theorem replay_of_run {receiver : σ} {name : Bytes}
    (h : events.forM (handle receive) { receiver, name } = .ok () final) :
    ((∃ log, events.forM Log.record {} = .ok () log) ↔
      ∀ units, .text (.utf16 units) ∈ events → (Utf16.decode units).2 = none) ∧
    ∀ log, events.forM Log.record {} = .ok () log →
      Log.replay (handle receive) log.events { receiver, name } = .ok () final := by
  constructor
  · have hd : (∀ event ∈ events, event.Decodes) ↔
        ∀ units, .text (.utf16 units) ∈ events → (Utf16.decode units).2 = none := by
      refine ⟨fun h units hu => h _ hu _ rfl, ?_⟩
      rintro h _ he (bytes | units) rfl
      · trivial
      · exact h units he
    rw [← hd]
    exact ⟨fun ⟨_, hlog⟩ => (Log.forM_record_eq_ok_iff.mp hlog).1,
      fun hall => ⟨_, Log.forM_record_eq_ok_iff.mpr ⟨hall, rfl⟩⟩⟩
  · intro log hlog
    obtain ⟨hd, rfl⟩ := Log.forM_record_eq_ok_iff.mp hlog
    rw [Log.events_extend]
    exact kept_run ⟨[], waits_nil _ rfl rfl, by simp⟩ hd h

/-- Whether a new assembly takes the events. -/
def takes (events : List Event) : Bool :=
  match events.forM (handle collect) { receiver := [], name := ascii "doc" } with
  | .ok _ _ => true
  | .error _ _ => false

theorem exists_of_takes (events : List Event) (h : takes events = true) :
    ∃ final, events.forM (handle collect) { receiver := [], name := ascii "doc" } =
      .ok () final := by
  unfold takes at h
  split at h
  next final hfinal => exact ⟨final, hfinal⟩
  next => cases h

/-- A character in two chunks of bytes, with empty chunks of both encodings between them, and one
in a chunk of UTF-16. -/
def mixedChunks : List Event :=
  [.startDocument, .startElement (ascii "a") [], .text (.utf8 [0xC3]), .text (.utf16 []),
    .text (.utf8 []), .text (.utf8 [0xA9]), .text (.utf16 [0xD83D, 0xDE00]),
    .endElement (ascii "a"), .endDocument]

theorem replay_of_mixedChunks :
    ∃ final log, mixedChunks.forM (handle collect) { receiver := [], name := ascii "doc" } =
        .ok () final ∧
      (∀ units, .text (.utf16 units) ∈ mixedChunks → (Utf16.decode units).2 = none) ∧
      mixedChunks.forM Log.record {} = .ok () log ∧
      log.events = [.startDocument, .startElement (ascii "a") [], .text (.utf8 [0xC3]),
        .text (.utf8 [0xA9]), .text (.utf8 [0xF0, 0x9F, 0x98, 0x80]), .endElement (ascii "a"),
        .endDocument] ∧
      Log.replay (handle collect) log.events { receiver := [], name := ascii "doc" } =
        .ok () final := by
  obtain ⟨final, hfinal⟩ := exists_of_takes mixedChunks (by decide +kernel)
  have hall : ∀ units, .text (.utf16 units) ∈ mixedChunks → (Utf16.decode units).2 = none := by
    simp [mixedChunks]
    decide
  obtain ⟨log, hlog⟩ := (replay_of_run hfinal).1.mpr hall
  obtain ⟨-, rfl⟩ := Log.forM_record_eq_ok_iff.mp hlog
  exact ⟨final, _, hfinal, hall, hlog, by decide +kernel, (replay_of_run hfinal).2 _ hlog⟩

/-- A surrogate pair in two chunks. -/
def cutPair : List Event :=
  [.startDocument, .startElement (ascii "a") [], .text (.utf16 [0xD83D]), .text (.utf16 [0xDE00]),
    .endElement (ascii "a"), .endDocument]

/-- An assembly takes a pair that is cut, and a log does not. -/
theorem cut_pair_is_not_recorded :
    (∃ final, cutPair.forM (handle collect) { receiver := [], name := ascii "doc" } =
        .ok () final) ∧
      ¬ ∃ log, cutPair.forM Log.record {} = .ok () log := by
  refine ⟨exists_of_takes cutPair (by decide +kernel), ?_⟩
  rintro ⟨log, hlog⟩
  have hall := (Log.forM_record_eq_ok_iff.mp hlog).1
  have hhigh : Chunk.Decodes (.utf16 [0xD83D]) := hall (.text (.utf16 [0xD83D])) (by decide) _ rfl
  cases hhigh

end Assembly

end XmlStore
