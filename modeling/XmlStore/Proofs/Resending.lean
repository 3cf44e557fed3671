import XmlStore.Proofs.Replaying

/-!
# Recorded texts sent on in pieces

A log can be sent on with its texts in smaller pieces, which may end inside a code point. Another
log then keeps more texts, which are the same once they are joined. To an assembly the pieces of a
text are the text: a sequence of bytes that a piece cuts off is held back until the next one comes,
and judged as it would have been in one piece.
-/

namespace XmlStore

-- ---------------------------------------------------------------------------
-- Pieces
-- ---------------------------------------------------------------------------

theorem pieces_zero (bs : Bytes) : pieces 0 bs = pieces 1 bs := by
  induction bs with
  | nil => rw [pieces, pieces]
  | cons b rest ih => rw [pieces, pieces, Nat.sub_self, Nat.zero_sub, List.drop_zero, ih]

theorem length_of_mem_pieces {size : Nat} {bs piece : Bytes} (h : piece ∈ pieces size bs) :
    0 < piece.length ∧ piece.length ≤ max 1 size := by
  fun_induction pieces size bs with
  | case1 => cases h
  | case2 b rest ih =>
    obtain rfl | h := List.mem_cons.mp h
    · rw [List.length_take, List.length_cons]
      omega
    · exact ih h

theorem pieces_ne_nil {size : Nat} {bs : Bytes} (h : bs ≠ []) : pieces size bs ≠ [] := by
  intro hp
  have hflat := flatten_pieces size bs
  rw [hp, List.flatten_nil] at hflat
  exact h hflat.symm

theorem pieces_of_length_le {size : Nat} {bs : Bytes} (hne : bs ≠ []) (h : bs.length ≤ size) :
    pieces size bs = [bs] := by
  cases bs with
  | nil => exact absurd rfl hne
  | cons b rest =>
    rw [List.length_cons] at h
    rw [pieces, List.take_of_length_le (by rw [List.length_cons]; omega),
      List.drop_eq_nil_of_le (by omega), pieces]

-- ---------------------------------------------------------------------------
-- Bytes in two chunks
-- ---------------------------------------------------------------------------

namespace Utf8

/-- What follows a string goes on where the whole sequences of the string end. -/
theorem split_append_eq (bs more : Bytes) :
    split (bs ++ more) =
      ((split bs).1 ++ (split ((split bs).2 ++ more)).1, (split ((split bs).2 ++ more)).2) := by
  fun_induction split bs with
  | case1 => rfl
  | case2 lead rest trailing hhead remaining ih =>
    have hle := (scalar_trailing hhead).2
    have hgrown : head lead (rest ++ more) = .scalar trailing := by
      rw [head_append (by rw [hhead]; exact Head.noConfusion), hhead]
    rw [List.cons_append, split, hgrown]
    simp only
    rw [List.drop_append_of_le_length hle, List.take_append_of_le_length hle, ih]
    simp only [List.cons_append, List.append_assoc]
    rfl
  | case3 lead rest hno => rfl

end Utf8

namespace TextRun

variable {run run' : TextRun} {first second following : Bytes} {lead : UInt8}

theorem extend_extend (run : TextRun) (more after : Bytes) (held held' : HeldBack) :
    (run.extend more held).extend after held' = run.extend (more ++ after) held' := by
  simp [extend]

/-- Whole sequences at the beginning are whole sequences of the run. -/
theorem appendUtf8_append_of_isValid (h : Utf8.isValid first = true) (second : Bytes) :
    run.appendUtf8 (first ++ second) = (run.extend first .nothing).appendUtf8 second := by
  unfold appendUtf8
  simp only [Utf8.split_append_eq first second, Utf8.split_of_isValid h, List.nil_append,
    extend_extend]

/-- Bytes that go on after a sequence that is held back are taken as if they came with it. -/
theorem pushUtf8_of_appendUtf8 (h : run.appendUtf8 (lead :: following ++ second) = .ok () run')
    (ht : Utf8.head lead following = .truncated) :
    { run with held := .bytes lead following }.pushUtf8 second = .ok () run' := by
  have hlt := Utf8.truncated_lt ht
  obtain ⟨missing, hmissing⟩ :
      ∃ missing, Utf8.announcedLength lead - (following.length + 1) = missing := ⟨_, rfl⟩
  simp only [pushUtf8, hmissing]
  cases hhead : Utf8.head lead (following ++ second) with
  | illFormed n => simp [appendUtf8, Utf8.split, hhead] at h
  | truncated =>
    have hshort := Utf8.truncated_lt hhead
    rw [List.length_append] at hshort
    have hsecond : second.length < missing := by omega
    rw [if_pos hsecond]
    simpa [appendUtf8, Utf8.split, hhead, extend] using h
  | scalar n =>
    obtain ⟨hn, hle⟩ := Utf8.scalar_trailing hhead
    rw [List.length_append] at hle
    obtain rfl : n = following.length + missing := by omega
    have hlong : ¬ second.length < missing := by omega
    have hfirst : Utf8.isValid (lead :: following ++ second.take missing) = true := by
      have htake := Utf8.head_take hhead
      rw [List.take_length_add_append] at htake
      refine Utf8.isValid_cons_iff.mpr ⟨_, htake, ?_⟩
      have hlength : (following ++ second.take missing).length ≤ following.length + missing := by
        rw [List.length_append, List.length_take]
        omega
      rw [List.append_eq, List.drop_eq_nil_of_le hlength]
      exact Utf8.isValid_nil
    rw [if_neg hlong, if_pos hfirst]
    rw [← List.take_append_drop missing second, ← List.append_assoc,
      appendUtf8_append_of_isValid hfirst] at h
    exact h

theorem appendUtf8_append (h : run.appendUtf8 (first ++ second) = .ok () run') :
    ∃ mid, run.appendUtf8 first = .ok () mid ∧ mid.pushUtf8 second = .ok () run' := by
  have hsplit := Utf8.split_append first
  rw [← hsplit, List.append_assoc, appendUtf8_append_of_isValid (Utf8.isValid_split first)] at h
  cases hrest : (Utf8.split first).2 with
  | nil =>
    rw [hrest, List.nil_append] at h
    exact ⟨run.extend (Utf8.split first).1 .nothing, by simp only [appendUtf8, hrest], h⟩
  | cons lead following =>
    rw [hrest] at h
    cases hhead : Utf8.head lead following with
    | scalar n => exact absurd hhead (Utf8.head_split_ne hrest n)
    | illFormed n =>
      have hgrown : Utf8.head lead (following ++ second) = .illFormed n := by
        rw [Utf8.head_append (by rw [hhead]; exact Utf8.Head.noConfusion), hhead]
      simp [appendUtf8, Utf8.split, hgrown] at h
    | truncated =>
      refine ⟨run.extend (Utf8.split first).1 (.bytes lead following), ?_,
        pushUtf8_of_appendUtf8 h hhead⟩
      simp only [appendUtf8, hrest, hhead]

theorem pushUtf8_append_of_lt (hheld : run.held = .bytes lead following)
    (hfirst : first.length < Utf8.announcedLength lead - (following.length + 1))
    (h : run.pushUtf8 (first ++ second) = .ok () run') :
    { run with held := .bytes lead (following ++ first) }.pushUtf8 second = .ok () run' := by
  obtain ⟨missing, hmissing⟩ :
      ∃ missing, Utf8.announcedLength lead - (following.length + 1) = missing := ⟨_, rfl⟩
  rw [hmissing] at hfirst
  have hleft : Utf8.announcedLength lead - ((following ++ first).length + 1) =
      missing - first.length := by
    rw [List.length_append]
    omega
  have htake : (first ++ second).take missing = first ++ second.take (missing - first.length) := by
    rw [List.take_append, List.take_of_length_le (Nat.le_of_lt hfirst)]
  have hdrop : (first ++ second).drop missing = second.drop (missing - first.length) := by
    rw [List.drop_append, List.drop_eq_nil_of_le (Nat.le_of_lt hfirst), List.nil_append]
  simp only [pushUtf8, hheld, hmissing, htake, hdrop, List.length_append] at h
  simp only [pushUtf8, hleft]
  by_cases hboth : first.length + second.length < missing
  · rw [if_pos hboth] at h
    rw [if_pos (by omega), List.append_assoc]
    exact h
  · rw [if_neg hboth, ← List.append_assoc, List.cons_append] at h
    rw [if_neg (by omega)]
    split at h
    next hv =>
      rw [if_pos hv]
      exact h
    next => cases h

/-- Bytes that a run takes in one chunk it takes in two, wherever they are cut. -/
theorem pushUtf8_append (h : run.pushUtf8 (first ++ second) = .ok () run') :
    ∃ mid, run.pushUtf8 first = .ok () mid ∧ mid.pushUtf8 second = .ok () run' := by
  cases hheld : run.held with
  | surrogate high => simp [pushUtf8, hheld] at h
  | nothing =>
    simp only [pushUtf8, hheld] at h ⊢
    exact appendUtf8_append h
  | bytes lead following =>
    by_cases hfirst : first.length < Utf8.announcedLength lead - (following.length + 1)
    · refine ⟨_, ?_, pushUtf8_append_of_lt hheld hfirst h⟩
      simp only [pushUtf8, hheld, if_pos hfirst]
    · simp only [pushUtf8, hheld] at h ⊢
      rw [if_neg hfirst]
      have hle := Nat.le_of_not_lt hfirst
      have hboth : ¬ (first ++ second).length <
          Utf8.announcedLength lead - (following.length + 1) := by
        rw [List.length_append]
        omega
      rw [if_neg hboth, List.take_append_of_le_length hle, List.drop_append_of_le_length hle] at h
      split at h
      next hv =>
        rw [if_pos hv]
        exact appendUtf8_append h
      next => cases h

end TextRun

-- ---------------------------------------------------------------------------
-- What a log holds
-- ---------------------------------------------------------------------------

theorem Utf8.encode_ne_nil {chars : List Char} (h : chars ≠ []) : encode chars ≠ [] := by
  cases chars with
  | nil => exact absurd rfl h
  | cons c rest =>
    intro hnil
    have hfirst : String.utf8EncodeChar c = [] := (List.append_eq_nil_iff.mp hnil).1
    have hsize := String.length_utf8EncodeChar c
    rw [hfirst] at hsize
    exact absurd hsize (Nat.ne_of_lt c.utf8Size_pos)

theorem Chunk.toUtf8_ne_nil {chunk : Chunk} (hd : chunk.Decodes) (he : chunk.isEmpty = false) :
    chunk.toUtf8 ≠ [] := by
  cases chunk with
  | utf8 bytes => exact List.isEmpty_eq_false_iff.mp he
  | utf16 units =>
    refine Utf8.encode_ne_nil fun hchars => ?_
    have hunits : Utf16.encode [] = units := Utf16.encode_of_decode (Prod.ext hchars hd)
    cases hunits
    cases he

namespace Log

variable {size : Nat} {bytes : Bytes} {event : Event} {events given : List Event} {log : Log}

theorem splitTexts_cons (size : Nat) (event : Event) (rest : List Event) :
    splitTexts size (event :: rest) = splitTexts size [event] ++ splitTexts size rest := by
  simp only [splitTexts, List.flatMap_cons, List.flatMap_nil, List.append_nil]

theorem splitTexts_text (size : Nat) (bytes : Bytes) :
    splitTexts size [.text (.utf8 bytes)] =
      (pieces size bytes).map fun piece => .text (.utf8 piece) :=
  List.append_nil _

theorem splitTexts_zero (events : List Event) : splitTexts 0 events = splitTexts 1 events := by
  simp only [splitTexts, pieces_zero]

/-- The event is one that a log holds. -/
def Holds (event : Event) : Prop := stored? event = .ok (some event)

theorem holds_of_not_text (h : ∀ chunk, event ≠ .text chunk) : Holds event := by
  cases event with
  | text chunk => exact absurd rfl (h chunk)
  | _ => rfl

theorem holds_text (h : bytes ≠ []) : Holds (.text (.utf8 bytes)) := by
  cases bytes with
  | nil => exact absurd rfl h
  | cons b rest => rfl

theorem Holds.text {chunk : Chunk} (h : Holds (.text chunk)) :
    ∃ bytes, bytes ≠ [] ∧ chunk = .utf8 bytes := by
  cases chunk with
  | utf8 bytes =>
    refine ⟨bytes, ?_, rfl⟩
    rintro rfl
    cases h
  | utf16 units =>
    unfold Holds stored? at h
    simp only at h
    split at h
    · cases h
    · split at h <;> simp at h

theorem holds_of_entry {entry : Event} (h : stored? event = .ok (some entry)) : Holds entry := by
  cases event with
  | text chunk =>
    by_cases hd : chunk.Decodes
    · rw [stored?_text hd] at h
      split at h
      next => cases h
      next he =>
        cases h
        exact holds_text (Chunk.toUtf8_ne_nil hd (Bool.eq_false_iff.mpr he))
    · rw [stored?_text_error hd] at h
      cases h
  | _ =>
    cases h
    exact holds_of_not_text (by simp)

/-- The log after one more event, which it may refuse. -/
def offer (log : Log) (event : Event) : Log :=
  match record event log with
  | .ok () log => log
  | .error _ log => log

/-- What has been recorded of the events, some of which may have been refused. -/
def recorded (events : List Event) : Log := events.foldl offer {}

theorem offer_holds (h : ∀ event ∈ log.events, Holds event) (event : Event) :
    ∀ kept ∈ (log.offer event).events, Holds kept := by
  unfold offer record
  cases hentry : stored? event with
  | error fault => exact h
  | ok entry =>
    cases entry with
    | none => exact h
    | some entry =>
      simp only [events_push]
      exact List.forall_mem_append.mpr ⟨h, List.forall_mem_singleton.mpr (holds_of_entry hentry)⟩

theorem recorded_holds (given : List Event) : ∀ event ∈ (recorded given).events, Holds event := by
  suffices ∀ log : Log, (∀ event ∈ log.events, Holds event) →
      ∀ event ∈ (given.foldl offer log).events, Holds event from this {} (by simp [Log.events])
  induction given with
  | nil => exact fun log h => h
  | cons event rest ih => exact fun log h => ih _ (offer_holds h event)

theorem Holds.kept_cons (h : Holds event) (rest : List Event) :
    kept (event :: rest) = event :: kept rest :=
  List.filterMap_cons_some (by rw [h]; rfl)

theorem kept_of_holds (h : ∀ event ∈ events, Holds event) : kept events = events := by
  induction events with
  | nil => rfl
  | cons event rest ih =>
    obtain ⟨hevent, hrest⟩ := List.forall_mem_cons.mp h
    rw [hevent.kept_cons, ih hrest]

theorem forM_record_of_holds (h : ∀ event ∈ events, Holds event) :
    ∃ log, events.forM record {} = .ok () log ∧ log.events = events := by
  have hd : ∀ event ∈ events, event.Decodes := fun event he =>
    (record_eq_ok_iff.mp (record_of_entry (h event he) {})).1
  refine ⟨_, forM_record_eq_ok_iff.mpr ⟨hd, rfl⟩, ?_⟩
  rw [events_extend, kept_of_holds h]
  rfl

theorem events_inj {log log' : Log} (h : log.events = log'.events) : log = log' := by
  obtain ⟨reversed⟩ := log
  obtain ⟨reversed'⟩ := log'
  exact congrArg Log.mk (List.reverse_injective h)

-- ---------------------------------------------------------------------------
-- Texts in pieces, seen in a log
-- ---------------------------------------------------------------------------

theorem splitTexts_holds (h : ∀ event ∈ events, Holds event) :
    ∀ event ∈ splitTexts size events, Holds event := by
  intro piece hp
  obtain ⟨event, he, hpiece⟩ := List.mem_flatMap.mp hp
  have hevent := h event he
  split at hpiece
  next bytes =>
    obtain ⟨part, hpart, rfl⟩ := List.mem_map.mp hpiece
    exact holds_text (List.ne_nil_of_length_pos (length_of_mem_pieces hpart).1)
  next =>
    cases List.mem_singleton.mp hpiece
    exact hevent

theorem length_le_of_mem_splitTexts (h : .text (.utf8 bytes) ∈ splitTexts size events) :
    bytes.length ≤ max 1 size := by
  obtain ⟨event, -, hpiece⟩ := List.mem_flatMap.mp h
  split at hpiece
  next whole =>
    obtain ⟨part, hpart, heq⟩ := List.mem_map.mp hpiece
    cases heq
    exact (length_of_mem_pieces hpart).2
  next hother => exact absurd (List.mem_singleton.mp hpiece).symm (hother bytes)

theorem splitTexts_of_fits (h : ∀ event ∈ events, Holds event)
    (hfits : ∀ bytes, .text (.utf8 bytes) ∈ events → bytes.length ≤ size) :
    splitTexts size events = events := by
  induction events with
  | nil => rfl
  | cons event rest ih =>
    obtain ⟨hevent, hrest⟩ := List.forall_mem_cons.mp h
    have hcut : splitTexts size [event] = [event] := by
      cases event with
      | text chunk =>
        obtain ⟨bytes, hne, rfl⟩ := hevent.text
        rw [splitTexts_text, pieces_of_length_le hne (hfits bytes List.mem_cons_self),
          List.map_singleton]
      | _ => rfl
    rw [splitTexts_cons, hcut, ih hrest fun bytes hm => hfits bytes (List.mem_cons_of_mem _ hm),
      List.singleton_append]

theorem coalesce_texts {chunks : List Bytes} (h : chunks ≠ []) (rest : List Event) :
    coalesce ((chunks.map fun chunk => .text (.utf8 chunk)) ++ rest) =
      joinText chunks.flatten (coalesce rest) := by
  induction chunks with
  | nil => exact absurd rfl h
  | cons chunk others ih =>
    rw [List.map_cons, List.cons_append, coalesce_cons, join, List.flatten_cons]
    cases others with
    | nil => rw [List.map_nil, List.nil_append, List.flatten_nil, List.append_nil]
    | cons => rw [ih (List.cons_ne_nil _ _), joinText_joinText]

theorem coalesce_splitTexts (h : ∀ event ∈ events, Holds event) :
    coalesce (splitTexts size events) = coalesce events := by
  induction events with
  | nil => rfl
  | cons event rest ih =>
    obtain ⟨hevent, hrest⟩ := List.forall_mem_cons.mp h
    rw [splitTexts_cons, coalesce_cons, ← ih hrest]
    cases event with
    | text chunk =>
      obtain ⟨bytes, hne, rfl⟩ := hevent.text
      rw [splitTexts_text, coalesce_texts (pieces_ne_nil hne), flatten_pieces, join]
    | _ => exact coalesce_cons ..

end Log

-- ---------------------------------------------------------------------------
-- Texts in pieces, passed on to an assembly
-- ---------------------------------------------------------------------------

namespace Assembly

open Log (Holds splitTexts)

variable {σ : Type} {receive : Receiver σ} {state final : Assembly σ}

theorem addText_of_push {chunk : Chunk} {run : TextRun} (hs : state.started = true)
    (he : state.ended = false) (h : TextRun.push chunk state.text = .ok () run) :
    addText chunk state = .ok () { state with text := run } := by
  rw [addText_eq hs he, h]

/-- Bytes that an assembly takes in one text it takes in two. -/
theorem addText_append {first second : Bytes}
    (h : addText (.utf8 (first ++ second)) state = .ok () final) :
    ∃ mid, addText (.utf8 first) state = .ok () mid ∧
      addText (.utf8 second) mid = .ok () final := by
  obtain ⟨hs, he, run, hrun, rfl⟩ := of_addText h
  obtain ⟨mid, hfirst, hsecond⟩ := TextRun.pushUtf8_append hrun
  exact ⟨{ state with text := mid }, addText_of_push hs he hfirst, addText_of_push hs he hsecond⟩

theorem texts_run {chunks : List Bytes} (hne : chunks ≠ [])
    (h : addText (.utf8 chunks.flatten) state = .ok () final) :
    (chunks.map fun chunk => .text (.utf8 chunk)).forM (handle receive) state = .ok () final := by
  induction chunks generalizing state with
  | nil => exact absurd rfl hne
  | cons chunk others ih =>
    cases others with
    | nil =>
      rw [List.flatten_cons, List.flatten_nil, List.append_nil] at h
      exact run_forM_cons h
    | cons =>
      obtain ⟨mid, hfirst, hsecond⟩ := addText_append h
      have hfirst : handle receive (.text (.utf8 chunk)) state = .ok () mid := hfirst
      exact (run_forM_cons hfirst).trans (ih (List.cons_ne_nil _ _) hsecond)

theorem splitTexts_run {events : List Event} (size : Nat) (hall : ∀ event ∈ events, Holds event)
    (h : events.forM (handle receive) state = .ok () final) :
    (splitTexts size events).forM (handle receive) state = .ok () final := by
  induction events generalizing state with
  | nil => exact h
  | cons event rest ih =>
    obtain ⟨hevent, hrest⟩ := List.forall_mem_cons.mp hall
    obtain ⟨next, hnext, hrun⟩ := of_run_forM_cons h
    have hpieces : (splitTexts size [event]).forM (handle receive) state = .ok () next := by
      cases event with
      | text chunk =>
        obtain ⟨bytes, hne, rfl⟩ := hevent.text
        rw [Log.splitTexts_text]
        exact texts_run (pieces_ne_nil hne) (by rwa [flatten_pieces])
      | _ => exact run_forM_cons hnext
    rw [Log.splitTexts_cons]
    exact (run_forM_append hpieces).trans (ih hrest hrun)

/-- Whatever events a log has been given, it can be sent on. A new log records the same again, and
with its texts in pieces of any size, which are that long at most where a size of zero counts as
one, the same once adjacent texts are joined; to join them a second time changes nothing, and texts
that are no longer than a piece are sent on as they are. An assembly that takes the log takes the
pieces as well and comes to the same state: the same calls have reached the receiver, as many
elements have begun, and it is as much within a document type declaration. -/
theorem pieces_of_log_do_not_show (given : List Event) (size : Nat) :
    Log.replay Log.record (Log.recorded given).events {} = .ok () (Log.recorded given) ∧
    (∃ log, Log.replay Log.record (splitTexts size (Log.recorded given).events) {} = .ok () log ∧
      Log.coalesce log.events = Log.coalesce (Log.recorded given).events) ∧
    (∀ bytes, .text (.utf8 bytes) ∈ splitTexts size (Log.recorded given).events →
      bytes.length ≤ max 1 size) ∧
    splitTexts 0 (Log.recorded given).events = splitTexts 1 (Log.recorded given).events ∧
    ((∀ bytes, .text (.utf8 bytes) ∈ (Log.recorded given).events → bytes.length ≤ size) →
      splitTexts size (Log.recorded given).events = (Log.recorded given).events) ∧
    Log.coalesce (Log.coalesce (Log.recorded given).events) =
      Log.coalesce (Log.recorded given).events ∧
    ∀ (σ : Type) (receive : Receiver σ) (receiver : σ) (name : Bytes) (final : Assembly σ),
      Log.replay (handle receive) (Log.recorded given).events { receiver, name } = .ok () final →
      Log.replay (handle receive) (splitTexts size (Log.recorded given).events)
        { receiver, name } = .ok () final := by
  have hall := Log.recorded_holds given
  refine ⟨?_, ?_, ?_, Log.splitTexts_zero _, Log.splitTexts_of_fits hall,
    Log.coalesce_coalesce _, fun _ _ _ _ _ h => splitTexts_run size hall h⟩
  · obtain ⟨log, hlog, hevents⟩ := Log.forM_record_of_holds hall
    obtain rfl := Log.events_inj hevents
    exact hlog
  · obtain ⟨log, hlog, hevents⟩ := Log.forM_record_of_holds (Log.splitTexts_holds hall)
    exact ⟨log, hlog, by rw [hevents, Log.coalesce_splitTexts hall]⟩
  · exact fun _ => Log.length_le_of_mem_splitTexts

/-- A character in two chunks, a chunk that the log refuses, and an empty one. -/
def cutTexts : List Event :=
  [.startDocument, .startElement (ascii "a") [], .text (.utf8 [0x68, 0xE2]),
    .text (.utf8 [0x82, 0xAC, 0x6C]), .text (.utf16 [0xD83D]), .text (.utf8 []),
    .comment (ascii "c"), .endElement (ascii "a"), .endDocument]

/-- The calls that an assembly makes of events that it takes. -/
def collected (events : List Event) : List Call :=
  match events.forM (handle collect) { receiver := [], name := ascii "doc" } with
  | .ok _ state => state.receiver
  | .error _ _ => []

theorem pieces_of_cutTexts_do_not_show :
    (Log.recorded cutTexts).events =
        [.startDocument, .startElement (ascii "a") [], .text (.utf8 [0x68, 0xE2]),
          .text (.utf8 [0x82, 0xAC, 0x6C]), .comment (ascii "c"), .endElement (ascii "a"),
          .endDocument] ∧
      splitTexts 3 (Log.recorded cutTexts).events = (Log.recorded cutTexts).events ∧
      ∃ final, Log.replay (handle collect) (Log.recorded cutTexts).events
          { receiver := [], name := ascii "doc" } = .ok () final ∧
        final.receiver = [.startDocument (ascii "doc"), .startElement (ascii "a") [],
          .text [0x68, 0xE2, 0x82, 0xAC, 0x6C] false, .comment (ascii "c"),
          .endElement (ascii "a"), .endDocument] ∧
        Log.replay (handle collect) (splitTexts 0 (Log.recorded cutTexts).events)
          { receiver := [], name := ascii "doc" } = .ok () final := by
  have hevents : (Log.recorded cutTexts).events =
      [.startDocument, .startElement (ascii "a") [], .text (.utf8 [0x68, 0xE2]),
        .text (.utf8 [0x82, 0xAC, 0x6C]), .comment (ascii "c"), .endElement (ascii "a"),
        .endDocument] := by
    decide +kernel
  have hfits : ∀ bytes, .text (.utf8 bytes) ∈ (Log.recorded cutTexts).events →
      bytes.length ≤ 3 := by
    rw [hevents]
    intro bytes hm
    simp only [List.mem_cons, List.not_mem_nil, reduceCtorEq, or_false, false_or,
      Event.text.injEq, Chunk.utf8.injEq] at hm
    rcases hm with rfl | rfl <;> decide
  obtain ⟨final, hfinal⟩ := exists_of_takes (Log.recorded cutTexts).events (by decide +kernel)
  have hcalls : collected (Log.recorded cutTexts).events =
      [.startDocument (ascii "doc"), .startElement (ascii "a") [],
        .text [0x68, 0xE2, 0x82, 0xAC, 0x6C] false, .comment (ascii "c"),
        .endElement (ascii "a"), .endDocument] := by
    decide +kernel
  rw [collected, hfinal] at hcalls
  exact ⟨hevents, (pieces_of_log_do_not_show cutTexts 3).2.2.2.2.1 hfits, final, hfinal, hcalls,
    (pieces_of_log_do_not_show cutTexts 0).2.2.2.2.2.2 _ collect [] _ final hfinal⟩

end Assembly

end XmlStore
