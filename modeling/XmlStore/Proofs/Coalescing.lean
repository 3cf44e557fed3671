import XmlStore.Event.Log

/-!
# Logs in which the cutting of text does not show

What a log keeps of a list of events, with adjacent texts as one, is how a list of events looks
to a reader who does not care where text was cut. Two lists that look the same still do so with
the same events before or after them.
-/

namespace XmlStore.Log

/-- What a log keeps of events that it takes. -/
def kept (events : List Event) : List Event :=
  events.filterMap fun event => (stored? event).toOption.join

/-- Events as they look when the cutting of text does not show. -/
def seen (events : List Event) : List Event := coalesce (kept events)

-- ---------------------------------------------------------------------------
-- Adjacent texts
-- ---------------------------------------------------------------------------

/-- A text before events whose texts are coalesced already. -/
def joinText (bytes : Bytes) : List Event → List Event
  | .text (.utf8 more) :: others => .text (.utf8 (bytes ++ more)) :: others
  | others => .text (.utf8 bytes) :: others

/-- An event before events whose texts are coalesced already. -/
def join : Event → List Event → List Event
  | .text (.utf8 bytes), others => joinText bytes others
  | event, others => event :: others

theorem coalesce_cons (event : Event) (rest : List Event) :
    coalesce (event :: rest) = join event (coalesce rest) := by
  cases event with
  | text chunk =>
    cases chunk with
    | utf8 bytes =>
      rw [coalesce, join]
      fun_cases joinText bytes (coalesce rest) <;> simp_all
    | utf16 units => rfl
  | _ => rfl

theorem joinText_joinText (bytes more : Bytes) (others : List Event) :
    joinText bytes (joinText more others) = joinText (bytes ++ more) others := by
  fun_cases joinText more others with
  | case1 tail others => simp [joinText]
  | case2 others h => rw [joinText, joinText]; exact h

theorem coalesce_append_congr {a b : List Event} (h : coalesce a = coalesce b)
    (before : List Event) : coalesce (before ++ a) = coalesce (before ++ b) := by
  induction before with
  | nil => exact h
  | cons event rest ih => rw [List.cons_append, List.cons_append, coalesce_cons, coalesce_cons, ih]

/-- Joining before or after more events follow comes to the same. -/
theorem coalesce_join_append (event : Event) (others after : List Event) :
    coalesce (join event others ++ after) = join event (coalesce (others ++ after)) := by
  fun_cases join event others with
  | case1 bytes =>
    fun_cases joinText bytes others with
    | case1 more others =>
      rw [List.cons_append, List.cons_append, coalesce_cons, coalesce_cons]
      exact (joinText_joinText _ _ _).symm
    | case2 => rw [List.cons_append, coalesce_cons, join]
  | case2 => rw [List.cons_append, coalesce_cons]

theorem coalesce_coalesce_append (before after : List Event) :
    coalesce (coalesce before ++ after) = coalesce (before ++ after) := by
  induction before with
  | nil => rfl
  | cons event rest ih =>
    rw [coalesce_cons, coalesce_join_append, ih, List.cons_append, coalesce_cons]

theorem coalesce_coalesce (events : List Event) : coalesce (coalesce events) = coalesce events := by
  have h := coalesce_coalesce_append events []
  rwa [List.append_nil, List.append_nil] at h

-- ---------------------------------------------------------------------------
-- Lists that look the same
-- ---------------------------------------------------------------------------

@[simp] theorem kept_append (a b : List Event) : kept (a ++ b) = kept a ++ kept b :=
  List.filterMap_append

theorem seen_append (a b : List Event) : seen (a ++ b) = coalesce (seen a ++ seen b) := by
  rw [seen, kept_append, seen, coalesce_coalesce_append]
  exact coalesce_append_congr (coalesce_coalesce _).symm _

theorem seen_append_congr {a a' b b' : List Event} (ha : seen a = seen a')
    (hb : seen b = seen b') : seen (a ++ b) = seen (a' ++ b') := by
  rw [seen_append, seen_append, ha, hb]

theorem seen_cons {event : Event} (h : ∀ chunk, event ≠ .text chunk) (rest : List Event) :
    seen (event :: rest) = event :: seen rest := by
  have hkept : kept (event :: rest) = event :: kept rest := by
    cases event with
    | text chunk => exact absurd rfl (h chunk)
    | _ => rfl
  rw [seen, hkept, coalesce_cons]
  cases event with
  | text chunk => exact absurd rfl (h chunk)
  | _ => rfl

theorem seen_text_append (bytes more : Bytes) :
    seen [.text (.utf8 (bytes ++ more))] = seen [.text (.utf8 bytes), .text (.utf8 more)] := by
  cases bytes with
  | nil => rfl
  | cons b rest =>
    cases more with
    | nil => simp [seen, kept, stored?, Chunk.isEmpty]; rfl
    | cons c tail => rfl

-- ---------------------------------------------------------------------------
-- Recording
-- ---------------------------------------------------------------------------

def extend (log : Log) (events : List Event) : Log :=
  { reversed := (kept events).reverse ++ log.reversed }

theorem events_extend (log : Log) (events : List Event) :
    (log.extend events).events = log.events ++ kept events := by
  simp [Log.events, extend]

theorem extend_cons (log : Log) (event : Event) (rest : List Event) :
    log.extend (event :: rest) = (log.extend [event]).extend rest := by
  have h : kept (event :: rest) = kept [event] ++ kept rest := kept_append [event] rest
  simp [extend, h]

end XmlStore.Log
