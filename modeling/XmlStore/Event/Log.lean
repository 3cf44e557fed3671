import XmlStore.Event

/-!
# Recorded events

A log keeps events as they come, text as UTF-8 and empty text not at all. How text was cut into
chunks is still visible in a log; `coalesce` is the view in which it is not. A log can be sent on,
with its text cut anew.
-/

namespace XmlStore

structure Log where
  /-- The events, the latest first. -/
  reversed : List Event := []
  deriving DecidableEq, Repr

namespace Log

def events (log : Log) : List Event := log.reversed.reverse

/-- The event as a log keeps it, or nothing if it carries no text. -/
def stored? : Event → Except EncodingFault (Option Event)
  | .text chunk =>
    if chunk.isEmpty then .ok none
    else
      match chunk with
      | .utf8 bytes => .ok (some (.text (.utf8 bytes)))
      | .utf16 units =>
        match Utf16.decode units with
        | (cs, none) => .ok (some (.text (.utf8 (Utf8.encode cs))))
        | (_, some _) => .error .unpairedInChunk
  | event => .ok (some event)

def push (log : Log) (event : Event) : Log := { reversed := event :: log.reversed }

@[simp] theorem events_push (log : Log) (event : Event) :
    (log.push event).events = log.events ++ [event] := by
  simp [events, push]

def record : Handler Log := fun event log =>
  match stored? event with
  | .ok none => .ok () log
  | .ok (some entry) => .ok () (log.push entry)
  | .error fault => .error (.encoding fault) log

def coalesce : List Event → List Event
  | [] => []
  | .text (.utf8 bytes) :: rest =>
    match coalesce rest with
    | .text (.utf8 more) :: others => .text (.utf8 (bytes ++ more)) :: others
    | others => .text (.utf8 bytes) :: others
  | event :: rest => event :: coalesce rest

/-- Each text cut into pieces of at most `size` bytes, which may end inside a code point. -/
def splitTexts (size : Nat) (events : List Event) : List Event :=
  events.flatMap fun event =>
    match event with
    | .text (.utf8 bytes) => (pieces size bytes).map fun piece => .text (.utf8 piece)
    | event => [event]

def replay {σ : Type} (handle : Handler σ) (events : List Event) : EStateM Error σ Unit :=
  events.forM handle

end Log

end XmlStore
