import XmlStore.Text.Alphanumeric
import XmlStore.Text.WordBreak

/-!
# Words

A text is divided into segments at its word boundaries, and the segments with an alphanumeric
character are its words. A segment grows character by character from its first one. A mark that
joins only what stands on both sides of it, such as the point in a number, belongs to the segment
if the right character follows, which may take looking past ignored characters.
-/

namespace XmlStore.Words

/-- What a segment ends with so far, as far as it decides whether the segment goes on. -/
inductive State where
  | letter
  | hebrew
  | number
  | katakana
  | connector
  | space
  /-- One regional indicator, which another one completes to a flag. -/
  | halfFlag
  /-- A Hebrew letter with a single quote, which is complete but may be followed by a letter. -/
  | hebrewQuote
  | needsLetter
  /-- A double quote that needs a Hebrew letter after it. -/
  | needsHebrew
  | needsNumber
  /-- Nothing joins any more, except ignored characters and joined pictographs. -/
  | closed
  deriving DecidableEq, Repr

def State.isPending : State → Bool
  | .needsLetter | .needsHebrew | .needsNumber => true
  | _ => false

inductive Move where
  | join (state : State)
  /-- It belongs to the segment if what follows satisfies the state. -/
  | tryJoin (state : State)
  | stop
  deriving DecidableEq, Repr

/-- The rules of word boundaries. `skipped` tells whether ignored characters have come since the
start of the segment. -/
def State.move (skipped : Bool) : State → WordBreak → Move
  | .letter, .letter | .hebrew, .letter => .join .letter
  | .letter, .hebrew | .hebrew, .hebrew => .join .hebrew
  | .letter, .number | .hebrew, .number => .join .number
  | .letter, .connector | .hebrew, .connector => .join .connector
  | .hebrew, .doubleQuote => .tryJoin .needsHebrew
  | .hebrew, .singleQuote => .join .hebrewQuote
  | .letter, .midLetter | .hebrew, .midLetter => .tryJoin .needsLetter
  | .letter, .midBoth | .hebrew, .midBoth => .tryJoin .needsLetter
  | .letter, .singleQuote => .tryJoin .needsLetter
  | .number, .number => .join .number
  | .number, .letter => .join .letter
  | .number, .hebrew => .join .hebrew
  | .number, .connector => .join .connector
  | .number, .midNumber | .number, .midBoth | .number, .singleQuote => .tryJoin .needsNumber
  | .katakana, .katakana => .join .katakana
  | .katakana, .connector => .join .connector
  | .connector, .connector => .join .connector
  | .connector, .letter => .join .letter
  | .connector, .hebrew => .join .hebrew
  | .connector, .number => .join .number
  | .connector, .katakana => .join .katakana
  | .space, .space => if skipped then .stop else .join .space
  | .halfFlag, .flag => .join .closed
  | .hebrewQuote, .letter | .needsLetter, .letter => .join .letter
  | .hebrewQuote, .hebrew | .needsLetter, .hebrew | .needsHebrew, .hebrew => .join .hebrew
  | .needsNumber, .number => .join .number
  | _, _ => .stop

def State.start : WordBreak → State
  | .letter => .letter
  | .hebrew => .hebrew
  | .number => .number
  | .katakana => .katakana
  | .connector => .connector
  | .flag => .halfFlag
  | .space => .space
  | _ => .closed

/-- How many of the characters at hand still belong to the segment, or nothing if it cannot end in
this state. `afterJoiner` tells whether the character before is a joiner; a pictograph after one
always belongs to the segment. -/
def extent (state : State) (afterJoiner skipped : Bool) : List Char → Option Nat
  | [] => if state.isPending then none else some 0
  | c :: rest =>
    let property := WordBreak.ofChar c
    if property.isIgnored then
      (extent state (property == .joiner) true rest).map (· + 1)
    else if afterJoiner && WordBreak.pictographs.contains c then
      (extent .closed false skipped rest).map (· + 1)
    else
      match state.move skipped property with
      | .join next => (extent next false skipped rest).map (· + 1)
      | .tryJoin next => some (((extent next false skipped rest).map (· + 1)).getD 0)
      | .stop => if state.isPending then none else some 0

def segmentExtent (c : Char) (rest : List Char) : Nat :=
  match WordBreak.ofChar c with
  | .carriageReturn => if rest.head? = some '\n' then 1 else 0
  | .lineFeed | .newline => 0
  | property => (extent (State.start property) (property == .joiner) false rest).getD 0

def segments : List Char → List (List Char)
  | [] => []
  | c :: rest =>
    let extent := segmentExtent c rest
    (c :: rest.take extent) :: segments (rest.drop extent)
termination_by cs => cs.length
decreasing_by simp only [List.length_drop, List.length_cons]; omega

theorem flatten_segments (cs : List Char) : (segments cs).flatten = cs := by
  fun_induction segments cs with
  | case1 => rfl
  | case2 c rest extent ih => simp [ih, extent]

def ofText (cs : List Char) : List (List Char) :=
  (segments cs).filter fun segment => segment.any isAlphanumeric

end XmlStore.Words
