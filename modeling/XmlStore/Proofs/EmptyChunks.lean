import XmlStore.Proofs.Accumulating
import XmlStore.Proofs.Replaying

/-!
# Empty chunks

A chunk without code units leaves a run of text as it is, so that the chunks after it fare as they
would without it. It is taken itself, with one exception: after half of a surrogate pair an empty
chunk of bytes is refused as if it held any, where an empty chunk of UTF-16 is taken even inside a
sequence of bytes. So a reader that stops at the first refusal may stop at a chunk with nothing in
it.
-/

namespace XmlStore.TextRun

-- ---------------------------------------------------------------------------
-- One empty chunk
-- ---------------------------------------------------------------------------

/-- A chunk of bytes, though without any, comes where the other half of a surrogate pair is due. -/
def CutsPair (run : TextRun) (chunk : Chunk) : Prop :=
  chunk = .utf8 [] ∧ ∃ high, run.ensureComplete = .error (.endsInSurrogate high)

theorem ensureComplete_eq_endsInSurrogate_iff {run : TextRun} {high : UInt16} :
    run.ensureComplete = .error (.endsInSurrogate high) ↔ run.held = .surrogate high := by
  unfold ensureComplete
  cases run.held <;> simp

namespace Whole

variable {run : TextRun} {chunk : Chunk}

theorem holdsNoSurrogate (h : run.Whole) (hs : ∀ high, run.held ≠ .surrogate high) :
    run.HoldsNoSurrogate := by
  have hheld := h.held
  unfold HoldsNoSurrogate
  generalize run.held = held at hheld hs
  cases hheld with
  | nothing => exact ⟨[], rfl⟩
  | bytes hl hf => exact ⟨_, rfl, hf⟩
  | surrogate => exact absurd rfl (hs _)

theorem push_isEmpty (h : run.Whole) (he : chunk.isEmpty) :
    ¬ run.CutsPair chunk ∧ TextRun.push chunk run = .ok () run ∨
      run.CutsPair chunk ∧ TextRun.push chunk run = .error .utf8AfterSurrogate run := by
  simp only [CutsPair, ensureComplete_eq_endsInSurrogate_iff]
  by_cases hs : ∃ high, run.held = .surrogate high
  · obtain ⟨high, hhigh⟩ := hs
    cases chunk with
    | utf8 bytes =>
      obtain rfl : bytes = [] := List.isEmpty_iff.mp he
      exact .inr ⟨⟨rfl, high, hhigh⟩, by simp [TextRun.push, TextRun.pushUtf8, hhigh]⟩
    | utf16 units =>
      obtain rfl : units = [] := List.isEmpty_iff.mp he
      exact .inl ⟨by simp, rfl⟩
  · refine .inl ⟨fun hc => hs hc.2, push_of_isEmpty (h.holdsNoSurrogate ?_) he⟩
    exact fun high hhigh => hs ⟨high, hhigh⟩

theorem after_push_isEmpty (h : run.Whole) (he : chunk.isEmpty) :
    run.after (.push chunk) = run := by
  rcases h.push_isEmpty he with ⟨-, hr⟩ | ⟨-, hr⟩ <;> simp [TextRun.after, hr]

end Whole

-- ---------------------------------------------------------------------------
-- Sequences with empty chunks put in
-- ---------------------------------------------------------------------------

/-- What can be seen of a push: whether the chunk is taken, and afterwards the text, whether there
is nothing at all, and whether the text is complete. -/
structure Report where
  taken : Except EncodingFault Unit
  text : Bytes
  isEmpty : Bool
  complete : Except EncodingFault Unit
  deriving DecidableEq

def Report.of : EStateM.Result EncodingFault TextRun Unit → Report
  | .ok () run => ⟨.ok (), run.text, run.isEmpty, run.ensureComplete⟩
  | .error fault run => ⟨.error fault, run.text, run.isEmpty, run.ensureComplete⟩

/-- The reports of pushes one after the other. A refused push does not end them. -/
def reports : TextRun → List Chunk → List Report
  | _, [] => []
  | run, chunk :: rest =>
    Report.of (push chunk run) :: reports (run.after (.push chunk)) rest

/-- A push of a sequence, or that of an empty chunk which has been put in between. -/
inductive Padded where
  | own (chunk : Chunk)
  | padding (chunk : Chunk) (h : chunk.isEmpty)

namespace Padded

def chunk : Padded → Chunk
  | .own chunk => chunk
  | .padding chunk _ => chunk

def own? : Padded → Option Chunk
  | .own chunk => some chunk
  | .padding _ _ => none

/-- The reports of the sequence's own pushes, when the empty chunks are pushed as well. -/
def reports : TextRun → List Padded → List Report
  | _, [] => []
  | run, .own chunk :: rest =>
    Report.of (push chunk run) :: reports (run.after (.push chunk)) rest
  | run, .padding chunk _ :: rest => reports (run.after (.push chunk)) rest

theorem reports_eq {run : TextRun} (h : run.Whole) (pushes : List Padded) :
    reports run pushes = TextRun.reports run (pushes.filterMap own?) := by
  induction pushes generalizing run with
  | nil => rfl
  | cons next rest ih =>
    cases next with
    | own chunk => exact congrArg (Report.of (push chunk run) :: ·) (ih (h.after (.push chunk)))
    | padding chunk he =>
      simp only [reports, List.filterMap_cons, own?, h.after_push_isEmpty he]
      exact ih h

end Padded

/-- Empty chunks, wherever they are put in, change nothing for the other pushes. They are taken
themselves, except that one of bytes is refused where half of a surrogate pair waits for the
other; then, too, the run stays as it was. -/
theorem reports_of_padded (pushes : List Padded) :
    Padded.reports empty pushes = reports empty (pushes.filterMap Padded.own?) ∧
    ∀ before chunk he after, pushes = before ++ .padding chunk he :: after →
      let run := (before.map fun next => .push next.chunk).foldl TextRun.after empty
      run.after (.push chunk) = run ∧
      (¬ run.CutsPair chunk → push chunk run = .ok () run) ∧
      (run.CutsPair chunk → push chunk run = .error .utf8AfterSurrogate run) := by
  refine ⟨Padded.reports_eq whole_empty pushes, ?_⟩
  intro before chunk he _ _ run
  have hwhole : run.Whole := whole_foldl _
  refine ⟨hwhole.after_push_isEmpty he, ?_⟩
  rcases hwhole.push_isEmpty he with ⟨hc, hr⟩ | ⟨hc, hr⟩
  · exact ⟨fun _ => hr, fun h => absurd h hc⟩
  · exact ⟨fun h => absurd hc h, fun _ => hr⟩

theorem reports_of_padded_pair :
    let pushes : List Padded := [.own (.utf16 [0xD83D]), .padding (.utf16 []) rfl,
      .padding (.utf8 []) rfl, .own (.utf16 [0xDE00])]
    let run : TextRun := { held := .surrogate 0xD83D }
    (Padded.reports empty pushes).map (·.taken) = [.ok (), .ok ()] ∧
      push (.utf16 []) run = .ok () run ∧ ¬ run.CutsPair (.utf16 []) ∧
      push (.utf8 []) run = .error .utf8AfterSurrogate run ∧ run.CutsPair (.utf8 []) := by
  intro pushes run
  obtain ⟨hreports, hpadding⟩ := reports_of_padded pushes
  have htaken : ¬ run.CutsPair (.utf16 []) := fun h => nomatch h.1
  have hcuts : run.CutsPair (.utf8 []) := ⟨rfl, 0xD83D, rfl⟩
  obtain ⟨-, hunits, -⟩ := hpadding [.own (.utf16 [0xD83D])] (.utf16 []) rfl _ rfl
  obtain ⟨-, -, hbytes⟩ :=
    hpadding [.own (.utf16 [0xD83D]), .padding (.utf16 []) rfl] (.utf8 []) rfl _ rfl
  exact ⟨by rw [hreports]; rfl, hunits htaken, htaken, hbytes hcuts, hcuts⟩

/-- The halves of a pair are taken one after the other, but an empty chunk of bytes between them is
refused, and a reader that stops there never comes to the second half. -/
theorem emptyBytes_in_pair_refused :
    let pair : List Chunk := [.utf16 [0xD83D], .utf16 [0xDE00]]
    let padded : List Chunk := [.utf16 [0xD83D], .utf8 [], .utf16 [0xDE00]]
    (reports empty pair).map (·.taken) = [.ok (), .ok ()] ∧
    (reports empty padded).map (·.taken) = [.ok (), .error .utf8AfterSurrogate, .ok ()] ∧
    (∃ run, pair.forM push empty = .ok () run ∧ run.text = Utf8.encode [Char.ofNat 0x1F600]) ∧
    padded.forM push empty = .error .utf8AfterSurrogate { held := .surrogate 0xD83D } := by
  exact ⟨rfl, rfl, ⟨_, rfl, rfl⟩, rfl⟩

end XmlStore.TextRun
