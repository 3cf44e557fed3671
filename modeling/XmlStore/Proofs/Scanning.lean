import XmlStore.Proofs.Failing
import XmlStore.Proofs.Recutting

/-!
# Scanning

A parser scans the bytes that it has from a place on, step by step: markup is a step, and so is
text together with the reference that it may end at. Each step that goes on goes farther, and each
that waits leaves bytes, which it does not do at the end of the input. So a scan ends, the bytes
taken and those left make up what was fed, and nothing is left in the end.
-/

namespace XmlStore

-- ---------------------------------------------------------------------------
-- Steps
-- ---------------------------------------------------------------------------

/-- A reading after events for which `taken` bytes have been read. -/
def Reading.behind (events : List (Context × Event)) (taken : Nat) (rest : Reading Progress) :
    Reading Progress :=
  { events := events ++ rest.events
    context := rest.context
    outcome := rest.outcome.map (Progress.after taken) }

theorem Reading.behind_nothing (rest : Reading Progress) : rest.behind [] 0 = rest := by
  cases rest with
  | mk events context outcome =>
    cases outcome with
    | error fault => rfl
    | ok progress => cases progress <;> simp [behind, Except.map, Progress.after]

/-- What is read after a construct that stands behind others stands behind all of them. -/
theorem Reading.resume_behind (last : Bool) (here : Nat) (bs : Bytes)
    (events : List (Context × Event)) (taken : Nat) (rest : Reading Progress) :
    (rest.behind events taken).resume last here bs =
      (rest.resume last (here + taken) (bs.drop taken)).prepend events taken := by
  unfold resume behind
  cases rest.outcome with
  | error fault => rfl
  | ok progress =>
    cases progress with
    | wait more => rfl
    | advance more =>
      simp only [Except.map, Progress.after, prepend_prepend, List.drop_drop, Nat.add_assoc]

namespace Construct

/-- Text up to the next markup or reference and, if that is a reference, the reference. -/
def textAndReference (c : Context) (here : Nat) (last : Bool) (bs : Bytes) : Reading Progress :=
  let before := text c here last bs
  match before.outcome with
  | .ok (.advance taken) =>
    match bs.drop taken with
    | 0x26 :: rest =>
      (reference before.context (here + taken) last (0x26 :: rest)).behind before.events taken
    | _ => before
  | _ => before

/-- One step of a scan. -/
def step (c : Context) (here : Nat) (last : Bool) (bs : Bytes) : Reading Progress :=
  match bs with
  | 0x3C :: _ => markup c here last bs
  | _ => textAndReference c here last bs

end Construct

/-- One step of a scan at a place in a buffer, which begins at `base` in the document. How far the
step has come is a place in the buffer, too. -/
def stepAt (last : Bool) (base : Nat) (buffer : Bytes) (c : Context) (place : Nat) :
    Reading Progress :=
  (Construct.step c (base + place) last (buffer.drop place)).behind [] place

/-- A scan of a buffer from a place on, step by step until one fails or waits or no byte is left.
The outcome is the place where it stops. -/
inductive Scans (last : Bool) (base : Nat) (buffer : Bytes) : Context → Nat → Reading Nat → Prop
  | done {c : Context} {place : Nat} (h : buffer.length ≤ place) :
    Scans last base buffer c place { context := c, outcome := .ok place }
  | fails {c : Context} {place : Nat} {fault : Error} (h : place < buffer.length)
    (ho : (stepAt last base buffer c place).outcome = .error fault) :
    Scans last base buffer c place
      { stepAt last base buffer c place with outcome := .error fault }
  | waits {c : Context} {place stop : Nat} (h : place < buffer.length)
    (ho : (stepAt last base buffer c place).outcome = .ok (.wait stop)) :
    Scans last base buffer c place { stepAt last base buffer c place with outcome := .ok stop }
  | goesOn {c : Context} {place next : Nat} {rest : Reading Nat} (h : place < buffer.length)
    (ho : (stepAt last base buffer c place).outcome = .ok (.advance next))
    (hr : Scans last base buffer (stepAt last base buffer c place).context next rest) :
    Scans last base buffer c place
      { rest with events := (stepAt last base buffer c place).events ++ rest.events }

/-- Going on takes bytes that are there; waiting leaves some and is for the middle of the input. -/
def Progress.Proceeds (last : Bool) (start stop : Nat) : Progress → Prop
  | .advance next => start < next ∧ next ≤ stop
  | .wait place => last = false ∧ start ≤ place ∧ place < stop

theorem Progress.Proceeds.after {last : Bool} {bs : Bytes} {taken : Nat} {progress : Progress}
    (h : progress.Proceeds last 0 (bs.drop taken).length) (ht : taken ≤ bs.length) :
    (progress.after taken).Proceeds last taken bs.length := by
  rw [List.length_drop] at h
  cases progress with
  | advance more =>
    obtain ⟨hpos, hle⟩ := h
    exact ⟨by omega, by omega⟩
  | wait more =>
    obtain ⟨hlast, -, hlt⟩ := h
    exact ⟨hlast, by omega, by omega⟩

theorem Progress.Proceeds.mono {last : Bool} {start start' stop : Nat} {progress : Progress}
    (h : progress.Proceeds last start stop) (hs : start' ≤ start) :
    progress.Proceeds last start' stop := by
  cases progress with
  | advance next => exact ⟨hs.trans_lt h.1, h.2⟩
  | wait place => exact ⟨h.1, hs.trans h.2.1, h.2.2⟩

namespace Construct

variable {c : Context} {here : Nat} {last : Bool} {bs : Bytes} {progress : Progress}

/-- Only text in front of a carriage return, and what is incomplete, waits. -/
theorem read_proceeds (hbs : bs ≠ []) (h : (read c here last bs).outcome = .ok progress) :
    progress.Proceeds last 0 bs.length := by
  have hwithin := (read_sound hbs c here last).2 progress h
  cases progress with
  | advance taken => exact hwithin
  | wait taken =>
    obtain ⟨run, rest, rfl, hrun, hrest⟩ := exists_run bs
    by_cases hne : run = []
    · subst hne
      rcases read_settles hbs hrest c here with ⟨position, fault, hr⟩ | ⟨hr, _, _, _, hc⟩
      · -- What is incomplete takes nothing.
        have hr := hr last [] rfl
        rw [List.append_nil] at hr
        rw [hr] at h
        unfold Context.incomplete at h
        cases last with
        | true => cases h
        | false =>
          cases h
          exact ⟨rfl, Nat.le_refl 0, List.length_pos_iff.mpr hbs⟩
      · -- What is complete does not wait.
        have hr := hr last []
        rw [List.append_nil] at hr
        rw [hr] at h
        rcases hc.outcome with ho | ⟨fault, ho⟩ <;> rw [ho] at h <;> cases h
    · rw [read_text hrun hne, text_run hrun hrest] at h
      split at h
      next hold =>
        cases told_outcome h
        have hlast : last = false := by
          cases last with
          | true => cases hold
          | false => rfl
        have hpos := List.length_pos_iff.mpr hne
        refine ⟨hlast, Nat.zero_le _, ?_⟩
        rw [List.length_dropLast, List.length_append]
        omega
      next => cases told_outcome h

theorem text_reference (c : Context) (here : Nat) (last : Bool) (rest : Bytes) :
    text c here last (0x26 :: rest) = { context := c, outcome := .ok (.advance 0) } := by
  have hrest : ∀ b, (0x26 :: rest).head? = some b → isText b = false := by
    rintro _ ⟨⟩
    rfl
  have htext : text c here last ([] ++ 0x26 :: rest) = _ := text_run (by simp) hrest c here last
  have hold : holdsBack last [] (0x26 :: rest) = false := by simp [holdsBack]
  rw [hold, if_neg Bool.false_ne_true, textEvents_nil] at htext
  exact htext

/-- A step is a construct, or it is text and then a reference. -/
theorem step_cases (hbs : bs ≠ []) (c : Context) (here : Nat) (last : Bool) :
    step c here last bs = read c here last bs ∨
      ∃ taken, (read c here last bs).outcome = .ok (.advance taken) ∧ bs.drop taken ≠ [] ∧
        step c here last bs =
          (read (read c here last bs).context (here + taken) last (bs.drop taken)).behind
            (read c here last bs).events taken := by
  obtain ⟨first, rest, rfl⟩ := List.exists_cons_of_ne_nil hbs
  by_cases hless : first = 0x3C
  · subst hless
    exact .inl rfl
  have hstep : step c here last (first :: rest) = textAndReference c here last (first :: rest) := by
    unfold step
    split
    next h => exact absurd (List.cons.inj h).1 hless
    next => rfl
  rw [hstep]
  unfold textAndReference
  by_cases hand : first = 0x26
  · subst hand
    rw [text_reference]
    exact .inl (Reading.behind_nothing _)
  have hread : read c here last (first :: rest) = text c here last (first :: rest) := by
    unfold read
    split
    next h => exact absurd (List.cons.inj h).1 hless
    next h => exact absurd (List.cons.inj h).1 hand
    next => rfl
  rw [hread]
  simp only
  split
  next taken ho =>
    split
    next more hdrop =>
      refine .inr ⟨taken, ho, ?_, ?_⟩
      · rw [hdrop]
        exact List.cons_ne_nil _ _
      · rw [hdrop]
        rfl
    next => exact .inl rfl
  next => exact .inl rfl

theorem step_proceeds (hbs : bs ≠ []) (h : (step c here last bs).outcome = .ok progress) :
    progress.Proceeds last 0 bs.length := by
  rcases step_cases hbs c here last with hstep | ⟨taken, ho, hdrop, hstep⟩
  · exact read_proceeds hbs (hstep ▸ h)
  · rw [hstep] at h
    obtain ⟨more, hm, rfl⟩ := Reading.map_eq_ok h
    have hle : taken ≤ bs.length := (read_proceeds hbs ho).2
    exact ((read_proceeds hdrop hm).after hle).mono (Nat.zero_le taken)

theorem readConstructs_eq_resume_step (hbs : bs ≠ []) (last : Bool) (c : Context) (here : Nat) :
    readConstructs last c here bs = (step c here last bs).resume last here bs := by
  rw [readConstructs_eq_resume hbs]
  rcases step_cases hbs c here last with hstep | ⟨taken, ho, hdrop, hstep⟩
  · rw [hstep]
  · rw [hstep, Reading.resume_behind, ← readConstructs_eq_resume hdrop]
    unfold Reading.resume
    rw [ho]

end Construct

-- ---------------------------------------------------------------------------
-- Scans
-- ---------------------------------------------------------------------------

section
variable {last : Bool} {base : Nat} {buffer : Bytes} {c : Context} {place : Nat}

theorem drop_ne_nil (h : place < buffer.length) : buffer.drop place ≠ [] := by
  rw [Ne, List.drop_eq_nil_iff]
  exact Nat.not_le_of_lt h

/-- A step that goes on goes farther, and one that waits leaves bytes. -/
theorem stepAt_proceeds {progress : Progress} (h : place < buffer.length)
    (ho : (stepAt last base buffer c place).outcome = .ok progress) :
    progress.Proceeds last place buffer.length := by
  obtain ⟨taken, ht, rfl⟩ := Reading.map_eq_ok ho
  exact (Construct.step_proceeds (drop_ne_nil h) ht).after h.le

theorem readConstructs_stepAt (h : place < buffer.length) :
    (readConstructs last c (base + place) (buffer.drop place)).prepend [] place =
      (stepAt last base buffer c place).resume last base buffer := by
  rw [Construct.readConstructs_eq_resume_step (drop_ne_nil h), stepAt, Reading.resume_behind]

theorem readConstructs_done (h : buffer.length ≤ place) :
    (readConstructs last c (base + place) (buffer.drop place)).prepend [] place =
      { context := c, outcome := .ok place } := by
  rw [List.drop_eq_nil_of_le h, readConstructs_nil]
  rfl

theorem Scans.eq {reading : Reading Nat} (h : Scans last base buffer c place reading) :
    reading = (readConstructs last c (base + place) (buffer.drop place)).prepend [] place := by
  induction h with
  | done h => rw [readConstructs_done h]
  | fails h ho => rw [readConstructs_stepAt h, Reading.resume, ho]
  | waits h ho => rw [readConstructs_stepAt h, Reading.resume, ho]
  | goesOn h ho _ ih =>
    rw [readConstructs_stepAt h, Reading.resume, ho, ih]
    simp only [Reading.prepend, List.nil_append]

/-- From any place a scan ends: with each step that goes on fewer bytes are left. -/
theorem readConstructs_scans (last : Bool) (base : Nat) (buffer : Bytes) (c : Context)
    (place : Nat) :
    Scans last base buffer c place
      ((readConstructs last c (base + place) (buffer.drop place)).prepend [] place) := by
  induction hn : buffer.length - place using Nat.strongRecOn generalizing c place with
  | ind n ih =>
    subst hn
    by_cases h : place < buffer.length
    · rw [readConstructs_stepAt h]
      unfold Reading.resume
      cases ho : (stepAt last base buffer c place).outcome with
      | error fault => exact .fails h ho
      | ok progress =>
        cases progress with
        | wait stop => exact .waits h ho
        | advance next =>
          obtain ⟨hlt, hle⟩ := stepAt_proceeds h ho
          have hrest := ih (buffer.length - next) (by omega)
            (stepAt last base buffer c place).context next rfl
          exact .goesOn h ho hrest
    · rw [readConstructs_done (Nat.le_of_not_lt h)]
      exact .done (Nat.le_of_not_lt h)

theorem scans_iff {reading : Reading Nat} :
    Scans last base buffer c 0 reading ↔ reading = readConstructs last c base buffer := by
  have hwhole : (readConstructs last c (base + 0) (buffer.drop 0)).prepend [] 0 =
      readConstructs last c base buffer := Reading.prepend_nothing _
  constructor
  · intro h
    exact h.eq.trans hwhole
  · rintro rfl
    exact hwhole ▸ readConstructs_scans last base buffer c 0

/-- A scan that does not fail stops between the place where it begins and the end of the buffer, and
at the end of the input nowhere else. -/
theorem Scans.stops {reading : Reading Nat} (h : Scans last base buffer c place reading)
    (hp : place ≤ buffer.length) {stop : Nat} (ho : reading.outcome = .ok stop) :
    place ≤ stop ∧ stop ≤ buffer.length ∧ (last = true → stop = buffer.length) := by
  induction h with
  | done h =>
    cases ho
    exact ⟨Nat.le_refl _, hp, fun _ => Nat.le_antisymm hp h⟩
  | fails h hstep => cases ho
  | waits h hstep =>
    cases ho
    obtain ⟨hlast, hle, hlt⟩ := stepAt_proceeds h hstep
    exact ⟨hle, hlt.le, fun hl => by simp [hl] at hlast⟩
  | goesOn h hstep _ ih =>
    obtain ⟨hlt, hle⟩ := stepAt_proceeds h hstep
    obtain ⟨hfrom, hto, hall⟩ := ih hle ho
    exact ⟨hlt.le.trans hfrom, hto, hall⟩

end

-- ---------------------------------------------------------------------------
-- Bytes that were fed
-- ---------------------------------------------------------------------------

namespace Parser

variable {parser : Parser} {fed : Bytes}

/-- The bytes that were fed are those taken, as many as the position says, and those unread. -/
def Accounts (parser : Parser) (fed : Bytes) : Prop :=
  ∃ taken, taken.length = parser.position ∧ taken ++ parser.unread = fed

theorem ofOptions_accounts (options : ReadOptions) : (ofOptions options).Accounts [] :=
  ⟨[], rfl, rfl⟩

theorem Accounts.length (h : parser.Accounts fed) :
    parser.position + parser.unread.length = fed.length := by
  obtain ⟨taken, hl, rfl⟩ := h
  rw [List.length_append, hl]

theorem next_scans (parser : Parser) (last : Bool) (piece : Bytes) :
    Scans last parser.position (parser.unread ++ piece) parser.context 0
      (parser.next last piece) := scans_iff.mpr rfl

/-- A piece is scanned together with what was left, and what the scan takes is taken. -/
theorem Paused.feed_scans (hp : parser.Paused) {piece : Bytes}
    (hr : (parser.feed piece).result = .ok ()) :
    ∃ reading stop, Scans false parser.position (parser.unread ++ piece) parser.context 0 reading ∧
      reading.outcome = .ok stop ∧
      (parser.feed piece).parser.position = parser.position + stop ∧
      (parser.feed piece).parser.unread = (parser.unread ++ piece).drop stop ∧
      (parser.feed piece).parser.Paused := by
  cases hn : (parser.next false piece).outcome with
  | error fault =>
    rw [hp.feed_fault hn] at hr
    cases hr
  | ok stop =>
    obtain ⟨-, hpaused, -, hposition, hunread⟩ := hp.feed_ok hn
    exact ⟨_, stop, parser.next_scans false piece, hn, hposition, hunread, hpaused⟩

theorem Accounts.feed (h : parser.Accounts fed) (hp : parser.Paused) {piece : Bytes}
    (hr : (parser.feed piece).result = .ok ()) :
    (parser.feed piece).parser.Accounts (fed ++ piece) := by
  obtain ⟨before, hl, rfl⟩ := h
  obtain ⟨reading, stop, hscan, ho, hposition, hunread, -⟩ := hp.feed_scans hr
  obtain ⟨-, hle, -⟩ := hscan.stops (Nat.zero_le _) ho
  refine ⟨before ++ (parser.unread ++ piece).take stop, ?_, ?_⟩
  · rw [List.length_append, List.length_take_of_le hle, hl, hposition]
  · rw [hunread, List.append_assoc, List.take_append_drop, List.append_assoc]

/-- At the end of the input all bytes are taken, if they can be read. -/
theorem Accounts.process_last (h : parser.Accounts fed)
    (hr : (parser.process true).result = .ok ()) :
    (parser.process true).parser.unread = [] ∧
      (parser.process true).parser.position = fed.length := by
  cases hn : (readConstructs true parser.context parser.position parser.unread).outcome with
  | error fault =>
    rw [process_fault hn] at hr
    cases hr
  | ok taken =>
    obtain ⟨-, -, hall⟩ := (scans_iff.mpr rfl).stops (Nat.zero_le _) hn
    obtain rfl := hall rfl
    obtain ⟨-, hafter⟩ := process_taken hn
    rw [hafter (by simp), ← h.length]
    exact ⟨by simp [unread], rfl⟩

/-- What is wrong at the end of the input is wrong with a construct, or with the elements. -/
theorem finish_ne_unexpectedEnd (hf : parser.finished = false) (position : Nat) :
    parser.finish.result ≠ .error (.malformed position .unexpectedEnd) := by
  intro h
  have hread := readConstructs_failsInside true parser.context parser.position
    (parser.unread ++ [])
  obtain ⟨-, -, hresult⟩ := finish_spec hf
  have h := hresult.symm.trans h
  unfold Reading.verdict at h
  split at h
  next fault ho =>
    cases h
    cases hread _ ho
  next taken ho =>
    obtain ⟨-, -, hall⟩ := (parser.next_scans true []).stops (Nat.zero_le _) ho
    have hlength := hall rfl
    rw [List.append_nil] at hlength
    rw [if_neg (by omega)] at h
    split at h
    next fault hmissing =>
      cases h
      unfold missing? unfinished? at hmissing
      split at hmissing
      · cases hmissing
      · split at hmissing <;> cases hmissing
    next => cases h

theorem finish_ok (hr : parser.finish.result = .ok ()) :
    (parser.begun.process true).result = .ok () ∧
      parser.finish.parser = { (parser.begun.process true).parser with finished := true } := by
  cases hf : parser.finished with
  | true =>
    unfold finish at hr
    rw [if_pos hf] at hr
    cases hr
  | false =>
    unfold finish at hr ⊢
    simp only [hf, start_snd, Bool.false_eq_true, ↓reduceIte] at hr ⊢
    split at hr
    next fault ho => cases ho.symm.trans hr
    next ho =>
      split at hr
      next => cases hr
      next hmissing =>
        refine ⟨ho, ?_⟩
        rfl

end Parser

namespace Session

variable {σ : Type} {handle : Handler σ} {session after : Session σ} {pieces : List Bytes}
  {fed piece : Bytes}

theorem of_feed (h : feed handle piece session = .ok () after) :
    (session.parser.feed piece).result = .ok () ∧
      after.parser = (session.parser.feed piece).parser := by
  obtain ⟨hr, hp, -⟩ := deliver_ok_iff.mp
    (show deliver handle (session.parser.feed piece) session = .ok () after from h)
  exact ⟨hr, hp⟩

theorem of_finish (h : finish handle session = .ok () after) :
    session.parser.finish.result = .ok () ∧ after.parser = session.parser.finish.parser := by
  obtain ⟨hr, hp, -⟩ := deliver_ok_iff.mp
    (show deliver handle session.parser.finish session = .ok () after from h)
  exact ⟨hr, hp⟩

/-- A parser accounts for all pieces, whoever receives its events. -/
theorem feedAll_accounts (hp : session.parser.Paused) (ha : session.parser.Accounts fed)
    (h : feedAll handle pieces session = .ok () after) :
    after.parser.Paused ∧ after.parser.Accounts (fed ++ pieces.flatten) := by
  induction pieces generalizing session fed with
  | nil =>
    rw [feedAll_nil h, List.flatten_nil, List.append_nil]
    exact ⟨hp, ha⟩
  | cons piece rest ih =>
    obtain ⟨next, hfeed, hrest⟩ := of_run_forM_cons h
    obtain ⟨hr, hnext⟩ := of_feed hfeed
    obtain ⟨-, -, -, -, -, -, hpaused⟩ := hp.feed_scans hr
    rw [List.flatten_cons, ← List.append_assoc]
    exact ih (hnext ▸ hpaused) (hnext ▸ ha.feed hp hr) hrest

/-- What a session to which these bytes have been fed comes to with any piece that comes next, and
at the end of the input. -/
structure Progresses (handle : Handler σ) (fed : Bytes) (session : Session σ) : Prop where
  accounts : session.parser.Accounts fed
  /-- A step that goes on goes farther in the buffer, and a step that waits leaves bytes of it,
  which it does not do at the end of the input. -/
  step : ∀ last piece c place progress,
    place < (session.parser.unread ++ piece).length →
    (stepAt last session.parser.position (session.parser.unread ++ piece) c place).outcome =
      .ok progress →
    progress.Proceeds last place (session.parser.unread ++ piece).length
  /-- A scan ends, and in one way. -/
  scan : ∀ last piece reading,
    Scans last session.parser.position (session.parser.unread ++ piece) session.parser.context 0
      reading ↔ reading = session.parser.next last piece
  /-- A piece is taken as far as the scan goes, and the rest of it is left. -/
  feed : ∀ piece after, Session.feed handle piece session = .ok () after →
    after.parser.Accounts (fed ++ piece) ∧
      ∃ reading stop,
        Scans false session.parser.position (session.parser.unread ++ piece)
          session.parser.context 0 reading ∧
        reading.outcome = .ok stop ∧ after.parser.position = session.parser.position + stop ∧
        after.parser.unread = (session.parser.unread ++ piece).drop stop
  /-- That bytes are left is never what is wrong with the input. -/
  settled : ∀ position,
    session.parser.finish.result ≠ .error (.malformed position .unexpectedEnd)
  processed : (session.parser.process true).result = .ok () →
    (session.parser.process true).parser.unread = [] ∧
      (session.parser.process true).parser.position = fed.length
  finished : ∀ after, Session.finish handle session = .ok () after →
    after.parser.unread = [] ∧ after.parser.position = fed.length

/-- After any pieces that were taken, whoever received their events, scanning goes on, no byte is
lost, and the end of the input leaves none. -/
theorem feedAll_progresses {options : ReadOptions} {receiver : σ}
    (h : feedAll handle pieces ⟨.ofOptions options, receiver⟩ = .ok () session) :
    session.Progresses handle pieces.flatten := by
  obtain ⟨hp, ha⟩ := feedAll_accounts (Parser.ofOptions_paused options)
    (Parser.ofOptions_accounts options) h
  rw [List.nil_append] at ha
  exact
    { accounts := ha
      step := fun _ _ _ _ _ hplace ho => stepAt_proceeds hplace ho
      scan := fun _ _ _ => scans_iff
      feed := by
        intro piece after hfeed
        obtain ⟨hr, hafter⟩ := of_feed hfeed
        obtain ⟨reading, stop, hscan, ho, hposition, hunread, -⟩ := hp.feed_scans hr
        rw [hafter]
        exact ⟨ha.feed hp hr, reading, stop, hscan, ho, hposition, hunread⟩
      settled := Parser.finish_ne_unexpectedEnd hp.unfinished
      processed := ha.process_last
      finished := by
        intro after hfinish
        obtain ⟨hr, hafter⟩ := of_finish hfinish
        obtain ⟨hlast, hparser⟩ := Parser.finish_ok hr
        have hbegun : session.parser.begun.Accounts pieces.flatten := ha
        obtain ⟨hunread, hposition⟩ := hbegun.process_last hlast
        rw [hafter, hparser]
        exact ⟨hunread, hposition⟩ }

/-- A line end that is cut, in text that a reference follows. -/
def cutLineEnd : List Bytes := [ascii "<a>x\r", ascii "&lt;</a>"]

theorem cutLineEnd_progresses :
    ∃ session, feedAll Log.record cutLineEnd (recording {}) = .ok () session ∧
      session.Progresses Log.record cutLineEnd.flatten := by
  obtain ⟨session, hfeed, -⟩ | ⟨fault, session, -, hfault⟩ := (recording_fed {}).feedAll cutLineEnd
  · exact ⟨session, hfeed, feedAll_progresses hfeed⟩
  · have hread : (reading {} false cutLineEnd.flatten).outcome = .ok 13 := by decide +kernel
    have ho := (hfault false).1
    rw [List.nil_append, hread] at ho
    cases ho

end Session

end XmlStore
