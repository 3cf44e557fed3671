import Mathlib.Data.List.TakeWhile
import XmlStore.Proofs.Coalescing
import XmlStore.Proofs.Constructs

/-!
# Reading in two steps

Reading the bytes at hand and then going on, where more bytes have come, shows the same as reading
all bytes at once. Constructs other than text settle; text may be told in two parts instead of
one, which does not show when adjacent texts are coalesced.
-/

namespace XmlStore

-- ---------------------------------------------------------------------------
-- Readings that look the same
-- ---------------------------------------------------------------------------

/-- The progress of a reading that has begun `before` bytes earlier. -/
def Progress.after (before : Nat) : Progress → Progress
  | .advance taken => .advance (before + taken)
  | .wait taken => .wait (before + taken)

/-- The events of a reading as they look when the cutting of text does not show. -/
def Reading.seen {α : Type} (reading : Reading α) : List Event :=
  Log.seen (reading.events.map (·.2))

/-- Readings that differ at most in how they cut text. -/
structure Reading.Alike {α : Type} (first second : Reading α) : Prop where
  seen : first.seen = second.seen
  context : first.context = second.context
  outcome : first.outcome = second.outcome

namespace Reading

variable {α : Type}

theorem Alike.refl (reading : Reading α) : reading.Alike reading := ⟨rfl, rfl, rfl⟩

theorem Alike.of_eq {first second : Reading α} (h : first = second) : first.Alike second :=
  h ▸ .refl _

theorem Alike.trans {first second third : Reading α} (h : first.Alike second)
    (h' : second.Alike third) : first.Alike third :=
  ⟨h.seen.trans h'.seen, h.context.trans h'.context, h.outcome.trans h'.outcome⟩

/-- A reading after events for which `taken` bytes have been read. -/
def prepend (events : List (Context × Event)) (taken : Nat) (rest : Reading Nat) : Reading Nat :=
  { events := events ++ rest.events
    context := rest.context
    outcome := rest.outcome.map (taken + ·) }

theorem map_eq_ok {β γ : Type} {f : β → γ} {outcome : Except Error β} {c : γ}
    (h : outcome.map f = .ok c) : ∃ b, outcome = .ok b ∧ f b = c := by
  cases outcome with
  | error fault => simp [Except.map] at h
  | ok b => exact ⟨b, rfl, Except.ok.inj h⟩

theorem map_add_map_add (a b : Nat) (outcome : Except Error Nat) :
    (outcome.map (b + ·)).map (a + ·) = outcome.map (a + b + ·) := by
  cases outcome <;> simp [Except.map, Nat.add_assoc]

theorem prepend_prepend (events others : List (Context × Event)) (a b : Nat)
    (rest : Reading Nat) :
    (rest.prepend others b).prepend events a = rest.prepend (events ++ others) (a + b) := by
  simp [prepend, map_add_map_add]

theorem prepend_nothing (rest : Reading Nat) : rest.prepend [] 0 = rest := by
  cases rest with
  | mk events context outcome => cases outcome <;> simp [prepend, Except.map]

theorem seen_prepend (events : List (Context × Event)) (taken : Nat) (rest : Reading Nat) :
    (rest.prepend events taken).seen =
      Log.seen (events.map (·.2) ++ rest.events.map (·.2)) := by
  simp [prepend, seen]

theorem Alike.prepend {first second : Reading Nat} (h : first.Alike second)
    (events : List (Context × Event)) (taken : Nat) :
    (first.prepend events taken).Alike (second.prepend events taken) := by
  refine ⟨?_, h.context, ?_⟩
  · rw [seen_prepend, seen_prepend]
    exact Log.seen_append_congr rfl h.seen
  · simp only [Reading.prepend, h.outcome]

/-- Goes on after a reading, unless it has ended with a fault. -/
def andThen (first : Reading Nat) (next : Context → Nat → Reading Nat) : Reading Nat :=
  match first.outcome with
  | .error _ => first
  | .ok taken => (next first.context taken).prepend first.events taken

theorem andThen_prepend (events : List (Context × Event)) (taken : Nat) (rest : Reading Nat)
    (next : Context → Nat → Reading Nat) :
    (rest.prepend events taken).andThen next =
      (rest.andThen fun c n => next c (taken + n)).prepend events taken := by
  unfold andThen
  cases ho : rest.outcome with
  | error fault => simp [prepend, ho, Except.map]
  | ok n =>
    have hp : (rest.prepend events taken).outcome = .ok (taken + n) := by
      simp [prepend, ho, Except.map]
    rw [hp]
    exact (prepend_prepend ..).symm

theorem andThen_nothing (c : Context) (next : Context → Nat → Reading Nat) :
    andThen { context := c, outcome := .ok 0 } next = next c 0 :=
  prepend_nothing _

/-- Goes on after the first construct of the bytes. -/
def resume (last : Bool) (here : Nat) (bs : Bytes) (first : Reading Progress) : Reading Nat :=
  match first.outcome with
  | .error fault => { first with outcome := .error fault }
  | .ok (.wait taken) => { first with outcome := .ok taken }
  | .ok (.advance taken) =>
    (readConstructs last first.context (here + taken) (bs.drop taken)).prepend first.events taken

end Reading

theorem readConstructs_nil (last : Bool) (c : Context) (here : Nat) :
    readConstructs last c here [] = { context := c, outcome := .ok 0 } := by
  rw [readConstructs]
  rfl

theorem readConstructs_resume {last : Bool} {c : Context} {here : Nat} {bs : Bytes} (hbs : bs ≠ [])
    (h : ∀ taken, (Construct.read c here last bs).outcome = .ok (.advance taken) → 0 < taken) :
    readConstructs last c here bs = (Construct.read c here last bs).resume last here bs := by
  rw [readConstructs, dif_neg hbs]
  unfold Reading.resume
  cases ho : (Construct.read c here last bs).outcome with
  | error fault => simp only [ho]
  | ok progress =>
    cases progress with
    | wait taken => simp only [ho]
    | advance taken =>
      simp only [ho, Nat.ne_of_gt (h taken ho), ↓reduceDIte]
      rfl

-- ---------------------------------------------------------------------------
-- Runs of text
-- ---------------------------------------------------------------------------

theorem normalizeLineEnds_append {t : Bytes} (u : Bytes)
    (h : t.getLast? = some 0x0D → u.head? ≠ some 0x0A) :
    normalizeLineEnds (t ++ u) = normalizeLineEnds t ++ normalizeLineEnds u := by
  fun_induction normalizeLineEnds t with
  | case1 => rfl
  | case2 b =>
    cases u with
    | nil => rfl
    | cons c rest =>
      have hc : (b == 0x0D && c == 0x0A) = false := by
        rw [Bool.and_eq_false_imp]
        intro hb
        exact beq_eq_false_iff_ne.mpr fun hc => h (by simpa using hb) (by simp [hc])
      simp [normalizeLineEnds, hc]
  | case3 b c rest hbc ih =>
    have hl : rest.getLast? = some 0x0D → u.head? ≠ some 0x0A := by
      intro hr
      exact h (by simp [List.getLast?_cons, hr])
    simp only [List.cons_append, normalizeLineEnds, hbc, ↓reduceIte, ih hl]
  | case4 b c rest hbc ih =>
    have ih := ih fun hr => h (by simpa [List.getLast?_cons] using hr)
    simp only [List.cons_append, normalizeLineEnds, hbc, Bool.false_eq_true, ↓reduceIte] at ih ⊢
    rw [ih]

namespace Construct

theorem exists_run (bs : Bytes) : ∃ run rest, bs = run ++ rest ∧ (∀ b ∈ run, isText b) ∧
    ∀ b, rest.head? = some b → isText b = false := by
  refine ⟨bs.takeWhile isText, bs.dropWhile isText, ?_, ?_, ?_⟩
  · exact List.takeWhile_append_dropWhile.symm
  · exact fun b hb => List.mem_takeWhile_imp hb
  · intro b hb
    simpa only [hb] using List.head?_dropWhile_not isText bs

/-- The events of a run of text, or the fault that it is where no text may stand. -/
def textEvents (c : Context) (here : Nat) (text : Bytes) : Except Error (List (Context × Event)) :=
  if c.stage = .content then
    .ok (if text.isEmpty then [] else [(c, .text (.utf8 (normalizeLineEnds text)))])
  else
    match text.findIdx? fun b => !isSpace b with
    | some i => .error (.malformed (here + i) .textOutsideRoot)
    | none => .ok []

theorem textEvents_nil (c : Context) (here : Nat) : textEvents c here [] = .ok [] := by
  unfold textEvents
  split <;> rfl

/-- A reading that tells these events, or the fault in their place. -/
def told (c : Context) (events : Except Error (List (Context × Event))) (progress : Progress) :
    Reading Progress :=
  match events with
  | .error fault => c.fail fault
  | .ok events => { events, context := c, outcome := .ok progress }

theorem told_textEvents (c : Context) (here : Nat) (text : Bytes) (progress : Progress) :
    (if c.stage = .content then
      if text.isEmpty then { context := c, outcome := .ok progress }
      else
        { events := [(c, .text (.utf8 (normalizeLineEnds text)))]
          context := c
          outcome := .ok progress }
    else
      match text.findIdx? fun b => !isSpace b with
      | some i => c.failAt (here + i) .textOutsideRoot
      | none => { context := c, outcome := .ok progress }) =
      told c (textEvents c here text) progress := by
  unfold told textEvents
  by_cases hs : c.stage = .content
  · simp only [hs, ↓reduceIte]
    split <;> rfl
  · simp only [hs, ↓reduceIte]
    cases text.findIdx? fun b => !isSpace b <;> rfl

/-- A carriage return that may be half of a line end. -/
def holdsBack (last : Bool) (run rest : Bytes) : Bool :=
  !last && run.getLast? == some 0x0D && rest.isEmpty

theorem of_holdsBack {run rest : Bytes} (h : holdsBack false run rest = true) :
    ∃ t, run = t ++ [0x0D] ∧ rest = [] := by
  simp only [holdsBack, Bool.not_false, Bool.true_and, Bool.and_eq_true, beq_iff_eq,
    List.isEmpty_iff] at h
  obtain ⟨t, ht⟩ := List.getLast?_eq_some_iff.mp h.1
  exact ⟨t, ht, h.2⟩

/-- Text ends where markup or a reference begins or where the bytes do. -/
theorem text_run {run rest : Bytes} (hrun : ∀ b ∈ run, isText b)
    (hrest : ∀ b, rest.head? = some b → isText b = false) (c : Context) (here : Nat) (last : Bool) :
    text c here last (run ++ rest) =
      if holdsBack last run rest then
        told c (textEvents c here run.dropLast) (.wait run.dropLast.length)
      else told c (textEvents c here run) (.advance run.length) := by
  have htake : (run ++ rest).takeWhile (fun b => !(b == 0x3C || b == 0x26)) = run := by
    change (run ++ rest).takeWhile isText = run
    rw [List.takeWhile_append_of_pos hrun]
    cases rest with
    | nil => simp
    | cons b tail => simp [hrest b rfl]
  unfold text
  simp only [htake, List.drop_left, ← holdsBack.eq_def]
  cases holdsBack last run rest with
  | true => exact told_textEvents ..
  | false => exact told_textEvents ..

theorem textEvents_append (c : Context) (here : Nat) {t : Bytes} (u : Bytes)
    (h : t.getLast? = some 0x0D → u.head? ≠ some 0x0A) :
    (textEvents c here (t ++ u)).map (fun events => Log.seen (events.map (·.2))) =
      (textEvents c here t).bind fun first =>
        (textEvents c (here + t.length) u).map fun second =>
          Log.seen ((first ++ second).map (·.2)) := by
  unfold textEvents
  by_cases hs : c.stage = .content
  · simp only [hs, ↓reduceIte, Except.map, Except.bind, Except.ok.injEq]
    cases t with
    | nil => simp
    | cons b t =>
      cases u with
      | nil => simp
      | cons d u =>
        rw [normalizeLineEnds_append _ h]
        exact Log.seen_text_append _ _
  · simp only [hs, ↓reduceIte, List.findIdx?_append]
    cases t.findIdx? fun b => !isSpace b with
    | some i => rfl
    | none =>
      cases u.findIdx? fun b => !isSpace b with
      | some i => simp [Except.map, Except.bind, Nat.add_comm, Nat.add_left_comm]
      | none => rfl

/-- Where text is a fault, text that is none is no event. -/
theorem textEvents_eq_nil {c : Context} {here there : Nat} {t u : Bytes} {fault : Error}
    {events : List (Context × Event)} (hu : textEvents c there u = .error fault)
    (ht : textEvents c here t = .ok events) : events = [] := by
  unfold textEvents at hu ht
  by_cases hs : c.stage = .content
  · simp [hs] at hu
  · simp only [hs, ↓reduceIte] at ht
    cases hi : t.findIdx? fun b => !isSpace b with
    | some i => simp [hi] at ht
    | none => simpa [hi, eq_comm] using ht

theorem told_outcome {c : Context} {events : Except Error (List (Context × Event))}
    {progress progress' : Progress} (h : (told c events progress).outcome = .ok progress') :
    progress' = progress := by
  cases events with
  | error fault => simp [told, Context.fail] at h
  | ok events => simpa [told, eq_comm] using h

theorem read_text {run rest : Bytes} (hrun : ∀ b ∈ run, isText b) (hne : run ≠ [])
    (c : Context) (here : Nat) (last : Bool) :
    read c here last (run ++ rest) = text c here last (run ++ rest) := by
  obtain ⟨b, run, rfl⟩ := List.exists_cons_of_ne_nil hne
  have hb : isText b := hrun b List.mem_cons_self
  unfold read
  split
  next h => simp [isText, (List.cons.inj h).1] at hb
  next h => simp [isText, (List.cons.inj h).1] at hb
  next => rfl

end Construct

open Construct

theorem readConstructs_run {run rest : Bytes} (hrun : ∀ b ∈ run, isText b) (hne : run ≠ [])
    (hrest : ∀ b, rest.head? = some b → isText b = false) (last : Bool) (c : Context)
    (here : Nat) :
    readConstructs last c here (run ++ rest) =
      Reading.resume last here (run ++ rest)
        (if holdsBack last run rest then
          told c (textEvents c here run.dropLast) (.wait run.dropLast.length)
        else told c (textEvents c here run) (.advance run.length)) := by
  rw [readConstructs_resume (by simp [hne]), read_text hrun hne, text_run hrun hrest]
  intro taken ht
  rw [read_text hrun hne, text_run hrun hrest] at ht
  split at ht
  · exact absurd (told_outcome ht) (by simp)
  · cases told_outcome ht
    exact List.length_pos_iff.mpr hne

theorem resume_told_append (last : Bool) (c : Context) (here : Nat) {t : Bytes} (u more : Bytes)
    (h : t.getLast? = some 0x0D → u.head? ≠ some 0x0A) (progress : Progress) :
    (Reading.resume last here (t ++ more)
      (told c (textEvents c here (t ++ u)) (progress.after t.length))).Alike
      (match textEvents c here t with
        | .error fault => c.fail fault
        | .ok events =>
          (Reading.resume last (here + t.length) more
            (told c (textEvents c (here + t.length) u) progress)).prepend events t.length) := by
  have hseen := textEvents_append c here u h
  cases ht : textEvents c here t with
  | error fault =>
    rw [ht] at hseen
    cases ha : textEvents c here (t ++ u) with
    | ok all => simp [ha, Except.map, Except.bind] at hseen
    | error other =>
      simp only [ha, Except.map, Except.bind, Except.error.injEq] at hseen
      subst hseen
      exact .refl _
  | ok first =>
    cases hu : textEvents c (here + t.length) u with
    | error fault =>
      rw [ht, hu] at hseen
      cases ha : textEvents c here (t ++ u) with
      | ok all => simp [ha, Except.map, Except.bind] at hseen
      | error other =>
        simp only [ha, Except.map, Except.bind, Except.error.injEq] at hseen
        rw [textEvents_eq_nil hu ht, hseen]
        exact .refl _
    | ok second =>
      rw [ht, hu] at hseen
      cases ha : textEvents c here (t ++ u) with
      | error fault => simp [ha, Except.map, Except.bind] at hseen
      | ok all =>
        simp only [ha, Except.map, Except.bind, Except.ok.injEq] at hseen
        cases progress with
        | wait taken => exact ⟨hseen, rfl, rfl⟩
        | advance taken =>
          simp only [told, Progress.after, Reading.resume, Reading.prepend_prepend,
            ← List.drop_drop, List.drop_left, ← Nat.add_assoc]
          refine ⟨?_, rfl, rfl⟩
          rw [Reading.seen_prepend, Reading.seen_prepend]
          exact Log.seen_append_congr hseen rfl

/-- A run of text may be split anywhere but inside a line end. -/
theorem readConstructs_text {t more : Bytes} (ht : ∀ b ∈ t, isText b)
    (h : t.getLast? = some 0x0D → ∃ b, more.head? = some b ∧ b ≠ 0x0A) (last : Bool)
    (c : Context) (here : Nat) :
    (readConstructs last c here (t ++ more)).Alike
      ((told c (textEvents c here t) (.advance t.length)).resume last here (t ++ more)) := by
  by_cases hne : t = []
  · subst hne
    rw [textEvents_nil]
    exact .of_eq (Reading.prepend_nothing _).symm
  -- The run goes on with the text at the start of what follows.
  obtain ⟨u, rest, rfl, hu, hrest⟩ := exists_run more
  have hhead : t.getLast? = some 0x0D → u.head? ≠ some 0x0A := by
    intro hl hd
    obtain ⟨b, hb, hne⟩ := h hl
    rw [List.head?_append, hd, Option.some_or, Option.some.injEq] at hb
    exact hne hb.symm
  by_cases hu' : u = []
  · subst hu'
    have hno : holdsBack last t rest = false := by
      unfold holdsBack
      by_cases hl : t.getLast? = some 0x0D
      · obtain ⟨b, hb, -⟩ := h hl
        cases rest <;> simp_all
      · simp [hl]
    rw [List.nil_append, readConstructs_run ht hne hrest, hno, if_neg Bool.false_ne_true]
    exact .refl _
  have hall : ∀ b ∈ t ++ u, isText b := by
    intro b hb
    rcases List.mem_append.mp hb with hb | hb
    · exact ht b hb
    · exact hu b hb
  have hboth : holdsBack last (t ++ u) rest = holdsBack last u rest := by
    rw [holdsBack, holdsBack, List.getLast?_append, List.getLast?_eq_some_getLast hu',
      Option.some_or]
  have hnow := readConstructs_run hall (by simp [hne]) hrest last c here
  have hnext := readConstructs_run hu hu' hrest last c (here + t.length)
  rw [hboth, List.append_assoc, List.length_append, List.dropLast_append_of_ne_nil hu',
    List.length_append] at hnow
  rw [hnow]
  have hresume : (told c (textEvents c here t) (.advance t.length)).resume last here
      (t ++ (u ++ rest)) =
      match textEvents c here t with
      | .error fault => c.fail fault
      | .ok events =>
        (readConstructs last c (here + t.length) (u ++ rest)).prepend events t.length := by
    cases textEvents c here t with
    | error fault => rfl
    | ok events => simp only [told, Reading.resume, List.drop_left]
  rw [hresume, hnext]
  cases holdsBack last u rest with
  | true =>
    refine resume_told_append last c here u.dropLast (u ++ rest) ?_ (.wait u.dropLast.length)
    intro hl
    rw [List.head?_dropLast]
    split
    · exact hhead hl
    · simp
  | false =>
    exact resume_told_append last c here u (u ++ rest) hhead (.advance u.length)

-- ---------------------------------------------------------------------------
-- Readings
-- ---------------------------------------------------------------------------

def Progress.Within (bs : Bytes) : Progress → Prop
  | .advance taken => 0 < taken ∧ taken ≤ bs.length
  | .wait taken => taken ≤ bs.length

theorem textEvents_plain {c : Context} {here : Nat} {text : Bytes}
    {events : List (Context × Event)} (h : textEvents c here text = .ok events) :
    ∀ event ∈ events, event.2.Plain := by
  unfold textEvents at h
  split at h
  · obtain rfl := Except.ok.inj h
    split <;> simp [Event.Plain]
  · split at h
    · simp at h
    · obtain rfl := Except.ok.inj h
      simp

theorem told_sound (c : Context) (here : Nat) (text : Bytes) {progress : Progress} {bs : Bytes}
    (hp : progress.Within bs) :
    (∀ event ∈ (told c (textEvents c here text) progress).events, event.2.Plain) ∧
      ∀ progress', (told c (textEvents c here text) progress).outcome = .ok progress' →
        progress'.Within bs := by
  constructor
  · cases he : textEvents c here text with
    | error fault => simp [told, Context.fail]
    | ok events => exact textEvents_plain he
  · intro progress' h
    rwa [told_outcome h]

/-- A reading takes bytes that are there, and tells events that a log takes as they are. -/
theorem read_sound {bs : Bytes} (hbs : bs ≠ []) (c : Context) (here : Nat) (last : Bool) :
    (∀ event ∈ (read c here last bs).events, event.2.Plain) ∧
      ∀ progress, (read c here last bs).outcome = .ok progress → progress.Within bs := by
  obtain ⟨run, rest, rfl, hrun, hrest⟩ := exists_run bs
  by_cases hne : run = []
  · subst hne
    rcases read_settles hbs hrest c here with ⟨position, fault, h⟩ | ⟨h, taken, h0, hlen, hc⟩
    · have h := h last [] rfl
      rw [List.append_nil] at h
      rw [h]
      unfold Context.incomplete
      split
      · simp [Context.failAt, Context.fail]
      · simp [Progress.Within, eq_comm]
    · have h := h last []
      rw [List.append_nil] at h
      rw [h]
      refine ⟨hc.plain, fun progress hp => ?_⟩
      rcases hc.outcome with ho | ⟨fault, ho⟩
      · rw [ho] at hp
        cases hp
        exact ⟨h0, hlen⟩
      · rw [ho] at hp
        cases hp
  · rw [read_text hrun hne, text_run hrun hrest]
    split
    · refine told_sound c here _ ?_
      simp only [Progress.Within, List.length_dropLast, List.length_append]
      omega
    · refine told_sound c here _ ⟨List.length_pos_iff.mpr hne, ?_⟩
      simp

-- ---------------------------------------------------------------------------
-- Construct after construct
-- ---------------------------------------------------------------------------

theorem readConstructs_eq_resume {bs : Bytes} (hbs : bs ≠ []) (last : Bool) (c : Context)
    (here : Nat) :
    readConstructs last c here bs = (read c here last bs).resume last here bs :=
  readConstructs_resume hbs fun _ ht => ((read_sound hbs c here last).2 _ ht).1

theorem readConstructs_sound (last : Bool) (c : Context) (here : Nat) (bs : Bytes) :
    (∀ event ∈ (readConstructs last c here bs).events, event.2.Plain) ∧
      ∀ taken, (readConstructs last c here bs).outcome = .ok taken → taken ≤ bs.length := by
  induction hn : bs.length using Nat.strongRecOn generalizing c here bs with
  | ind n ih =>
    subst hn
    by_cases hbs : bs = []
    · subst hbs
      simp [readConstructs_nil]
    obtain ⟨hplain, hprogress⟩ := read_sound hbs c here last
    rw [readConstructs_eq_resume hbs]
    unfold Reading.resume
    split
    next => exact ⟨hplain, by simp⟩
    next taken ho =>
      refine ⟨hplain, fun total ht => ?_⟩
      obtain rfl := Except.ok.inj ht
      exact hprogress _ ho
    next taken ho =>
      obtain ⟨h0, hlen⟩ := hprogress _ ho
      obtain ⟨hrest, hmore⟩ := ih (bs.drop taken).length (by rw [List.length_drop]; omega)
        (read c here last bs).context (here + taken) (bs.drop taken) rfl
      constructor
      · intro event he
        rcases List.mem_append.mp he with he | he
        · exact hplain event he
        · exact hrest event he
      · intro total ht
        obtain ⟨more, hm, rfl⟩ := Reading.map_eq_ok ht
        have := hmore more hm
        rw [List.length_drop] at this
        omega

/-- If reading goes on alike after the first construct, it goes on alike. -/
theorem resume_append {last : Bool} {here : Nat} {bs more : Bytes} {first : Reading Progress}
    (hwait : ∀ taken, first.outcome ≠ .ok (.wait taken))
    (hwithin : ∀ progress, first.outcome = .ok progress → progress.Within bs)
    (ih : ∀ taken, first.outcome = .ok (.advance taken) →
      (readConstructs last first.context (here + taken) (bs.drop taken ++ more)).Alike
        ((readConstructs false first.context (here + taken) (bs.drop taken)).andThen
          fun c n => readConstructs last c (here + taken + n) ((bs.drop taken).drop n ++ more))) :
    (first.resume last here (bs ++ more)).Alike
      ((first.resume false here bs).andThen
        fun c n => readConstructs last c (here + n) (bs.drop n ++ more)) := by
  cases ho : first.outcome with
  | error fault =>
    simp only [Reading.resume, ho]
    exact .refl _
  | ok progress =>
    cases progress with
    | wait taken => exact absurd ho (hwait taken)
    | advance taken =>
      have hlen : taken ≤ bs.length := (hwithin _ ho).2
      simp only [Reading.resume, ho, Reading.andThen_prepend, List.drop_append_of_le_length hlen]
      refine ((ih taken ho).prepend first.events taken).trans (.of_eq ?_)
      simp only [List.drop_drop, Nat.add_assoc]

/-- Reading bytes and then, together with those that had to wait, more bytes looks the same as
reading all of them at once. -/
theorem readConstructs_append (last : Bool) (c : Context) (here : Nat) (bs more : Bytes) :
    (readConstructs last c here (bs ++ more)).Alike
      ((readConstructs false c here bs).andThen
        fun c n => readConstructs last c (here + n) (bs.drop n ++ more)) := by
  induction hn : bs.length using Nat.strongRecOn generalizing c here bs with
  | ind n ih =>
    subst hn
    by_cases hbs : bs = []
    · subst hbs
      rw [readConstructs_nil, Reading.andThen_nothing]
      exact .refl _
    have hsound := read_sound hbs c here false
    obtain ⟨run, rest, hbs', hrun, hrest⟩ := exists_run bs
    by_cases hne : run = []
    · subst hne
      obtain rfl : bs = rest := hbs'
      rcases read_settles hbs hrest c here with ⟨position, fault, h⟩ | ⟨h, _, _, _, hc⟩
      · -- More bytes are needed, so that the bytes are read again with them.
        have hnow : readConstructs false c here bs = { context := c, outcome := .ok 0 } := by
          have h := h false [] rfl
          rw [List.append_nil] at h
          rw [readConstructs_eq_resume hbs, h]
          rfl
        rw [hnow, Reading.andThen_nothing]
        exact .refl _
      · rw [readConstructs_eq_resume hbs false,
          readConstructs_eq_resume (List.append_ne_nil_of_left_ne_nil hbs _) last, h last more]
        refine resume_append ?_ hsound.2 ?_
        · intro waiting hw
          rcases hc.outcome with ho | ⟨fault, ho⟩ <;> rw [ho] at hw <;> cases hw
        · intro taken ho
          obtain ⟨h0, hlen⟩ := hsound.2 _ ho
          refine ih _ ?_ _ _ _ rfl
          rw [List.length_drop]
          omega
    · subst hbs'
      rw [readConstructs_run hrun hne hrest]
      cases hold : holdsBack false run rest with
      | true =>
        obtain ⟨t, rfl, rfl⟩ := of_holdsBack hold
        have ht : ∀ b ∈ t, isText b := fun b hb => hrun b (List.mem_append_left _ hb)
        rw [if_pos rfl, List.append_nil, List.dropLast_concat, List.append_assoc]
        refine (readConstructs_text ht (fun _ => ⟨0x0D, rfl, by decide⟩) last c here).trans ?_
        cases textEvents c here t with
        | error fault => exact .refl _
        | ok events => simpa [told, Reading.resume, Reading.andThen] using .refl _
      | false =>
        rw [if_neg Bool.false_ne_true, List.append_assoc]
        refine (readConstructs_text hrun ?_ last c here).trans ?_
        · intro hl
          have hrest' : rest ≠ [] := by
            rintro rfl
            simp [holdsBack, hl] at hold
          obtain ⟨b, rest, rfl⟩ := List.exists_cons_of_ne_nil hrest'
          refine ⟨b, rfl, ?_⟩
          rintro rfl
          exact absurd (hrest _ rfl) (by decide)
        · rw [← List.append_assoc]
          refine resume_append ?_ ?_ ?_
          · intro waiting hw
            exact absurd (told_outcome hw) (by simp)
          · intro progress hp
            rw [told_outcome hp]
            exact ⟨List.length_pos_iff.mpr hne, by simp⟩
          · intro taken ho
            obtain ⟨rfl⟩ := told_outcome ho
            refine ih _ ?_ _ _ _ rfl
            have := List.length_pos_iff.mpr hne
            rw [List.length_drop, List.length_append]
            omega

end XmlStore
