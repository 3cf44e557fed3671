import XmlStore.Proofs.Recutting
import XmlStore.Proofs.Relining

/-!
# Line ends in documents

A document is accepted or not whatever its line ends are, and what is known at its end is the same
but for the line ends of declared texts. A log shows the line ends of comments and instructions,
and those of declared texts where they replace references. It shows no others.
-/

namespace XmlStore

-- ---------------------------------------------------------------------------
-- Construct after construct
-- ---------------------------------------------------------------------------

section
variable {c d : Context} {here here' : Nat} {bs : Bytes}

theorem Reading.Relined.prepend {rest rest' : Reading Nat} {n n' : Nat}
    (h : Relined d n n' rest rest') (hd : c.entities.declared ⊆ d.entities.declared)
    {events events' : List (Context × Event)}
    (he : Retold d.entities (events.map (·.2)) (events'.map (·.2))) (taken taken' : Nat) :
    Relined c (taken + n) (taken' + n') (rest.prepend events taken)
      (rest'.prepend events' taken') := by
  cases h with
  | fail ho ho' =>
    exact .fail (congrArg (Except.map (taken + ·)) ho) (congrArg (Except.map (taken' + ·)) ho')
  | ok ho ho' hcontext hnamed hdeclared hevents =>
    refine .ok (congrArg (Except.map (taken + ·)) ho) (congrArg (Except.map (taken' + ·)) ho')
      hcontext hnamed (List.Subset.trans hd hdeclared) ?_
    simp only [Reading.prepend, List.map_append]
    exact (he.mono hdeclared).append hevents

theorem readConstructs_relined (hc : c.Named) (hhere : here = 0 ↔ here' = 0) (bs : Bytes) :
    Reading.Relined c bs.length (lineFeeds false bs).length (readConstructs true c here bs)
      (readConstructs true c.fed here' (lineFeeds false bs)) := by
  induction hn : bs.length using Nat.strongRecOn generalizing c here here' bs with
  | ind n ih =>
    subst hn
    by_cases hbs : bs = []
    · subst hbs
      rw [lineFeeds_nil, readConstructs_nil, readConstructs_nil]
      exact .ok rfl rfl rfl hc (List.Subset.refl _) (.of_fed _ [])
    have hbs' : lineFeeds false bs ≠ [] := fun h => hbs (lineFeeds_eq_nil_iff.mp h)
    obtain ⟨taken, taken', hrest, hread⟩ := Construct.read_meets hc hhere hbs
    rw [readConstructs_eq_resume hbs, readConstructs_eq_resume hbs']
    have hwithin := (read_sound hbs c here true).2
    have hwithin' := (read_sound hbs' c.fed here' true).2
    generalize Construct.read c here true bs = first at *
    generalize Construct.read c.fed here' true (lineFeeds false bs) = second at *
    unfold Reading.resume
    cases hread with
    | fail ho ho' =>
      rw [ho, ho']
      exact .fail rfl rfl
    | ok ho ho' hcontext hnamed hdeclared hevents =>
      -- Both constructs take bytes, so what follows is nowhere at the start of the document.
      obtain ⟨h0, hle⟩ := hwithin _ ho
      obtain ⟨h0', hle'⟩ := hwithin' _ ho'
      have hnext := @ih (bs.drop taken).length (by rw [List.length_drop]; omega) first.context
        (here + taken) (here' + taken') hnamed (by omega) (bs.drop taken) rfl
      have hwhole := hnext.prepend hdeclared hevents taken taken'
      rw [hrest, ← hcontext, List.length_drop, List.length_drop, Nat.add_sub_cancel' hle,
        Nat.add_sub_cancel' hle'] at hwhole
      rw [ho, ho']
      exact hwhole

-- ---------------------------------------------------------------------------
-- Logs
-- ---------------------------------------------------------------------------

theorem Parser.missing?_fed {first second : Reading Nat}
    (h : second.context = first.context.fed) : missing? second = missing? first := by
  rw [missing?, missing?, h]
  rfl

theorem Reading.Relined.verdict {first second : Reading Nat} {n n' : Nat}
    (h : Relined c n n' first second) (here here' : Nat) :
    first.verdict here n = .ok () ↔ second.verdict here' n' = .ok () := by
  unfold Reading.verdict
  cases h with
  | fail ho ho' => simp [ho, ho']
  | ok ho ho' hcontext _ _ _ =>
    simp only [ho, ho', Nat.lt_irrefl, ↓reduceIte, Parser.missing?_fed hcontext]
    cases Parser.missing? first <;> simp

end

namespace Log

theorem stored?_fed (event : Event) : (stored? event.fed).toOption.join =
    (stored? event).toOption.join.map Event.fed := by
  cases event with
  | text chunk =>
    cases chunk with
    | utf8 bytes => cases bytes <;> rfl
    | utf16 units =>
      simp only [Event.fed, stored?]
      split
      next => rfl
      next => split <;> rfl
  | _ => rfl

theorem kept_fed (events : List Event) :
    kept (events.map Event.fed) = (kept events).map Event.fed := by
  rw [kept, kept, List.filterMap_map, List.map_filterMap]
  exact List.filterMap_congr fun event _ => stored?_fed event

theorem kept_relined {events events' : List Event}
    (h : List.Forall₂ Event.Relined events events') :
    List.Forall₂ Event.Relined (kept events) (kept events') := by
  refine List.rel_filterMap (fun event event' he => ?_) h
  cases he with
  | fed =>
    simp only [stored?_fed]
    cases (stored? event).toOption.join with
    | none => exact .none
    | some entry => exact .some (.fed entry)
  | @text x y h =>
    by_cases hx : x.isEmpty
    · simp only [stored?, Chunk.isEmpty, h.isEmpty_eq, hx, ↓reduceIte]
      exact .none
    · simp only [stored?, Chunk.isEmpty, h.isEmpty_eq, hx, Bool.false_eq_true, ↓reduceIte]
      exact .some (.text h)
  | startElement name h => exact .some (.startElement name h)
  | declareNamespace qualifier h => exact .some (.declareNamespace qualifier h)

theorem joinText_relined {x y : Bytes} (h : Relined x y) {events events' : List Event}
    (he : List.Forall₂ Event.Relined events events') :
    List.Forall₂ Event.Relined (joinText x events) (joinText y events') := by
  have happart {event event' : Event} {others others' : List Event} 
      (he : event.Relined event') (ho : List.Forall₂ Event.Relined others others') :
      List.Forall₂ Event.Relined (.text (.utf8 x) :: event :: others)
        (.text (.utf8 y) :: event' :: others') := .cons (.text h) (.cons he ho)
  cases he with
  | nil => exact .cons (.text h) .nil
  | @cons event _ others others' he ho =>
    cases he with
    | fed =>
      cases event with
      | text chunk =>
        cases chunk with
        | utf8 more => exact .cons (.text (h.append (.refl more))) ho
        | utf16 units => exact happart (.fed _) ho
      | _ => exact happart (.fed _) ho
    | text h' => exact .cons (.text (h.append h')) ho
    | startElement name h' => exact happart (.startElement name h') ho
    | declareNamespace qualifier h' => exact happart (.declareNamespace qualifier h') ho

theorem coalesce_relined {events events' : List Event}
    (h : List.Forall₂ Event.Relined events events') :
    List.Forall₂ Event.Relined (coalesce events) (coalesce events') := by
  induction h with
  | nil => exact .nil
  | @cons event _ _ _ he _ ih =>
    rw [coalesce_cons, coalesce_cons]
    cases he with
    | fed =>
      cases event with
      | text chunk =>
        cases chunk with
        | utf8 bytes => exact joinText_relined (.refl bytes) ih
        | utf16 units => exact .cons (.fed _) ih
      | _ => exact .cons (.fed _) ih
    | text h => exact joinText_relined h ih
    | startElement name h => exact .cons (.startElement name h) ih
    | declareNamespace qualifier h => exact .cons (.declareNamespace qualifier h) ih

theorem coalesce_fed (events : List Event) :
    coalesce (events.map Event.fed) = (coalesce events).map Event.fed := by
  have hjoin (event : Event) (others : List Event) :
      join event.fed (others.map Event.fed) = (join event others).map Event.fed := by
    cases event with
    | text chunk =>
      cases chunk with
      | utf8 bytes =>
        cases others with
        | nil => rfl
        | cons other others =>
          cases other with
          | text chunk => cases chunk <;> rfl
          | _ => rfl
      | utf16 units => rfl
    | _ => rfl
  induction events with
  | nil => rfl
  | cons event rest ih => rw [List.map_cons, coalesce_cons, coalesce_cons, ih, hjoin]

theorem seen_retold {entities : Entities} {events events' : List Event}
    (h : Retold entities events events') : Retold entities (seen events) (seen events') where
  relined := coalesce_relined (kept_relined h.relined)
  fed hu := by rw [h.fed hu, seen, kept_fed, coalesce_fed, seen]

end Log

-- ---------------------------------------------------------------------------
-- Documents in pieces
-- ---------------------------------------------------------------------------

namespace Session

variable {options : ReadOptions} {p q : List Bytes} {first second : Session Log}

/-- What is known at the end of a document in pieces is what is known at the end of it as a
whole. -/
theorem run_context (h : run Log.record p (recording options) = .ok () first) :
    first.parser.context = (reading options true p.flatten).context := by
  obtain ⟨⟨⟩, fed, hfeed, hfinish⟩ := of_run_bind h
  rcases (recording_fed options).feedAll p with
    ⟨session, hsession, hfed, -⟩ | ⟨fault, session, hsession, -⟩
  · rw [hfeed] at hsession
    cases hsession
    have hend := deliver_ok_iff.mp (show deliver Log.record fed.parser.finish fed = _ from hfinish)
    have halike := hfed.alike true []
    rw [List.append_nil, List.nil_append] at halike
    rw [hend.2.1, (Parser.finish_spec hfed.paused.unfinished).2.1, halike.context]
    rfl
  · rw [hfeed] at hsession
    cases hsession

theorem exists_run_iff : (∃ first, run Log.record p (recording options) = .ok () first) ↔
    (reading options true p.flatten).verdict 0 p.flatten.length = .ok () := by
  have hview := congrArg View.result (view_run_eq options p)
  cases hrun : run Log.record p (recording options) with
  | ok _ session =>
    rw [hrun] at hview
    exact ⟨fun _ => hview.symm, fun _ => ⟨session, rfl⟩⟩
  | error fault session =>
    rw [hrun] at hview
    constructor
    · rintro ⟨_, h⟩
      cases h
    · intro h
      cases hview.trans h

theorem run_events (h : run Log.record p (recording options) = .ok () first) :
    Log.coalesce first.receiver.events = Log.seen
      (.startDocument :: (reading options true p.flatten).events.map (·.2) ++ [.endDocument]) := by
  have hview := congrArg View.events (view_run_eq options p)
  rw [h] at hview
  refine hview.trans ?_
  rw [View.of, exists_run_iff.mp ⟨first, h⟩]
  rfl

/-- The reading of a document with line feeds, beside that of the document. -/
theorem reading_relined (options : ReadOptions) (h : q.flatten = normalizeLineEnds p.flatten) :
    Reading.Relined (Parser.ofOptions options).context p.flatten.length q.flatten.length
      (reading options true p.flatten) (reading options true q.flatten) := by
  have hnamed : (Parser.ofOptions options).context.Named :=
    ⟨fun _ hn => absurd hn List.not_mem_nil, fun _ hd => absurd hd List.not_mem_nil⟩
  rw [h, normalizeLineEnds_eq]
  exact readConstructs_relined hnamed Iff.rfl p.flatten

/-- A document is accepted with its own line ends or with line feeds alone, and comes to the same
but for the line ends that are not read: those of comments, of instructions and of declared texts.
If the declared texts hold no carriage returns, a log shows a difference only in the comments and
instructions that do. -/
theorem retold_with_line_feeds (options : ReadOptions)
    (h : q.flatten = normalizeLineEnds p.flatten) :
    ((∃ first, run Log.record p (recording options) = .ok () first) ↔
      ∃ second, run Log.record q (recording options) = .ok () second) ∧
    ∀ first second, run Log.record p (recording options) = .ok () first →
      run Log.record q (recording options) = .ok () second →
      second.parser.context = first.parser.context.fed ∧
        List.Forall₂ Event.Relined (Log.coalesce first.receiver.events)
          (Log.coalesce second.receiver.events) ∧
        (first.parser.context.entities.Unreturned → Log.coalesce second.receiver.events =
          (Log.coalesce first.receiver.events).map Event.fed) := by
  have hread := reading_relined options h
  refine ⟨?_, fun first second hp hq => ?_⟩
  · rw [exists_run_iff, exists_run_iff]
    exact hread.verdict 0 0
  · have hverdict := exists_run_iff.mp ⟨first, hp⟩
    rw [run_context hp, run_context hq, run_events hp, run_events hq]
    cases hread with
    | fail ho =>
      rw [Reading.verdict, ho] at hverdict
      cases hverdict
    | ok _ _ hcontext _ _ hevents =>
      have hseen := Log.seen_retold
        (((Retold.of_fed _ [.startDocument]).append hevents).append (.of_fed _ [.endDocument]))
      exact ⟨hcontext, hseen.relined, hseen.fed⟩

/-- Line ends of every kind, in an attribute, in text and in a comment. One of them is cut. -/
def mixedLineEnds : List Bytes :=
  [ascii "<!DOCTYPE a [<!ENTITY e 'f'>]>\r<a k='\r'>x\r", ascii "\n&e;<!--\r\n--></a>"]

def mixedLineFeeds : List Bytes :=
  [ascii "<!DOCTYPE a [<!ENTITY e 'f'>]>\n<a k='\n'>x\n&e;<!--\n--></a>"]

theorem mixedLineEnds_retold :
    mixedLineFeeds.flatten = normalizeLineEnds mixedLineEnds.flatten ∧
      ∃ first second, run Log.record mixedLineEnds (recording {}) = .ok () first ∧
        run Log.record mixedLineFeeds (recording {}) = .ok () second ∧
        second.parser.context = first.parser.context.fed ∧
        List.Forall₂ Event.Relined (Log.coalesce first.receiver.events)
          (Log.coalesce second.receiver.events) ∧
        Log.coalesce second.receiver.events =
          (Log.coalesce first.receiver.events).map Event.fed := by
  have h : mixedLineFeeds.flatten = normalizeLineEnds mixedLineEnds.flatten := by decide +kernel
  obtain ⟨hiff, hsame⟩ := retold_with_line_feeds {} h
  obtain ⟨first, hfirst⟩ : ∃ first, run Log.record mixedLineEnds (recording {}) = .ok () first :=
    exists_run_iff.mpr (by decide +kernel)
  obtain ⟨second, hsecond⟩ := hiff.mp ⟨first, hfirst⟩
  obtain ⟨hcontext, hrelined, hfed⟩ := hsame first second hfirst hsecond
  refine ⟨h, first, second, hfirst, hsecond, hcontext, hrelined, hfed ?_⟩
  rw [run_context hfirst]
  decide +kernel

/-- A carriage return in a comment shows. -/
theorem return_in_comment_shows :
    [ascii "<a><!--\n--></a>"].flatten = normalizeLineEnds [ascii "<a><!--\r--></a>"].flatten ∧
      ∃ first second, run Log.record [ascii "<a><!--\r--></a>"] (recording {}) = .ok () first ∧
        run Log.record [ascii "<a><!--\n--></a>"] (recording {}) = .ok () second ∧
        Log.coalesce second.receiver.events ≠ Log.coalesce first.receiver.events := by
  obtain ⟨first, hfirst⟩ :
      ∃ first, run Log.record [ascii "<a><!--\r--></a>"] (recording {}) = .ok () first :=
    exists_run_iff.mpr (by decide +kernel)
  obtain ⟨second, hsecond⟩ :
      ∃ second, run Log.record [ascii "<a><!--\n--></a>"] (recording {}) = .ok () second :=
    exists_run_iff.mpr (by decide +kernel)
  refine ⟨by decide, first, second, hfirst, hsecond, ?_⟩
  rw [run_events hfirst, run_events hsecond]
  decide +kernel

end Session

end XmlStore
