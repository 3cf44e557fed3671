import XmlStore.Proofs.Splitting

/-!
# What constructs fail with

A construct and the readers of its parts have faults of their own. That bytes are left at the end
of the input is none of them, however broken a construct is: only who reads all constructs can
report it.
-/

namespace XmlStore

/-- The faults that a construct or a part of it can have. -/
def Error.ofConstruct : Error → Bool
  | .malformed _ .unexpectedEnd => false
  | .malformed _ _ | .reference _ | .encoding _ | .sharedDelimiter => true
  | _ => false

theorem Error.ofConstruct_shift (error : Error) (distance : Nat) :
    (error.shift distance).ofConstruct = error.ofConstruct := by
  cases error with
  | malformed position fault => cases fault <;> rfl
  | _ => rfl

/-- If there is no outcome, a construct or a part of it has failed. -/
def FailsInside {α : Type} (outcome : Except Error α) : Prop :=
  ∀ error, outcome = .error error → error.ofConstruct

namespace FailsInside

variable {α β : Type} {found : Error}

theorem ok (a : α) : FailsInside (.ok a) := by
  rintro _ ⟨⟩

theorem error (h : found.ofConstruct) : FailsInside (.error found : Except Error α) := by
  rintro _ ⟨⟩
  exact h

/-- The same fault, whatever was to be read. -/
theorem again (h : FailsInside (.error found : Except Error α)) :
    FailsInside (.error found : Except Error β) := .error (h found rfl)

theorem shift (h : FailsInside (.error found : Except Error α)) (distance : Nat) :
    FailsInside (.error (found.shift distance) : Except Error β) :=
  .error ((found.ofConstruct_shift distance).trans (h found rfl))

theorem bind {outcome : Except Error α} {next : α → Except Error β} (h : FailsInside outcome)
    (hn : ∀ a, FailsInside (next a)) : FailsInside (outcome >>= next) := by
  cases outcome with
  | error found => exact h.again
  | ok a => exact hn a

theorem map {outcome : Except Error α} (h : FailsInside outcome) (f : α → β) :
    FailsInside (outcome.map f) := by
  cases outcome with
  | error found => exact h.again
  | ok a => exact .ok _

end FailsInside

-- ---------------------------------------------------------------------------
-- Readers of a text
-- ---------------------------------------------------------------------------

section
variable (stop : Nat) (text : Bytes)

theorem readAttribute_failsInside : FailsInside (readAttribute stop text) := by
  unfold readAttribute
  repeat' split
  all_goals first | exact .ok _ | exact .error rfl

theorem rawAttributes_failsInside {error : Error} (h : (rawAttributes stop text).2 = some error) :
    error.ofConstruct := by
  fun_induction rawAttributes stop text with
  | case1 => cases h
  | case2 text b more hs error' hr =>
    obtain rfl := Option.some.inj h
    exact readAttribute_failsInside stop _ _ hr
  | case3 text b more hs att rest hr others ih => exact ih h

theorem decodeAttributes_failsInside (entities : Entities) (attributes : List Attribute) :
    FailsInside (decodeAttributes entities attributes).2 := by
  fun_induction decodeAttributes entities attributes with
  | case1 => exact .ok _
  | case2 => exact .error rfl
  | case3 _ _ _ _ _ _ _ ih => exact ih.map _

theorem readAttributes_failsInside (entities : Entities) :
    FailsInside (readAttributes entities stop text).2 := by
  unfold readAttributes
  simp only
  split
  next hr => exact .error (rawAttributes_failsInside stop text hr)
  next => exact decodeAttributes_failsInside entities _

theorem readLiteral_failsInside : FailsInside (readLiteral stop text) := by
  unfold readLiteral
  repeat' split
  all_goals first | exact .ok _ | exact .error rfl

theorem readEntity_failsInside : FailsInside (readEntity stop text) := by
  unfold readEntity
  simp only
  repeat' split
  · exact .ok _
  · exact .error rfl
  · exact (readLiteral_failsInside stop _).map _
  · exact .ok _

theorem readItem_failsInside : FailsInside (readItem stop text) := by
  unfold readItem failAtStart
  repeat' split
  all_goals first | exact .ok _ | exact .error rfl | skip
  next body rest hcut _ error hr =>
    have hentity := readEntity_failsInside body.length body
    rw [hr] at hentity
    exact hentity.shift _

theorem readItems_failsInside (fuel : Nat) : FailsInside (readItems stop fuel text) := by
  induction fuel generalizing text with
  | zero => exact .ok _
  | succ fuel ih =>
    unfold readItems
    simp only
    split
    · exact .ok _
    · exact .bind (readItem_failsInside stop _) fun found => .bind (ih found.2) fun _ => .ok _

theorem readExternalId_failsInside : FailsInside (readExternalId stop text) := by
  unfold readExternalId
  split
  · exact .bind (readLiteral_failsInside stop _) fun _ =>
      .bind (readLiteral_failsInside stop _) fun _ => .ok _
  · split
    · exact .bind (readLiteral_failsInside stop _) fun _ => .ok _
    · exact .ok _

theorem readDoctype_failsInside : FailsInside (readDoctype stop text) := by
  unfold readDoctype
  simp only
  split
  next => exact .error rfl
  next =>
    refine .bind (readExternalId_failsInside stop _) fun found => ?_
    split
    next =>
      split
      next => exact .error rfl
      next => exact .bind (readItems_failsInside _ _ _) fun _ => .ok _
    next => exact .ok _

end

-- ---------------------------------------------------------------------------
-- Constructs
-- ---------------------------------------------------------------------------

namespace Construct

section
variable (c : Context) (here : Nat) (last : Bool) (bs : Bytes)

theorem incomplete_failsInside {fault : Fault}
    (h : (Error.malformed here fault).ofConstruct) :
    FailsInside (c.incomplete here last fault).outcome := by
  unfold Context.incomplete
  split
  · exact .error h
  · exact .ok _

theorem text_failsInside : FailsInside (text c here last bs).outcome := by
  unfold text
  simp only
  repeat' split
  all_goals first | exact .ok _ | exact .error rfl

theorem reference_failsInside : FailsInside (reference c here last bs).outcome := by
  unfold reference
  simp only
  repeat' split
  · exact incomplete_failsInside c here last rfl
  all_goals first | exact .ok _ | exact .error rfl

theorem startTag_failsInside : FailsInside (startTag c here last bs).outcome := by
  unfold startTag
  split
  next => exact incomplete_failsInside c here last rfl
  next =>
    split
    · exact .error rfl
    · simp only
      split
      next error he => exact .error (readAttributes_failsInside _ _ _ _ he)
      next =>
        repeat' split
        all_goals first | exact .ok _ | exact .error rfl

theorem endTag_failsInside : FailsInside (endTag c here last bs).outcome := by
  unfold endTag
  simp only
  repeat' split
  · exact incomplete_failsInside c here last rfl
  all_goals first | exact .ok _ | exact .error rfl

theorem declaredEncoding?_fault {data : Bytes} {fault : Fault}
    (h : declaredEncoding? data = .error fault) : fault = .malformedXmlDeclaration := by
  unfold declaredEncoding? at h
  repeat' split at h
  all_goals cases h
  all_goals rfl

theorem xmlDeclaration_failsInside (taken : Nat) (data : Bytes) :
    FailsInside (xmlDeclaration c here taken data).outcome := by
  unfold xmlDeclaration
  simp only
  split
  · exact .error rfl
  · split
    next fault h =>
      obtain rfl := declaredEncoding?_fault h
      exact .error rfl
    next => exact .ok _
    next =>
      split
      · exact .ok _
      · exact .error rfl

theorem instruction_failsInside : FailsInside (instruction c here last bs).outcome := by
  unfold instruction
  simp only
  split
  next => exact incomplete_failsInside c here last rfl
  next =>
    split
    next => exact .error rfl
    next =>
      split
      · exact xmlDeclaration_failsInside c here _ _
      · exact .ok _

theorem comment_failsInside : FailsInside (comment c here last bs).outcome := by
  unfold comment
  split
  next => exact incomplete_failsInside c here last rfl
  next =>
    split
    · exact .error rfl
    · exact .ok _

theorem literalSection_failsInside : FailsInside (literalSection c here last bs).outcome := by
  unfold literalSection
  split
  · exact .error rfl
  · split
    next => exact incomplete_failsInside c here last rfl
    next => exact .ok _

theorem doctype_failsInside : FailsInside (doctype c here last bs).outcome := by
  unfold doctype
  simp only
  split
  · exact .error rfl
  · split
    next => exact incomplete_failsInside c here last rfl
    next =>
      split
      next error he => exact .error (readDoctype_failsInside _ _ error he)
      next => exact .ok _

theorem declaration_failsInside : FailsInside (declaration c here last bs).outcome := by
  unfold declaration
  repeat' split
  · exact incomplete_failsInside c here last rfl
  · exact comment_failsInside c here last bs
  · exact literalSection_failsInside c here last bs
  · exact doctype_failsInside c here last bs
  · exact .error rfl

theorem markup_failsInside : FailsInside (markup c here last bs).outcome := by
  unfold markup
  repeat' split
  · exact incomplete_failsInside c here last rfl
  · exact endTag_failsInside c here last bs
  · exact instruction_failsInside c here last bs
  · exact declaration_failsInside c here last bs
  · exact startTag_failsInside c here last bs
  · exact .error rfl

theorem read_failsInside : FailsInside (read c here last bs).outcome := by
  unfold read
  split
  · exact markup_failsInside c here last _
  · exact reference_failsInside c here last _
  · exact text_failsInside c here last bs

end

end Construct

-- ---------------------------------------------------------------------------
-- Documents
-- ---------------------------------------------------------------------------

/-- Reading construct after construct fails as one of them does, also where it leaves bytes. -/
theorem readConstructs_failsInside (last : Bool) (c : Context) (here : Nat) (bs : Bytes) :
    FailsInside (readConstructs last c here bs).outcome := by
  induction hn : bs.length using Nat.strongRecOn generalizing c here bs with
  | ind n ih =>
    subst hn
    by_cases hbs : bs = []
    · subst hbs
      rw [readConstructs_nil]
      exact .ok _
    have hread := Construct.read_failsInside c here last bs
    rw [readConstructs_eq_resume hbs]
    unfold Reading.resume
    split
    next ho =>
      rw [ho] at hread
      exact hread.again
    next => exact .ok _
    next taken ho =>
      have hprogress := (read_sound hbs c here last).2 _ ho
      refine (ih _ ?_ _ _ _ rfl).map _
      rw [List.length_drop]
      exact Nat.sub_lt (List.length_pos_iff.mpr hbs) hprogress.1

end XmlStore
