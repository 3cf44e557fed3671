import XmlStore.Proofs.Ascending
import XmlStore.Proofs.Expanding

/-!
# The budget of a document

Every reference that is replaced is counted, whether or not its replacement succeeds, and nested
ones are counted like those in the text itself. So the limit bounds what the texts and references
of a document can grow to, however its entities refer to each other.
-/

namespace XmlStore.Entities

variable {entities : Entities}

-- ---------------------------------------------------------------------------
-- One expansion
-- ---------------------------------------------------------------------------

theorem length_fixedText?_le {name text : Bytes} (h : fixedText? name = some text) :
    text.length ≤ 4 := by
  unfold fixedText? at h
  split at h
  · obtain ⟨c, -, rfl⟩ := Option.map_eq_some_iff.mp h
    simpa [Utf8.encode] using c.utf8Size_le_four
  · unfold predefined? at h
    repeat' split at h
    all_goals cases h
    all_goals decide

namespace Expands

variable {levels expanded : Nat} {pieces : List Piece} {result : Expansion} {replaced : List Bytes}
  (h : entities.Expands levels pieces expanded result replaced)
include h

/-- Each reference that is replaced takes one count, none of them beyond the limit. -/
theorem length_replaced :
    replaced.length + min expanded entities.limit ≤ min result.expanded entities.limit := by
  induction h with
  | nil => simp
  | literal _ ih => exact ih
  | kept _ _ ih => exact ih
  | fixed _ hl _ _ ih =>
    simp only [List.length_cons]
    omega
  | declared _ hl _ _ _ _ ihi ih =>
    simp only [List.length_append, List.length_cons]
    omega
  | failed _ hl _ _ _ ihi => omega
  | refused =>
    simp only [List.length_nil]
    omega

/-- When the limit is used up, every reference is refused that is not kept as it is written. -/
theorem fault_of_limit_le (hl : entities.limit ≤ expanded) {name : Bytes}
    (hm : .reference name ∈ pieces) (hk : entities.isKept name = false) :
    result.fault ≠ none := by
  induction h with
  | nil => cases hm
  | literal _ ih => exact ih hl (by simpa using hm)
  | kept hk' _ ih =>
    rcases List.mem_cons.mp hm with he | hm
    · cases he
      rw [hk] at hk'
      cases hk'
    · exact ih hl hm
  | fixed _ hl' => exact absurd hl' (Nat.not_lt.mpr hl)
  | declared _ hl' => exact absurd hl' (Nat.not_lt.mpr hl)
  | failed _ hl' => exact absurd hl' (Nat.not_lt.mpr hl)
  | refused => simp

/-- Each count pays for one declared text, or for the bytes of one character. -/
theorem length_output {longest : Nat} (hlongest : ∀ {name text}, entities.declaredText? name =
      some text → text.length ≤ longest) (hn : result.fault = none) :
    result.output.length + expanded * max 4 longest ≤
      (pieces.flatMap Piece.written).length + result.expanded * max 4 longest := by
  induction h with
  | nil => simp
  | literal _ ih =>
    have := ih hn
    simp only [List.length_append, List.flatMap_cons, Piece.written]
    omega
  | kept _ _ ih =>
    have := ih hn
    simp only [List.length_append, List.flatMap_cons]
    omega
  | fixed _ _ hf _ ih =>
    have := ih hn
    have := length_fixedText?_le hf
    simp only [List.length_append, List.flatMap_cons, Nat.succ_mul] at *
    omega
  | declared _ _ hd _ hni _ ihi ih =>
    have := ihi hni
    have := ih hn
    have := hlongest hd
    rw [Piece.written_ofText] at *
    simp only [List.length_append, List.flatMap_cons, Nat.succ_mul] at *
    omega
  | failed _ _ _ _ hni => exact absurd hn hni
  | refused => cases hn

end Expands

-- ---------------------------------------------------------------------------
-- All that a document asks for
-- ---------------------------------------------------------------------------

/-- What is asked of the entities of a document: to replace every reference of a text, or one
reference. -/
inductive Request where
  | text (text : Bytes)
  | reference (name : Bytes)

def Request.pieces : Request → List Piece
  | .text bytes => Piece.ofText bytes
  | .reference name => [.reference name]

def answer (entities : Entities) : Request → Expansion
  | .text text => entities.expandText text
  | .reference name => entities.expandReference name

/-- The references that are replaced without a fault for one request, nested ones included. -/
def replacedFor (entities : Entities) (request : Request) : List Bytes :=
  Expansion.replacedIn (entities.expandNested maxNesting) (entities.replacedBy maxNesting)
    request.pieces entities.expanded

/-- The entities after the requests, those that failed included. -/
def serve (entities : Entities) (requests : List Request) : Entities :=
  requests.foldl (fun entities request => entities.after (entities.answer request)) entities

/-- The references that are replaced without a fault for all of the requests. -/
def replacedForAll : Entities → List Request → List Bytes
  | _, [] => []
  | entities, request :: rest =>
    entities.replacedFor request ++ (entities.after (entities.answer request)).replacedForAll rest

/-- The length of the longest declared text. -/
def longestText (entities : Entities) : Nat :=
  (entities.declared.map fun declaration => declaration.2.length).foldr max 0

theorem length_le_longestText {name text : Bytes} (h : entities.declaredText? name = some text) :
    text.length ≤ entities.longestText := by
  obtain ⟨-, -, hlookup⟩ := declaredText?_eq_some_iff.mp h
  have hm := Table.mem_of_lookup hlookup
  exact List.le_max_of_le (List.mem_map_of_mem hm) (Nat.le_refl _)

theorem ofPieces_single (rule : Bytes → Nat → Expansion) (name : Bytes) (expanded : Nat) :
    Expansion.ofPieces rule [.reference name] expanded = rule name expanded := by
  unfold Expansion.ofPieces Expansion.andThen
  obtain ⟨output, expanded', _ | fault⟩ := rule name expanded <;> simp [Expansion.ofPieces]

theorem answer_expands (entities : Entities) (request : Request) :
    entities.Expands maxNesting request.pieces entities.expanded (entities.answer request)
      (entities.replacedFor request) := by
  have hderived := ofPieces_derived entities maxNesting request.pieces entities.expanded
  cases request with
  | text => exact hderived
  | reference name => rwa [Derived, Request.pieces, ofPieces_single] at hderived

theorem serve_eq (entities : Entities) (requests : List Request) :
    entities.serve requests =
      { entities with expanded := (entities.serve requests).expanded } := by
  induction requests generalizing entities with
  | nil => rfl
  | cons request rest ih => exact ih (entities.after (entities.answer request))

theorem le_serve (entities : Entities) (requests : List Request) :
    entities.expanded ≤ (entities.serve requests).expanded := by
  induction requests generalizing entities with
  | nil => exact Nat.le_refl _
  | cons request rest ih =>
    exact Nat.le_trans (answer_expands entities request).le (ih (entities.after _))

theorem length_replacedForAll (entities : Entities) (requests : List Request) :
    (entities.replacedForAll requests).length + min entities.expanded entities.limit ≤
      min (entities.serve requests).expanded entities.limit := by
  induction requests generalizing entities with
  | nil => simp [replacedForAll, serve]
  | cons request rest ih =>
    have hfirst := (answer_expands entities request).length_replaced
    have hrest := ih (entities.after (entities.answer request))
    simp only [replacedForAll, List.length_append, serve, List.foldl_cons, after] at *
    omega

/-- However texts and references are asked for, and whatever failed before: the count never goes
back, no more references are replaced than the limit still allows, an answer that replaces any
leaves the count within the limit, and once the limit is used up every reference is refused that is
not kept as it is written. A text grows by at most the longest declared text, or by the bytes of one
character, for each reference that is counted while its own are replaced. -/
theorem budget_bounds_answers (entities : Entities) (requests : List Request) :
    let later := entities.serve requests
    entities.expanded ≤ later.expanded ∧
    (entities.replacedForAll requests).length ≤ entities.limit - entities.expanded ∧
    ∀ request, let answer := later.answer request
      later.expanded ≤ answer.expanded ∧
      (answer.fault = none → later.expanded < answer.expanded →
        answer.expanded ≤ entities.limit) ∧
      (entities.limit ≤ later.expanded → ∀ between name,
        .reference name ∈ request.pieces → entities.isKept name = false →
          ((later.serve between).answer request).fault ≠ none) ∧
      ∀ text, request = .text text → answer.fault = none →
        answer.output.length ≤
          text.length + (answer.expanded - later.expanded) * max 4 entities.longestText := by
  intro later
  have hlater : later = { entities with expanded := later.expanded } := serve_eq entities requests
  have hlimit : later.limit = entities.limit := by rw [hlater]
  refine ⟨le_serve entities requests, ?_, fun request => ?_⟩
  · have := length_replacedForAll entities requests
    omega
  intro answer
  have hanswer : later.Expands maxNesting request.pieces later.expanded answer
      (later.replacedFor request) := answer_expands later request
  refine ⟨hanswer.le, ?_, ?_, ?_⟩
  · intro hn hless
    have := hanswer.le_limit hn
    omega
  · intro hl between name hm hk
    have hle := le_serve later between
    have hbetween := serve_eq later between
    refine (answer_expands (later.serve between) request).fault_of_limit_le ?_ hm ?_
    · rw [hbetween, hlimit]
      exact Nat.le_trans hl hle
    · rw [hbetween, hlater]
      exact hk
  · rintro text rfl hn
    have hlongest : ∀ {name text}, later.declaredText? name = some text →
        text.length ≤ entities.longestText := by
      intro name text h
      rw [hlater] at h
      exact length_le_longestText h
    have hlength := hanswer.length_output hlongest hn
    have hle := hanswer.le
    rw [Request.pieces, Piece.written_ofText] at hlength
    rw [Nat.sub_mul]
    have hmul := Nat.mul_le_mul_right (max 4 entities.longestText) hle
    omega

theorem budget_of_one :
    let entities : Entities := { limit := 1, declared := [(ascii "a", ascii "longer")] }
    let answer := entities.answer (.text (ascii "&a;"))
    let later := entities.serve [.reference (ascii "a")]
    answer = { output := ascii "longer", expanded := 1 } ∧ answer.expanded ≤ 1 ∧
      answer.output.length ≤ 3 + 1 * 6 ∧
      later.expanded = 1 ∧ (later.answer (.reference (ascii "lt"))).fault ≠ none := by
  intro entities answer later
  have hanswer : answer = { output := ascii "longer", expanded := 1 } := by decide +kernel
  have hlater : later.expanded = 1 := by decide +kernel
  have hkept : entities.isKept (ascii "lt") = false := rfl
  obtain ⟨-, -, hfirst⟩ := budget_bounds_answers entities []
  obtain ⟨-, hlimit, -, hlength⟩ := hfirst (.text (ascii "&a;"))
  obtain ⟨-, -, hnext⟩ := budget_bounds_answers entities [.reference (ascii "a")]
  obtain ⟨-, -, hused, -⟩ := hnext (.reference (ascii "lt"))
  change answer.fault = none → 0 < answer.expanded → answer.expanded ≤ 1 at hlimit
  have hlength := hlength (ascii "&a;") rfl
  change answer.fault = none → answer.output.length ≤ 3 + (answer.expanded - 0) * 6 at hlength
  rw [hanswer] at hlimit hlength ⊢
  exact ⟨rfl, hlimit rfl (by decide), hlength rfl, hlater,
    hused (Nat.le_of_eq hlater.symm) [] _ (by simp [Request.pieces]) hkept⟩

end XmlStore.Entities
