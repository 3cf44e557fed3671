import XmlStore.Proofs.Replacing

/-!
# Steps of an expansion

Pieces are expanded one after the other. A reference is kept as it is written, has a text of its
own, stands for the expansion of a declared text one level further down, or is refused. The
expansion of pieces is one derivation from these steps, so that what holds of every step holds of
every expansion, of one that fails as well.
-/

namespace XmlStore

namespace Piece

/-- The piece as it stands in the text. -/
def written : Piece → Bytes
  | .literal bytes => bytes
  | .reference name => 0x26 :: name ++ [0x3B]

theorem written_ofText (text : Bytes) : (ofText text).flatMap written = text := by
  fun_induction ofText text with
  | case1 text => simp [written]
  | case2 text => simp [written]
  | case3 text before after hopen name rest hclose ih =>
    obtain ⟨open', hopen', hbefore, -⟩ := cutAt?_append hopen
    obtain ⟨close, hclose', hafter, -⟩ := cutAt?_append hclose
    rw [hbefore, hafter, eq_of_beq hopen', eq_of_beq hclose']
    simp [written, ih]

end Piece

/-- The references that are replaced without a fault when pieces are expanded, nested ones
included, in the order in which that is done. `inside` tells them for one reference. -/
def Expansion.replacedIn (rule : Bytes → Nat → Expansion) (inside : Bytes → Nat → List Bytes) :
    List Piece → Nat → List Bytes
  | [], _ => []
  | .literal _ :: rest, expanded => replacedIn rule inside rest expanded
  | .reference name :: rest, expanded =>
    inside name expanded ++
      if (rule name expanded).fault = none then
        replacedIn rule inside rest (rule name expanded).expanded
      else []

namespace Entities

/-- The text of a reference that needs no declaration: a character, or one of five fixed texts. -/
def fixedText? (name : Bytes) : Option Bytes :=
  if name.head? = some 0x23 then (characterReference? name.tail).map fun c => Utf8.encode [c]
  else predefined? name

/-- The text declared for a name, unless the name has a fixed meaning: what is declared for a
predefined name, or for one that begins with a number sign, is never looked up. -/
def declaredText? (entities : Entities) (name : Bytes) : Option Bytes :=
  if name.head? = some 0x23 ∨ (predefined? name).isSome then none else entities.lookup? name

variable {entities : Entities} {name text : Bytes} {levels expanded : Nat}

theorem declaredText?_eq_some_iff :
    entities.declaredText? name = some text ↔
      name.head? ≠ some 0x23 ∧ predefined? name = none ∧ entities.lookup? name = some text := by
  unfold declaredText?
  by_cases hhead : name.head? = some 0x23
  · simp [hhead]
  · cases hp : predefined? name <;> simp [hhead]

theorem fixedText?_eq_none (h : entities.declaredText? name = some text) :
    fixedText? name = none := by
  obtain ⟨hhead, hp, -⟩ := declaredText?_eq_some_iff.mp h
  simp [fixedText?, hhead, hp]

section
variable (hk : entities.isKept name = false)
include hk

theorem expandNested_exhausted (hl : entities.limit ≤ expanded) :
    entities.expandNested levels name expanded =
      { output := []
        expanded := expanded + 1
        fault := some (.limitExceeded entities.limit) } := by
  have hlimit : expanded + 1 > entities.limit := Nat.lt_succ_of_le hl
  simp [expandNested_eq, hk, hlimit]

variable (hl : expanded < entities.limit)
include hl

theorem expandNested_fixed (h : fixedText? name = some text) :
    entities.expandNested levels name expanded = { output := text, expanded := expanded + 1 } := by
  have hlimit : ¬ expanded + 1 > entities.limit := Nat.not_lt.mpr hl
  simp only [expandNested_eq, hk, hlimit, Bool.false_eq_true, ↓reduceIte]
  unfold fixedText? at h
  split at h
  next hhead =>
    obtain ⟨c, hc, rfl⟩ := Option.map_eq_some_iff.mp h
    simp [hhead, hc]
  next hhead => simp [hhead, h]

theorem expandNested_declared (h : entities.declaredText? name = some text) :
    entities.expandNested (levels + 1) name expanded =
      Expansion.ofPieces (entities.expandNested levels) (Piece.ofText text) (expanded + 1) := by
  have hlimit : ¬ expanded + 1 > entities.limit := Nat.not_lt.mpr hl
  obtain ⟨hhead, hp, hlookup⟩ := declaredText?_eq_some_iff.mp h
  simp only [expandNested_eq, hk, hlimit, hhead, hp, expandDeclared, hlookup, Bool.false_eq_true,
    ↓reduceIte]

/-- A reference that has no text, or none at this depth, is refused. -/
theorem expandNested_unknown (hf : fixedText? name = none)
    (hd : levels = 0 ∨ entities.declaredText? name = none) :
    ∃ fault, entities.expandNested levels name expanded =
      { output := [], expanded := expanded + 1, fault := some fault } := by
  have hlimit : ¬ expanded + 1 > entities.limit := Nat.not_lt.mpr hl
  simp only [expandNested_eq, hk, hlimit, Bool.false_eq_true, ↓reduceIte]
  by_cases hhead : name.head? = some 0x23
  · have hc : characterReference? name.tail = none := by simpa [fixedText?, hhead] using hf
    exact ⟨.invalidCharacter name, by simp [hhead, hc]⟩
  · have hp : predefined? name = none := by simpa [fixedText?, hhead] using hf
    simp only [hhead, hp, ↓reduceIte]
    cases levels with
    | zero => exact ⟨.recursive name, rfl⟩
    | succ levels =>
      have hlookup : entities.lookup? name = none := by
        simpa [declaredText?, hhead, hp] using hd
      exact ⟨.undeclared name, by simp [expandDeclared, hlookup]⟩

end

-- ---------------------------------------------------------------------------
-- Derivations
-- ---------------------------------------------------------------------------

/-- The references that are replaced without a fault when one is expanded: those in its text, and
then it itself. One that is kept as it is written is not replaced. -/
def replacedBy (entities : Entities) : (levels : Nat) → Bytes → Nat → List Bytes
  | levels, name, expanded =>
    if entities.isKept name then []
    else
      let inside :=
        match levels with
        | 0 => []
        | levels + 1 =>
          match entities.declaredText? name with
          | none => []
          | some text =>
            if expanded < entities.limit then
              Expansion.replacedIn (entities.expandNested levels) (entities.replacedBy levels)
                (Piece.ofText text) (expanded + 1)
            else []
      inside ++ if (entities.expandNested levels name expanded).fault = none then [name] else []

/-- How pieces are expanded when declared texts may nest so deep: from a count of replacements to
an expansion, with the references that are replaced on the way. -/
inductive Expands (entities : Entities) :
    (levels : Nat) → List Piece → (expanded : Nat) → Expansion → List Bytes → Prop
  | nil {levels expanded : Nat} : Expands entities levels [] expanded { output := [], expanded } []
  | literal {levels expanded : Nat} {bytes : Bytes} {rest : List Piece} {result : Expansion}
      {replaced : List Bytes} (h : Expands entities levels rest expanded result replaced) :
      Expands entities levels (.literal bytes :: rest) expanded
        { result with output := bytes ++ result.output } replaced
  | kept {levels expanded : Nat} {name : Bytes} {rest : List Piece} {result : Expansion}
      {replaced : List Bytes} (hk : entities.isKept name = true)
      (h : Expands entities levels rest expanded result replaced) :
      Expands entities levels (.reference name :: rest) expanded
        { result with output := (Piece.reference name).written ++ result.output } replaced
  | fixed {levels expanded : Nat} {name text : Bytes} {rest : List Piece} {result : Expansion}
      {replaced : List Bytes} (hk : entities.isKept name = false) (hl : expanded < entities.limit)
      (hf : fixedText? name = some text)
      (h : Expands entities levels rest (expanded + 1) result replaced) :
      Expands entities levels (.reference name :: rest) expanded
        { result with output := text ++ result.output } (name :: replaced)
  | declared {levels expanded : Nat} {name text : Bytes} {rest : List Piece}
      {inner result : Expansion} {inside replaced : List Bytes}
      (hk : entities.isKept name = false) (hl : expanded < entities.limit)
      (hd : entities.declaredText? name = some text)
      (hi : Expands entities levels (Piece.ofText text) (expanded + 1) inner inside)
      (hn : inner.fault = none)
      (h : Expands entities (levels + 1) rest inner.expanded result replaced) :
      Expands entities (levels + 1) (.reference name :: rest) expanded
        { result with output := inner.output ++ result.output } (inside ++ name :: replaced)
  | failed {levels expanded : Nat} {name text : Bytes} {rest : List Piece} {inner : Expansion}
      {inside : List Bytes} (hk : entities.isKept name = false) (hl : expanded < entities.limit)
      (hd : entities.declaredText? name = some text)
      (hi : Expands entities levels (Piece.ofText text) (expanded + 1) inner inside)
      (hn : inner.fault ≠ none) :
      Expands entities (levels + 1) (.reference name :: rest) expanded inner inside
  | refused {levels expanded : Nat} {name : Bytes} {rest : List Piece} {fault : ReferenceFault}
      (hk : entities.isKept name = false)
      (hw : entities.limit ≤ expanded ∨
        fixedText? name = none ∧ (levels = 0 ∨ entities.declaredText? name = none)) :
      Expands entities levels (.reference name :: rest) expanded
        { output := [], expanded := expanded + 1, fault := some fault } []

/-- From this count, the pieces are expanded by a derivation. -/
def Derived (entities : Entities) (levels : Nat) (pieces : List Piece) (expanded : Nat) : Prop :=
  entities.Expands levels pieces expanded
    (Expansion.ofPieces (entities.expandNested levels) pieces expanded)
    (Expansion.replacedIn (entities.expandNested levels) (entities.replacedBy levels) pieces
      expanded)

theorem replacedBy_of_kept (hk : entities.isKept name = true) :
    entities.replacedBy levels name expanded = [] := by
  cases levels <;> simp [replacedBy, hk]

theorem replacedBy_of_none (hd : levels = 0 ∨ entities.declaredText? name = none)
    (hk : entities.isKept name = false) :
    entities.replacedBy levels name expanded =
      if (entities.expandNested levels name expanded).fault = none then [name] else [] := by
  cases levels with
  | zero => simp [replacedBy, hk]
  | succ levels =>
    have hd := hd.resolve_left (Nat.succ_ne_zero levels)
    simp [replacedBy, hk, hd]

theorem replacedBy_exhausted (hk : entities.isKept name = false)
    (hl : entities.limit ≤ expanded) : entities.replacedBy levels name expanded = [] := by
  have hrule : (entities.expandNested levels name expanded).fault ≠ none := by
    simp [expandNested_exhausted hk hl]
  have hlimit : ¬ expanded < entities.limit := Nat.not_lt.mpr hl
  cases levels with
  | zero => simp [replacedBy, hrule]
  | succ levels => cases h : entities.declaredText? name <;> simp [replacedBy, hrule, hlimit, h]

theorem derived_declared {rest : List Piece} (hk : entities.isKept name = false)
    (hl : expanded < entities.limit) (hd : entities.declaredText? name = some text)
    (hi : entities.Derived levels (Piece.ofText text) (expanded + 1))
    (hrest : ∀ expanded, entities.Derived (levels + 1) rest expanded) :
    entities.Derived (levels + 1) (.reference name :: rest) expanded := by
  have hinside : entities.replacedBy (levels + 1) name expanded =
      Expansion.replacedIn (entities.expandNested levels) (entities.replacedBy levels)
        (Piece.ofText text) (expanded + 1) ++
        if (Expansion.ofPieces (entities.expandNested levels) (Piece.ofText text)
          (expanded + 1)).fault = none then [name] else [] := by
    simp [replacedBy, hk, hl, hd, expandNested_declared hk hl hd]
  simp only [Derived, Expansion.ofPieces, Expansion.andThen, Expansion.replacedIn,
    expandNested_declared hk hl hd, hinside]
  cases hn : (Expansion.ofPieces (entities.expandNested levels) (Piece.ofText text)
    (expanded + 1)).fault with
  | none => simpa using Expands.declared hk hl hd hi hn (hrest _)
  | some fault => simpa using Expands.failed hk hl hd hi (by simp [hn])

/-- Below the deepest level, or where nothing is declared, a reference has a fixed text or none. -/
theorem derived_undeclared {rest : List Piece} (hk : entities.isKept name = false)
    (hl : expanded < entities.limit) (hd : levels = 0 ∨ entities.declaredText? name = none)
    (hrest : ∀ expanded, entities.Derived levels rest expanded) :
    entities.Derived levels (.reference name :: rest) expanded := by
  simp only [Derived, Expansion.ofPieces, Expansion.andThen, Expansion.replacedIn]
  cases hf : fixedText? name with
  | some text =>
    simpa [expandNested_fixed hk hl hf, replacedBy_of_none hd hk] using
      Expands.fixed hk hl hf (hrest (expanded + 1))
  | none =>
    obtain ⟨fault, hrule⟩ := expandNested_unknown hk hl hf hd
    simpa [hrule, replacedBy_of_none hd hk] using Expands.refused hk (.inr ⟨hf, hd⟩)

theorem derived_reference {rest : List Piece}
    (hlower : ∀ lower, levels = lower + 1 → ∀ pieces expanded,
      entities.Derived lower pieces expanded)
    (hrest : ∀ expanded, entities.Derived levels rest expanded) (name : Bytes) (expanded : Nat) :
    entities.Derived levels (.reference name :: rest) expanded := by
  by_cases hk : entities.isKept name = true
  · have hrule : entities.expandNested levels name expanded =
        { output := (Piece.reference name).written, expanded } := by
      simp [expandNested_eq, hk, Piece.written]
    simpa [Derived, Expansion.ofPieces, Expansion.andThen, Expansion.replacedIn, hrule,
      replacedBy_of_kept hk] using Expands.kept hk (hrest expanded)
  rw [Bool.not_eq_true] at hk
  by_cases hl : expanded < entities.limit
  · by_cases hd : levels = 0 ∨ entities.declaredText? name = none
    · exact derived_undeclared hk hl hd hrest
    · rw [not_or] at hd
      obtain ⟨lower, rfl⟩ := Nat.exists_eq_succ_of_ne_zero hd.1
      obtain ⟨text, htext⟩ := Option.ne_none_iff_exists'.mp hd.2
      exact derived_declared hk hl htext (hlower lower rfl _ _) hrest
  · rw [Nat.not_lt] at hl
    simpa [Derived, Expansion.ofPieces, Expansion.andThen, Expansion.replacedIn,
      expandNested_exhausted hk hl, replacedBy_exhausted hk hl] using Expands.refused hk (.inl hl)

theorem ofPieces_derived (entities : Entities) (levels : Nat) (pieces : List Piece)
    (expanded : Nat) : entities.Derived levels pieces expanded := by
  -- Inside the induction on the levels, one on the pieces: a text is no part of its reference.
  have hpieces {levels : Nat} (hlower : ∀ lower, levels = lower + 1 → ∀ pieces expanded,
      entities.Derived lower pieces expanded) (pieces : List Piece) (expanded : Nat) :
      entities.Derived levels pieces expanded := by
    induction pieces generalizing expanded with
    | nil => exact .nil
    | cons piece rest ih =>
      cases piece with
      | literal bytes => exact .literal (ih expanded)
      | reference name => exact derived_reference hlower ih name expanded
  induction levels generalizing pieces expanded with
  | zero => exact hpieces (by simp) pieces expanded
  | succ levels ih =>
    refine hpieces ?_ pieces expanded
    rintro lower ⟨⟩
    exact ih

-- ---------------------------------------------------------------------------
-- What is counted
-- ---------------------------------------------------------------------------

namespace Expands

variable {pieces : List Piece} {result : Expansion} {replaced : List Bytes}
  (h : entities.Expands levels pieces expanded result replaced)
include h

theorem le : expanded ≤ result.expanded := by
  induction h with
  | nil => exact Nat.le_refl _
  | literal _ ih => exact ih
  | kept _ _ ih => exact ih
  | fixed _ _ _ _ ih => exact Nat.le_of_succ_le ih
  | declared _ _ _ _ _ _ ihi ih => exact Nat.le_trans (Nat.le_of_succ_le ihi) ih
  | failed _ _ _ _ _ ihi => exact Nat.le_of_succ_le ihi
  | refused => exact Nat.le_succ _

/-- Without a fault, the last reference that was replaced was within the limit. -/
theorem le_limit (hn : result.fault = none) :
    result.expanded = expanded ∨ result.expanded ≤ entities.limit := by
  induction h with
  | nil => exact .inl rfl
  | literal _ ih => exact ih hn
  | kept _ _ ih => exact ih hn
  | fixed _ hl _ _ ih =>
    have := ih hn
    dsimp only
    omega
  | declared _ hl _ _ hni _ ihi ih =>
    have := ihi hni
    have := ih hn
    dsimp only
    omega
  | failed _ _ _ _ hni => exact absurd hn hni
  | refused => cases hn

end Expands

end Entities

end XmlStore
