import XmlStore.Proofs.Escaping
import XmlStore.Proofs.Mirroring

/-!
# Line ends in replacement texts

A declared text replaces a reference as it is written, with its line ends. So a text that holds
references may keep line ends that the same text has not if the declarations have line feeds. It
has no other differences, and none at all if no declared text holds a carriage return.
-/

namespace XmlStore

-- ---------------------------------------------------------------------------
-- Texts with other line ends
-- ---------------------------------------------------------------------------

/-- Some line ends of the first text are line feeds in the second one. -/
inductive Relined : Bytes → Bytes → Prop
  | nil : Relined [] []
  | byte {x y : Bytes} (b : UInt8) (h : Relined x y) : Relined (b :: x) (b :: y)
  | alone {x y : Bytes} (h : Relined x y) : Relined (0x0D :: x) (0x0A :: y)
  | pair {x y : Bytes} (h : Relined x y) : Relined (0x0D :: 0x0A :: x) (0x0A :: y)

namespace Relined

variable {x y x' y' : Bytes}

theorem refl (x : Bytes) : Relined x x := by
  induction x with
  | nil => exact .nil
  | cons b rest ih => exact .byte b ih

theorem append (h : Relined x y) (h' : Relined x' y') : Relined (x ++ x') (y ++ y') := by
  induction h with
  | nil => exact h'
  | byte b _ ih => exact .byte b ih
  | alone _ ih => exact .alone ih
  | pair _ ih => exact .pair ih

theorem normalized (x : Bytes) : Relined x (normalizeLineEnds x) := by
  fun_induction normalizeLineEnds x with
  | case1 => exact .nil
  | case2 b =>
    split
    next hb =>
      rw [eq_of_beq hb]
      exact .alone .nil
    next => exact .byte b .nil
  | case3 b c rest h ih =>
    obtain ⟨hb, hc⟩ := Bool.and_eq_true_iff.mp h
    rw [eq_of_beq hb, eq_of_beq hc]
    exact .pair ih
  | case4 b c rest h ih =>
    split
    next hb =>
      rw [eq_of_beq hb]
      exact .alone ih
    next => exact .byte b ih

theorem fed (x : Bytes) : Relined x (lineFeeds false x) := by
  rw [← normalizeLineEnds_eq]
  exact .normalized x

theorem isEmpty_eq (h : Relined x y) : y.isEmpty = x.isEmpty := by
  cases h <;> rfl

end Relined

-- ---------------------------------------------------------------------------
-- References
-- ---------------------------------------------------------------------------

def Piece.fed : Piece → Piece
  | .literal bytes => .literal (lineFeeds false bytes)
  | .reference name => .reference (lineFeeds false name)

theorem cutAt?_mark_lineFeeds {d : UInt8} (h : isLineEnd d = false) (bs : Bytes) :
    cutAt? (· == d) (lineFeeds false bs) = (cutAt? (· == d) bs).map (feedParts false) := by
  refine cutAt?_lineFeeds (fun b hb => beq_eq_false_iff_ne.mpr ?_) false bs
  rintro rfl
  rw [h] at hb
  cases hb

theorem ofText_lineFeeds (text : Bytes) :
    Piece.ofText (lineFeeds false text) = (Piece.ofText text).map Piece.fed := by
  have hopen := cutAt?_mark_lineFeeds (d := 0x26) rfl text
  cases h : cutAt? (· == 0x26) text with
  | none =>
    rw [h] at hopen
    have hnone {bs : Bytes} (hbs : cutAt? (· == 0x26) bs = none) :
        Piece.ofText bs = [.literal bs] :=
      ofText_eq_literal fun _ _ hcut => by
        rw [hbs] at hcut
        cases hcut
    rw [hnone h, hnone hopen]
    rfl
  | some found =>
    obtain ⟨before, after⟩ := found
    rw [h] at hopen
    have hclose := cutAt?_mark_lineFeeds (d := 0x3B) rfl after
    cases h' : cutAt? (· == 0x3B) after with
    | none =>
      rw [h'] at hclose
      have hopened {bs before after : Bytes} (hbs : cutAt? (· == 0x26) bs = some (before, after))
          (hafter : cutAt? (· == 0x3B) after = none) : Piece.ofText bs = [.literal bs] :=
        ofText_eq_literal fun _ _ hcut => by
          rw [hbs] at hcut
          cases hcut
          exact hafter
      rw [hopened h h', hopened hopen hclose]
      rfl
    | some found =>
      obtain ⟨name, rest⟩ := found
      rw [h'] at hclose
      have hshorter : rest.length < text.length := by
        obtain ⟨_, _, hs, _⟩ := cutAt?_append h
        obtain ⟨_, _, hs', _⟩ := cutAt?_append h'
        simp only [hs, hs', List.length_append, List.length_cons]
        omega
      rw [ofText_eq_reference h h', ofText_eq_reference hopen hclose, ofText_lineFeeds rest]
      rfl
termination_by text.length

/-- Two expansions that differ in line ends only. -/
structure Expansion.Relined (first second : Expansion) : Prop where
  output : XmlStore.Relined first.output second.output
  expanded : second.expanded = first.expanded
  fault : second.fault.isSome = first.fault.isSome

namespace Expansion

theorem Relined.exists_fault {first second : Expansion} (h : first.Relined second)
    {fault : ReferenceFault} (hf : first.fault = some fault) :
    ∃ fault', second.fault = some fault' := by
  rw [← Option.isSome_iff_exists, h.fault, hf]
  rfl

theorem Relined.fault_eq_none {first second : Expansion} (h : first.Relined second)
    (hf : first.fault = none) : second.fault = none := by
  rw [← Option.isNone_iff_eq_none, ← Option.isSome_eq_false_iff, h.fault, hf]
  rfl

theorem Relined.andThen {first second : Expansion} (h : first.Relined second)
    {next next' : Nat → Expansion} (hn : ∀ expanded, (next expanded).Relined (next' expanded)) :
    (first.andThen next).Relined (second.andThen next') := by
  unfold Expansion.andThen
  cases hf : first.fault with
  | some fault =>
    obtain ⟨fault', hf'⟩ := h.exists_fault hf
    rw [hf']
    exact h
  | none =>
    rw [h.fault_eq_none hf, h.expanded]
    obtain ⟨houtput, hexpanded, hfault⟩ := hn first.expanded
    exact ⟨h.output.append houtput, hexpanded, hfault⟩

theorem ofPieces_relined {rule rule' : Bytes → Nat → Expansion}
    (h : ∀ name expanded, (rule name expanded).Relined (rule' (lineFeeds false name) expanded))
    (pieces : List Piece) (expanded : Nat) :
    (ofPieces rule pieces expanded).Relined (ofPieces rule' (pieces.map Piece.fed) expanded) := by
  induction pieces generalizing expanded with
  | nil => exact ⟨.nil, rfl, rfl⟩
  | cons piece rest ih =>
    cases piece with
    | literal bytes =>
      rw [List.map_cons, Piece.fed, ofPieces_literal, ofPieces_literal]
      exact ⟨(XmlStore.Relined.fed bytes).append (ih expanded).output, (ih expanded).expanded,
        (ih expanded).fault⟩
    | reference name => exact (h name expanded).andThen ih

end Expansion

-- ---------------------------------------------------------------------------
-- Declared texts
-- ---------------------------------------------------------------------------

theorem oneLine_of_characterReference? {digits : Bytes} {char : Char}
    (h : characterReference? digits = some char) : OneLine digits :=
  fun d hd => not_isLineEnd rfl rfl (characterReference?_spelled h d hd)

theorem characterReference?_lineFeeds (digits : Bytes) :
    characterReference? (lineFeeds false digits) = characterReference? digits := by
  cases h : characterReference? digits with
  | some char => rw [(oneLine_of_characterReference? h).lineFeeds_eq, h]
  | none =>
    cases h' : characterReference? (lineFeeds false digits) with
    | none => rfl
    | some char =>
      have hline := OneLine.of_lineFeeds (oneLine_of_characterReference? h')
      rw [hline.lineFeeds_eq, h] at h'
      cases h'

theorem predefined?_lineFeeds (name : Bytes) :
    predefined? (lineFeeds false name) = predefined? name := by
  have hname {text : Bytes} (h : OneLine text) :
      (lineFeeds false name = text) = (name = text) := propext (lineFeeds_eq_iff h)
  unfold predefined?
  simp only [hname (show OneLine (ascii "lt") by decide),
    hname (show OneLine (ascii "gt") by decide), hname (show OneLine (ascii "amp") by decide),
    hname (show OneLine (ascii "quot") by decide), hname (show OneLine (ascii "apos") by decide)]

namespace Entities

/-- Every line end of a declared text as a line feed. -/
def fed (entities : Entities) : Entities :=
  { entities with declared := entities.declared.map fun d => (d.1, lineFeeds false d.2) }

/-- The names of the declared texts hold no line ends. -/
def Named (entities : Entities) : Prop := ∀ d ∈ entities.declared, OneLine d.1

/-- The declared texts hold no carriage returns. -/
def Unreturned (entities : Entities) : Prop := ∀ d ∈ entities.declared, 0x0D ∉ d.2

instance (entities : Entities) : Decidable entities.Unreturned :=
  List.decidableBAll (fun d : Bytes × Bytes => 0x0D ∉ d.2) entities.declared

variable {entities : Entities}

theorem Unreturned.fed_eq (h : entities.Unreturned) : entities.fed = entities := by
  have hmap : entities.declared.map (fun d => (d.1, lineFeeds false d.2)) =
      entities.declared.map id := by
    refine List.map_congr_left fun d hd => ?_
    rw [lineFeeds_of_not_mem (h d hd), id]
  unfold fed
  rw [hmap, List.map_id]

theorem lookup_fed {declared : List (Bytes × Bytes)} (h : ∀ d ∈ declared, OneLine d.1)
    (name : Bytes) :
    (declared.map fun d => (d.1, lineFeeds false d.2)).lookup (lineFeeds false name) =
      (declared.lookup name).map (lineFeeds false) := by
  induction declared with
  | nil => rfl
  | cons d rest ih =>
    obtain ⟨hd, hrest⟩ := List.forall_mem_cons.mp h
    have hname : (lineFeeds false name == d.1) = (name == d.1) := by
      rw [Bool.eq_iff_iff, beq_iff_eq, beq_iff_eq, lineFeeds_eq_iff hd]
    rw [List.map_cons, List.lookup_cons, List.lookup_cons, hname]
    cases name == d.1 with
    | true => rfl
    | false => exact ih hrest

theorem lookup?_fed (h : entities.Named) (name : Bytes) :
    entities.fed.lookup? (lineFeeds false name) = (entities.lookup? name).map (lineFeeds false) :=
  lookup_fed h name

theorem isKept_fed (name : Bytes) :
    entities.fed.isKept (lineFeeds false name) = entities.isKept name := by
  have hhead : ((lineFeeds false name).head? != some 0x23) = (name.head? != some 0x23) := by
    rw [Bool.eq_iff_iff, bne_iff_ne, bne_iff_ne]
    exact not_congr (head?_lineFeeds_eq rfl name)
  simp only [isKept, hhead, predefined?_lineFeeds, fed]

/-- What replaces a name that is declared or should be, if declared texts may nest so deep. -/
def expandDeclared (entities : Entities) (levels : Nat) (name : Bytes) (expanded : Nat) :
    Expansion :=
  match levels with
  | 0 => { output := [], expanded, fault := some (.recursive name) }
  | levels + 1 =>
    match entities.lookup? name with
    | none => { output := [], expanded, fault := some (.undeclared name) }
    | some text =>
      Expansion.ofPieces (entities.expandNested levels) (Piece.ofText text) expanded

theorem expandNested_eq (levels : Nat) (name : Bytes) (expanded : Nat) :
    entities.expandNested levels name expanded =
      if entities.isKept name then { output := 0x26 :: name ++ [0x3B], expanded }
      else if expanded + 1 > entities.limit then
        { output := [], expanded := expanded + 1, fault := some (.limitExceeded entities.limit) }
      else if name.head? = some 0x23 then
        match characterReference? name.tail with
        | some c => { output := Utf8.encode [c], expanded := expanded + 1 }
        | none =>
          { output := [], expanded := expanded + 1, fault := some (.invalidCharacter name) }
      else
        match predefined? name with
        | some text => { output := text, expanded := expanded + 1 }
        | none => entities.expandDeclared levels name (expanded + 1) := by
  cases levels <;> rw [expandNested] <;> rfl

theorem relined_of_declared {levels : Nat}
    (h : ∀ name expanded, (entities.expandDeclared levels name expanded).Relined
      (entities.fed.expandDeclared levels (lineFeeds false name) expanded))
    (name : Bytes) (expanded : Nat) :
    (entities.expandNested levels name expanded).Relined
      (entities.fed.expandNested levels (lineFeeds false name) expanded) := by
  have hlimit : entities.fed.limit = entities.limit := rfl
  simp only [expandNested_eq, isKept_fed, head?_lineFeeds_eq (d := 0x23) rfl,
    predefined?_lineFeeds, hlimit]
  split
  next =>
    refine ⟨?_, rfl, rfl⟩
    exact .byte _ ((XmlStore.Relined.fed name).append (.refl _))
  next =>
    split
    next => exact ⟨.nil, rfl, rfl⟩
    next =>
      split
      next hhead =>
        obtain ⟨digits, rfl⟩ := List.head?_eq_some_iff.mp hhead
        rw [lineFeeds_cons rfl, List.tail_cons, List.tail_cons, characterReference?_lineFeeds]
        split
        next => exact ⟨.refl _, rfl, rfl⟩
        next => exact ⟨.nil, rfl, rfl⟩
      next =>
        split
        next => exact ⟨.refl _, rfl, rfl⟩
        next => exact h name (expanded + 1)

theorem expandDeclared_relined (h : entities.Named) (levels : Nat) (name : Bytes)
    (expanded : Nat) :
    (entities.expandDeclared levels name expanded).Relined
      (entities.fed.expandDeclared levels (lineFeeds false name) expanded) := by
  induction levels generalizing name expanded with
  | zero => exact ⟨.nil, rfl, rfl⟩
  | succ levels ih =>
    simp only [expandDeclared, lookup?_fed h]
    cases entities.lookup? name with
    | none => exact ⟨.nil, rfl, rfl⟩
    | some text =>
      simp only [Option.map_some, ofText_lineFeeds]
      exact Expansion.ofPieces_relined (relined_of_declared ih) _ expanded

/-- A text has its references replaced by the same texts but for their line ends. -/
theorem expandText_relined (h : entities.Named) (text : Bytes) :
    (entities.expandText text).Relined (entities.fed.expandText (lineFeeds false text)) := by
  unfold expandText
  rw [ofText_lineFeeds]
  exact Expansion.ofPieces_relined
    (relined_of_declared (expandDeclared_relined h maxNesting)) _ entities.expanded

theorem expandReference_relined (h : entities.Named) {name : Bytes} (hname : OneLine name) :
    (entities.expandReference name).Relined (entities.fed.expandReference name) := by
  have hfed := relined_of_declared (expandDeclared_relined h maxNesting) name entities.expanded
  rwa [hname.lineFeeds_eq] at hfed

theorem after_fed (entities : Entities) {first second : Expansion} (h : first.Relined second) :
    entities.fed.after second = (entities.after first).fed := by
  rw [after, h.expanded]
  rfl

theorem declare_fed (h : entities.Named) {name : Bytes} (hname : OneLine name) (value : Bytes) :
    entities.fed.declare name (lineFeeds false value) = (entities.declare name value).fed := by
  have hlookup := lookup?_fed h name
  rw [hname.lineFeeds_eq] at hlookup
  unfold declare
  rw [hlookup, Option.isSome_map]
  split
  next => rfl
  next => simp [fed]

theorem Named.declare (h : entities.Named) {name : Bytes} (hname : OneLine name) (value : Bytes) :
    (entities.declare name value).Named := by
  unfold Entities.declare
  split
  next => exact h
  next =>
    intro d hd
    rcases List.mem_append.mp hd with hd | hd
    · exact h d hd
    · rw [List.mem_singleton.mp hd]
      exact hname

theorem subset_declare (name value : Bytes) :
    entities.declared ⊆ (entities.declare name value).declared := by
  unfold declare
  split
  next => exact List.Subset.refl _
  next => exact List.subset_append_left _ _

end Entities

-- ---------------------------------------------------------------------------
-- Attributes
-- ---------------------------------------------------------------------------

/-- Two attributes whose values differ in line ends only. -/
structure Attribute.Relined (first second : Attribute) : Prop where
  name : second.name = first.name
  value : XmlStore.Relined first.value second.value

section
variable {entities : Entities}

/-- Line ends in the values of attributes are spaces already. -/
theorem decodeAttributes_fed (attributes : List Attribute) :
    decodeAttributes entities (attributes.map Attribute.fed) =
      decodeAttributes entities attributes := by
  induction attributes generalizing entities with
  | nil => rfl
  | cons att rest ih =>
    simp only [List.map_cons, decodeAttributes, Attribute.fed, spaced_lineFeeds, ih]

theorem decodeAttributes_declared (entities : Entities) (attributes : List Attribute) :
    (decodeAttributes entities attributes).1.declared = entities.declared := by
  induction attributes generalizing entities with
  | nil => rfl
  | cons att rest ih =>
    rw [decodeAttributes]
    split
    next => rfl
    next => exact ih _

theorem readAttributes_declared (entities : Entities) (stop : Nat) (text : Bytes) :
    (readAttributes entities stop text).1.declared = entities.declared := by
  rw [readAttributes]
  split <;> exact decodeAttributes_declared _ _

/-- Two results of the same kind. Attributes differ in line ends only, and under the given
condition not at all. -/
inductive AttributesRelined (same : Prop) :
    Except Error (List Attribute) → Except Error (List Attribute) → Prop
  | ok {first second : List Attribute} (h : List.Forall₂ Attribute.Relined first second)
    (he : same → second = first) :
    AttributesRelined same (.ok first) (.ok second)
  | error (first second : Error) : AttributesRelined same (.error first) (.error second)

theorem AttributesRelined.cons {same : Prop} {first second : Attribute}
    (h : first.Relined second) (he : same → second = first)
    {others others' : Except Error (List Attribute)} (ho : AttributesRelined same others others') :
    AttributesRelined same (others.map (first :: ·)) (others'.map (second :: ·)) := by
  cases ho with
  | ok ho hoe => exact .ok (.cons h ho) fun hu => by rw [he hu, hoe hu]
  | error => exact .error _ _

theorem decodeAttributes_relined (h : entities.Named) (attributes : List Attribute) :
    (decodeAttributes entities.fed attributes).1 = (decodeAttributes entities attributes).1.fed ∧
      AttributesRelined entities.Unreturned (decodeAttributes entities attributes).2
        (decodeAttributes entities.fed attributes).2 := by
  induction attributes generalizing entities with
  | nil => exact ⟨rfl, .ok .nil fun _ => rfl⟩
  | cons att rest ih =>
    have hvalue := Entities.expandText_relined h (spaced att.value)
    rw [(oneLine_spaced att.value).lineFeeds_eq] at hvalue
    obtain ⟨hentities, hattributes⟩ :=
      @ih (entities.after (entities.expandText (spaced att.value))) h
    rw [← Entities.after_fed _ hvalue] at hentities hattributes
    simp only [decodeAttributes]
    cases hfault : (entities.expandText (spaced att.value)).fault with
    | some fault =>
      obtain ⟨fault', hfault'⟩ := hvalue.exists_fault hfault
      rw [hfault']
      exact ⟨Entities.after_fed _ hvalue, .error _ _⟩
    | none =>
      rw [hvalue.fault_eq_none hfault]
      have hatt : Attribute.Relined
          { att with value := (entities.expandText (spaced att.value)).output }
          { att with value := (entities.fed.expandText (spaced att.value)).output } :=
        ⟨rfl, hvalue.output⟩
      have hsame (hu : entities.Unreturned) : Attribute.mk att.name
          (entities.fed.expandText (spaced att.value)).output =
            ⟨att.name, (entities.expandText (spaced att.value)).output⟩ := by
        rw [hu.fed_eq]
      exact ⟨hentities, hattributes.cons hatt hsame⟩

theorem readAttributes_relined (h : entities.Named) (stop stop' : Nat) (s : Bool) (text : Bytes) :
    (readAttributes entities.fed stop' (lineFeeds s text)).1 =
        (readAttributes entities stop text).1.fed ∧
      AttributesRelined entities.Unreturned (readAttributes entities stop text).2
        (readAttributes entities.fed stop' (lineFeeds s text)).2 := by
  obtain ⟨hraw, hfault⟩ := rawAttributes_lineFeeds stop stop' s text
  obtain ⟨hentities, hattributes⟩ := decodeAttributes_relined h (rawAttributes stop text).1
  unfold readAttributes
  simp only [hraw, decodeAttributes_fed]
  generalize (decodeAttributes entities (rawAttributes stop text).1).2 = attributes at *
  generalize (decodeAttributes entities.fed (rawAttributes stop text).1).2 = attributes' at *
  generalize (rawAttributes stop text).2 = fault at *
  generalize (rawAttributes stop' (lineFeeds s text)).2 = fault' at *
  cases hattributes with
  | error => exact ⟨hentities, .error _ _⟩
  | ok h he =>
    cases fault <;> cases fault'
    case none.none => exact ⟨hentities, .ok h he⟩
    case some.some => exact ⟨hentities, .error _ _⟩
    all_goals cases hfault

end

end XmlStore
