import XmlStore.Markup.Construct
import XmlStore.Proofs.Cutting

/-!
# Escaped text

A writer puts references in the place of bytes that would be read as something else. Whatever the
bytes are, replacing the references gives them back, and every escape counts once.
-/

namespace XmlStore

-- ---------------------------------------------------------------------------
-- References that stand for a byte
-- ---------------------------------------------------------------------------

/-- The bytes that the name of an escape is made of. -/
def isEscapeByte (b : UInt8) : Bool := isLetter b || isDigit b || b == 0x23 || b == 0x2B

/-- This reference is replaced by the byte, whatever a document declares. -/
structure StandsFor (name : Bytes) (b : UInt8) : Prop where
  spelled : ∀ d ∈ name, isEscapeByte d
  replaced : ∀ (entities : Entities) (levels expanded : Nat), expanded < entities.limit →
    entities.expandNested levels name expanded = { output := [b], expanded := expanded + 1 }

theorem StandsFor.not_mem {name : Bytes} {b d : UInt8} (h : StandsFor name b)
    (hd : isEscapeByte d = false) : d ∉ name := by
  intro hm
  rw [h.spelled d hm] at hd
  cases hd

theorem standsFor_predefined {name : Bytes} {b : UInt8} (hspelled : ∀ d ∈ name, isEscapeByte d)
    (hname : name.head? ≠ some 0x23) (h : predefined? name = some [b]) : StandsFor name b where
  spelled := hspelled
  replaced := by
    intro entities levels expanded hlimit
    have hkept : entities.isKept name = false := by simp [Entities.isKept, h]
    have hlimit : ¬ expanded + 1 > entities.limit := Nat.not_lt.mpr hlimit
    rw [Entities.expandNested]
    simp only [hkept, hlimit, hname, h, Bool.false_eq_true, ↓reduceIte]

theorem digitValue?_isSome {base : Nat} {b : UInt8} (h : (digitValue? base b).isSome) :
    isDigit b ∨ isLetter b := by
  by_cases hd : isDigit b
  · exact .inl hd
  by_cases hl : isLetter b
  · exact .inr hl
  simp [digitValue?, hd, hl] at h

theorem digits_of_foldlM {base value result : Nat} {digits : Bytes}
    (h : digits.foldlM (fun value b => (digitValue? base b).map (value * base + ·)) value =
      some result) : ∀ b ∈ digits, isDigit b ∨ isLetter b := by
  induction digits generalizing value with
  | nil => simp
  | cons b rest ih =>
    rw [List.foldlM_cons] at h
    obtain ⟨next, hb, hrest⟩ := Option.bind_eq_some_iff.mp h
    obtain ⟨digit, hd, -⟩ := Option.map_eq_some_iff.mp hb
    intro d hm
    rcases List.mem_cons.mp hm with rfl | hm
    · exact digitValue?_isSome (by rw [hd]; rfl)
    · exact ih hrest d hm

theorem number?_spelled {base value : Nat} {digits : Bytes} (h : number? base digits = some value) :
    ∀ d ∈ digits, isEscapeByte d := by
  have hspelled : ∀ d, isDigit d ∨ isLetter d → isEscapeByte d := by
    rintro d (hd | hd) <;> simp [isEscapeByte, hd]
  unfold number? at h
  simp only [Option.ite_none_left_eq_some] at h
  have hdigits := digits_of_foldlM h.2
  by_cases hsign : digits.head? = some 0x2B
  · obtain ⟨rest, rfl⟩ := List.head?_eq_some_iff.mp hsign
    rw [if_pos hsign] at hdigits
    intro d hm
    rcases List.mem_cons.mp hm with rfl | hm
    · decide
    · exact hspelled d (hdigits d hm)
  · rw [if_neg hsign] at hdigits
    exact fun d hm => hspelled d (hdigits d hm)

theorem characterReference?_spelled {digits : Bytes} {char : Char}
    (h : characterReference? digits = some char) : ∀ d ∈ digits, isEscapeByte d := by
  unfold characterReference? at h
  simp only at h
  obtain ⟨value, hvalue, -⟩ := Option.map_eq_some_iff.mp h
  obtain ⟨hvalue, -⟩ := Option.filter_eq_some_iff.mp hvalue
  have hletter : ∀ {mark : UInt8} {rest : Bytes}, isEscapeByte mark →
      number? 16 rest = some value → ∀ d ∈ mark :: rest, isEscapeByte d := by
    intro mark rest hmark hrest d hm
    rcases List.mem_cons.mp hm with rfl | hm
    · exact hmark
    · exact number?_spelled hrest d hm
  split at hvalue
  next => exact hletter (by decide) hvalue
  next => exact hletter (by decide) hvalue
  next => exact number?_spelled hvalue

theorem standsFor_character {digits : Bytes} {char : Char} {b : UInt8}
    (h : characterReference? digits = some char) (hb : Utf8.encode [char] = [b]) :
    StandsFor (0x23 :: digits) b where
  spelled := by
    intro d hm
    rcases List.mem_cons.mp hm with rfl | hm
    · decide
    · exact characterReference?_spelled h d hm
  replaced := by
    intro entities levels expanded hlimit
    have hkept : entities.isKept (0x23 :: digits) = false := by simp [Entities.isKept]
    have hlimit : ¬ expanded + 1 > entities.limit := Nat.not_lt.mpr hlimit
    rw [Entities.expandNested]
    simp only [hkept, hlimit, List.head?_cons, List.tail_cons, h, hb, Bool.false_eq_true,
      ↓reduceIte]

-- ---------------------------------------------------------------------------
-- Escapes
-- ---------------------------------------------------------------------------

/-- The bytes that are written by number in attribute values: the quotation mark and, as a reader
takes it for a space, other white space. -/
def isNumbered (b : UInt8) : Bool := b == 0x22 || b == 0x09 || b == 0x0A || b == 0x0D

/-- How a writer numbers these bytes: in decimal or hexadecimal digits, with zeros in front or
without. -/
structure Numerals where
  digits : UInt8 → Bytes
  numbers : ∀ b, isNumbered b → characterReference? (digits b) = some (Char.ofNat b.toNat)

theorem cases_of_isNumbered {b : UInt8} (h : isNumbered b) :
    b = 0x22 ∨ b = 0x09 ∨ b = 0x0A ∨ b = 0x0D := by
  simpa [isNumbered, or_assoc] using h

def Numerals.decimal : Numerals where
  digits b :=
    if b = 0x22 then ascii "34" else if b = 0x09 then ascii "9"
    else if b = 0x0A then ascii "10" else ascii "13"
  numbers b h := by
    rcases cases_of_isNumbered h with rfl | rfl | rfl | rfl <;> decide

/-- The reference that a writer puts in the place of a byte of text. -/
def textEscape? (b : UInt8) : Option Bytes :=
  if b = 0x26 then some (ascii "amp")
  else if b = 0x3C then some (ascii "lt")
  else if b = 0x0D then some (ascii "#13")
  else none

/-- The reference that a writer puts in the place of a byte of an attribute value. -/
def valueEscape? (numerals : Numerals) (b : UInt8) : Option Bytes :=
  if isNumbered b then some (0x23 :: numerals.digits b) else textEscape? b

theorem textEscape?_standsFor {b : UInt8} {name : Bytes} (h : textEscape? b = some name) :
    StandsFor name b := by
  unfold textEscape? at h
  split at h
  next hb =>
    obtain rfl := Option.some.inj h
    exact standsFor_predefined (List.all_eq_true.mp rfl) (by decide) (hb ▸ by decide)
  next =>
    split at h
    next hb =>
      obtain rfl := Option.some.inj h
      exact standsFor_predefined (List.all_eq_true.mp rfl) (by decide) (hb ▸ by decide)
    next =>
      split at h
      next hb =>
        obtain rfl := Option.some.inj h
        have hdigits : characterReference? (ascii "13") = some (Char.ofNat 13) := by decide
        exact standsFor_character hdigits (hb ▸ by decide)
      next => cases h

theorem valueEscape?_standsFor {numerals : Numerals} {b : UInt8} {name : Bytes}
    (h : valueEscape? numerals b = some name) : StandsFor name b := by
  unfold valueEscape? at h
  split at h
  next hb =>
    obtain rfl := Option.some.inj h
    refine standsFor_character (numerals.numbers b hb) ?_
    rcases cases_of_isNumbered hb with rfl | rfl | rfl | rfl <;> decide
  next => exact textEscape?_standsFor h

section
variable (escape? : UInt8 → Option Bytes)

/-- A byte as it is written. -/
def escapeByte (b : UInt8) : Bytes :=
  match escape? b with
  | some name => 0x26 :: name ++ [0x3B]
  | none => [b]

def escape (bs : Bytes) : Bytes := bs.flatMap (escapeByte escape?)

/-- The number of references in what is written. -/
def escapes (bs : Bytes) : Nat := bs.countP fun b => (escape? b).isSome

end

/-- What is written is the bytes that need no escape, and what escapes are made of. -/
theorem mem_escape {escape? : UInt8 → Option Bytes}
    (hstands : ∀ b name, escape? b = some name → StandsFor name b) {bs : Bytes} {d : UInt8}
    (h : d ∈ escape escape? bs) :
    escape? d = none ∨ d = 0x26 ∨ d = 0x3B ∨ isEscapeByte d := by
  obtain ⟨b, -, hd⟩ := List.mem_flatMap.mp h
  unfold escapeByte at hd
  split at hd
  next name hb =>
    simp only [List.cons_append, List.mem_cons, List.mem_append, List.not_mem_nil, or_false] at hd
    rcases hd with rfl | hd | rfl
    · exact .inr (.inl rfl)
    · exact .inr (.inr (.inr ((hstands b name hb).spelled d hd)))
    · exact .inr (.inr (.inl rfl))
  next hb =>
    obtain rfl := List.mem_singleton.mp hd
    exact .inl hb

theorem not_mem_escape_value (numerals : Numerals) {d : UInt8}
    (hd : isNumbered d ∨ d = 0x3C) (bs : Bytes) : d ∉ escape (valueEscape? numerals) bs := by
  intro h
  rcases mem_escape (fun _ _ => valueEscape?_standsFor) h with he | he
  · rcases hd with hd | rfl
    · simp [valueEscape?, hd] at he
    · simp [valueEscape?, textEscape?, isNumbered] at he
  · have hcases : d = 0x22 ∨ d = 0x09 ∨ d = 0x0A ∨ d = 0x0D ∨ d = 0x3C := by
      rcases hd with hd | rfl
      · rcases cases_of_isNumbered hd with h | h | h | h <;> simp [h]
      · simp
    rcases hcases with rfl | rfl | rfl | rfl | rfl <;> revert he <;> decide

-- ---------------------------------------------------------------------------
-- Replacing the references
-- ---------------------------------------------------------------------------

section
variable {rule : Bytes → Nat → Expansion}

theorem ofPieces_literal (bytes : Bytes) (pieces : List Piece) (expanded : Nat) :
    Expansion.ofPieces rule (.literal bytes :: pieces) expanded =
      { Expansion.ofPieces rule pieces expanded with
        output := bytes ++ (Expansion.ofPieces rule pieces expanded).output } := rfl

theorem ofText_eq_literal {text : Bytes}
    (h : ∀ before after, cutAt? (· == 0x26) text = some (before, after) →
      cutAt? (· == 0x3B) after = none) : Piece.ofText text = [.literal text] := by
  rw [Piece.ofText]
  split
  next => rfl
  next before after hopen =>
    split
    next => rfl
    next hclose =>
      rw [h before after hopen] at hclose
      cases hclose

theorem ofText_eq_reference {text before after name rest : Bytes}
    (hopen : cutAt? (· == 0x26) text = some (before, after))
    (hclose : cutAt? (· == 0x3B) after = some (name, rest)) :
    Piece.ofText text = .literal before :: .reference name :: Piece.ofText rest := by
  rw [Piece.ofText]
  split
  next h =>
    rw [hopen] at h
    cases h
  next h =>
    rw [hopen] at h
    cases h
    split
    next h =>
      rw [hclose] at h
      cases h
    next h =>
      rw [hclose] at h
      cases h
      rfl

/-- A byte before a text stands for itself unless it is an ampersand. -/
theorem ofPieces_ofText_cons {b : UInt8} (hb : b ≠ 0x26) (rest : Bytes) (expanded : Nat) :
    Expansion.ofPieces rule (Piece.ofText (b :: rest)) expanded =
      { Expansion.ofPieces rule (Piece.ofText rest) expanded with
        output := b :: (Expansion.ofPieces rule (Piece.ofText rest) expanded).output } := by
  have hcut : cutAt? (· == 0x26) (b :: rest) =
      (cutAt? (· == 0x26) rest).map fun found => (b :: found.1, found.2) := by
    rw [cutAt?, if_neg (by simpa using hb)]
  cases hopen : cutAt? (· == 0x26) rest with
  | none =>
    rw [ofText_eq_literal (by simp [hcut, hopen]), ofText_eq_literal (by simp [hopen])]
    rfl
  | some found =>
    obtain ⟨before, after⟩ := found
    cases hclose : cutAt? (· == 0x3B) after with
    | none =>
      rw [ofText_eq_literal (by simp_all), ofText_eq_literal (by simp_all)]
      rfl
    | some found =>
      obtain ⟨name, rest'⟩ := found
      rw [ofText_eq_reference (by rw [hcut, hopen]; rfl) hclose,
        ofText_eq_reference hopen hclose]
      rfl

theorem ofPieces_ofText_reference {name : Bytes} (hname : 0x3B ∉ name) (rest : Bytes)
    (expanded : Nat) :
    Expansion.ofPieces rule (Piece.ofText (0x26 :: name ++ 0x3B :: rest)) expanded =
      (rule name expanded).andThen (Expansion.ofPieces rule (Piece.ofText rest)) := by
  have hopen : cutAt? (· == 0x26) (0x26 :: name ++ 0x3B :: rest) =
      some ([], name ++ 0x3B :: rest) := rfl
  have hclose : cutAt? (· == 0x3B) (name ++ 0x3B :: rest) = some (name, rest) := by
    refine cutAt?_self ?_ rfl rest
    intro d hd
    simpa using fun h : d = 0x3B => hname (h ▸ hd)
  rw [ofText_eq_reference hopen hclose, ofPieces_literal]
  rfl

end

/-- Replacing the references in what was written gives the bytes back. -/
theorem expandText_escape {escape? : UInt8 → Option Bytes}
    (hstands : ∀ b name, escape? b = some name → StandsFor name b)
    (hampersand : escape? 0x26 ≠ none) {entities : Entities} {bs : Bytes}
    (hlimit : entities.expanded + escapes escape? bs ≤ entities.limit) :
    entities.expandText (escape escape? bs) =
      { output := bs, expanded := entities.expanded + escapes escape? bs } := by
  unfold Entities.expandText
  -- The rule looks at the count it is given, not at the one in the entities.
  generalize entities.expanded = expanded at hlimit ⊢
  induction bs generalizing expanded with
  | nil =>
    rw [escape, List.flatMap_nil, Piece.ofText]
    rfl
  | cons b rest ih =>
    rw [escape, List.flatMap_cons, ← escape]
    rw [escapes, List.countP_cons, ← escapes] at hlimit ⊢
    cases hb : escape? b with
    | none =>
      have hne : b ≠ 0x26 := by
        rintro rfl
        exact hampersand hb
      simp only [hb, Option.isSome_none, Bool.false_eq_true, ↓reduceIte, Nat.add_zero] at hlimit ⊢
      rw [escapeByte, hb]
      change Expansion.ofPieces _ (Piece.ofText (b :: escape escape? rest)) expanded = _
      rw [ofPieces_ofText_cons hne, ih expanded hlimit]
    | some name =>
      have hname := hstands b name hb
      simp only [hb, Option.isSome_some, ↓reduceIte] at hlimit ⊢
      rw [escapeByte, hb]
      simp only [List.append_assoc, List.cons_append, List.nil_append]
      rw [← List.cons_append, ofPieces_ofText_reference (hname.not_mem (by decide)),
        hname.replaced entities _ expanded (by omega), Expansion.andThen,
        ih (expanded + 1) (by omega)]
      simp only [List.cons_append, List.nil_append, Expansion.mk.injEq, and_true, true_and]
      omega

end XmlStore
