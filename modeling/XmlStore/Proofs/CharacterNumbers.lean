import Mathlib.Data.Nat.Digits.Defs
import Mathlib.Tactic.Ring
import XmlStore.Proofs.CodePoints
import XmlStore.Proofs.Expanding
import XmlStore.Proofs.Writing

/-!
# Characters by number

A character reference is a decimal number, or a hexadecimal one after its mark, and stands for the
character of that number. Where any text may stand between the ampersand and the semicolon, a plus
sign before the digits is taken as well. Content has a stricter form for its references and refuses
the sign, so that it takes fewer of them than attribute values do.
-/

namespace XmlStore

variable {base value : Nat} {b : UInt8} {digits r bs : Bytes}

-- ---------------------------------------------------------------------------
-- Numbers
-- ---------------------------------------------------------------------------

/-- A digit and its value. The letters are digits in base sixteen only. -/
inductive Digit : (base : Nat) → UInt8 → (value : Nat) → Prop
  | decimal {base : Nat} {b : UInt8} (h : 0x30 ≤ b.toNat ∧ b.toNat ≤ 0x39) :
      Digit base b (b.toNat - 0x30)
  | upper {b : UInt8} (h : 0x41 ≤ b.toNat ∧ b.toNat ≤ 0x46) : Digit 16 b (b.toNat - 0x41 + 10)
  | lower {b : UInt8} (h : 0x61 ≤ b.toNat ∧ b.toNat ≤ 0x66) : Digit 16 b (b.toNat - 0x61 + 10)

/-- One or more digits, and the number they stand for. -/
def Numeral (base : Nat) (bs : Bytes) (value : Nat) : Prop :=
  bs ≠ [] ∧ ∃ digits, List.Forall₂ (Digit base) bs digits ∧
    value = Nat.ofDigits base digits.reverse

/-- What follows the number sign of a character reference, with the number it stands for: decimal
digits, or hexadecimal digits after their mark, in either case after the given sign. -/
inductive CharacterNumber (sign : Bytes) : Bytes → (value : Nat) → Prop
  | decimal {digits : Bytes} {value : Nat} (h : Numeral 10 digits value) :
      CharacterNumber sign (sign ++ digits) value
  | hexadecimal {mark : UInt8} {digits : Bytes} {value : Nat} (hm : mark = 0x78 ∨ mark = 0x58)
      (h : Numeral 16 digits value) : CharacterNumber sign (mark :: (sign ++ digits)) value

theorem isDigit_iff : isDigit b ↔ 0x30 ≤ b.toNat ∧ b.toNat ≤ 0x39 := by
  simp [isDigit, UInt8.le_iff_toNat_le]

theorem isLetter_iff : isLetter b ↔
    0x41 ≤ b.toNat ∧ b.toNat ≤ 0x5A ∨ 0x61 ≤ b.toNat ∧ b.toNat ≤ 0x7A := by
  simp [isLetter, UInt8.le_iff_toNat_le]

theorem toNat_asciiUpper (h : isLetter b) :
    (asciiUpper b).toNat = if 0x61 ≤ b.toNat then b.toNat - 0x20 else b.toNat := by
  have hletter := isLetter_iff.mp h
  by_cases hlower : 0x61 ≤ b.toNat
  · have hle : 0x20 ≤ b := by
      simp only [UInt8.le_iff_toNat_le, UInt8.reduceToNat]
      omega
    have hlast : b.toNat ≤ 0x7A := by omega
    simp [asciiUpper, UInt8.le_iff_toNat_le, hlower, hlast, UInt8.toNat_sub_of_le _ _ hle]
  · simp [asciiUpper, UInt8.le_iff_toNat_le, hlower]

theorem digitValue?_of_isLetter (h : isLetter b) :
    digitValue? base b =
      let value := (if 0x61 ≤ b.toNat then b.toNat - 0x61 else b.toNat - 0x41) + 10
      if value < base then some value else none := by
  have hletter := isLetter_iff.mp h
  have hd : ¬ isDigit b := by
    rw [isDigit_iff]
    omega
  have hvalue : (asciiUpper b).toNat - 0x41 =
      if 0x61 ≤ b.toNat then b.toNat - 0x61 else b.toNat - 0x41 := by
    rw [toNat_asciiUpper h]
    split <;> omega
  simp only [digitValue?, hd, h, hvalue, Bool.false_eq_true, ↓reduceIte]

namespace Digit

theorem isDigit_or_isLetter (h : Digit base b value) : isDigit b ∨ isLetter b := by
  rw [isDigit_iff, isLetter_iff]
  cases h <;> omega

theorem isDigit_of_ten (h : Digit 10 b value) : isDigit b := by
  cases h with
  | decimal h => exact isDigit_iff.mpr h

variable (hbase : base = 10 ∨ base = 16)
include hbase

theorem digitValue?_eq (h : Digit base b value) : digitValue? base b = some value := by
  cases h with
  | decimal h =>
    have hlt : b.toNat - 0x30 < base := by omega
    simp [digitValue?, isDigit_iff.mpr h, hlt]
  | upper h =>
    have hl : isLetter b := isLetter_iff.mpr (by omega)
    have hlower : ¬ 0x61 ≤ b.toNat := by omega
    simp only [digitValue?_of_isLetter hl, hlower, ↓reduceIte]
    exact if_pos (by omega)
  | lower h =>
    have hl : isLetter b := isLetter_iff.mpr (by omega)
    simp only [digitValue?_of_isLetter hl, h, ↓reduceIte]
    exact if_pos (by omega)

theorem of_digitValue? (h : digitValue? base b = some value) : Digit base b value := by
  by_cases hd : isDigit b
  · simp only [digitValue?, hd, ↓reduceIte, Option.ite_none_right_eq_some, Option.some.injEq] at h
    obtain ⟨-, rfl⟩ := h
    exact .decimal (isDigit_iff.mp hd)
  by_cases hl : isLetter b
  · simp only [digitValue?_of_isLetter hl, Option.ite_none_right_eq_some, Option.some.injEq] at h
    obtain ⟨hlt, rfl⟩ := h
    obtain rfl : base = 16 := hbase.resolve_left (by omega)
    have hletter := isLetter_iff.mp hl
    by_cases hlower : 0x61 ≤ b.toNat
    · simp only [hlower, ↓reduceIte] at hlt ⊢
      exact .lower (by omega)
    · simp only [hlower, ↓reduceIte] at hlt ⊢
      exact .upper (by omega)
  · simp [digitValue?, hd, hl] at h

end Digit

theorem foldlM_digitValue?_eq_some_iff (hbase : base = 10 ∨ base = 16) {result : Nat} :
    bs.foldlM (fun value b => (digitValue? base b).map (value * base + ·)) value = some result ↔
      ∃ digits, List.Forall₂ (Digit base) bs digits ∧
        result = value * base ^ bs.length + Nat.ofDigits base digits.reverse := by
  induction bs generalizing value with
  | nil => simp [eq_comm]
  | cons b rest ih =>
    have hvalue (digit : Nat) {digits : List Nat} (h : List.Forall₂ (Digit base) rest digits) :
        (value * base + digit) * base ^ rest.length + Nat.ofDigits base digits.reverse =
          value * base ^ (b :: rest).length + Nat.ofDigits base (digit :: digits).reverse := by
      rw [Nat.ofDigits_reverse_cons, List.length_cons, h.length_eq]
      ring
    simp only [List.foldlM_cons, Option.bind_eq_bind, Option.bind_eq_some_iff,
      Option.map_eq_some_iff, ih]
    constructor
    · rintro ⟨_, ⟨digit, hd, rfl⟩, digits, hdigits, rfl⟩
      exact ⟨digit :: digits, .cons (.of_digitValue? hbase hd) hdigits, hvalue digit hdigits⟩
    · rintro ⟨_, hd | ⟨hd, hdigits⟩, rfl⟩
      exact ⟨_, ⟨_, hd.digitValue?_eq hbase, rfl⟩, _, hdigits, (hvalue _ hdigits).symm⟩

namespace Numeral

theorem forall_mem {p : UInt8 → Prop} (hp : ∀ {b value}, Digit base b value → p b)
    (h : Numeral base digits value) : ∀ b ∈ digits, p b := by
  obtain ⟨-, values, hdigits, -⟩ := h
  induction hdigits with
  | nil => simp
  | cons hd _ ih => exact List.forall_mem_cons.mpr ⟨hp hd, ih⟩

theorem isDigit_or_isLetter (h : Numeral base digits value) :
    ∀ b ∈ digits, isDigit b ∨ isLetter b := h.forall_mem Digit.isDigit_or_isLetter

theorem isDigit_of_ten (h : Numeral 10 digits value) : ∀ b ∈ digits, isDigit b :=
  h.forall_mem Digit.isDigit_of_ten

end Numeral

theorem number?_eq_some_iff (hbase : base = 10 ∨ base = 16) :
    number? base bs = some value ↔
      Numeral base bs value ∨ ∃ digits, bs = 0x2B :: digits ∧ Numeral base digits value := by
  -- The test for a sign comes first, and no number begins with one.
  have hplus {digits : Bytes} : ¬ Numeral base (0x2B :: digits) value := fun h =>
    absurd (h.isDigit_or_isLetter 0x2B (by simp)) (by decide)
  have hunsigned (bs : Bytes) : (if bs.isEmpty then none else bs.foldlM (fun value b =>
      (digitValue? base b).map (value * base + ·)) 0) = some value ↔ Numeral base bs value := by
    simp [Numeral, foldlM_digitValue?_eq_some_iff hbase]
  simp only [number?, hunsigned]
  by_cases hsign : bs.head? = some 0x2B
  · obtain ⟨digits, rfl⟩ := List.head?_eq_some_iff.mp hsign
    simp [hplus]
  · have hunsign : ¬ ∃ digits, bs = 0x2B :: digits ∧ Numeral base digits value := by
      rintro ⟨digits, rfl, -⟩
      exact hsign rfl
    simp [hsign, hunsign]

namespace CharacterNumber

variable {sign : Bytes} {mark : UInt8}

theorem isDigit_or_isLetter (h : CharacterNumber [] r value) :
    r ≠ [] ∧ ∀ b ∈ r, isDigit b ∨ isLetter b := by
  cases h with
  | decimal h => exact ⟨h.1, h.isDigit_or_isLetter⟩
  | @hexadecimal mark _ _ hm h =>
    have hmark : isDigit mark ∨ isLetter mark := by
      rcases hm with rfl | rfl <;> decide
    exact ⟨nofun, List.forall_mem_cons.mpr ⟨hmark, h.isDigit_or_isLetter⟩⟩

theorem sign_mem (h : CharacterNumber sign r value) : ∀ b ∈ sign, b ∈ r := by
  cases h <;> simp +contextual

theorem marked_iff (hm : mark = 0x78 ∨ mark = 0x58) (hs : mark ∉ sign) :
    CharacterNumber sign (mark :: r) value ↔
      ∃ digits, r = sign ++ digits ∧ Numeral 16 digits value := by
  constructor
  · intro h
    generalize hr : mark :: r = text at h
    cases h with
    | decimal h =>
      have hmem := List.mem_append.mp (hr ▸ List.mem_cons_self)
      have hd : isDigit mark := h.isDigit_of_ten mark (hmem.resolve_left hs)
      rcases hm with rfl | rfl <;> cases hd
    | hexadecimal _ h =>
      obtain ⟨-, rfl⟩ := List.cons.inj hr
      exact ⟨_, rfl, h⟩
  · rintro ⟨digits, rfl, h⟩
    exact .hexadecimal hm h

theorem unmarked_iff (hx : ∀ rest, r ≠ 0x78 :: rest) (hX : ∀ rest, r ≠ 0x58 :: rest) :
    CharacterNumber sign r value ↔ ∃ digits, r = sign ++ digits ∧ Numeral 10 digits value := by
  constructor
  · rintro (h | ⟨rfl | rfl, h⟩)
    · exact ⟨_, rfl, h⟩
    · exact absurd rfl (hx _)
    · exact absurd rfl (hX _)
  · rintro ⟨digits, rfl, h⟩
    exact .decimal h

theorem number?_of_mark (hm : mark = 0x78 ∨ mark = 0x58) :
    number? 16 r = some value ↔
      CharacterNumber [] (mark :: r) value ∨ CharacterNumber [0x2B] (mark :: r) value := by
  have hplus : mark ∉ [0x2B] := by
    rcases hm with rfl | rfl <;> decide
  rw [marked_iff hm List.not_mem_nil, marked_iff hm hplus]
  simp [number?_eq_some_iff]

theorem number?_of_no_mark (hx : ∀ rest, r ≠ 0x78 :: rest) (hX : ∀ rest, r ≠ 0x58 :: rest) :
    number? 10 r = some value ↔ CharacterNumber [] r value ∨ CharacterNumber [0x2B] r value := by
  rw [unmarked_iff hx hX, unmarked_iff hx hX]
  simp [number?_eq_some_iff]

end CharacterNumber

theorem toNat_of_isXmlChar (h : isXmlChar value) : (Char.ofNat value).toNat = value := by
  refine Utf8.toNat_charOfNat ?_
  simp only [isXmlChar, Bool.or_eq_true, beq_iff_eq, Bool.and_eq_true, decide_eq_true_eq] at h
  omega

theorem characterReference?_eq_some_iff {char : Char} :
    characterReference? r = some char ↔ isXmlChar char.toNat ∧
      (CharacterNumber [] r char.toNat ∨ CharacterNumber [0x2B] r char.toNat) := by
  have hchar {value : Nat} : isXmlChar value ∧ Char.ofNat value = char ↔
      isXmlChar char.toNat ∧ value = char.toNat := by
    constructor
    · rintro ⟨hx, rfl⟩
      simp [toNat_of_isXmlChar hx, hx]
    · rintro ⟨hx, rfl⟩
      simp [hx]
  simp only [characterReference?, Option.map_eq_some_iff, Option.filter_eq_some_iff, and_assoc,
    hchar]
  split
  next => simp [CharacterNumber.number?_of_mark (.inl rfl), and_comm]
  next => simp [CharacterNumber.number?_of_mark (.inr rfl), and_comm]
  next hx hX => simp [CharacterNumber.number?_of_no_mark hx hX, and_comm]

-- ---------------------------------------------------------------------------
-- White space in values
-- ---------------------------------------------------------------------------

theorem spaced_cons (h : ¬ isSpace b) : spaced (b :: bs) = b :: spaced bs := by
  cases bs with
  | nil => simp [spaced, h]
  | cons c rest =>
    have hb : b ≠ 0x0D := by
      rintro rfl
      exact h rfl
    simp [spaced, h, hb]

theorem spaced_append_singleton (h : ¬ isSpace b) : spaced (bs ++ [b]) = spaced bs ++ [b] := by
  have hb : b ≠ 0x0A := by
    rintro rfl
    exact h rfl
  fun_induction spaced bs with
  | case1 => simp [spaced, h]
  | case2 c => simp [spaced, h, hb]
  | case3 c d rest hcd ih => simp_all [spaced]
  | case4 c d rest hcd ih => simp_all [spaced]

theorem mem_or_eq_of_mem_spaced (h : b ∈ spaced bs) : b ∈ bs ∨ b = 0x20 := by
  fun_induction spaced bs with
  | case1 => cases h
  | case2 c => grind
  | case3 c d rest hcd ih => grind
  | case4 c d rest hcd ih => grind

theorem space_mem_spaced (h : b ∈ bs) (hb : isSpace b) : 0x20 ∈ spaced bs := by
  fun_induction spaced bs with
  | case1 => cases h
  | case2 c => grind
  | case3 c d rest hcd ih => grind
  | case4 c d rest hcd ih => grind

/-- White space is no part of a number, whether or not it counts as spaces. -/
theorem spaced_eq_self_or (r : Bytes) : spaced r = r ∨
    characterReference? r = none ∧ characterReference? (spaced r) = none := by
  have hspelled {r : Bytes} (hr : ∃ b ∈ r, isSpace b) : characterReference? r = none := by
    obtain ⟨b, hb, hspace⟩ := hr
    refine Option.eq_none_iff_forall_ne_some.mpr fun c hc => ?_
    have hescape := characterReference?_spelled hc b hb
    simp only [isSpace, Bool.or_eq_true, beq_iff_eq] at hspace
    rcases hspace with ((rfl | rfl) | rfl) | rfl <;> cases hescape
  by_cases hr : ∃ b ∈ r, isSpace b
  · obtain ⟨b, hb, hspace⟩ := hr
    exact .inr ⟨hspelled ⟨b, hb, hspace⟩, hspelled ⟨0x20, space_mem_spaced hb hspace, rfl⟩⟩
  · refine .inl (spaced_eq_self fun b hb hspace => absurd ⟨b, hb, hspace⟩ hr)

-- ---------------------------------------------------------------------------
-- References
-- ---------------------------------------------------------------------------

namespace Entities

variable {entities : Entities} {char : Char}

theorem expandText_reference {name : Bytes} (hname : 0x3B ∉ name) :
    entities.expandText (0x26 :: name ++ [0x3B]) = entities.expandReference name := by
  have hnil : Piece.ofText [] = [.literal []] := ofText_eq_literal nofun
  unfold expandText expandReference
  rw [ofPieces_ofText_reference hname, hnil]
  obtain ⟨output, expanded, _ | fault⟩ := entities.expandNested maxNesting name entities.expanded
  · simp [Expansion.andThen, Expansion.ofPieces]
  · rfl

theorem isKept_number : entities.isKept (0x23 :: r) = false := by simp [isKept]

variable (hl : entities.expanded < entities.limit)
include hl

theorem expandReference_character (h : characterReference? r = some char) :
    entities.expandReference (0x23 :: r) =
      { output := Utf8.encode [char], expanded := entities.expanded + 1 } :=
  expandNested_fixed isKept_number hl (by simp [fixedText?, h])

theorem expandReference_fault (h : characterReference? r = none) :
    (entities.expandReference (0x23 :: r)).fault ≠ none := by
  have hfixed : fixedText? (0x23 :: r) = none := by simp [fixedText?, h]
  have hdeclared : entities.declaredText? (0x23 :: r) = none := by simp [declaredText?]
  obtain ⟨fault, hfault⟩ : ∃ fault, entities.expandReference (0x23 :: r) = _ :=
    expandNested_unknown isKept_number hl hfixed (.inr hdeclared)
  simp [hfault]

theorem expandReference_number_iff :
    (entities.expandReference (0x23 :: r)).fault = none ↔
      ∃ char, characterReference? r = some char := by
  constructor
  · intro hn
    exact Option.ne_none_iff_exists'.mp fun hnone => expandReference_fault hl hnone hn
  · rintro ⟨char, hchar⟩
    rw [expandReference_character hl hchar]

end Entities

theorem exists_character_iff :
    (∃ char, characterReference? r = some char) ↔ ∃ value, isXmlChar value ∧
      (CharacterNumber [] r value ∨ CharacterNumber [0x2B] r value) := by
  simp only [characterReference?_eq_some_iff]
  constructor
  · rintro ⟨char, h⟩
    exact ⟨char.toNat, h⟩
  · rintro ⟨value, hx, h⟩
    exact ⟨Char.ofNat value, by rwa [toNat_of_isXmlChar hx, and_iff_right hx]⟩

-- ---------------------------------------------------------------------------
-- References in content
-- ---------------------------------------------------------------------------

theorem isReference_number_iff :
    Construct.isReference (0x23 :: r) ↔ r ≠ [] ∧ ∀ b ∈ r, isDigit b ∨ isLetter b := by
  simp [Construct.isReference, or_comm]

/-- The form of references in content leaves no room for a sign. -/
theorem isReference_and_character_iff :
    Construct.isReference (0x23 :: r) ∧ (∃ char, characterReference? r = some char) ↔
      ∃ value, isXmlChar value ∧ CharacterNumber [] r value := by
  rw [isReference_number_iff, exists_character_iff]
  constructor
  · rintro ⟨⟨-, hr⟩, value, hx, h | h⟩
    · exact ⟨value, hx, h⟩
    · exact absurd (hr 0x2B (h.sign_mem 0x2B (by simp))) (by decide)
  · rintro ⟨value, hx, h⟩
    exact ⟨h.isDigit_or_isLetter, value, hx, .inl h⟩

namespace Construct

variable {c : Context} {here : Nat} {last : Bool}

theorem read_reference {name : Bytes} (hname : 0x3B ∉ name) (hc : c.stage = .content)
    (rest : Bytes) :
    read c here last (0x26 :: name ++ 0x3B :: rest) =
      if isReference name then
        let expansion := c.entities.expandReference name
        let c := { c with entities := c.entities.after expansion }
        match expansion.fault with
        | some fault => c.fail (.reference fault)
        | none => c.read [.text (.utf8 expansion.output)] (name.length + 2)
      else c.failAt here .malformedReference := by
  have hclose : cutAt? (· == 0x3B) (name ++ 0x3B :: rest) = some (name, rest) := by
    refine cutAt?_self (fun d hd => ?_) rfl rest
    simpa using fun he : d = 0x3B => hname (he ▸ hd)
  have hstage : ¬ c.stage ≠ .content := not_not_intro hc
  change reference c here last (0x26 :: name ++ 0x3B :: rest) = _
  simp only [reference, List.cons_append, List.drop_succ_cons, List.drop_zero, hclose, hstage,
    ↓reduceIte]
  cases isReference name <;> rfl

section
variable {name : Bytes} (hname : 0x3B ∉ name) (hc : c.stage = .content) (rest : Bytes)
include hname hc

theorem read_reference_ok_iff :
    (∃ progress, (read c here last (0x26 :: name ++ 0x3B :: rest)).outcome = .ok progress) ↔
      isReference name ∧ (c.entities.expandReference name).fault = none := by
  rw [read_reference hname hc]
  by_cases hr : isReference name
  · cases hf : (c.entities.expandReference name).fault <;>
      simp [hr, hf, Context.read, Context.fail]
  · simp [hr, Context.failAt, Context.fail]

theorem read_reference_of_ok {progress : Progress} :
    let reading := read c here last (0x26 :: name ++ 0x3B :: rest)
    reading.outcome = .ok progress → progress = .advance (name.length + 2) ∧
      reading.events =
        [(reading.context, .text (.utf8 (c.entities.expandReference name).output))] := by
  intro reading hok
  obtain ⟨hr, hf⟩ := (read_reference_ok_iff hname hc rest).mp ⟨progress, hok⟩
  have hreading : reading =
      { c with entities := c.entities.after (c.entities.expandReference name) }.read
        [.text (.utf8 (c.entities.expandReference name).output)] (name.length + 2) := by
    simp [reading, read_reference hname hc, hr, hf]
  rw [hreading] at hok ⊢
  exact ⟨(Except.ok.inj hok).symm, rfl⟩

end

end Construct

-- ---------------------------------------------------------------------------
-- References in attribute values
-- ---------------------------------------------------------------------------

theorem decodeAttributes_single (entities : Entities) {name value : Bytes}
    {decoded : List Attribute} :
    (decodeAttributes entities [⟨name, value⟩]).2 = .ok decoded ↔
      (entities.expandText (spaced value)).fault = none ∧
        decoded = [⟨name, (entities.expandText (spaced value)).output⟩] := by
  simp only [decodeAttributes]
  cases hf : (entities.expandText (spaced value)).fault with
  | none => simp [Except.map, eq_comm]
  | some fault => simp

theorem spaced_number (r : Bytes) :
    spaced (0x26 :: 0x23 :: r ++ [0x3B]) = 0x26 :: 0x23 :: spaced r ++ [0x3B] := by
  rw [List.cons_append, List.cons_append, spaced_cons (by decide), spaced_cons (by decide),
    spaced_append_singleton (by decide)]
  rfl

theorem decodeAttributes_number (entities : Entities) (hr : 0x3B ∉ r)
    (hl : entities.expanded < entities.limit) {name : Bytes} {decoded : List Attribute} :
    (decodeAttributes entities [⟨name, 0x26 :: 0x23 :: r ++ [0x3B]⟩]).2 = .ok decoded ↔
      (entities.expandReference (0x23 :: r)).fault = none ∧
        decoded = [⟨name, (entities.expandReference (0x23 :: r)).output⟩] := by
  have hspaced : 0x3B ∉ 0x23 :: spaced r := by
    simpa using fun h => hr ((mem_or_eq_of_mem_spaced h).resolve_right (by decide))
  have hexpand : entities.expandText (0x26 :: 0x23 :: spaced r ++ [0x3B]) = _ :=
    Entities.expandText_reference hspaced
  rw [decodeAttributes_single, spaced_number, hexpand]
  rcases spaced_eq_self_or r with h | ⟨h, hs⟩
  · rw [h]
  · simp [Entities.expandReference_fault hl h, Entities.expandReference_fault hl hs]

-- ---------------------------------------------------------------------------
-- What is taken where
-- ---------------------------------------------------------------------------

/-- A reference by number is replaced just when the number, after a plus sign or without one, is
that of a character. An attribute value takes the same references as any other text; content takes
only those without a sign. -/
theorem characterReference_taken_iff (entities : Entities) (hr : 0x3B ∉ r)
    (hl : entities.expanded < entities.limit) :
    let text := 0x26 :: 0x23 :: r ++ [0x3B]
    let expansion := entities.expandText text
    (expansion.fault = none ↔ ∃ value, isXmlChar value ∧
      (CharacterNumber [] r value ∨ CharacterNumber [0x2B] r value)) ∧
    (∀ value, isXmlChar value → CharacterNumber [] r value ∨ CharacterNumber [0x2B] r value →
      ∃ char : Char, char.toNat = value ∧
        expansion = { output := Utf8.encode [char], expanded := entities.expanded + 1 }) ∧
    (∀ name decoded, (decodeAttributes entities [⟨name, text⟩]).2 = .ok decoded ↔
      expansion.fault = none ∧ decoded = [⟨name, expansion.output⟩]) ∧
    ∀ (c : Context) (here : Nat) (last : Bool) (rest : Bytes),
      c.entities = entities → c.stage = .content →
      let reading := Construct.read c here last (text ++ rest)
      ((∃ progress, reading.outcome = .ok progress) ↔
        ∃ value, isXmlChar value ∧ CharacterNumber [] r value) ∧
      ∀ progress, reading.outcome = .ok progress → progress = .advance text.length ∧
        reading.events = [(reading.context, .text (.utf8 expansion.output))] := by
  intro text expansion
  have hname : 0x3B ∉ 0x23 :: r := by simpa using hr
  have hexpansion : expansion = entities.expandReference (0x23 :: r) :=
    Entities.expandText_reference hname
  rw [hexpansion]
  refine ⟨?_, ?_, fun name decoded => decodeAttributes_number entities hr hl, ?_⟩
  · rw [Entities.expandReference_number_iff hl, exists_character_iff]
  · intro value hx h
    have hvalue := toNat_of_isXmlChar hx
    refine ⟨Char.ofNat value, hvalue, Entities.expandReference_character hl ?_⟩
    rw [characterReference?_eq_some_iff, hvalue]
    exact ⟨hx, h⟩
  · rintro c here last rest rfl hc reading
    have hread : text ++ rest = 0x26 :: (0x23 :: r) ++ 0x3B :: rest := by simp [text]
    have hlength : text.length = (0x23 :: r).length + 2 := by simp [text]
    simp only [reading, hread, hlength]
    refine ⟨?_, fun progress => Construct.read_reference_of_ok hname hc rest⟩
    rw [Construct.read_reference_ok_iff hname hc, Entities.expandReference_number_iff hl,
      isReference_and_character_iff]

theorem characterReference_taken_in_hexadecimal :
    0x3B ∉ ascii "x41" ∧ ({ limit := 1 } : Entities).expanded < 1 ∧
      ({ limit := 1 } : Entities).expandText (ascii "&#x41;") =
        { output := ascii "A", expanded := 1 } := by
  have hr : 0x3B ∉ ascii "x41" := by decide
  have hl : ({ limit := 1 } : Entities).expanded < ({ limit := 1 } : Entities).limit := by decide
  have hdigits : Numeral 16 (ascii "41") 0x41 :=
    ⟨by decide, [4, 1], .cons (.decimal (by decide)) (.cons (.decimal (by decide)) .nil), rfl⟩
  obtain ⟨-, houtput, -⟩ := characterReference_taken_iff { limit := 1 } hr hl
  obtain ⟨char, hchar, hexpansion⟩ :=
    houtput 0x41 (by decide) (.inl (.hexadecimal (.inl rfl) hdigits))
  obtain rfl : char = 'A' := by rw [← Char.ofNat_toNat char, hchar]
  exact ⟨hr, hl, hexpansion⟩

/-- What a plus sign stands before is no number, but only content refuses it. -/
theorem plus_sign_taken_in_values :
    let entities : Entities := { limit := 1 }
    let text := ascii "&#+65;"
    (∀ value, ¬ CharacterNumber [] (ascii "+65") value) ∧
      entities.expandText text = { output := ascii "A", expanded := 1 } ∧
      (decodeAttributes entities [⟨ascii "a", text⟩]).2 = .ok [⟨ascii "a", ascii "A"⟩] ∧
      (Construct.read { stage := .content, entities } 0 true text).outcome =
        .error (.malformed 0 .malformedReference) := by
  refine ⟨fun value h => ?_, ?_, ?_, ?_⟩
  · exact absurd (h.isDigit_or_isLetter.2 0x2B (by decide)) (by decide)
  all_goals decide +kernel

end XmlStore
