import XmlStore.Proofs.Access
import XmlStore.Proofs.AttributeTexts
import XmlStore.Proofs.Positions

/-!
# Slices of a declaration

The reader of document type declarations as it works on an array: it keeps a position, looks bytes
up and takes slices, and stops if one of them is out of range. It comes to the same end as the
reader that takes its text apart, and nothing is out of range but in an instruction whose two
delimiters share the question mark.
-/

namespace XmlStore

-- ---------------------------------------------------------------------------
-- Declarations by position
-- ---------------------------------------------------------------------------

/-- The position of a delimiter: so many bytes stand before it. -/
def foundAt? (parts : Option (Bytes × Bytes)) : Option Nat := parts.map fun found => found.1.length

/-- A name and the position behind it. -/
def readNameAt (bytes : Bytes) (pos : Nat) : Checked (Option (Bytes × Nat)) :=
  if (bytes[pos]?).any isNameStart then do
    let last := skipWhile isNameByte bytes (pos + 1)
    let name ← slice bytes pos last
    return some (name, last)
  else return none

/-- A literal and the position behind its closing quote. The bytes are at `offset` in the input. -/
def readLiteralAt (offset : Nat) (bytes : Bytes) (pos : Nat) : Checked (Bytes × Nat) :=
  let pos := skipWhile isSpace bytes pos
  match bytes[pos]? with
  | none => .error (.malformed (offset + pos) .missingLiteral)
  | some quote =>
    if isQuote quote then do
      let quoted ← slice bytes (pos + 1) bytes.length
      match foundAt? (cutAt? (· == quote) quoted) with
      | none => .error (.malformed (offset + (pos + 1)) .unterminatedLiteral)
      | some length => do
        let literal ← slice bytes (pos + 1) (pos + 1 + length)
        return (literal, pos + 1 + length + 1)
    else .error (.malformed (offset + pos) .missingLiteral)

def readEntityAt (offset : Nat) (body : Bytes) : Checked (Option SubsetItem) :=
  let pos := skipWhile isSpace body 0
  if body[pos]? = some 0x25 then return none
  else do
    match ← readNameAt body pos with
    | none => .error (.malformed (offset + pos) .entityName)
    | some (name, pos) =>
      let pos := skipWhile isSpace body pos
      if (body[pos]?).any isQuote then do
        let (text, _) ← readLiteralAt offset body pos
        return some (.entity name text)
      else return none

/-- The item at the start of what is left of a subset, and how many bytes it takes. -/
def readItemAt (offset : Nat) (rest : Bytes) : Checked (Option SubsetItem × Nat) :=
  if (ascii "<!--").isPrefixOf rest then do
    let body ← slice rest 4 rest.length
    match foundAt? (cut? (ascii "-->") body) with
    | none => .error (.malformed offset .unterminatedComment)
    | some length => do
      let comment ← slice rest 4 (4 + length)
      return (some (.comment comment), 4 + length + 3)
  else if (ascii "<?").isPrefixOf rest then
    match foundAt? (cut? (ascii "?>") rest) with
    | none => .error (.malformed offset .unterminatedInstruction)
    | some last => do
      let body ← slice rest 2 last
      match ← readNameAt body 0 with
      | none => .error (.malformed offset .instructionTarget)
      | some (target, pos) => do
        let data ← slice body (skipWhile isSpace body pos) body.length
        return (some (.instruction target data), last + 2)
  else if (ascii "<!ENTITY").isPrefixOf rest then
    match foundAt? (cutUnquoted? none rest) with
    | none => .error (.malformed offset .unterminatedEntityDeclaration)
    | some last => do
      let body ← slice rest 8 last
      let item ← readEntityAt offset body
      return (item, last + 1)
  else if (ascii "<!").isPrefixOf rest then
    match foundAt? (cutUnquoted? none rest) with
    | none => .error (.malformed offset .unterminatedDeclaration)
    | some last => return (none, last + 1)
  else do
    let first ← byteAt rest 0
    if first = 0x25 then
      match foundAt? (cutAt? (· == 0x3B) rest) with
      | none => return (none, rest.length)
      | some last => return (none, last + 1)
    else .error (.malformed offset .unexpectedSubsetContent)

def readItemsAt (offset : Nat) (subset : Bytes) :
    (rounds : Nat) → (pos : Nat) → Checked (List SubsetItem)
  | 0, _ => .error .unfinished
  | rounds + 1, pos =>
    if pos < subset.length then do
      let pos := skipWhile isSpace subset pos
      let rest ← slice subset pos subset.length
      if rest.isEmpty then return []
      else do
        let (item, taken) ← readItemAt (offset + pos) rest
        let items ← readItemsAt offset subset rounds (pos + taken)
        return item.toList ++ items
    else return []

/-- The external identifiers and the position behind them. -/
def readExternalIdAt (offset : Nat) (content : Bytes) (pos : Nat) :
    Checked (Option Bytes × Option Bytes × Nat) := do
  let rest ← slice content pos content.length
  if (ascii "PUBLIC").isPrefixOf rest then do
    let (publicId, pos) ← readLiteralAt offset content (pos + 6)
    let (systemId, pos) ← readLiteralAt offset content pos
    return (some publicId, some systemId, pos)
  else if (ascii "SYSTEM").isPrefixOf rest then do
    let (systemId, pos) ← readLiteralAt offset content (pos + 6)
    return (none, some systemId, pos)
  else return (none, none, pos)

/-- The declaration whose content is at `offset` in the input. A loop over the subset that takes a
byte in each round ends within one round more than the subset has bytes. -/
def readDoctypeAt (offset : Nat) (content : Bytes) : Checked Doctype := do
  let pos := skipWhile isSpace content 0
  match ← readNameAt content pos with
  | none => .error (.malformed (offset + pos) .doctypeName)
  | some (name, pos) => do
    let (publicId, systemId, pos) ←
      readExternalIdAt offset content (skipWhile isSpace content pos)
    let pos := skipWhile isSpace content pos
    if content[pos]? = some 0x5B then
      match (foundAt? (cutLastBracket? content)).filter fun last => pos < last with
      | none => .error (.malformed (offset + pos) .unterminatedSubset)
      | some last => do
        let subset ← slice content (pos + 1) last
        let items ← readItemsAt (offset + pos + 1) subset (subset.length + 1) 0
        return { name, publicId, systemId, items }
    else return { name, publicId, systemId }

-- ---------------------------------------------------------------------------
-- Names at positions
-- ---------------------------------------------------------------------------

namespace BeginsAt

variable {bytes text : Bytes} {pos : Nat}

theorem readNameAt_eq (h : BeginsAt bytes pos text) :
    readName? text = none ∧ readNameAt bytes pos = .ok none ∨
      ∃ name rest last, readName? text = some (name, rest) ∧
        readNameAt bytes pos = .ok (some (name, last)) ∧ BeginsAt bytes last rest := by
  rw [readNameAt, h.getElem?_eq]
  cases text with
  | nil => exact .inl ⟨rfl, rfl⟩
  | cons b more =>
    rw [readName?, List.head?_cons, Option.any_some]
    split
    next hb =>
      have hb : isNameByte b := by simp [isNameByte, hb]
      have hlast : XmlStore.skipWhile isNameByte bytes (pos + 1) =
          pos + ((b :: more).takeWhile isNameByte).length := by
        rw [h.next.skipWhile_eq, List.takeWhile_cons_of_pos hb, List.length_cons]
        omega
      have hsplit : (b :: more).takeWhile isNameByte ++ (b :: more).dropWhile isNameByte =
          b :: more := List.takeWhile_append_dropWhile
      have hname := slice_eq (hsplit.symm ▸ h)
      refine .inr ⟨_, _, _, rfl, ?_, advance (hsplit.symm ▸ h)⟩
      simp only [hlast, hname]
      rfl
    next => exact .inl ⟨rfl, rfl⟩

end BeginsAt

-- ---------------------------------------------------------------------------
-- The same end
-- ---------------------------------------------------------------------------

/-- Both readers find related things or report the same fault, or the one with a position is out of
range where the other one meets delimiters that overlap. -/
inductive SameEnd {α β : Type} (R : α → β → Prop) : Except Error α → Checked β → Prop
  | ok {a : α} {b : β} (h : R a b) : SameEnd R (.ok a) (.ok b)
  | malformed (position : Nat) (fault : Fault) :
    SameEnd R (.error (.malformed position fault)) (.error (.malformed position fault))
  | shared : SameEnd R (.error .sharedDelimiter) (.error .outOfRange)

/-- The same thing is found, and what follows it begins at the position behind it. -/
def Found {α : Type} (bytes : Bytes) (found : α × Bytes) (foundAt : α × Nat) : Prop :=
  foundAt.1 = found.1 ∧ BeginsAt bytes foundAt.2 found.2

namespace SameEnd

variable {α β γ δ : Type} {R : α → β → Prop} {S : γ → δ → Prop} {first : Except Error α}
  {second : Checked β}

theorem bind (h : SameEnd R first second) {next : α → Except Error γ} {next' : β → Checked δ}
    (hn : ∀ a b, first = .ok a → R a b → SameEnd S (next a) (next' b)) :
    SameEnd S (first >>= next) (second >>= next') := by
  cases h with
  | ok h => exact hn _ _ rfl h
  | malformed position fault => exact .malformed position fault
  | shared => exact .shared

theorem map (h : SameEnd R first second) {f : α → γ} {g : β → δ}
    (hf : ∀ a b, R a b → S (f a) (g b)) :
    SameEnd S (first.map f) (second >>= fun b => pure (g b)) := by
  cases h with
  | ok h => exact .ok (hf _ _ h)
  | malformed position fault => exact .malformed position fault
  | shared => exact .shared

theorem malformed_of_eq {position position' : Nat} (h : position = position') (fault : Fault) :
    SameEnd R (.error (.malformed position fault)) (.error (.malformed position' fault)) :=
  h ▸ .malformed position fault

end SameEnd

section
variable {bytes text : Bytes} {pos : Nat}

theorem readLiteralAt_sameEnd (offset : Nat) (h : BeginsAt bytes pos text) :
    SameEnd (Found bytes) (readLiteral (offset + bytes.length) text)
      (readLiteralAt offset bytes pos) := by
  have htrim := h.skipWhile isSpace
  unfold readLiteral readLiteralAt
  simp only [htrim.getElem?_eq]
  change BeginsAt bytes _ (trimStart text) at htrim
  change SameEnd _ _ (match (trimStart text).head? with | none => _ | some quote => _)
  generalize skipWhile isSpace bytes pos = pos at htrim
  cases hquoted : trimStart text with
  | nil =>
    rw [hquoted] at htrim
    exact .malformed_of_eq (htrim.position_eq offset) _
  | cons quote quoted =>
    rw [hquoted] at htrim
    have hnext := htrim.next
    simp only [List.head?_cons, hnext.slice_to_end, Checked.ok_bind]
    split
    · cases hcut : cutAt? (· == quote) quoted with
      | none => exact .malformed_of_eq (hnext.position_eq offset) _
      | some found =>
        obtain ⟨literal, rest⟩ := found
        obtain ⟨b, -, rfl, -⟩ := cutAt?_append hcut
        simp only [foundAt?, Option.map_some, hnext.slice_eq, Checked.ok_bind]
        exact .ok ⟨rfl, hnext.advance.next⟩
    · exact .malformed_of_eq (htrim.position_eq offset) _

theorem readEntityAt_sameEnd (offset : Nat) (body : Bytes) :
    SameEnd Eq (readEntity (offset + body.length) body) (readEntityAt offset body) := by
  have htrim := (BeginsAt.start body).skipWhile isSpace
  unfold readEntity readEntityAt
  simp only
  rw [htrim.getElem?_eq]
  change BeginsAt body _ (trimStart body) at htrim
  change SameEnd _ _ (if (trimStart body).head? = some 0x25 then _ else _)
  generalize skipWhile isSpace body 0 = pos at htrim
  split
  · exact .ok rfl
  · obtain ⟨hname, hnameAt⟩ | ⟨name, rest, last, hname, hnameAt, hrest⟩ := htrim.readNameAt_eq
    · simp only [hname, hnameAt, Checked.ok_bind]
      exact .malformed_of_eq (htrim.position_eq offset) _
    · have hgap := hrest.skipWhile isSpace
      simp only [hname, hnameAt, Checked.ok_bind, hgap.getElem?_eq]
      change BeginsAt body _ (trimStart rest) at hgap
      change SameEnd _ _ (if (trimStart rest).head?.any isQuote then _ else _)
      split
      · refine (readLiteralAt_sameEnd offset hgap).map ?_
        rintro ⟨text, _⟩ ⟨_, _⟩ ⟨rfl, -⟩
        rfl
      · exact .ok rfl

theorem readLiteral_add {stop : Nat} (h : text.length ≤ stop) (distance : Nat) :
    readLiteral (distance + stop) text = (readLiteral stop text).mapError (·.shift distance) := by
  have hlength := length_trimStart_le text
  have hmove {length : Nat} (hl : length ≤ stop) :
      distance + stop - length = stop - length + distance := by omega
  unfold readLiteral
  split
  next => rw [Except.mapError, Error.shift, Nat.add_comm]
  next quote quoted hquoted =>
    rw [hquoted, List.length_cons] at hlength
    split
    next =>
      cases cutAt? (· == quote) quoted with
      | none => rw [hmove (by omega)]; rfl
      | some found => rfl
    next => rw [hmove (by rw [List.length_cons]; omega)]; rfl

theorem readEntity_add (distance : Nat) (body : Bytes) :
    readEntity (distance + body.length) body =
      (readEntity body.length body).mapError (·.shift distance) := by
  have hlength := length_trimStart_le body
  unfold readEntity
  simp only
  split
  next => rfl
  next =>
    cases hname : readName? (trimStart body) with
    | none =>
      rw [show distance + body.length - (trimStart body).length =
        body.length - (trimStart body).length + distance by omega]
      rfl
    | some found =>
      obtain ⟨name, rest⟩ := found
      have hrest := (length_trimStart_le rest).trans (length_readName?_le hname)
      simp only
      split
      · rw [readLiteral_add (hrest.trans hlength)]
        cases readLiteral body.length (trimStart rest) <;> rfl
      · rfl

theorem isPrefixOf_eq_false (front : Bytes) {keyword tail : Bytes} (h : ¬ keyword <+: tail) :
    (front ++ keyword).isPrefixOf (front ++ tail) = false := by
  rw [Bool.eq_false_iff, Ne, List.isPrefixOf_iff_prefix, List.prefix_append_right_inj]
  exact h

/-- Two bytes in front that do not begin a delimiter with the byte behind them. -/
theorem cut?_opening {tail : Bytes} (h : ¬ ascii ">" <+: tail) :
    cut? (ascii "?>") (0x3C :: 0x3F :: tail) =
      (cut? (ascii "?>") tail).map fun found => (ascii "<?" ++ found.1, found.2) := by
  have hfirst : (ascii "?>").isPrefixOf (0x3C :: 0x3F :: tail) = false := rfl
  have hsecond : (ascii "?>").isPrefixOf (0x3F :: tail) = false :=
    isPrefixOf_eq_false (ascii "?") h
  rw [cut?, hfirst, if_neg Bool.false_ne_true, cut?, hsecond, if_neg Bool.false_ne_true,
    Option.map_map]
  rfl

/-- The end of an item is where the first `>` outside quotes is, searched for from its start. -/
theorem foundAt?_declaration {front : Bytes} (h : front.all fun b => b != 0x3E && !isQuote b)
    (tail : Bytes) : foundAt? (cutUnquoted? none (front ++ tail)) =
      (cutUnquoted? none tail).map fun found => front.length + found.1.length := by
  have hplain : ∀ b ∈ front, b ≠ 0x3E ∧ isQuote b = false := by simpa using h
  rw [foundAt?, passed_of_plain hplain, Option.map_map]
  simp only [Function.comp_def, List.length_append]

/-- The item at the start of a text comes to the same end. -/
abbrev ItemSameEnd (offset : Nat) (rest : Bytes) : Prop :=
  SameEnd (Found rest) (readItem (offset + rest.length) rest) (readItemAt offset rest)

section
variable {offset : Nat} {tail : Bytes} {fault : Fault}

theorem failAtStart_sameEnd {α : Type} (offset : Nat) (rest : Bytes) :
    SameEnd (Found rest)
      (failAtStart (offset + rest.length) rest fault : Except Error (α × Bytes))
      (.error (.malformed offset fault)) :=
  .malformed_of_eq (Nat.add_sub_cancel offset rest.length) fault

theorem readItemAt_comment : ItemSameEnd offset (ascii "<!--" ++ tail) := by
  have htail : BeginsAt (ascii "<!--" ++ tail) 4 tail := ⟨_, rfl, rfl⟩
  have hcomment : (ascii "<!--").isPrefixOf (ascii "<!--" ++ tail) = true := rfl
  have hdrop : (ascii "<!--" ++ tail).drop 4 = tail := rfl
  unfold ItemSameEnd readItem readItemAt
  rw [if_pos hcomment, if_pos hcomment, hdrop, htail.slice_to_end, Checked.ok_bind]
  cases hcut : cut? (ascii "-->") tail with
  | none => exact failAtStart_sameEnd offset _
  | some found =>
    obtain ⟨comment, more⟩ := found
    obtain rfl := cut?_append hcut
    rw [List.append_assoc] at htail ⊢
    simp only [foundAt?, Option.map_some, htail.slice_eq, Checked.ok_bind]
    exact .ok ⟨rfl, htail.advance.advance⟩

theorem readItemAt_shared : ItemSameEnd offset (ascii "<?>" ++ tail) := .shared

theorem readItemAt_instruction (h : ¬ ascii ">" <+: tail) :
    ItemSameEnd offset (ascii "<?" ++ tail) := by
  have htail : BeginsAt (ascii "<?" ++ tail) 2 tail := ⟨_, rfl, rfl⟩
  have hcomment : (ascii "<!--").isPrefixOf (ascii "<?" ++ tail) = false := rfl
  have hshared : (ascii "<?>").isPrefixOf (ascii "<?" ++ tail) = false :=
    isPrefixOf_eq_false (ascii "<?") h
  have hopen : (ascii "<?").isPrefixOf (ascii "<?" ++ tail) = true := rfl
  have hdrop : (ascii "<?" ++ tail).drop 2 = tail := rfl
  have hfound : foundAt? (cut? (ascii "?>") (ascii "<?" ++ tail)) =
      (cut? (ascii "?>") tail).map fun found => 2 + found.1.length := by
    rw [show ascii "<?" ++ tail = 0x3C :: 0x3F :: tail from rfl, cut?_opening h, foundAt?,
      Option.map_map]
    simp only [Function.comp_def, List.length_append]
    rfl
  unfold ItemSameEnd readItem readItemAt
  simp only [hcomment, hshared, hopen, hdrop, hfound, Bool.false_eq_true, ↓reduceIte]
  cases hcut : cut? (ascii "?>") tail with
  | none => exact failAtStart_sameEnd offset _
  | some found =>
    obtain ⟨body, more⟩ := found
    obtain rfl := cut?_append hcut
    rw [List.append_assoc] at htail ⊢
    simp only [Option.map_some, htail.slice_eq, Checked.ok_bind]
    obtain ⟨hname, hnameAt⟩ | ⟨target, data, pos, hname, hnameAt, hdata⟩ :=
      (BeginsAt.start body).readNameAt_eq
    · rw [hname, hnameAt]
      exact failAtStart_sameEnd offset _
    · simp only [hname, hnameAt, Checked.ok_bind, (hdata.skipWhile isSpace).slice_to_end]
      exact .ok ⟨rfl, htail.advance.advance⟩

theorem readItemAt_entityDeclaration : ItemSameEnd offset (ascii "<!ENTITY" ++ tail) := by
  have htail : BeginsAt (ascii "<!ENTITY" ++ tail) 8 tail := ⟨_, rfl, rfl⟩
  have hcomment : (ascii "<!--").isPrefixOf (ascii "<!ENTITY" ++ tail) = false := rfl
  have hshared : (ascii "<?>").isPrefixOf (ascii "<!ENTITY" ++ tail) = false := rfl
  have hopen : (ascii "<?").isPrefixOf (ascii "<!ENTITY" ++ tail) = false := rfl
  have hentity : (ascii "<!ENTITY").isPrefixOf (ascii "<!ENTITY" ++ tail) = true := rfl
  have hdrop : (ascii "<!ENTITY" ++ tail).drop 8 = tail := rfl
  have hfound : foundAt? (cutUnquoted? none (ascii "<!ENTITY" ++ tail)) =
      (cutUnquoted? none tail).map fun found => 8 + found.1.length :=
    foundAt?_declaration rfl tail
  unfold ItemSameEnd readItem readItemAt
  simp only [hcomment, hshared, hopen, hentity, hdrop, hfound, Bool.false_eq_true, ↓reduceIte]
  cases hcut : cutUnquoted? none tail with
  | none => exact failAtStart_sameEnd offset _
  | some found =>
    obtain ⟨body, more⟩ := found
    obtain rfl := cutUnquoted?_append hcut
    have hread := readEntityAt_sameEnd offset body
    rw [readEntity_add] at hread
    simp only [Option.map_some, htail.slice_eq, Checked.ok_bind, Nat.add_sub_cancel]
    generalize readEntity body.length body = first at hread ⊢
    generalize readEntityAt offset body = second at hread ⊢
    cases first with
    | error fault =>
      change SameEnd Eq (.error (fault.shift offset)) second at hread
      change SameEnd _ (.error (fault.shift offset)) _
      generalize fault.shift offset = moved at hread ⊢
      cases hread with
      | malformed position fault => exact .malformed position fault
      | shared => exact .shared
    | ok item =>
      cases hread with
      | ok h => exact .ok ⟨h.symm, htail.advance.next⟩

theorem readItemAt_declaration (hc : ¬ ascii "--" <+: tail) (he : ¬ ascii "ENTITY" <+: tail) :
    ItemSameEnd offset (ascii "<!" ++ tail) := by
  have htail : BeginsAt (ascii "<!" ++ tail) 2 tail := ⟨_, rfl, rfl⟩
  have hcomment : (ascii "<!--").isPrefixOf (ascii "<!" ++ tail) = false :=
    isPrefixOf_eq_false (ascii "<!") hc
  have hshared : (ascii "<?>").isPrefixOf (ascii "<!" ++ tail) = false := rfl
  have hopen : (ascii "<?").isPrefixOf (ascii "<!" ++ tail) = false := rfl
  have hentity : (ascii "<!ENTITY").isPrefixOf (ascii "<!" ++ tail) = false :=
    isPrefixOf_eq_false (ascii "<!") he
  have hother : (ascii "<!").isPrefixOf (ascii "<!" ++ tail) = true := rfl
  have hdrop : (ascii "<!" ++ tail).drop 2 = tail := rfl
  have hfound : foundAt? (cutUnquoted? none (ascii "<!" ++ tail)) =
      (cutUnquoted? none tail).map fun found => 2 + found.1.length :=
    foundAt?_declaration rfl tail
  unfold ItemSameEnd readItem readItemAt
  simp only [hcomment, hshared, hopen, hentity, hother, hdrop, hfound, Bool.false_eq_true,
    ↓reduceIte]
  cases hcut : cutUnquoted? none tail with
  | none => exact failAtStart_sameEnd offset _
  | some found =>
    obtain ⟨body, more⟩ := found
    obtain rfl := cutUnquoted?_append hcut
    exact .ok ⟨rfl, htail.advance.next⟩

theorem readItemAt_other {rest : Bytes} (hne : rest ≠ []) (hi : ¬ ascii "<?" <+: rest)
    (hd : ¬ ascii "<!" <+: rest) : ItemSameEnd offset rest := by
  obtain ⟨first, tail, rfl⟩ := List.exists_cons_of_ne_nil hne
  have hcomment : ¬ ascii "<!--" <+: first :: tail := fun hp =>
    hd ((List.prefix_append (ascii "<!") (ascii "--")).trans hp)
  have hshared : ¬ ascii "<?>" <+: first :: tail := fun hp =>
    hi ((List.prefix_append (ascii "<?") (ascii ">")).trans hp)
  have hentity : ¬ ascii "<!ENTITY" <+: first :: tail := fun hp =>
    hd ((List.prefix_append (ascii "<!") (ascii "ENTITY")).trans hp)
  have hbyte : byteAt (first :: tail) 0 = .ok first := rfl
  unfold ItemSameEnd readItem readItemAt
  simp only [List.isPrefixOf_iff_prefix, hcomment, hshared, hi, hentity, hd, hbyte,
    Checked.ok_bind, List.head?_cons, Option.some.injEq, ↓reduceIte]
  split
  · cases hcut : cutAt? (· == 0x3B) (first :: tail) with
    | none => exact .ok ⟨rfl, first :: tail, rfl, (List.append_nil _).symm⟩
    | some found =>
      obtain ⟨name, more⟩ := found
      obtain ⟨b, -, hbytes, -⟩ := cutAt?_append hcut
      rw [hbytes]
      exact .ok ⟨rfl, name ++ [b], List.length_append, List.append_cons name b more⟩
  · exact failAtStart_sameEnd offset _

theorem readItemAt_sameEnd {rest : Bytes} (hne : rest ≠ []) : ItemSameEnd offset rest := by
  by_cases hi : ascii "<?" <+: rest
  · obtain ⟨tail, rfl⟩ := hi
    by_cases hs : ascii ">" <+: tail
    · obtain ⟨more, rfl⟩ := hs
      exact readItemAt_shared
    · exact readItemAt_instruction hs
  by_cases hd : ascii "<!" <+: rest
  · obtain ⟨tail, rfl⟩ := hd
    by_cases hc : ascii "--" <+: tail
    · obtain ⟨more, rfl⟩ := hc
      exact readItemAt_comment
    by_cases he : ascii "ENTITY" <+: tail
    · obtain ⟨more, rfl⟩ := he
      exact readItemAt_entityDeclaration
    · exact readItemAt_declaration hc he
  · exact readItemAt_other hne hi hd

end

theorem readItemsAt_sameEnd (offset : Nat) (h : BeginsAt bytes pos text) {fuel rounds : Nat}
    (hf : text.length ≤ fuel) (hr : text.length < rounds) :
    SameEnd Eq (readItems (offset + bytes.length) fuel text)
      (readItemsAt offset bytes rounds pos) := by
  induction rounds generalizing pos text fuel with
  | zero => exact absurd hr (Nat.not_lt_zero _)
  | succ rounds ih =>
    have hlength := h.length_eq
    unfold readItemsAt
    split
    next hpos =>
      obtain ⟨fuel, rfl⟩ : ∃ more, fuel = more + 1 := ⟨fuel - 1, by omega⟩
      have htrim : BeginsAt bytes _ (trimStart text) := h.skipWhile isSpace
      have hle := length_trimStart_le text
      simp only [readItems, htrim.slice_to_end, Checked.ok_bind]
      split
      next => exact .ok rfl
      next hne =>
        have hne : trimStart text ≠ [] := fun he => hne (by rw [he]; rfl)
        have hitem : ItemSameEnd (offset + skipWhile isSpace bytes pos) (trimStart text) :=
          readItemAt_sameEnd hne
        rw [ItemSameEnd, Nat.add_assoc, ← htrim.length_eq] at hitem
        refine hitem.bind ?_
        rintro ⟨item, rest⟩ ⟨_, taken⟩ hread ⟨rfl, hrest⟩
        have hrest : BeginsAt (trimStart text) taken rest := hrest
        have hless := (readItem_sound hne hread).1
        exact (ih (htrim.trans hrest) (by omega) (by omega)).map fun _ _ he => he ▸ rfl
    next =>
      obtain rfl : text = [] := List.length_eq_zero_iff.mp (by omega)
      cases fuel with
      | zero => exact .ok rfl
      | succ fuel => exact .ok rfl

theorem readExternalIdAt_sameEnd (offset : Nat) (h : BeginsAt bytes pos text) :
    SameEnd (fun found foundAt => foundAt.1 = found.1 ∧ Found bytes found.2 foundAt.2)
      (readExternalId (offset + bytes.length) text) (readExternalIdAt offset bytes pos) := by
  have hdrop {keyword : Bytes} (hl : keyword.length = 6) (hk : keyword.isPrefixOf text) :
      BeginsAt bytes (pos + 6) (text.drop 6) := by
    obtain ⟨more, rfl⟩ := List.isPrefixOf_iff_prefix.mp hk
    rw [← hl, List.drop_left]
    exact h.advance
  unfold readExternalId readExternalIdAt
  simp only [h.slice_to_end, Checked.ok_bind]
  split
  next hk =>
    refine (readLiteralAt_sameEnd offset (hdrop rfl hk)).bind ?_
    rintro ⟨publicId, rest⟩ ⟨_, next⟩ - ⟨rfl, hrest⟩
    refine (readLiteralAt_sameEnd offset hrest).bind ?_
    rintro ⟨systemId, rest⟩ ⟨_, next⟩ - ⟨rfl, hrest⟩
    exact .ok ⟨rfl, rfl, hrest⟩
  next =>
    split
    next hk =>
      refine (readLiteralAt_sameEnd offset (hdrop rfl hk)).bind ?_
      rintro ⟨systemId, rest⟩ ⟨_, next⟩ - ⟨rfl, hrest⟩
      exact .ok ⟨rfl, rfl, hrest⟩
    next => exact .ok ⟨rfl, rfl, h⟩

/-- Where the last closing bracket is does not depend on where the search begins, and an opening
bracket is none. -/
theorem lastBracketAt_eq (front inner : Bytes) :
    (foundAt? (cutLastBracket? (front ++ 0x5B :: inner))).filter (fun last => front.length < last) =
      (cutLastBracket? inner).map fun found => front.length + 1 + found.1.length := by
  cases hcut : cutLastBracket? inner with
  | none =>
    cases hall : cutLastBracket? (front ++ 0x5B :: inner) with
    | none => rfl
    | some found =>
      obtain ⟨before, after⟩ := found
      obtain ⟨hbytes, hafter⟩ := cutLastBracket?_eq_some_iff.mp hall
      have hle : ¬ front.length < before.length := by
        obtain ⟨more, rfl, hmore⟩ | ⟨more, rfl, -⟩ := List.append_eq_append_iff.mp hbytes
        · cases more with
          | nil => cases (List.cons.inj hmore).1
          | cons b subset =>
            -- It would be the last one of the inner bytes as well.
            have hinner : inner = subset ++ 0x5D :: after := (List.cons.inj hmore).2
            rw [cutLastBracket?_eq_some_iff.mpr ⟨hinner, hafter⟩] at hcut
            cases hcut
        · rw [List.length_append]
          omega
      simp only [foundAt?, Option.map_some, Option.map_none, Option.filter_some, hle, decide_false,
        Bool.false_eq_true, ↓reduceIte]
  | some found =>
    obtain ⟨subset, after⟩ := found
    obtain ⟨rfl, hafter⟩ := cutLastBracket?_eq_some_iff.mp hcut
    have hall : cutLastBracket? (front ++ 0x5B :: (subset ++ 0x5D :: after)) =
        some (front ++ 0x5B :: subset, after) :=
      cutLastBracket?_eq_some_iff.mpr ⟨by simp, hafter⟩
    have hlength : (front ++ 0x5B :: subset).length = front.length + 1 + subset.length := by
      rw [List.length_append, List.length_cons]
      omega
    have hlt : front.length < front.length + 1 + subset.length := by omega
    simp only [hall, foundAt?, Option.map_some, hlength, Option.filter_some, hlt, decide_true,
      ↓reduceIte]

/-- The reader with a position comes to the same end as the reader of the content. -/
theorem readDoctypeAt_sameEnd (offset : Nat) (content : Bytes) :
    SameEnd Eq (readDoctype (offset + content.length) content) (readDoctypeAt offset content) := by
  have htrim : BeginsAt content _ (trimStart content) :=
    (BeginsAt.start content).skipWhile isSpace
  unfold readDoctype readDoctypeAt
  obtain ⟨hname, hnameAt⟩ | ⟨name, rest, last, hname, hnameAt, hrest⟩ := htrim.readNameAt_eq
  · simp only [hname, hnameAt, Checked.ok_bind]
    exact .malformed_of_eq (htrim.position_eq offset) _
  · simp only [hname, hnameAt, Checked.ok_bind]
    refine (readExternalIdAt_sameEnd offset (hrest.skipWhile isSpace)).bind ?_
    rintro ⟨publicId, systemId, more⟩ ⟨_, _, next⟩ - ⟨rfl, rfl, hmore⟩
    have hopen : BeginsAt content _ (trimStart more) := hmore.skipWhile isSpace
    simp only [hopen.getElem?_eq]
    generalize skipWhile isSpace content next = pos at hopen ⊢
    split
    next inner hinner =>
      rw [hinner] at hopen
      obtain ⟨front, rfl, rfl⟩ := id hopen
      rw [hinner, List.head?_cons, if_pos rfl]
      rw [lastBracketAt_eq]
      cases hcut : cutLastBracket? inner with
      | none => exact .malformed_of_eq (hopen.position_eq offset) _
      | some found =>
        obtain ⟨subset, after⟩ := found
        obtain ⟨rfl, -⟩ := cutLastBracket?_eq_some_iff.mp hcut
        have hstop : offset + (front ++ 0x5B :: (subset ++ 0x5D :: after)).length -
            (after.length + 1) = offset + front.length + 1 + subset.length := by
          simp only [List.length_append, List.length_cons]
          omega
        simp only [Option.map_some, hopen.next.slice_eq, Checked.ok_bind, readSubset, hstop]
        refine (readItemsAt_sameEnd _ (BeginsAt.start subset) (Nat.le_refl _)
          (Nat.lt_succ_self _)).bind ?_
        rintro items _ - rfl
        exact .ok rfl
    next hne =>
      have hhead : (trimStart more).head? ≠ some 0x5B := fun hhead => by
        obtain ⟨inner, hinner⟩ := List.head?_eq_some_iff.mp hhead
        exact hne inner hinner
      rw [if_neg hhead]
      exact .ok rfl

end

end XmlStore
