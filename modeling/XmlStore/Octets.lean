/-!
# Byte strings

A document is a list of bytes. This module holds the operations that every reader of such a
list shares: white space, searching for a delimiter, and cutting into pieces of bounded size.
-/

namespace XmlStore

abbrev Bytes := List UInt8

def ascii (text : String) : Bytes := text.toList.map Char.toUInt8

def isSpace (b : UInt8) : Bool := b == 0x20 || b == 0x09 || b == 0x0A || b == 0x0D

def isQuote (b : UInt8) : Bool := b == 0x22 || b == 0x27

def isDigit (b : UInt8) : Bool := 0x30 ≤ b && b ≤ 0x39

def isLetter (b : UInt8) : Bool := (0x41 ≤ b && b ≤ 0x5A) || (0x61 ≤ b && b ≤ 0x7A)

def trimStart (bs : Bytes) : Bytes := bs.dropWhile isSpace

def trimEnd (bs : Bytes) : Bytes := (bs.reverse.dropWhile isSpace).reverse

def asciiUpper (b : UInt8) : UInt8 := if 0x61 ≤ b && b ≤ 0x7A then b - 0x20 else b

def cut? (delimiter : Bytes) : Bytes → Option (Bytes × Bytes)
  | [] => none
  | b :: rest =>
    if delimiter.isPrefixOf (b :: rest) then some ([], (b :: rest).drop delimiter.length)
    else (cut? delimiter rest).map fun found => (b :: found.1, found.2)

/-- What stands before and after the first byte that satisfies a test. The byte itself is in
neither part. -/
def cutAt? (p : UInt8 → Bool) : Bytes → Option (Bytes × Bytes)
  | [] => none
  | b :: rest =>
    if p b then some ([], rest) else (cutAt? p rest).map fun found => (b :: found.1, found.2)

theorem cut?_append {delimiter bs before after : Bytes}
    (h : cut? delimiter bs = some (before, after)) : bs = before ++ delimiter ++ after := by
  induction bs generalizing before with
  | nil => simp [cut?] at h
  | cons b rest ih =>
    rw [cut?] at h
    split at h
    next hd =>
      obtain ⟨tail, ht⟩ := List.isPrefixOf_iff_prefix.mp hd
      simp only [Option.some.injEq, Prod.mk.injEq] at h
      obtain ⟨rfl, rfl⟩ := h
      simp [← ht]
    next =>
      obtain ⟨found, hf, he⟩ := Option.map_eq_some_iff.mp h
      simp only [Prod.mk.injEq] at he
      obtain ⟨rfl, rfl⟩ := he
      simp [← ih hf]

theorem cutAt?_append {p : UInt8 → Bool} {bs before after : Bytes}
    (h : cutAt? p bs = some (before, after)) :
    ∃ b, p b ∧ bs = before ++ b :: after ∧ ∀ c ∈ before, p c = false := by
  induction bs generalizing before with
  | nil => simp [cutAt?] at h
  | cons b rest ih =>
    rw [cutAt?] at h
    split at h
    next hp =>
      simp only [Option.some.injEq, Prod.mk.injEq] at h
      obtain ⟨rfl, rfl⟩ := h
      exact ⟨b, hp, by simp⟩
    next hp =>
      obtain ⟨found, hf, he⟩ := Option.map_eq_some_iff.mp h
      simp only [Prod.mk.injEq] at he
      obtain ⟨rfl, rfl⟩ := he
      obtain ⟨c, hc, hs, hn⟩ := ih hf
      exact ⟨c, hc, by simp [hs], by simpa [hp] using hn⟩

/-- Consecutive pieces of `size` bytes, the last one possibly shorter; a size of zero counts
as one. -/
def pieces (size : Nat) (bs : Bytes) : List Bytes :=
  match bs with
  | [] => []
  | b :: rest => (b :: rest).take (size - 1 + 1) :: pieces size (rest.drop (size - 1))
termination_by bs.length
decreasing_by simp only [List.length_drop, List.length_cons]; omega

theorem flatten_pieces (size : Nat) (bs : Bytes) : (pieces size bs).flatten = bs := by
  fun_induction pieces size bs with
  | case1 => rfl
  | case2 b rest ih => rw [List.flatten_cons, ih]; simp

end XmlStore
