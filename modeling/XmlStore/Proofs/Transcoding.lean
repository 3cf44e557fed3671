import XmlStore.Proofs.CodePoints

/-!
# Documents in UTF-16

A document in UTF-16 is its code units as bytes, in either order, with a byte order mark in front
or a `<` for the first unit. Converting it to UTF-8 loses nothing: the code units can be had back
from the text. A document in UTF-8 is its own text, less a mark.
-/

namespace XmlStore

theorem Utf8.encode_injective : Function.Injective Utf8.encode := by
  intro first second h
  have hbytes : first.utf8Encode = second.utf8Encode := congrArg List.toByteArray h
  rw [← String.toByteArray_ofList, ← String.toByteArray_ofList] at hbytes
  exact String.ofList_injective (String.toByteArray_inj.mp hbytes)

theorem Utf8.decodeLossy_encode (chars : List Char) :
    Utf8.decodeLossy (Utf8.encode chars) = chars :=
  Utf8.encode_injective (Utf8.encode_decodeLossy (Utf8.isValid_encode chars))

theorem Utf16.exists_encode_iff {units : Utf16.Units} :
    (∃ chars, Utf16.encode chars = units) ↔ ∀ i, ¬ Utf16.UnpairedAt units i := by
  rw [← Utf16.decode_snd_eq_none_iff]
  constructor
  · rintro ⟨chars, rfl⟩
    rw [Utf16.decode_encode]
  · intro h
    exact ⟨_, Utf16.encode_of_decode (Prod.ext rfl h)⟩

theorem ByteOrder.units?_odd (order : ByteOrder) (units : Utf16.Units) (b : UInt8) :
    order.units? (units.flatMap order.bytes ++ [b]) = none := by
  induction units with
  | nil => rfl
  | cons u rest ih =>
    cases order with
    | little => simp [ByteOrder.bytes, ByteOrder.units?, ih]
    | big => simp [ByteOrder.bytes, ByteOrder.units?, ih]

/-- The bytes of a document of code units in this order: behind a byte order mark, or without one
if the first unit is `<`. -/
inductive ByteOrder.Writes (order : ByteOrder) (units : Utf16.Units) : Bytes → Prop
  | marked : Writes order units (order.mark ++ units.flatMap order.bytes)
  | bare (h : units.head? = some 0x3C) : Writes order units (units.flatMap order.bytes)

namespace Encoding

variable {order : ByteOrder} {units : Utf16.Units} {bs : Bytes}

/-- The first two bytes tell the order, and the mark is taken off only once. -/
theorem detect_writes (h : order.Writes units bs) (more : Bytes) :
    detect (bs ++ more) = .utf16 order ∧
      dropMark order.mark (bs ++ more) = units.flatMap order.bytes ++ more := by
  cases h with
  | marked =>
    refine ⟨by cases order <;> rfl, ?_⟩
    rw [List.append_assoc, dropMark_append]
  | bare h =>
    obtain ⟨rest, rfl⟩ := List.head?_eq_some_iff.mp h
    cases order <;> exact ⟨rfl, rfl⟩

theorem toUtf8_writes_iff (h : order.Writes units bs) {text : Bytes} :
    toUtf8 bs = .ok text ↔ ∃ chars, Utf16.encode chars = units ∧ Utf8.encode chars = text := by
  -- A mark in front changes nothing.
  have hmark : toUtf8 bs = toUtf8 (order.mark ++ units.flatMap order.bytes) := by
    have hbs := detect_writes h []
    have hmarked := detect_writes (.marked : order.Writes units _) []
    rw [List.append_nil] at hbs hmarked
    simp only [toUtf8, hbs, hmarked]
  simp only [hmark, toUtf8_marked_iff, eq_comm (a := text)]

theorem toUtf8_odd (h : order.Writes units bs) (b : UInt8) :
    toUtf8 (bs ++ [b]) = .error .oddLength := by
  simp only [toUtf8, detect_writes h [b], ByteOrder.units?_odd]

theorem toUtf8_of_utf8 (h : detect bs = .utf8) :
    ∃ text, toUtf8 bs = .ok text ∧ (bs = utf8Mark ++ text ∨ ¬ utf8Mark <+: bs ∧ bs = text) := by
  refine ⟨dropMark utf8Mark bs, by rw [toUtf8, h], ?_⟩
  by_cases hmark : utf8Mark <+: bs
  · obtain ⟨text, rfl⟩ := hmark
    exact .inl (by rw [dropMark_append])
  · rw [dropMark, if_neg (by rwa [List.isPrefixOf_iff_prefix])]
    exact .inr ⟨hmark, rfl⟩

/-- Converting a document of code units tells their order, succeeds if no surrogate among them is
unpaired, and then gives a text in UTF-8 from which the code units, and so the bytes behind the
mark, can be had back. With a byte too many it fails. A document that is taken for UTF-8 stays as it
is, less one mark. -/
theorem toUtf8_loses_nothing :
    (∀ {order : ByteOrder} {units : Utf16.Units} {bs : Bytes}, order.Writes units bs →
      detect bs = .utf16 order ∧
        ((∃ text, toUtf8 bs = .ok text) ↔ ∀ i, ¬ Utf16.UnpairedAt units i) ∧
        (∀ text, toUtf8 bs = .ok text →
          (∃ chars, Utf16.encode chars = units ∧ Utf8.encode chars = text) ∧
            (Utf16.encode (Utf8.decodeLossy text)).flatMap order.bytes = dropMark order.mark bs ∧
            ∀ {order' : ByteOrder} {units' : Utf16.Units} {bs' : Bytes},
              order'.Writes units' bs' → toUtf8 bs' = .ok text → units' = units) ∧
        ∀ b, toUtf8 (bs ++ [b]) = .error .oddLength) ∧
      ∀ bs, detect bs = .utf8 →
        ∃ text, toUtf8 bs = .ok text ∧
          (bs = utf8Mark ++ text ∨ ¬ utf8Mark <+: bs ∧ bs = text) := by
  refine ⟨fun {order units bs} h => ?_, fun bs => toUtf8_of_utf8⟩
  obtain ⟨hdetect, hdrop⟩ := detect_writes h []
  rw [List.append_nil] at hdetect hdrop
  refine ⟨hdetect, ?_, fun text ht => ?_, toUtf8_odd h⟩
  · simp only [toUtf8_writes_iff h, ← Utf16.exists_encode_iff]
    exact ⟨fun ⟨_, chars, hunits, _⟩ => ⟨chars, hunits⟩,
      fun ⟨chars, hunits⟩ => ⟨_, chars, hunits, rfl⟩⟩
  · obtain ⟨chars, rfl, rfl⟩ := (toUtf8_writes_iff h).mp ht
    refine ⟨⟨chars, rfl, rfl⟩, ?_, fun h' ht' => ?_⟩
    · rw [Utf8.decodeLossy_encode, hdrop, List.append_nil]
    · obtain ⟨chars', rfl, hchars⟩ := (toUtf8_writes_iff h').mp ht'
      rw [Utf8.encode_injective hchars]

/-- What looks like a mark behind the mark is a character, in either encoding. -/
theorem toUtf8_second_mark_stays :
    let units : Utf16.Units := [0xFEFF, 0xD83D, 0xDE00]
    let bs : Bytes := [0xFE, 0xFF, 0xFE, 0xFF, 0xD8, 0x3D, 0xDE, 0x00]
    let text : Bytes := [0xEF, 0xBB, 0xBF, 0xF0, 0x9F, 0x98, 0x80]
    (ByteOrder.big.Writes units bs ∧ toUtf8 bs = .ok text ∧ (∀ i, ¬ Utf16.UnpairedAt units i) ∧
      (Utf16.encode (Utf8.decodeLossy text)).flatMap ByteOrder.big.bytes =
        dropMark ByteOrder.big.mark bs ∧
      toUtf8 (bs ++ [0x00]) = .error .oddLength) ∧
    detect (utf8Mark ++ text) = .utf8 ∧
      ∃ rest, toUtf8 (utf8Mark ++ text) = .ok rest ∧
        (utf8Mark ++ text = utf8Mark ++ rest ∨
          ¬ utf8Mark <+: utf8Mark ++ text ∧ utf8Mark ++ text = rest) := by
  intro units bs text
  have hwrites : ByteOrder.big.Writes units bs := .marked
  have htext : toUtf8 bs = .ok text := by decide
  obtain ⟨-, hsucceeds, hkeeps, hodd⟩ := toUtf8_loses_nothing.1 hwrites
  exact ⟨⟨hwrites, htext, hsucceeds.mp ⟨text, htext⟩, (hkeeps text htext).2.1, hodd 0x00⟩, rfl,
    toUtf8_loses_nothing.2 _ rfl⟩

end Encoding

end XmlStore
