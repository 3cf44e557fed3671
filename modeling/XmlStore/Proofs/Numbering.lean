import Mathlib.Algebra.BigOperators.Group.Finset.Basic
import XmlStore.Proofs.Interning

/-!
# Numbers of strings

Strings are interned one after the other, and any hash may find them again. Each gets the next free
number when it comes first and keeps it, a number stands for one string, and the strings lie end to
end in the buffer. Numbers and places fit in words of 32 bits as long as there are so few strings
and bytes.
-/

namespace XmlStore.Names

variable {names later : Names} {text : Bytes} {texts : List Bytes} {id : Nat}

/-- Interns strings in order. -/
def internAll (texts : List Bytes) (names : Names) : Names :=
  texts.foldl (fun names text => (names.intern text).2) names

/-- The string of a number, where numbers, starts and lengths are words of 32 bits. -/
def getWord (names : Names) (id : UInt32) : Bytes :=
  match names.spans[id.toNat]? with
  | some span =>
    let start := UInt32.ofNat span.start
    let stop := start + UInt32.ofNat span.length
    (names.buffer.take stop.toNat).drop start.toNat
  | none => []

-- ---------------------------------------------------------------------------
-- All strings
-- ---------------------------------------------------------------------------

theorem get_of_size_le (h : names.size ≤ id) : names.get id = [] := by
  rw [get, Array.getElem?_eq_none h]

theorem toList_eq (names : Names) : names.toList = (List.range names.size).map names.get := by
  refine List.ext_getElem (by simp [toList, size]) fun id hid _ => ?_
  have hspan : id < names.spans.size := by simpa [toList] using hid
  simp [toList, get, Array.getElem?_eq_getElem hspan]

theorem length_toList (names : Names) : names.toList.length = names.size := by
  rw [toList_eq, List.length_map, List.length_range]

theorem mem_toList : text ∈ names.toList ↔ ∃ id < names.size, names.get id = text := by
  rw [toList_eq, List.mem_map]
  simp only [List.mem_range]

theorem Sound.nodup_toList (h : names.Sound) : names.toList.Nodup := by
  rw [toList_eq]
  refine List.Nodup.map_on (fun id hid id' hid' => ?_) List.nodup_range
  exact h.injective (List.mem_range.mp hid) (List.mem_range.mp hid')

theorem Sound.toList_added (h : names.Sound) (text : Bytes) :
    (names.added text).toList = names.toList ++ [text] := by
  have hold : ∀ id ∈ List.range names.size, (names.added text).get id = names.get id :=
    fun id hid => h.get_added text (List.mem_range.mp hid)
  rw [toList_eq, size_added, List.range_succ, List.map_append, List.map_congr_left hold, toList_eq,
    List.map_singleton, get_added_self]

-- ---------------------------------------------------------------------------
-- One string
-- ---------------------------------------------------------------------------

theorem intern_of_find? (h : names.find? text = some id) : names.intern text = (id, names) := by
  rw [intern, h]

theorem intern_of_new (h : names.find? text = none) :
    names.intern text = (names.size, names.added text) := by
  rw [intern, h]
  rfl

theorem Sound.find?_eq_none_iff (h : names.Sound) :
    names.find? text = none ↔ text ∉ names.toList := by
  rw [Option.eq_none_iff_forall_ne_some, mem_toList]
  simp only [ne_eq, h.find?_eq_some_iff, not_exists]

theorem Sound.find?_intern (h : names.Sound) (text : Bytes) :
    (names.intern text).2.find? text = some (names.intern text).1 := by
  obtain ⟨hsound, -, hfound⟩ := h.intern text
  exact hsound.find?_eq_some_iff.mpr hfound

theorem Extends.find? (h : later.Extends names) (hs : names.Sound) (hl : later.Sound)
    (hf : names.find? text = some id) : later.find? text = some id := by
  obtain ⟨hid, hget⟩ := hs.find?_eq_some_iff.mp hf
  exact hl.find?_eq_some_iff.mpr ⟨Nat.lt_of_lt_of_le hid h.size, (h.get hid).trans hget⟩

-- ---------------------------------------------------------------------------
-- One string after the other
-- ---------------------------------------------------------------------------

theorem internAll_append (texts more : List Bytes) (names : Names) :
    internAll (texts ++ more) names = internAll more (internAll texts names) :=
  List.foldl_append

theorem Sound.internAll (h : names.Sound) (texts : List Bytes) :
    (internAll texts names).Sound ∧ (internAll texts names).Extends names := by
  induction texts generalizing names with
  | nil => exact ⟨h, .refl names⟩
  | cons text rest ih =>
    obtain ⟨hsound, hextends, -⟩ := h.intern text
    obtain ⟨hlast, hlater⟩ := ih hsound
    exact ⟨hlast, hextends.trans hlater⟩

/-- A string that has been interned is found under the number that it got, however many came
since. -/
theorem Sound.find?_internAll (h : names.Sound) (text : Bytes) (more : List Bytes) :
    (Names.internAll more (names.intern text).2).find? text = some (names.intern text).1 := by
  obtain ⟨hsound, -⟩ := h.intern text
  obtain ⟨hlast, hextends⟩ := hsound.internAll more
  exact hextends.find? hsound hlast (h.find?_intern text)

/-- What names hold after these strings have come: they and the empty one, once each, and end to
end. -/
structure Holds (names : Names) (texts : List Bytes) : Prop where
  sound : names.Sound
  mem : ∀ text, text ∈ names.toList ↔ text = [] ∨ text ∈ texts
  buffer : names.buffer = names.toList.flatten

theorem ofHash_holds (hash : Bytes → UInt64) : (ofHash hash).Holds [] where
  sound := ofHash_sound hash
  mem text := by
    rw [show (ofHash hash).toList = [[]] from rfl]
    simp
  buffer := rfl

theorem Holds.intern (h : names.Holds texts) (text : Bytes) :
    (names.intern text).2.Holds (texts ++ [text]) := by
  by_cases hold : text ∈ names.toList
  · obtain ⟨id, hid, rfl⟩ := mem_toList.mp hold
    rw [intern_of_find? (h.sound.find?_get hid)]
    refine ⟨h.sound, fun other => ?_, h.buffer⟩
    have hmem := (h.mem _).mp hold
    rw [h.mem, List.mem_append, List.mem_singleton, ← or_assoc]
    exact (or_iff_left_of_imp fun he => he ▸ hmem).symm
  · have hnew := h.sound.find?_eq_none_iff.mpr hold
    have hsound := (h.sound.intern text).1
    rw [intern_of_new hnew] at hsound ⊢
    refine ⟨hsound, fun other => ?_, ?_⟩
    · rw [h.sound.toList_added, List.mem_append, h.mem, List.mem_append, or_assoc]
    · rw [h.sound.toList_added, List.flatten_append, ← h.buffer]
      exact congrArg (names.buffer ++ ·) (List.append_nil text).symm

theorem Holds.internAll (h : names.Holds texts) (more : List Bytes) :
    (Names.internAll more names).Holds (texts ++ more) := by
  induction more generalizing names texts with
  | nil => rwa [List.append_nil]
  | cons text rest ih =>
    rw [List.append_cons]
    exact ih (h.intern text)

theorem holds_internAll (hash : Bytes → UInt64) (texts : List Bytes) :
    (internAll texts (ofHash hash)).Holds texts :=
  (ofHash_holds hash).internAll texts

-- ---------------------------------------------------------------------------
-- Sizes
-- ---------------------------------------------------------------------------

theorem Holds.toFinset (h : names.Holds texts) :
    names.toList.toFinset = insert [] (texts.toFinset.erase []) := by
  ext text
  simp only [List.mem_toFinset, h.mem, Finset.mem_insert, Finset.mem_erase]
  tauto

theorem Holds.size_eq (h : names.Holds texts) :
    names.size = (texts.toFinset.erase []).card + 1 := by
  rw [← length_toList, ← List.toFinset_card_of_nodup h.sound.nodup_toList, h.toFinset,
    Finset.card_insert_of_notMem (Finset.notMem_erase _ _)]

theorem Holds.length_buffer (h : names.Holds texts) :
    names.buffer.length = ∑ text ∈ texts.toFinset.erase [], text.length := by
  rw [h.buffer, List.length_flatten, ← List.sum_toFinset _ h.sound.nodup_toList, h.toFinset,
    Finset.sum_insert (Finset.notMem_erase _ _), List.length_nil, Nat.zero_add]

/-- Words do not wrap around as long as the buffer and the numbers fit in them. -/
theorem Sound.getWord_ofNat (h : names.Sound) (hbuffer : names.buffer.length < 2 ^ 32)
    (hsize : names.size ≤ 2 ^ 32) (hid : id < names.size) :
    names.getWord (UInt32.ofNat id) = names.get id := by
  have hspan : names.spans[id]? = some names.spans[id] := Array.getElem?_eq_getElem hid
  have hstop : names.spans[id].start + names.spans[id].length ≤ names.buffer.length :=
    h.within hspan
  have hstart : (UInt32.ofNat names.spans[id].start).toNat = names.spans[id].start :=
    UInt32.toNat_ofNat_of_lt' (show _ < 2 ^ 32 by omega)
  have hlength : (UInt32.ofNat names.spans[id].length).toNat = names.spans[id].length :=
    UInt32.toNat_ofNat_of_lt' (show _ < 2 ^ 32 by omega)
  have hlast : (UInt32.ofNat names.spans[id].start +
      UInt32.ofNat names.spans[id].length).toNat =
        names.spans[id].start + names.spans[id].length := by
    rw [UInt32.toNat_add, hstart, hlength, Nat.mod_eq_of_lt (by omega)]
  rw [getWord, get, UInt32.toNat_ofNat_of_lt' (Nat.lt_of_lt_of_le hid hsize), hspan]
  simp only [hstart, hlast, Span.read]
  rw [List.drop_take, Nat.add_sub_cancel_left]

-- ---------------------------------------------------------------------------
-- Numbers
-- ---------------------------------------------------------------------------

/-- What can be seen of names after strings have been interned in order, whatever is interned
later. -/
structure Numbered (hash : Bytes → UInt64) (texts : List Bytes) (names : Names) : Prop where
  empty : (names.intern []).1 = 0
  next : ∀ text, text ≠ [] → text ∉ texts → (names.intern text).1 = names.size
  again : ∀ text more, ((internAll more (names.intern text).2).intern text).1 =
    (names.intern text).1
  get : ∀ text more, (internAll more (names.intern text).2).get (names.intern text).1 = text
  injective : ∀ first second more, (names.intern first).1 =
    ((internAll more (names.intern first).2).intern second).1 ↔ first = second
  find? : ∀ text id, names.find? text = some id ↔ text = [] ∧ id = 0 ∨
    ∃ before after, texts = before ++ text :: after ∧
      id = ((internAll before (ofHash hash)).intern text).1
  unknown : ∀ id, names.size ≤ id → names.get id = []
  size : names.size = (texts.toFinset.erase []).card + 1
  footprint : names.footprint = ∑ text ∈ texts.toFinset.erase [], text.length + 8 * names.size
  words : names.buffer.length < 2 ^ 32 → names.size ≤ 2 ^ 32 → ∀ id < names.size,
    names.getWord (UInt32.ofNat id) = names.get id

theorem Sound.intern_nil (h : names.Sound) : (names.intern []).1 = 0 := by
  have hfound : names.find? [] = some 0 := h.find?_eq_some_iff.mpr ⟨h.size_pos, h.get_zero⟩
  rw [intern_of_find? hfound]

theorem Sound.intern_internAll (h : names.Sound) (text : Bytes) (more : List Bytes) :
    (Names.internAll more (names.intern text).2).intern text =
      ((names.intern text).1, Names.internAll more (names.intern text).2) :=
  intern_of_find? (h.find?_internAll text more)

theorem Sound.intern_injective (h : names.Sound) (first second : Bytes) (more : List Bytes) :
    (names.intern first).1 =
        ((Names.internAll more (names.intern first).2).intern second).1 ↔ first = second := by
  have hlast := ((h.intern first).1.internAll more).1
  constructor
  · intro hid
    obtain ⟨hsound, hextends, -, hsecond⟩ := hlast.intern second
    obtain ⟨hlt, hfirst⟩ := hlast.find?_eq_some_iff.mp (h.find?_internAll first more)
    rw [← hfirst, ← hextends.get hlt, hid, hsecond]
  · rintro rfl
    rw [h.intern_internAll]

/-- A string is known exactly if it is empty or has come, and by the number that it got then. -/
theorem find?_internAll_iff (hash : Bytes → UInt64) (texts : List Bytes) :
    (internAll texts (ofHash hash)).find? text = some id ↔ text = [] ∧ id = 0 ∨
      ∃ before after, texts = before ++ text :: after ∧
        id = ((internAll before (ofHash hash)).intern text).1 := by
  have h := holds_internAll hash texts
  have hnil : (internAll texts (ofHash hash)).find? [] = some 0 :=
    h.sound.find?_eq_some_iff.mpr ⟨h.sound.size_pos, h.sound.get_zero⟩
  have hcame {before after : List Bytes} (ht : texts = before ++ text :: after) :
      (internAll texts (ofHash hash)).find? text =
        some ((internAll before (ofHash hash)).intern text).1 := by
    rw [ht, internAll_append]
    exact ((ofHash_sound hash).internAll before).1.find?_internAll text after
  constructor
  · intro hf
    have hmem : text ∈ (internAll texts (ofHash hash)).toList :=
      mem_toList.mpr ⟨id, h.sound.find?_eq_some_iff.mp hf⟩
    rcases (h.mem text).mp hmem with rfl | ht
    · exact .inl ⟨rfl, Option.some.inj (hf.symm.trans hnil)⟩
    · obtain ⟨before, after, ht⟩ := List.append_of_mem ht
      exact .inr ⟨before, after, ht, Option.some.inj (hf.symm.trans (hcame ht))⟩
  · rintro (⟨rfl, rfl⟩ | ⟨before, after, ht, rfl⟩)
    · exact hnil
    · exact hcame ht

/-- Strings and numbers stand for each other, one to one, whatever the hash is. -/
theorem internAll_numbered (hash : Bytes → UInt64) (texts : List Bytes) :
    Numbered hash texts (internAll texts (ofHash hash)) := by
  have h := holds_internAll hash texts
  exact {
    empty := h.sound.intern_nil
    next := by
      intro text hne hnew
      have hfound := h.sound.find?_eq_none_iff.mpr fun hm => ((h.mem text).mp hm).elim hne hnew
      rw [intern_of_new hfound]
    again := fun text more => by rw [h.sound.intern_internAll]
    get := fun text more =>
      (((h.sound.intern text).1.internAll more).1.find?_eq_some_iff.mp
        (h.sound.find?_internAll text more)).2
    injective := h.sound.intern_injective
    find? := fun _ _ => find?_internAll_iff hash texts
    unknown := fun _ => get_of_size_le
    size := h.size_eq
    footprint := by rw [footprint, h.length_buffer]
    words := fun hbuffer hsize _ => h.sound.getWord_ofNat hbuffer hsize }

example :
    let names := internAll [ascii "a", ascii "bc", [], ascii "a"] (ofHash fun _ => 0)
    (names.intern (ascii "bc")).1 = 2 ∧ names.size = 3 ∧ names.footprint = 27 := by
  decide +kernel

end XmlStore.Names
