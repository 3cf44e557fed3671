import XmlStore.Tree.Names

/-!
# Names keep their numbers

Among names that came in by `intern` alone, a string has one number and a number one string, and
interning more strings leaves both as they are.
-/

namespace XmlStore.Names

structure Sound (names : Names) : Prop where
  zero : names.spans[0]? = some ⟨0, 0⟩
  within : ∀ {id : Nat} {span : Span}, names.spans[id]? = some span →
    span.stop ≤ names.buffer.length
  injective : ∀ {id id' : Nat}, id < names.size → id' < names.size → names.get id = names.get id' →
    id = id'
  hashed : ∀ {h : UInt64} {id : Nat}, (h, id) ∈ names.hashed ↔
    0 < id ∧ id < names.size ∧ h = names.hash (names.get id)

/-- Names that mean the same where both have them. -/
structure Extends (later names : Names) : Prop where
  size : names.size ≤ later.size
  get : ∀ {id : Nat}, id < names.size → later.get id = names.get id

variable {names later : Names} {text : Bytes} {id : Nat}

theorem Extends.refl (names : Names) : names.Extends names := ⟨Nat.le_refl _, fun _ => rfl⟩

theorem Extends.trans {last : Names} (h : later.Extends names) (h' : last.Extends later) :
    last.Extends names where
  size := Nat.le_trans h.size h'.size
  get hid := (h'.get (Nat.lt_of_lt_of_le hid h.size)).trans (h.get hid)

/-- Only the empty string; others will be found again through this hash. -/
def ofHash (hash : Bytes → UInt64) : Names := { hash }

theorem ofHash_sound (hash : Bytes → UInt64) : Sound (ofHash hash) where
  zero := rfl
  within := by
    rintro id span h
    obtain rfl : span = ⟨0, 0⟩ := by
      cases id with
      | zero => exact (Option.some.inj h).symm
      | succ id => cases h
    exact Nat.le_refl 0
  injective := by
    intro id id' hid hid' _
    simp only [size, ofHash, List.size_toArray, List.length_cons, List.length_nil] at hid hid'
    omega
  hashed := by
    simp only [ofHash, size, List.not_mem_nil, List.size_toArray, List.length_cons,
      List.length_nil, false_iff]
    omega

theorem empty_sound : Sound empty := ofHash_sound mix

-- ---------------------------------------------------------------------------
-- Finding
-- ---------------------------------------------------------------------------

theorem Sound.size_pos (h : names.Sound) : 0 < names.size :=
  (Array.getElem?_eq_some_iff.mp h.zero).1

theorem Sound.get_zero (h : names.Sound) : names.get 0 = [] := by
  simp [get, h.zero, Span.read]

theorem Sound.get_of_find? (h : names.Sound) (hf : names.find? text = some id) :
    id < names.size ∧ names.get id = text := by
  unfold find? at hf
  split at hf
  next he =>
    cases hf
    exact ⟨h.size_pos, h.get_zero.trans (List.isEmpty_iff.mp he).symm⟩
  next =>
    obtain ⟨entry, he, rfl⟩ := Option.map_eq_some_iff.mp hf
    obtain ⟨-, hid, -⟩ := h.hashed.mp (List.mem_of_find?_eq_some he)
    have hp := List.find?_some he
    simp only [Bool.and_eq_true, beq_iff_eq] at hp
    exact ⟨hid, hp.2⟩

theorem Sound.find?_get (h : names.Sound) (hid : id < names.size) :
    names.find? (names.get id) = some id := by
  cases hf : names.find? (names.get id) with
  | some found =>
    obtain ⟨hlt, hg⟩ := h.get_of_find? hf
    rw [h.injective hlt hid hg]
  | none =>
    unfold find? at hf
    split at hf
    · cases hf
    next he =>
      have hpos : 0 < id := by
        refine Nat.pos_of_ne_zero ?_
        rintro rfl
        exact he (List.isEmpty_iff.mpr h.get_zero)
      have hm := h.hashed.mpr ⟨hpos, hid, rfl⟩
      simp only [Option.map_eq_none_iff, List.find?_eq_none] at hf
      exact absurd (hf _ hm) (by simp)

theorem Sound.find?_eq_some_iff (h : names.Sound) :
    names.find? text = some id ↔ id < names.size ∧ names.get id = text := by
  constructor
  · exact h.get_of_find?
  · rintro ⟨hid, rfl⟩
    exact h.find?_get hid

-- ---------------------------------------------------------------------------
-- Interning
-- ---------------------------------------------------------------------------

/-- The names with a string that they did not have. -/
def added (names : Names) (text : Bytes) : Names :=
  { names with
    buffer := names.buffer ++ text
    spans := names.spans.push (Span.appended names.buffer text)
    hashed := (names.hash text, names.size) :: names.hashed }

theorem size_added (names : Names) (text : Bytes) : (names.added text).size = names.size + 1 :=
  Array.size_push _

theorem get_added_self (names : Names) (text : Bytes) :
    (names.added text).get names.size = text := by
  simp only [get, added, size, Array.getElem?_push_size]
  exact Span.read_appended _ _

theorem Sound.get_added (h : names.Sound) (text : Bytes) (hid : id < names.size) :
    (names.added text).get id = names.get id := by
  obtain ⟨span, hs⟩ : ∃ span, names.spans[id]? = some span := ⟨_, Array.getElem?_eq_getElem hid⟩
  simp only [get, added, Array.getElem?_push_lt hid, hs]
  rw [Array.getElem?_eq_getElem hid] at hs
  obtain rfl := Option.some.inj hs
  exact Span.read_append (h.within (Array.getElem?_eq_getElem hid)) text

theorem Sound.added (h : names.Sound) (hnew : ∀ id, id < names.size → names.get id ≠ text) :
    (names.added text).Sound where
  zero := by
    have hpos : 0 < names.spans.size := h.size_pos
    simp only [Names.added, Array.getElem?_push_lt hpos]
    exact (Array.getElem?_eq_getElem hpos).symm.trans h.zero
  within := by
    intro id span hs
    simp only [Names.added, List.length_append] at hs ⊢
    rw [Array.getElem?_push] at hs
    split at hs
    · cases hs
      exact Nat.le_refl _
    · exact Nat.le_add_right_of_le (h.within hs)
  injective := by
    intro id id' hid hid' hg
    rw [size_added] at hid hid'
    rcases Nat.lt_succ_iff_lt_or_eq.mp hid with hid | rfl
    · rw [h.get_added text hid] at hg
      rcases Nat.lt_succ_iff_lt_or_eq.mp hid' with hid' | rfl
      · rw [h.get_added text hid'] at hg
        exact h.injective hid hid' hg
      · exact absurd (hg.trans (names.get_added_self text)) (hnew id hid)
    · rw [get_added_self] at hg
      rcases Nat.lt_succ_iff_lt_or_eq.mp hid' with hid' | rfl
      · exact absurd (hg.trans (h.get_added text hid')).symm (hnew id' hid')
      · rfl
  hashed := by
    intro k id
    have hold : (k, id) ∈ names.hashed ↔
        0 < id ∧ id < names.size ∧ k = names.hash ((names.added text).get id) := by
      rw [h.hashed]
      refine and_congr_right fun _ => and_congr_right fun hid => ?_
      rw [h.get_added text hid]
    have hpos := h.size_pos
    rw [show (names.added text).hashed = (names.hash text, names.size) :: names.hashed from rfl,
      List.mem_cons, hold, size_added, Prod.mk.injEq, Nat.lt_succ_iff_lt_or_eq]
    constructor
    · rintro (⟨rfl, rfl⟩ | ⟨h0, hid, hk⟩)
      · refine ⟨hpos, .inr rfl, ?_⟩
        rw [get_added_self]
        rfl
      · exact ⟨h0, .inl hid, hk⟩
    · rintro ⟨h0, hid | rfl, hk⟩
      · exact .inr ⟨h0, hid, hk⟩
      · refine .inl ⟨?_, rfl⟩
        rw [get_added_self] at hk
        exact hk

theorem Sound.intern (h : names.Sound) (text : Bytes) :
    (names.intern text).2.Sound ∧ (names.intern text).2.Extends names ∧
      (names.intern text).1 < (names.intern text).2.size ∧
      (names.intern text).2.get (names.intern text).1 = text := by
  unfold Names.intern
  split
  next found hf => exact ⟨h, .refl _, h.get_of_find? hf⟩
  next hf =>
    have hnew : ∀ id, id < names.size → names.get id ≠ text := by
      rintro id hid rfl
      rw [h.find?_get hid] at hf
      cases hf
    have hsize := names.size_added text
    refine ⟨h.added hnew, ⟨?_, h.get_added text⟩, ?_, names.get_added_self text⟩
    · exact hsize ▸ Nat.le_succ _
    · exact hsize ▸ Nat.lt_succ_self _

end XmlStore.Names
