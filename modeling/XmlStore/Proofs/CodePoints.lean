import Mathlib.Data.List.Forall2
import XmlStore.Proofs.Spelling

/-!
# Code points and their encodings

The well-formed byte strings are the encodings of characters, and the code units without an
unpaired surrogate are too. Decoding takes back what was encoded, in UTF-16 also from bytes in
either order behind a byte order mark.
-/

namespace XmlStore

-- ---------------------------------------------------------------------------
-- What is encoded is well formed
-- ---------------------------------------------------------------------------

namespace Utf8

variable {lead : UInt8} {bs : Bytes} {ranges : List (UInt8 × UInt8)}

/-- The bytes lie in the ranges, one in each. -/
abbrev Within : List (UInt8 × UInt8) → Bytes → Prop :=
  List.Forall₂ fun range b => range.1 ≤ b ∧ b ≤ range.2

theorem Head.follow_within {seen : Nat} (h : Within ranges bs) :
    follow seen ranges bs = .scalar (seen + bs.length) := by
  induction h generalizing seen with
  | nil => rfl
  | cons hb _ ih => simp [follow, hb, ih, Nat.add_right_comm, Nat.add_assoc]

theorem isValid_of_within (ranges : List (UInt8 × UInt8)) (hr : trailingRanges lead = some ranges)
    (h : Within ranges bs) :
    isValid (lead :: bs) = true := by
  refine isValid_cons_iff.mpr ⟨bs.length, ?_, ?_⟩
  · simp [head, hr, Head.follow_within h]
  · simp [isValid_nil]

theorem ofNat_between {n : Nat} {first last : UInt8} (h : first.toNat ≤ n) (h' : n ≤ last.toNat) :
    first ≤ UInt8.ofNat n ∧ UInt8.ofNat n ≤ last := by
  have hn : (UInt8.ofNat n).toNat = n :=
    UInt8.toNat_ofNat_of_lt' (Nat.lt_of_le_of_lt h' last.toNat_lt)
  simp [UInt8.le_iff_toNat_le, hn, h, h']

theorem continuation_ofNat (n : Nat) :
    continuation.1 ≤ .ofNat (n % 64 + 0x80) ∧ .ofNat (n % 64 + 0x80) ≤ continuation.2 := by
  apply ofNat_between <;> simp only [continuation, UInt8.reduceToNat] <;> omega

section
variable {v : Nat}

theorem isValid_one (h : v < 0x80) : isValid [.ofNat v] = true := by
  have hlead := @ofNat_between v 0 0x7F (Nat.zero_le v) (Nat.le_of_lt_succ h)
  exact isValid_of_within [] (by grind [trailingRanges]) .nil

theorem isValid_two (h : 0x80 ≤ v) (h' : v < 0x800) :
    isValid [.ofNat (v / 64 % 32 + 0xC0), .ofNat (v % 64 + 0x80)] = true := by
  have hlead := @ofNat_between (v / 64 % 32 + 0xC0) 0xC2 0xDF (by simp; omega) (by simp; omega)
  exact isValid_of_within [continuation] (by grind [trailingRanges])
    (.cons (continuation_ofNat v) .nil)

/-- The first and the last lead byte of three leave less room for the byte after them. -/
theorem isValid_three (h : 0x800 ≤ v) (h' : v < 0x10000) (hs : v < 0xD800 ∨ 0xDFFF < v) :
    isValid [.ofNat (v / 4096 % 16 + 0xE0), .ofNat (v / 64 % 64 + 0x80), .ofNat (v % 64 + 0x80)] =
      true := by
  have hlast := continuation_ofNat v
  by_cases hfirst : v < 0x1000
  · have hlead : v / 4096 % 16 + 0xE0 = 0xE0 := by omega
    have hsecond := @ofNat_between (v / 64 % 64 + 0x80) 0xA0 0xBF (by simp; omega) (by simp; omega)
    rw [hlead]
    exact isValid_of_within _ rfl (.cons hsecond (.cons hlast .nil))
  by_cases hsurrogate : 0xD000 ≤ v ∧ v < 0xE000
  · have hlead : v / 4096 % 16 + 0xE0 = 0xED := by omega
    have hsecond := @ofNat_between (v / 64 % 64 + 0x80) 0x80 0x9F (by simp) (by simp; omega)
    rw [hlead]
    exact isValid_of_within _ rfl (.cons hsecond (.cons hlast .nil))
  · have hsecond := continuation_ofNat (v / 64)
    have hlead := @ofNat_between (v / 4096 % 16 + 0xE0) 0xE1 0xEF (by simp; omega) (by simp; omega)
    have hne : UInt8.ofNat (v / 4096 % 16 + 0xE0) ≠ 0xED := by
      simp only [ne_eq, ← UInt8.toNat_inj, UInt8.toNat_ofNat', UInt8.reduceToNat]
      omega
    exact isValid_of_within [continuation, continuation] (by grind [trailingRanges])
      (.cons hsecond (.cons hlast .nil))

theorem isValid_four (h : 0x10000 ≤ v) (h' : v < 0x110000) :
    isValid [.ofNat (v / 262144 % 8 + 0xF0), .ofNat (v / 4096 % 64 + 0x80),
      .ofNat (v / 64 % 64 + 0x80), .ofNat (v % 64 + 0x80)] = true := by
  have hthird := continuation_ofNat (v / 64)
  have hlast := continuation_ofNat v
  by_cases hfirst : v < 0x40000
  · have hlead : v / 262144 % 8 + 0xF0 = 0xF0 := by omega
    have hsecond :=
      @ofNat_between (v / 4096 % 64 + 0x80) 0x90 0xBF (by simp; omega) (by simp; omega)
    rw [hlead]
    exact isValid_of_within _ rfl (.cons hsecond (.cons hthird (.cons hlast .nil)))
  by_cases hhigh : 0x100000 ≤ v
  · have hlead : v / 262144 % 8 + 0xF0 = 0xF4 := by omega
    have hsecond := @ofNat_between (v / 4096 % 64 + 0x80) 0x80 0x8F (by simp) (by simp; omega)
    rw [hlead]
    exact isValid_of_within _ rfl (.cons hsecond (.cons hthird (.cons hlast .nil)))
  · have hsecond := continuation_ofNat (v / 4096)
    have hlead := @ofNat_between (v / 262144 % 8 + 0xF0) 0xF1 0xF3 (by simp; omega) (by simp; omega)
    exact isValid_of_within [continuation, continuation, continuation]
      (by grind [trailingRanges]) (.cons hsecond (.cons hthird (.cons hlast .nil)))

end

theorem isValid_encodeChar (c : Char) : isValid (String.utf8EncodeChar c) = true := by
  have hc : c.val.toNat < 0xD800 ∨ 0xDFFF < c.val.toNat ∧ c.val.toNat < 0x110000 := c.valid
  unfold String.utf8EncodeChar
  simp only
  split
  · exact isValid_one (by omega)
  split
  · exact isValid_two (by omega) (by omega)
  split
  · exact isValid_three (by omega) (by omega) (by omega)
  · exact isValid_four (by omega) (by omega)

theorem isValid_encode (cs : List Char) : isValid (encode cs) = true := by
  induction cs with
  | nil => exact isValid_nil
  | cons c rest ih => exact (isValid_append (isValid_encodeChar c)).trans ih

theorem split_of_isValid (h : isValid bs = true) : split bs = (bs, []) := by
  have hrest : (split bs).2 = [] := List.isEmpty_iff.mp h
  have hfirst := split_append bs
  rw [hrest, List.append_nil] at hfirst
  exact Prod.ext hfirst hrest

-- ---------------------------------------------------------------------------
-- What is well formed was encoded
-- ---------------------------------------------------------------------------

theorem toNat_charOfNat {v : Nat} (h : v < 0xD800 ∨ 0xDFFF < v ∧ v < 0x110000) :
    (Char.ofNat v).toNat = v := by
  have hv : v.isValidChar := h
  rw [Char.ofNat, dif_pos hv]
  rfl

theorem Head.within_of_follow {seen trailing : Nat}
    (h : follow seen ranges bs = .scalar trailing) : Within ranges (bs.take (trailing - seen)) := by
  obtain ⟨rfl, -⟩ := follow_scalar h
  rw [Nat.add_sub_cancel_left]
  fun_induction follow seen ranges bs with
  | case1 => exact .nil
  | case2 => cases h
  | case3 seen range ranges b rest hb ih =>
    simp only [Bool.and_eq_true, decide_eq_true_eq] at hb
    refine .cons hb (ih ?_)
    rw [h, List.length_cons, Nat.add_right_comm, Nat.add_assoc]
  | case4 => cases h

section
variable {first : UInt8 × UInt8}

theorem ofNat_eq {b : UInt8} {n : Nat} (h : n = b.toNat) : UInt8.ofNat n = b := by
  simp [h]

theorem encodeChar_of_one (hl : lead.toNat < 0x80) (h : Within [] bs) :
    String.utf8EncodeChar (scalarValue lead bs) = lead :: bs := by
  cases h
  have hv := toNat_charOfNat (v := lead.toNat) (by omega)
  simp only [scalarValue, UInt8.lt_iff_toNat_lt, UInt8.reduceToNat, hl, ↓reduceIte,
    List.foldl_nil, String.utf8EncodeChar, Char.toNat_val, hv]
  rw [if_pos (by omega), UInt8.ofNat_toNat]

theorem encodeChar_of_two (hl : 0xC2 ≤ lead.toNat ∧ lead.toNat < 0xE0)
    (h : Within [continuation] bs) :
    String.utf8EncodeChar (scalarValue lead bs) = lead :: bs := by
  obtain _ | ⟨hb, _ | _⟩ := h
  rename_i b
  simp only [continuation, UInt8.le_iff_toNat_le, UInt8.reduceToNat] at hb
  have hascii : ¬ lead.toNat < 0x80 := by omega
  have hv := toNat_charOfNat (v := (lead.toNat - 0xC0) * 64 + (b.toNat - 0x80)) (by omega)
  simp only [scalarValue, UInt8.lt_iff_toNat_lt, UInt8.reduceToNat, hascii, hl.2, ↓reduceIte,
    List.foldl_cons, List.foldl_nil, String.utf8EncodeChar, Char.toNat_val, hv]
  rw [if_neg (by omega), if_pos (by omega), ofNat_eq (b := lead) (by omega),
    ofNat_eq (b := b) (by omega)]

theorem encodeChar_of_three (hl : 0xE0 ≤ lead.toNat ∧ lead.toNat < 0xF0)
    (hf : 0x80 ≤ first.1.toNat ∧ first.2.toNat ≤ 0xBF)
    (hlow : lead.toNat = 0xE0 → 0xA0 ≤ first.1.toNat)
    (hhigh : lead.toNat = 0xED → first.2.toNat ≤ 0x9F) (h : Within [first, continuation] bs) :
    String.utf8EncodeChar (scalarValue lead bs) = lead :: bs := by
  obtain _ | ⟨hb, _ | ⟨hc, _ | _⟩⟩ := h
  rename_i b c
  simp only [continuation, UInt8.le_iff_toNat_le, UInt8.reduceToNat] at hb hc
  have hascii : ¬ lead.toNat < 0x80 := by omega
  have htwo : ¬ lead.toNat < 0xE0 := by omega
  have hv := toNat_charOfNat
    (v := ((lead.toNat - 0xE0) * 64 + (b.toNat - 0x80)) * 64 + (c.toNat - 0x80)) (by omega)
  simp only [scalarValue, UInt8.lt_iff_toNat_lt, UInt8.reduceToNat, hascii, htwo, hl.2, ↓reduceIte,
    List.foldl_cons, List.foldl_nil, String.utf8EncodeChar, Char.toNat_val, hv]
  rw [if_neg (by omega), if_neg (by omega), if_pos (by omega), ofNat_eq (b := lead) (by omega),
    ofNat_eq (b := b) (by omega), ofNat_eq (b := c) (by omega)]

theorem encodeChar_of_four (hl : 0xF0 ≤ lead.toNat ∧ lead.toNat ≤ 0xF4)
    (hf : 0x80 ≤ first.1.toNat ∧ first.2.toNat ≤ 0xBF)
    (hlow : lead.toNat = 0xF0 → 0x90 ≤ first.1.toNat)
    (hhigh : lead.toNat = 0xF4 → first.2.toNat ≤ 0x8F)
    (h : Within [first, continuation, continuation] bs) :
    String.utf8EncodeChar (scalarValue lead bs) = lead :: bs := by
  obtain _ | ⟨hb, _ | ⟨hc, _ | ⟨hd, _ | _⟩⟩⟩ := h
  rename_i b c d
  simp only [continuation, UInt8.le_iff_toNat_le, UInt8.reduceToNat] at hb hc hd
  have hascii : ¬ lead.toNat < 0x80 := by omega
  have htwo : ¬ lead.toNat < 0xE0 := by omega
  have hthree : ¬ lead.toNat < 0xF0 := by omega
  have hv := toNat_charOfNat
    (v := (((lead.toNat - 0xF0) * 64 + (b.toNat - 0x80)) * 64 + (c.toNat - 0x80)) * 64 +
      (d.toNat - 0x80)) (by omega)
  simp only [scalarValue, UInt8.lt_iff_toNat_lt, UInt8.reduceToNat, hascii, htwo, hthree,
    ↓reduceIte, List.foldl_cons, List.foldl_nil, String.utf8EncodeChar, Char.toNat_val, hv]
  rw [if_neg (by omega), if_neg (by omega), if_neg (by omega), ofNat_eq (b := lead) (by omega),
    ofNat_eq (b := b) (by omega), ofNat_eq (b := c) (by omega), ofNat_eq (b := d) (by omega)]

end

theorem encodeChar_scalarValue (hr : trailingRanges lead = some ranges)
    (h : Within ranges bs) : String.utf8EncodeChar (scalarValue lead bs) = lead :: bs := by
  unfold trailingRanges at hr
  simp only [UInt8.lt_iff_toNat_lt, ← UInt8.toNat_inj, UInt8.reduceToNat] at hr
  repeat' split at hr
  all_goals cases hr
  · exact encodeChar_of_one (by omega) h
  · exact encodeChar_of_two (by omega) h
  · exact encodeChar_of_three (by omega) (by decide) (fun _ => by decide) (by omega) h
  · exact encodeChar_of_three (by omega) (by decide) (by omega) (fun _ => by decide) h
  · exact encodeChar_of_three (by omega) (by decide) (by omega) (by omega) h
  · exact encodeChar_of_four (by omega) (by decide) (fun _ => by decide) (by omega) h
  · exact encodeChar_of_four (by omega) (by decide) (by omega) (by omega) h
  · exact encodeChar_of_four (by omega) (by decide) (by omega) (fun _ => by decide) h

theorem encodeChar_of_head {trailing : Nat} (h : head lead bs = .scalar trailing) :
    String.utf8EncodeChar (scalarValue lead (bs.take trailing)) = lead :: bs.take trailing := by
  unfold head at h
  split at h
  · cases h
  next ranges hr => exact encodeChar_scalarValue hr (Head.within_of_follow h)

theorem encode_decodeLossy (h : isValid bs = true) : encode (decodeLossy bs) = bs := by
  fun_induction decodeLossy bs with
  | case1 => rfl
  | case2 lead rest trailing hhead ih =>
    obtain ⟨n, hn, hrest⟩ := isValid_cons_iff.mp h
    obtain rfl : trailing = n := Head.scalar.inj (hhead.symm.trans hn)
    show String.utf8EncodeChar _ ++ encode (decodeLossy (rest.drop trailing)) = _
    rw [encodeChar_of_head hhead, ih hrest, List.cons_append, List.take_append_drop]
  | case3 lead rest trailing hhead =>
    obtain ⟨n, hn, -⟩ := isValid_cons_iff.mp h
    cases hhead.symm.trans hn
  | case4 lead rest hhead =>
    obtain ⟨n, hn, -⟩ := isValid_cons_iff.mp h
    cases hhead.symm.trans hn

/-- The well-formed byte strings are the encodings of characters. -/
theorem isValid_iff_encode : isValid bs = true ↔ ∃ chars, bs = encode chars := by
  constructor
  · intro h
    exact ⟨decodeLossy bs, (encode_decodeLossy h).symm⟩
  · rintro ⟨chars, rfl⟩
    exact isValid_encode chars

end Utf8

-- ---------------------------------------------------------------------------
-- UTF-16
-- ---------------------------------------------------------------------------

namespace Utf16

variable {units : Units} {chars : List Char}

theorem isHighSurrogate_iff {u : UInt16} :
    isHighSurrogate u = true ↔ 0xD800 ≤ u.toNat ∧ u.toNat ≤ 0xDBFF := by
  simp [isHighSurrogate, UInt16.le_iff_toNat_le]

theorem isLowSurrogate_iff {u : UInt16} :
    isLowSurrogate u = true ↔ 0xDC00 ≤ u.toNat ∧ u.toNat ≤ 0xDFFF := by
  simp [isLowSurrogate, UInt16.le_iff_toNat_le]

theorem ofNat_eq {u : UInt16} {n : Nat} (h : n = u.toNat) : UInt16.ofNat n = u := by
  rw [h, UInt16.ofNat_toNat]

theorem toNat_unit {n : Nat} (h : n < 0x10000) : (UInt16.ofNat n).toNat = n :=
  UInt16.toNat_ofNat_of_lt' h

theorem encodeChar_single {u : UInt16} (hu : isHighSurrogate u = false)
    (hl : isLowSurrogate u = false) : encodeChar (.ofNat u.toNat) = [u] := by
  have hlt := u.toNat_lt
  rw [← Bool.not_eq_true, isHighSurrogate_iff] at hu
  rw [← Bool.not_eq_true, isLowSurrogate_iff] at hl
  simp only [encodeChar, Utf8.toNat_charOfNat (v := u.toNat) (by omega)]
  rw [if_pos (by omega), UInt16.ofNat_toNat]

theorem encodeChar_pair {u v : UInt16} (hu : isHighSurrogate u = true)
    (hv : isLowSurrogate v = true) : encodeChar (pair u v) = [u, v] := by
  rw [isHighSurrogate_iff] at hu
  rw [isLowSurrogate_iff] at hv
  have hvalue := Utf8.toNat_charOfNat
    (v := 0x10000 + (u.toNat - 0xD800) * 0x400 + (v.toNat - 0xDC00)) (by omega)
  simp only [encodeChar, pair, hvalue]
  rw [if_neg (by omega), ofNat_eq (u := u) (by omega), ofNat_eq (u := v) (by omega)]

theorem encode_of_decode (h : decode units = (chars, none)) : encode chars = units := by
  fun_induction decode units generalizing chars with
  | case1 =>
    cases h
    rfl
  | case2 => cases h
  | case3 u hu =>
    cases h
    rw [Bool.or_eq_true, not_or, Bool.not_eq_true, Bool.not_eq_true] at hu
    exact (List.append_nil _).trans (encodeChar_single hu.1 hu.2)
  | case4 u v rest hu hv remaining =>
    rename_i ih
    obtain ⟨rfl, hr⟩ := Prod.mk.inj h
    show encodeChar (pair u v) ++ encode (decode rest).1 = _
    rw [encodeChar_pair hu hv, ih (Prod.ext rfl hr)]
    rfl
  | case5 => cases h
  | case6 => cases h
  | case7 u v rest hu hv remaining =>
    rename_i ih
    obtain ⟨rfl, hr⟩ := Prod.mk.inj h
    rw [Bool.not_eq_true] at hu hv
    show encodeChar (.ofNat u.toNat) ++ encode (decode (v :: rest)).1 = _
    rw [encodeChar_single hu hv, ih (Prod.ext rfl hr)]
    rfl

theorem decode_encodeChar_append (c : Char) (units : Units) :
    decode (encodeChar c ++ units) = (c :: (decode units).1, (decode units).2) := by
  have hc : c.toNat < 0xD800 ∨ 0xDFFF < c.toNat ∧ c.toNat < 0x110000 := c.valid
  unfold encodeChar
  simp only
  split
  next hlow =>
    have hu : (UInt16.ofNat c.toNat).toNat = c.toNat := toNat_unit (by omega)
    have hhigh : isHighSurrogate (.ofNat c.toNat) = false := by
      rw [← Bool.not_eq_true, isHighSurrogate_iff, hu]
      omega
    have hlow : isLowSurrogate (.ofNat c.toNat) = false := by
      rw [← Bool.not_eq_true, isLowSurrogate_iff, hu]
      omega
    rw [List.singleton_append, decode_cons hhigh hlow, hu, Char.ofNat_toNat]
  next hge =>
    have hu : (UInt16.ofNat (0xD800 + (c.toNat - 0x10000) / 0x400)).toNat =
        0xD800 + (c.toNat - 0x10000) / 0x400 := toNat_unit (by omega)
    have hv : (UInt16.ofNat (0xDC00 + (c.toNat - 0x10000) % 0x400)).toNat =
        0xDC00 + (c.toNat - 0x10000) % 0x400 := toNat_unit (by omega)
    have hhigh : isHighSurrogate (.ofNat (0xD800 + (c.toNat - 0x10000) / 0x400)) = true := by
      rw [isHighSurrogate_iff, hu]
      omega
    have hlow : isLowSurrogate (.ofNat (0xDC00 + (c.toNat - 0x10000) % 0x400)) = true := by
      rw [isLowSurrogate_iff, hv]
      omega
    have hpair : pair (.ofNat (0xD800 + (c.toNat - 0x10000) / 0x400))
        (.ofNat (0xDC00 + (c.toNat - 0x10000) % 0x400)) = c := by
      rw [pair, hu, hv]
      have hvalue : 0x10000 + (0xD800 + (c.toNat - 0x10000) / 0x400 - 0xD800) * 0x400 +
          (0xDC00 + (c.toNat - 0x10000) % 0x400 - 0xDC00) = c.toNat := by omega
      rw [hvalue, Char.ofNat_toNat]
    simp only [List.cons_append, List.nil_append, decode, hhigh, hlow, hpair, ↓reduceIte]

theorem decode_encode (chars : List Char) : decode (encode chars) = (chars, none) := by
  induction chars with
  | nil => rfl
  | cons c rest ih =>
    show decode (encodeChar c ++ encode rest) = _
    rw [decode_encodeChar_append, ih]

/-- At this index there is a surrogate without its other half beside it. -/
def UnpairedAt (units : Units) (i : Nat) : Prop :=
  (units[i]?.any isHighSurrogate ∧ ¬ units[i + 1]?.any isLowSurrogate) ∨
    (units[i]?.any isLowSurrogate ∧ ¬ (0 < i ∧ units[i - 1]?.any isHighSurrogate))

theorem unpairedAt_cons_succ {u : UInt16} {i : Nat} (h : isHighSurrogate u = false ∨ i ≠ 0) :
    UnpairedAt (u :: units) (i + 1) ↔ UnpairedAt units i := by
  cases i with
  | zero =>
    have hu : isHighSurrogate u = false := h.resolve_right (· rfl)
    simp [UnpairedAt, hu]
  | succ i => simp [UnpairedAt]

theorem unpairedAt_cons_zero {u : UInt16} :
    UnpairedAt (u :: units) 0 ↔
      (isHighSurrogate u = true ∧ ¬ units.head?.any isLowSurrogate) ∨ isLowSurrogate u = true := by
  simp [UnpairedAt, List.head?_eq_getElem?]

theorem forall_not_unpairedAt_cons {u : UInt16} (hu : isHighSurrogate u = false)
    (hl : isLowSurrogate u = false) :
    (∀ i, ¬ UnpairedAt (u :: units) i) ↔ ∀ i, ¬ UnpairedAt units i := by
  constructor
  · exact fun h i hi => h (i + 1) ((unpairedAt_cons_succ (.inl hu)).mpr hi)
  · rintro h (_ | i) hi
    · simp [unpairedAt_cons_zero, hu, hl] at hi
    · exact h i ((unpairedAt_cons_succ (.inl hu)).mp hi)

theorem forall_not_unpairedAt_pair {u v : UInt16} (hu : isHighSurrogate u = true)
    (hv : isLowSurrogate v = true) :
    (∀ i, ¬ UnpairedAt (u :: v :: units) i) ↔ ∀ i, ¬ UnpairedAt units i := by
  have hlow : isLowSurrogate u = false := isLowSurrogate_eq_false hu
  have hhigh : isHighSurrogate v = false := by
    cases hh : isHighSurrogate v with
    | false => rfl
    | true => exact absurd hv (by rw [isLowSurrogate_eq_false hh]; exact Bool.false_ne_true)
  have hshift {i : Nat} : UnpairedAt (u :: v :: units) (i + 2) ↔ UnpairedAt units i :=
    (unpairedAt_cons_succ (.inr (Nat.succ_ne_zero i))).trans (unpairedAt_cons_succ (.inl hhigh))
  constructor
  · exact fun h i hi => h (i + 2) (hshift.mpr hi)
  · rintro h (_ | _ | i) hi
    · simp [unpairedAt_cons_zero, hlow, hv] at hi
    · simp [UnpairedAt, hu, hhigh] at hi
    · exact h i (hshift.mp hi)

theorem decode_snd_eq_none_iff : (decode units).2 = none ↔ ∀ i, ¬ UnpairedAt units i := by
  fun_induction decode units with
  | case1 => simp [UnpairedAt]
  | case2 u hu =>
    rw [Bool.or_eq_true] at hu
    have h0 : UnpairedAt [u] 0 := unpairedAt_cons_zero.mpr (hu.imp_left fun h => ⟨h, by simp⟩)
    simp only [reduceCtorEq, false_iff]
    exact fun h => h 0 h0
  | case3 u hu =>
    rw [Bool.or_eq_true, not_or, Bool.not_eq_true, Bool.not_eq_true] at hu
    rw [forall_not_unpairedAt_cons hu.1 hu.2]
    simp [UnpairedAt]
  | case4 u v rest hu hv remaining =>
    rename_i ih
    exact ih.trans (forall_not_unpairedAt_pair hu hv).symm
  | case5 u v rest hu hv =>
    have h0 : UnpairedAt (u :: v :: rest) 0 :=
      unpairedAt_cons_zero.mpr (.inl ⟨hu, by simpa using hv⟩)
    simp only [reduceCtorEq, false_iff]
    exact fun h => h 0 h0
  | case6 u v rest hu hl =>
    have h0 : UnpairedAt (u :: v :: rest) 0 := unpairedAt_cons_zero.mpr (.inr hl)
    simp only [reduceCtorEq, false_iff]
    exact fun h => h 0 h0
  | case7 u v rest hu hl remaining =>
    rename_i ih
    rw [Bool.not_eq_true] at hu hl
    exact ih.trans (forall_not_unpairedAt_cons hu hl).symm

end Utf16

-- ---------------------------------------------------------------------------
-- Code units as bytes
-- ---------------------------------------------------------------------------

theorem ByteOrder.units?_flatMap_bytes (order : ByteOrder) (units : Utf16.Units) :
    order.units? (units.flatMap order.bytes) = some units := by
  induction units with
  | nil => rfl
  | cons u rest ih =>
    have hunit : u.toNat / 256 * 256 + u.toNat % 256 = u.toNat := Nat.div_add_mod' ..
    have hhigh : u.toNat / 256 % 256 = u.toNat / 256 :=
      Nat.mod_eq_of_lt (by have := u.toNat_lt; omega)
    cases order with
    | little => simp [bytes, units?, unit, ih, hunit, hhigh]
    | big => simp [bytes, units?, unit, ih, hunit, hhigh]

namespace Encoding

theorem dropMark_append (mark bs : Bytes) : dropMark mark (mark ++ bs) = bs := by
  simp [dropMark]

theorem toUtf8_marked_iff {order : ByteOrder} {units : Utf16.Units} {text : Bytes} :
    toUtf8 (order.mark ++ units.flatMap order.bytes) = .ok text ↔
      ∃ chars, Utf16.encode chars = units ∧ text = Utf8.encode chars := by
  have hdetect : detect (order.mark ++ units.flatMap order.bytes) = .utf16 order := by
    cases order <;> rfl
  simp only [toUtf8, hdetect, dropMark_append, ByteOrder.units?_flatMap_bytes]
  constructor
  · intro h
    split at h
    next chars hd =>
      cases h
      exact ⟨chars, Utf16.encode_of_decode hd, rfl⟩
    next => cases h
  · rintro ⟨chars, rfl, rfl⟩
    simp [Utf16.decode_encode]

end Encoding

end XmlStore
