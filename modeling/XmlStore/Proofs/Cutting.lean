import XmlStore.Markup.Delimiter

/-!
# Cutting bytes that grow

A reader looks for the end of a construct in the bytes that have arrived. An end that is found
stays where it is when more bytes follow, and what is cut off only grows at its far side. An end
that is not found is not found either in more bytes without the last byte of the delimiter.
-/

namespace XmlStore

-- ---------------------------------------------------------------------------
-- Delimiters
-- ---------------------------------------------------------------------------

theorem isPrefixOf_append {p bs : Bytes} (h : p.length ≤ bs.length) (more : Bytes) :
    p.isPrefixOf (bs ++ more) = p.isPrefixOf bs := by
  rw [Bool.eq_iff_iff, List.isPrefixOf_iff_prefix, List.isPrefixOf_iff_prefix]
  constructor
  · intro hp
    exact List.prefix_of_prefix_length_le hp (List.prefix_append bs more) h
  · intro hp
    exact hp.trans (List.prefix_append bs more)

/-- Where the bytes hold one that the beginning does not have, more bytes do not decide. -/
theorem isPrefixOf_append_of_mem {p bs : Bytes} {b : UInt8} (hb : b ∈ bs) (hp : b ∉ p)
    (more : Bytes) : p.isPrefixOf (bs ++ more) = p.isPrefixOf bs := by
  by_cases hlen : p.length ≤ bs.length
  · exact isPrefixOf_append hlen more
  · rw [Bool.eq_iff_iff, List.isPrefixOf_iff_prefix, List.isPrefixOf_iff_prefix]
    constructor
    · intro h
      have hbs : bs <+: p :=
        List.prefix_of_prefix_length_le (List.prefix_append bs more) h (by omega)
      exact absurd (hbs.subset hb) hp
    · intro h
      exact absurd h.length_le hlen

theorem cut?_length {delimiter bs before after : Bytes}
    (h : cut? delimiter bs = some (before, after)) :
    bs.length = before.length + delimiter.length + after.length := by
  rw [cut?_append h, List.length_append, List.length_append]

theorem cut?_grow {delimiter bs before after : Bytes}
    (h : cut? delimiter bs = some (before, after)) (more : Bytes) :
    cut? delimiter (bs ++ more) = some (before, after ++ more) := by
  induction bs generalizing before with
  | nil => simp [cut?] at h
  | cons b rest ih =>
    have hlen : delimiter.length ≤ (b :: rest).length := by
      have := cut?_length h
      omega
    rw [List.cons_append, cut?, ← List.cons_append, isPrefixOf_append hlen]
    rw [cut?] at h
    split at h
    next hd =>
      obtain ⟨rfl, rfl⟩ := Prod.mk.inj (Option.some.inj h)
      rw [if_pos hd, List.drop_append_of_le_length hlen]
    next hd =>
      obtain ⟨found, hf, he⟩ := Option.map_eq_some_iff.mp h
      obtain ⟨rfl, rfl⟩ := Prod.mk.inj he
      rw [if_neg hd, ih hf, Option.map_some]

theorem cut?_here {delimiter : Bytes} (hd : delimiter ≠ []) (after : Bytes) :
    cut? delimiter (delimiter ++ after) = some ([], after) := by
  obtain ⟨d, ds, rfl⟩ := List.exists_cons_of_ne_nil hd
  have hp : (d :: ds).isPrefixOf (d :: (ds ++ after)) := by
    simp [List.isPrefixOf_iff_prefix]
  simp only [List.cons_append, cut?, hp, ↓reduceIte, Option.some.injEq, Prod.mk.injEq, true_and]
  exact List.drop_left

theorem cut?_isSome {delimiter : Bytes} (hd : delimiter ≠ []) (before after : Bytes) :
    (cut? delimiter (before ++ delimiter ++ after)).isSome := by
  induction before with
  | nil => rw [List.nil_append, cut?_here hd, Option.isSome_some]
  | cons b rest ih =>
    simp only [List.cons_append, cut?]
    split
    · rfl
    · simpa using ih

theorem cut?_eq_none_iff {delimiter : Bytes} (hd : delimiter ≠ []) {bs : Bytes} :
    cut? delimiter bs = none ↔ ¬ delimiter <:+: bs := by
  constructor
  · rintro h ⟨before, after, rfl⟩
    exact absurd h (Option.ne_none_iff_isSome.mpr (cut?_isSome hd before after))
  · intro h
    cases hc : cut? delimiter bs with
    | none => rfl
    | some found => exact absurd ⟨found.1, found.2, (cut?_append hc).symm⟩ h

theorem not_infix_of_cut? {delimiter bs before after : Bytes} (hd : delimiter ≠ [])
    (h : cut? delimiter bs = some (before, after)) : ¬ delimiter <:+: before := by
  intro hinfix
  cases hcut : cut? delimiter before with
  | none => exact (cut?_eq_none_iff hd).mp hcut hinfix
  | some found =>
    -- Then it would have been cut off even before.
    have hgrow := cut?_grow hcut (delimiter ++ after)
    rw [← List.append_assoc, ← cut?_append h, h] at hgrow
    obtain ⟨rfl, -⟩ := Prod.mk.inj (Option.some.inj hgrow)
    have hlen := cut?_length hcut
    have hpos := List.length_pos_iff.mpr hd
    omega

/-- Bytes other than the first one of the delimiter are passed over. -/
theorem cut?_free {d : UInt8} {delimiter before : Bytes} (h : d ∉ before) (rest : Bytes) :
    cut? (d :: delimiter) (before ++ rest) =
      (cut? (d :: delimiter) rest).map fun found => (before ++ found.1, found.2) := by
  induction before with
  | nil => simp
  | cons b tail ih =>
    have hb : (d :: delimiter).isPrefixOf (b :: (tail ++ rest)) = false := by
      have hne : d ≠ b := fun he => h (he ▸ List.mem_cons_self)
      simp [List.isPrefixOf, hne]
    rw [List.cons_append, cut?, hb, ih fun hm => h (List.mem_cons_of_mem b hm), Option.map_map]
    rfl

theorem cut?_missing {delimiter bs more : Bytes} {z : UInt8}
    (h : cut? (delimiter ++ [z]) bs = none) (hz : z ∉ more) :
    cut? (delimiter ++ [z]) (bs ++ more) = none := by
  have hd : delimiter ++ [z] ≠ [] := by simp
  rw [cut?_eq_none_iff hd] at h ⊢
  rintro ⟨before, after, he⟩
  -- The delimiter ends either in the old bytes or in the new ones.
  rw [List.append_eq_append_iff] at he
  obtain ⟨tail, hbs, -⟩ | ⟨tail, hs, hmore⟩ := he
  · exact h ⟨before, tail, hbs.symm⟩
  · rcases List.eq_nil_or_concat tail with rfl | ⟨ys, y, rfl⟩
    · exact h ⟨before, [], by simpa using hs⟩
    · rw [List.concat_eq_append, ← List.append_assoc, ← List.append_assoc] at hs
      obtain ⟨-, hy⟩ := List.append_inj' hs rfl
      obtain rfl := (List.cons.inj hy).1
      exact hz (by simp [hmore])

/-- A delimiter whose last byte comes only once in it is found where it stands, if it does not
occur before. -/
theorem cut?_first {delimiter before : Bytes} {z : UInt8} (hz : z ∉ delimiter)
    (h : ¬ delimiter ++ [z] <:+: before) (after : Bytes) :
    cut? (delimiter ++ [z]) (before ++ (delimiter ++ [z]) ++ after) = some (before, after) := by
  have hd : delimiter ++ [z] ≠ [] := List.concat_ne_nil _ _
  -- Up to its last byte the delimiter has not come to an end.
  have hnone := cut?_missing ((cut?_eq_none_iff hd).mpr h) hz
  rw [cut?_eq_none_iff hd] at hnone
  obtain ⟨⟨first, rest⟩, hcut⟩ := Option.isSome_iff_exists.mp (cut?_isSome hd before [])
  rw [List.append_nil] at hcut
  have hbytes := cut?_append hcut
  rcases List.eq_nil_or_concat rest with rfl | ⟨rest, last, rfl⟩
  · rw [List.append_nil] at hbytes
    obtain rfl := List.append_cancel_right hbytes
    exact cut?_grow hcut after
  · rw [List.concat_eq_append, ← List.append_assoc, ← List.append_assoc] at hbytes
    obtain ⟨hfirst, -⟩ := List.append_inj' hbytes rfl
    exact absurd ⟨first, rest, hfirst.symm⟩ hnone

-- ---------------------------------------------------------------------------
-- Single bytes
-- ---------------------------------------------------------------------------

theorem cutAt?_free {p : UInt8 → Bool} {before : Bytes} (h : ∀ b ∈ before, p b = false)
    (rest : Bytes) :
    cutAt? p (before ++ rest) = (cutAt? p rest).map fun found => (before ++ found.1, found.2) := by
  induction before with
  | nil => simp
  | cons b tail ih =>
    have hb : p b = false := h b List.mem_cons_self
    have ih := ih fun c hc => h c (List.mem_cons_of_mem b hc)
    rw [List.cons_append, cutAt?, hb, ih]
    simp [Function.comp_def]

theorem cutAt?_self {p : UInt8 → Bool} {before : Bytes} {b : UInt8}
    (h : ∀ c ∈ before, p c = false) (hb : p b) (after : Bytes) :
    cutAt? p (before ++ b :: after) = some (before, after) := by
  simp [cutAt?_free h, cutAt?, hb]

theorem cutAt?_grow {p : UInt8 → Bool} {bs before after : Bytes}
    (h : cutAt? p bs = some (before, after)) (more : Bytes) :
    cutAt? p (bs ++ more) = some (before, after ++ more) := by
  obtain ⟨b, hb, rfl, hn⟩ := cutAt?_append h
  rw [List.append_assoc, List.cons_append, cutAt?_self hn hb]

theorem cutAt?_eq_none_iff {p : UInt8 → Bool} {bs : Bytes} :
    cutAt? p bs = none ↔ ∀ b ∈ bs, p b = false := by
  induction bs with
  | nil => simp [cutAt?]
  | cons b rest ih => cases hp : p b <;> simp [cutAt?, hp, ih]

theorem cutAt?_missing {p : UInt8 → Bool} {bs more : Bytes} (h : cutAt? p bs = none)
    (hm : ∀ b ∈ more, p b = false) : cutAt? p (bs ++ more) = none := by
  rw [cutAt?_eq_none_iff] at h ⊢
  intro b hb
  rcases List.mem_append.mp hb with hb | hb
  · exact h b hb
  · exact hm b hb

-- ---------------------------------------------------------------------------
-- Tags
-- ---------------------------------------------------------------------------

/-- A byte in front and more bytes behind do not meet. -/
theorem map_cons_grow {b : UInt8} {before after more : Bytes} {cut grown : Option (Bytes × Bytes)}
    (ih : ∀ {before after : Bytes}, cut = some (before, after) →
      grown = some (before, after ++ more))
    (h : cut.map (fun found => (b :: found.1, found.2)) = some (before, after)) :
    grown.map (fun found => (b :: found.1, found.2)) = some (before, after ++ more) := by
  obtain ⟨found, hf, he⟩ := Option.map_eq_some_iff.mp h
  obtain ⟨rfl, rfl⟩ := Prod.mk.inj he
  rw [ih hf, Option.map_some]

theorem cutUnquoted?_grow {quote : Option UInt8} {bs before after : Bytes}
    (h : cutUnquoted? quote bs = some (before, after)) (more : Bytes) :
    cutUnquoted? quote (bs ++ more) = some (before, after ++ more) := by
  fun_induction cutUnquoted? quote bs generalizing before after with
  | case1 => simp at h
  | case2 =>
    rename_i ih
    rw [List.cons_append, cutUnquoted?]
    exact map_cons_grow (ih _) h
  | case3 b rest hb =>
    obtain ⟨rfl, rfl⟩ := Prod.mk.inj (Option.some.inj h)
    rw [List.cons_append, cutUnquoted?]
    exact if_pos hb
  | case4 b rest _ hb =>
    rename_i ih
    rw [List.cons_append, cutUnquoted?]
    exact (if_neg hb).trans (map_cons_grow (ih _) h)

theorem cutUnquoted?_eq_none {quote : Option UInt8} {bs : Bytes} (h : 0x3E ∉ bs) :
    cutUnquoted? quote bs = none := by
  cases hc : cutUnquoted? quote bs with
  | none => rfl
  | some found =>
    exact absurd (by rw [cutUnquoted?_append hc]; simp) h

theorem cutUnquoted?_missing {quote : Option UInt8} {bs more : Bytes}
    (h : cutUnquoted? quote bs = none) (hm : 0x3E ∉ more) :
    cutUnquoted? quote (bs ++ more) = none := by
  fun_induction cutUnquoted? quote bs with
  | case1 => exact cutUnquoted?_eq_none hm
  | case2 b rest continueWith q ih =>
    rw [List.cons_append, cutUnquoted?]
    exact Option.map_eq_none_iff.mpr (ih _ (Option.map_eq_none_iff.mp h))
  | case3 => simp at h
  | case4 b rest continueWith hb ih =>
    rw [List.cons_append, cutUnquoted?]
    exact (if_neg hb).trans (Option.map_eq_none_iff.mpr (ih _ (Option.map_eq_none_iff.mp h)))

-- ---------------------------------------------------------------------------
-- Document type declarations
-- ---------------------------------------------------------------------------

theorem cutDoctype?_eq_none {depth : Nat} {quote : Option UInt8} {bs : Bytes} (h : 0x3E ∉ bs) :
    cutDoctype? depth quote bs = none := by
  cases hc : cutDoctype? depth quote bs with
  | none => rfl
  | some found =>
    exact absurd (by rw [cutDoctype?_append hc]; simp) h

/-- A byte that does not open a comment in the subset does not do so with more bytes either, as
soon as a `>` has come. -/
theorem comment_open_grow {b : UInt8} {rest : Bytes} (h : 0x3E ∈ rest) (more : Bytes) :
    (b == 0x3C && (ascii "!--").isPrefixOf (rest ++ more)) =
      (b == 0x3C && (ascii "!--").isPrefixOf rest) := by
  rw [isPrefixOf_append_of_mem h (by decide)]

/-- A comment that has been opened stays open. -/
theorem comment_open_stays {b : UInt8} {rest : Bytes}
    (h : (b == 0x3C && (ascii "!--").isPrefixOf rest) = true) (more : Bytes) :
    3 ≤ rest.length ∧ (b == 0x3C && (ascii "!--").isPrefixOf (rest ++ more)) = true := by
  rw [Bool.and_eq_true] at h
  have hp := List.isPrefixOf_iff_prefix.mp h.2
  refine ⟨hp.length_le, ?_⟩
  rw [isPrefixOf_append hp.length_le, h.1, h.2, Bool.true_and]

theorem cutDoctype?_comment {b : UInt8} {rest : Bytes}
    (hopen : (b == 0x3C && (ascii "!--").isPrefixOf rest) = true) (depth : Nat) :
    cutDoctype? depth none (b :: rest) =
      (cut? (ascii "-->") (rest.drop 3)).bind fun comment =>
        (cutDoctype? depth none comment.2).map fun found =>
          (ascii "<!--" ++ comment.1 ++ ascii "-->" ++ found.1, found.2) := by
  obtain rfl : b = 0x3C := eq_of_beq (Bool.and_eq_true _ _ ▸ hopen).1
  rw [cutDoctype?]
  simp only [show isQuote 0x3C = false from rfl, show ((0x3C : UInt8) == 0x5B) = false from rfl,
    show ((0x3C : UInt8) == 0x5D) = false from rfl, hopen, Bool.false_eq_true, ↓reduceIte]
  split
  next h => rw [h, Option.bind_none]
  next h => rw [h, Option.bind_some]

theorem cutDoctype?_grow {depth : Nat} {quote : Option UInt8} {bs before after : Bytes}
    (h : cutDoctype? depth quote bs = some (before, after)) (more : Bytes) :
    cutDoctype? depth quote (bs ++ more) = some (before, after ++ more) := by
  fun_induction cutDoctype? depth quote bs generalizing before after with
  | case1 => simp at h
  | case2 =>
    rename_i ih
    rw [List.cons_append, cutDoctype?]
    exact map_cons_grow (ih _ _) h
  | case3 _ _ _ _ hq =>
    rename_i ih
    rw [List.cons_append, cutDoctype?]
    exact (if_pos hq).trans (map_cons_grow (ih _ _) h)
  | case4 _ _ _ _ hq hb =>
    rename_i ih
    rw [List.cons_append, cutDoctype?]
    simp only [hq, hb, Bool.false_eq_true, ↓reduceIte]
    exact map_cons_grow (ih _ _) h
  | case5 _ _ _ _ hq ho hb =>
    rename_i ih
    rw [List.cons_append, cutDoctype?]
    simp only [hq, ho, hb, Bool.false_eq_true, ↓reduceIte]
    exact map_cons_grow (ih _ _) h
  | case6 => simp at h
  | case7 depth b rest hq ho hb hopen text tail hc _ ih =>
    obtain ⟨found, hf, he⟩ := Option.map_eq_some_iff.mp h
    obtain ⟨rfl, rfl⟩ := Prod.mk.inj he
    obtain ⟨hlen, hopen⟩ := comment_open_stays hopen more
    have hgrow : cut? (ascii "-->") ((rest ++ more).drop 3) = some (text, tail ++ more) := by
      rw [List.drop_append_of_le_length hlen]
      exact cut?_grow hc more
    rw [List.cons_append, cutDoctype?_comment hopen, hgrow,
      Option.bind_some, ih hf, Option.map_some]
  | case8 depth b rest hq ho hb hopen hend =>
    obtain ⟨rfl, rfl⟩ := Prod.mk.inj (Option.some.inj h)
    rw [List.cons_append, cutDoctype?]
    have hlt : (b == 0x3C) = false := by
      rw [Bool.and_eq_true] at hend
      rw [eq_of_beq hend.1]
      rfl
    simp only [hq, ho, hb, hlt, hend, Bool.false_and, Bool.false_eq_true, ↓reduceIte]
  | case9 depth b rest _ hq ho hb hopen hend =>
    rename_i ih
    obtain ⟨found, hf, -⟩ := Option.map_eq_some_iff.mp h
    have hmem : 0x3E ∈ rest := by
      rw [cutDoctype?_append hf]
      simp
    rw [List.cons_append, cutDoctype?]
    simp only [hq, ho, hb, comment_open_grow hmem, hopen, hend, Bool.false_eq_true, ↓reduceIte]
    exact map_cons_grow (ih _ _) h

theorem cutDoctype?_missing {depth : Nat} {quote : Option UInt8} {bs more : Bytes}
    (h : cutDoctype? depth quote bs = none) (hm : 0x3E ∉ more) :
    cutDoctype? depth quote (bs ++ more) = none := by
  fun_induction cutDoctype? depth quote bs with
  | case1 => exact cutDoctype?_eq_none hm
  | case2 =>
    rename_i ih
    rw [List.cons_append, cutDoctype?]
    exact Option.map_eq_none_iff.mpr (ih _ _ (Option.map_eq_none_iff.mp h))
  | case3 _ _ _ _ hq =>
    rename_i ih
    rw [List.cons_append, cutDoctype?]
    exact (if_pos hq).trans (Option.map_eq_none_iff.mpr (ih _ _ (Option.map_eq_none_iff.mp h)))
  | case4 _ _ _ _ hq hb =>
    rename_i ih
    rw [List.cons_append, cutDoctype?]
    simp only [hq, hb, Bool.false_eq_true, ↓reduceIte]
    exact Option.map_eq_none_iff.mpr (ih _ _ (Option.map_eq_none_iff.mp h))
  | case5 _ _ _ _ hq ho hb =>
    rename_i ih
    rw [List.cons_append, cutDoctype?]
    simp only [hq, ho, hb, Bool.false_eq_true, ↓reduceIte]
    exact Option.map_eq_none_iff.mpr (ih _ _ (Option.map_eq_none_iff.mp h))
  | case6 depth b rest hq ho hb hopen hc =>
    obtain ⟨hlen, hopen⟩ := comment_open_stays hopen more
    have hgrow : cut? (ascii "-->") ((rest ++ more).drop 3) = none := by
      rw [List.drop_append_of_le_length hlen]
      exact cut?_missing (show cut? (ascii "--" ++ [0x3E]) _ = none from hc) hm
    rw [List.cons_append, cutDoctype?_comment hopen, hgrow,
      Option.bind_none]
  | case7 depth b rest hq ho hb hopen text tail hc _ ih =>
    obtain ⟨hlen, hopen⟩ := comment_open_stays hopen more
    have hgrow : cut? (ascii "-->") ((rest ++ more).drop 3) = some (text, tail ++ more) := by
      rw [List.drop_append_of_le_length hlen]
      exact cut?_grow hc more
    rw [List.cons_append, cutDoctype?_comment hopen, hgrow,
      Option.bind_some, ih (Option.map_eq_none_iff.mp h), Option.map_none]
  | case8 => simp at h
  | case9 depth b rest _ hq ho hb hopen hend =>
    rename_i ih
    by_cases hnow : (b == 0x3C && (ascii "!--").isPrefixOf (rest ++ more)) = true
    · -- The bytes before could be the beginning of a comment only, so that they hold no end.
      have hmem : 0x3E ∉ rest := fun hmem => hopen (comment_open_grow hmem more ▸ hnow)
      have hb : b = 0x3C := eq_of_beq (Bool.and_eq_true _ _ ▸ hnow).1
      refine cutDoctype?_eq_none ?_
      simp [hmem, hm, hb]
    · rw [List.cons_append, cutDoctype?]
      simp only [hq, ho, hb, hnow, hend, Bool.false_eq_true, ↓reduceIte]
      exact Option.map_eq_none_iff.mpr (ih _ _ (Option.map_eq_none_iff.mp h))

-- ---------------------------------------------------------------------------
-- Ends of constructs
-- ---------------------------------------------------------------------------

/-- A way to cut bytes at the first end of some kind, which takes `width` bytes, the last of them
`z`: an end stays where it is when more bytes follow, and none is found before a `z` comes. -/
structure Delimits (z : UInt8) (width : Nat) (cut : Bytes → Option (Bytes × Bytes)) : Prop where
  length {bs before after : Bytes} : cut bs = some (before, after) →
    bs.length = before.length + width + after.length
  grow {bs before after : Bytes} : cut bs = some (before, after) →
    ∀ more, cut (bs ++ more) = some (before, after ++ more)
  missing {bs more : Bytes} : cut bs = none → z ∉ more → cut (bs ++ more) = none

theorem cut?_delimits (delimiter : Bytes) (z : UInt8) :
    Delimits z (delimiter ++ [z]).length (cut? (delimiter ++ [z])) where
  length := cut?_length
  grow := cut?_grow
  missing := cut?_missing

theorem cutAt?_delimits (z : UInt8) : Delimits z 1 (cutAt? (· == z)) where
  length h := by
    obtain ⟨b, -, rfl, -⟩ := cutAt?_append h
    simp only [List.length_append, List.length_cons]
    omega
  grow := cutAt?_grow
  missing h hz := cutAt?_missing h fun b hb => beq_eq_false_iff_ne.mpr fun he => hz (he ▸ hb)

theorem cutUnquoted?_delimits (quote : Option UInt8) : Delimits 0x3E 1 (cutUnquoted? quote) where
  length h := by
    rw [cutUnquoted?_append h, List.length_append, List.length_cons]
    omega
  grow := cutUnquoted?_grow
  missing := cutUnquoted?_missing

theorem cutDoctype?_delimits (depth : Nat) (quote : Option UInt8) :
    Delimits 0x3E 1 (cutDoctype? depth quote) where
  length h := by
    rw [cutDoctype?_append h, List.length_append, List.length_cons]
    omega
  grow := cutDoctype?_grow
  missing := cutDoctype?_missing

end XmlStore
