import XmlStore.Markup.Construct
import XmlStore.Proofs.Cutting
import XmlStore.Proofs.Splitting

/-!
# Line ends and delimiters

Line ends are white space, and no delimiter holds one. So a text can be cut, trimmed and searched
before or after its line ends become line feeds, with the same result. Byte by byte, a line feed
is left out after a carriage return; that is all that has to be known of the bytes before.
-/

namespace XmlStore

-- ---------------------------------------------------------------------------
-- Line feeds, byte by byte
-- ---------------------------------------------------------------------------

def isLineEnd (b : UInt8) : Bool := b == 0x0A || b == 0x0D

/-- What a byte becomes; a line feed after a carriage return is part of a line end already. -/
def feed (afterReturn : Bool) (b : UInt8) : Bytes :=
  if b == 0x0A && afterReturn then [] else [if b == 0x0D then 0x0A else b]

/-- The bytes with line feeds for line ends, where the byte before them was a carriage return or
not. -/
def lineFeeds : (afterReturn : Bool) → Bytes → Bytes
  | _, [] => []
  | afterReturn, b :: rest => feed afterReturn b ++ lineFeeds (b == 0x0D) rest

/-- Bytes without line ends, as delimiters and names are. -/
def OneLine (bs : Bytes) : Prop := ∀ b ∈ bs, isLineEnd b = false

instance (bs : Bytes) : Decidable (OneLine bs) :=
  List.decidableBAll (fun b => isLineEnd b = false) bs

theorem normalizeLineEnds_eq (bs : Bytes) : normalizeLineEnds bs = lineFeeds false bs := by
  fun_induction normalizeLineEnds bs with
  | case1 => rfl
  | case2 b => simp [lineFeeds, feed]
  | case3 b c rest h ih =>
    obtain ⟨hb, hc⟩ := Bool.and_eq_true_iff.mp h
    simp [lineFeeds, feed, eq_of_beq hb, eq_of_beq hc, ih]
  | case4 b c rest h ih =>
    rw [ih]
    by_cases hb : b = 0x0D
    · have hc : (c == 0x0A) = false := by simpa [hb] using h
      simp [lineFeeds, feed, hb, hc]
    · simp [lineFeeds, feed, hb]

section
variable {bs rest x y : Bytes} {b c d : UInt8} {s : Bool} {delimiter : Bytes}

@[simp] theorem lineFeeds_nil (s : Bool) : lineFeeds s [] = [] := rfl

theorem isLineEnd_eq_false : isLineEnd b = false ↔ b ≠ 0x0A ∧ b ≠ 0x0D := by
  simp [isLineEnd]

theorem not_isLineEnd {p : UInt8 → Bool} (hn : p 0x0A = false) (hr : p 0x0D = false) (h : p b) :
    isLineEnd b = false := by
  rw [isLineEnd_eq_false]
  constructor
  · rintro rfl
    rw [hn] at h
    cases h
  · rintro rfl
    rw [hr] at h
    cases h

theorem isSpace_of_isLineEnd (h : isLineEnd b) : isSpace b := by
  rcases (Bool.or_eq_true_iff.mp h) with h | h <;> simp [eq_of_beq h, isSpace]

theorem not_isLineEnd_of_not_isSpace (h : isSpace b = false) : isLineEnd b = false := by
  rw [Bool.eq_false_iff] at h ⊢
  exact fun hb => h (isSpace_of_isLineEnd hb)

theorem feed_of_not (h : isLineEnd b = false) (s : Bool) : feed s b = [b] := by
  obtain ⟨hn, hr⟩ := isLineEnd_eq_false.mp h
  simp [feed, hn, hr]

theorem lineFeeds_lineEnd (h : isLineEnd b) (rest : Bytes) :
    lineFeeds false (b :: rest) = 0x0A :: lineFeeds (b == 0x0D) rest := by
  rcases (Bool.or_eq_true_iff.mp h) with h | h <;> simp [lineFeeds, feed, eq_of_beq h]

theorem eq_of_mem_feed (h : isLineEnd b) (hc : c ∈ feed s b) : c = 0x0A := by
  unfold feed at hc
  split at hc
  · cases hc
  · rw [List.mem_singleton.mp hc]
    rcases (Bool.or_eq_true_iff.mp h) with h | h <;> simp [eq_of_beq h]

theorem lineFeeds_cons (h : isLineEnd b = false) (s : Bool) (rest : Bytes) :
    lineFeeds s (b :: rest) = b :: lineFeeds false rest := by
  have hr : (b == 0x0D) = false := by simpa using (isLineEnd_eq_false.mp h).2
  rw [lineFeeds, feed_of_not h, hr]
  rfl

theorem lineFeeds_append_cons (h : isLineEnd d = false) (s : Bool) (before after : Bytes) :
    lineFeeds s (before ++ d :: after) = lineFeeds s before ++ d :: lineFeeds false after := by
  induction before generalizing s with
  | nil => exact lineFeeds_cons h s after
  | cons b rest ih => rw [List.cons_append, lineFeeds, lineFeeds, ih, List.append_assoc]

theorem OneLine.lineFeeds_append (h : OneLine x) (y : Bytes) :
    lineFeeds false (x ++ y) = x ++ lineFeeds false y := by
  induction x with
  | nil => rfl
  | cons b rest ih =>
    obtain ⟨hb, hrest⟩ := List.forall_mem_cons.mp h
    rw [List.cons_append, lineFeeds_cons hb, ih hrest, List.cons_append]

theorem OneLine.lineFeeds_delimiter (h : OneLine delimiter) (hne : delimiter ≠ []) (s : Bool)
    (before after : Bytes) : lineFeeds s (before ++ delimiter ++ after) =
      lineFeeds s before ++ delimiter ++ lineFeeds false after := by
  obtain ⟨d, more, rfl⟩ := List.exists_cons_of_ne_nil hne
  obtain ⟨hd, hmore⟩ := List.forall_mem_cons.mp h
  rw [List.append_assoc, List.cons_append, lineFeeds_append_cons hd,
    OneLine.lineFeeds_append hmore, List.append_assoc, List.cons_append]

theorem OneLine.lineFeeds_eq (h : OneLine bs) : lineFeeds false bs = bs := by
  simpa using h.lineFeeds_append []

theorem not_mem_lineFeeds (s : Bool) (bs : Bytes) : 0x0D ∉ lineFeeds s bs := by
  induction bs generalizing s with
  | nil => exact List.not_mem_nil
  | cons b rest ih =>
    rw [lineFeeds, List.mem_append, not_or]
    refine ⟨fun hm => ?_, ih _⟩
    cases hb : isLineEnd b with
    | true => cases eq_of_mem_feed hb hm
    | false =>
      rw [feed_of_not hb, List.mem_singleton] at hm
      exact (isLineEnd_eq_false.mp hb).2 hm.symm

theorem lineFeeds_of_not_mem (h : 0x0D ∉ bs) : lineFeeds false bs = bs := by
  induction bs with
  | nil => rfl
  | cons b rest ih =>
    rw [List.mem_cons, not_or] at h
    have hb : (b == 0x0D) = false := beq_eq_false_iff_ne.mpr fun hb => h.1 hb.symm
    rw [lineFeeds, hb, ih h.2]
    simp [feed, hb]

theorem mem_lineFeeds_iff (h : isLineEnd d = false) : d ∈ lineFeeds s bs ↔ d ∈ bs := by
  induction bs generalizing s with
  | nil => exact Iff.rfl
  | cons b rest ih =>
    rw [lineFeeds, List.mem_append, List.mem_cons, ih]
    refine or_congr_left ?_
    cases hb : isLineEnd b with
    | false => rw [feed_of_not hb, List.mem_singleton]
    | true =>
      constructor
      · intro hd
        rw [eq_of_mem_feed hb hd] at h
        cases h
      · rintro rfl
        rw [h] at hb
        cases hb

/-- A carriage return becomes a line feed. -/
theorem mem_lineFeeds_of_return (h : 0x0D ∈ bs) : 0x0A ∈ lineFeeds s bs := by
  induction bs generalizing s with
  | nil => cases h
  | cons b rest ih =>
    rw [lineFeeds, List.mem_append]
    rcases List.mem_cons.mp h with rfl | h
    · exact .inl (List.mem_singleton.mpr rfl)
    · exact .inr (ih h)

theorem OneLine.of_lineFeeds (h : OneLine (lineFeeds false bs)) : OneLine bs := by
  have hr : 0x0D ∉ bs := fun hr => by
    cases h _ (mem_lineFeeds_of_return hr)
  rwa [lineFeeds_of_not_mem hr] at h

/-- A test that only bytes without line ends pass does not see line ends. -/
theorem test_lineFeeds {p : Bytes → Bool} (h : ∀ bs, p bs → OneLine bs) (bs : Bytes) :
    p (lineFeeds false bs) = p bs := by
  rw [Bool.eq_iff_iff]
  constructor
  · intro hp
    rwa [(OneLine.of_lineFeeds (h _ hp)).lineFeeds_eq] at hp
  · intro hp
    rwa [(h bs hp).lineFeeds_eq]

theorem lineFeeds_eq_iff (h : OneLine x) : lineFeeds false bs = x ↔ bs = x := by
  constructor
  · intro he
    rw [← he] at h ⊢
    exact h.of_lineFeeds.lineFeeds_eq.symm
  · rintro rfl
    exact h.lineFeeds_eq

-- ---------------------------------------------------------------------------
-- Cutting
-- ---------------------------------------------------------------------------

/-- What stands before a delimiter and after it, with line feeds for line ends. -/
def feedParts (s : Bool) (found : Bytes × Bytes) : Bytes × Bytes :=
  (lineFeeds s found.1, lineFeeds false found.2)

section
variable {cut fed : Option (Bytes × Bytes)}

theorem map_cons_feedParts (hb : isLineEnd b = false) (ih : fed = cut.map (feedParts false))
    (s : Bool) : fed.map (fun found => (b :: found.1, found.2)) =
      (cut.map fun found => (b :: found.1, found.2)).map (feedParts s) := by
  rw [ih, Option.map_map, Option.map_map]
  refine congrArg (Option.map · cut) (funext fun found => ?_)
  simp [feedParts, lineFeeds_cons hb]

/-- A byte more stands before what is found, and may be a line end. -/
theorem map_feed_feedParts (ih : fed = cut.map (feedParts (b == 0x0D))) :
    fed.map (fun found => (feed s b ++ found.1, found.2)) =
      (cut.map fun found => (b :: found.1, found.2)).map (feedParts s) := by
  rw [ih, Option.map_map, Option.map_map]
  rfl

end

theorem cutAt?_lineFeeds {p : UInt8 → Bool} (hp : ∀ b, isLineEnd b → p b = false) (s : Bool)
    (bs : Bytes) : cutAt? p (lineFeeds s bs) = (cutAt? p bs).map (feedParts s) := by
  induction bs generalizing s with
  | nil => rfl
  | cons b rest ih =>
    cases hb : isLineEnd b with
    | false =>
      rw [lineFeeds_cons hb, cutAt?, cutAt?]
      split
      · rfl
      · exact map_cons_feedParts hb (ih false) s
    | true =>
      have hfeed : ∀ c ∈ feed s b, p c = false := fun c hc => by
        rw [eq_of_mem_feed hb hc]
        exact hp _ rfl
      rw [lineFeeds, cutAt?_free hfeed, cutAt?, hp b hb, if_neg Bool.false_ne_true]
      exact map_feed_feedParts (ih _)

theorem isPrefixOf_lineFeeds (h : OneLine delimiter) (bs : Bytes) :
    delimiter.isPrefixOf (lineFeeds false bs) = delimiter.isPrefixOf bs := by
  induction delimiter generalizing bs with
  | nil => simp
  | cons d delimiter ih =>
    obtain ⟨hd, hrest⟩ := List.forall_mem_cons.mp h
    cases bs with
    | nil => rfl
    | cons b rest =>
      cases hb : isLineEnd b with
      | false =>
        rw [lineFeeds_cons hb, List.isPrefixOf_cons_cons, List.isPrefixOf_cons_cons, ih hrest]
      | true =>
        have hne : (d == b) = false := beq_eq_false_iff_ne.mpr (by rintro rfl; simp_all)
        have hne' : (d == 0x0A) = false := beq_eq_false_iff_ne.mpr (isLineEnd_eq_false.mp hd).1
        rw [lineFeeds_lineEnd hb, List.isPrefixOf_cons_cons, List.isPrefixOf_cons_cons, hne, hne',
          Bool.false_and, Bool.false_and]

theorem drop_lineFeeds (h : OneLine delimiter) (hp : delimiter.isPrefixOf bs) :
    (lineFeeds false bs).drop delimiter.length = lineFeeds false (bs.drop delimiter.length) := by
  obtain ⟨rest, rfl⟩ := List.isPrefixOf_iff_prefix.mp hp
  rw [h.lineFeeds_append, List.drop_left, List.drop_left]

theorem cut?_lineFeeds (h : OneLine delimiter) (hne : delimiter ≠ []) (s : Bool) (bs : Bytes) :
    cut? delimiter (lineFeeds s bs) = (cut? delimiter bs).map (feedParts s) := by
  obtain ⟨d, delimiter, rfl⟩ := List.exists_cons_of_ne_nil hne
  obtain ⟨hd, -⟩ := List.forall_mem_cons.mp h
  induction bs generalizing s with
  | nil => rfl
  | cons b rest ih =>
    cases hb : isLineEnd b with
    | false =>
      have hfeeds := lineFeeds_cons hb
      rw [hfeeds, cut?, cut?, ← hfeeds false, isPrefixOf_lineFeeds h]
      split
      next hp =>
        rw [drop_lineFeeds h hp]
        rfl
      next => exact map_cons_feedParts hb (ih false) s
    | true =>
      have hfree : d ∉ feed s b := fun hm => by
        rw [eq_of_mem_feed hb hm] at hd
        cases hd
      have hfree' : d ∉ [b] := fun hm => by
        rw [List.mem_singleton.mp hm, hb] at hd
        cases hd
      have hcut : cut? (d :: delimiter) (b :: rest) = _ := cut?_free hfree' rest
      rw [lineFeeds, cut?_free hfree, hcut]
      exact map_feed_feedParts (ih _)

theorem isLineEnd_of_isQuote (h : isQuote b) : isLineEnd b = false := not_isLineEnd rfl rfl h

theorem cutUnquoted?_lineEnd {quote : Option UInt8} (hq : ∀ q ∈ quote, isQuote q)
    (h : isLineEnd b) (rest : Bytes) : cutUnquoted? quote (b :: rest) =
      (cutUnquoted? quote rest).map fun found => (b :: found.1, found.2) := by
  have hquote : isQuote b = false := Bool.eq_false_iff.mpr fun hb => by
    rw [isLineEnd_of_isQuote hb] at h
    cases h
  cases quote with
  | some q =>
    have hne : (b == q) = false := beq_eq_false_iff_ne.mpr fun hb => by
      rw [hb, hq q rfl] at hquote
      cases hquote
    rw [cutUnquoted?, hne]
    rfl
  | none =>
    have hend : (b == 0x3E) = false := beq_eq_false_iff_ne.mpr fun hb => by
      rw [hb] at h
      cases h
    rw [cutUnquoted?, hend, hquote]
    rfl

theorem cutUnquoted?_free {quote : Option UInt8} (hq : ∀ q ∈ quote, isQuote q) {before : Bytes}
    (h : ∀ b ∈ before, isLineEnd b) (rest : Bytes) : cutUnquoted? quote (before ++ rest) =
      (cutUnquoted? quote rest).map fun found => (before ++ found.1, found.2) := by
  induction before with
  | nil => simp
  | cons b before ih =>
    obtain ⟨hb, hbefore⟩ := List.forall_mem_cons.mp h
    rw [List.cons_append, cutUnquoted?_lineEnd hq hb, ih hbefore, Option.map_map]
    rfl

theorem isLineEnd_of_mem_feed (h : isLineEnd b) (hc : c ∈ feed s b) : isLineEnd c := by
  rw [eq_of_mem_feed h hc]
  rfl

theorem cutUnquoted?_lineFeeds {quote : Option UInt8} (hq : ∀ q ∈ quote, isQuote q) (s : Bool)
    (bs : Bytes) : cutUnquoted? quote (lineFeeds s bs) =
      (cutUnquoted? quote bs).map (feedParts s) := by
  induction bs generalizing s quote with
  | nil => cases quote <;> rfl
  | cons b rest ih =>
    cases hb : isLineEnd b with
    | true =>
      rw [lineFeeds, cutUnquoted?_free hq fun c => isLineEnd_of_mem_feed hb,
        cutUnquoted?_lineEnd hq hb]
      exact map_feed_feedParts (ih hq _)
    | false =>
      rw [lineFeeds_cons hb]
      cases quote with
      | some q =>
        rw [cutUnquoted?, cutUnquoted?]
        refine map_cons_feedParts hb (ih ?_ false) s
        split
        · rintro _ ⟨⟩
        · exact hq
      | none =>
        rw [cutUnquoted?, cutUnquoted?]
        dsimp only
        split
        · rfl
        · refine map_cons_feedParts hb (ih ?_ false) s
          split
          · rintro _ ⟨rfl⟩
            assumption
          · rintro _ ⟨⟩

theorem cutDoctype?_lineEnd {quote : Option UInt8} (hq : ∀ q ∈ quote, isQuote q)
    (h : isLineEnd b) (depth : Nat) (rest : Bytes) : cutDoctype? depth quote (b :: rest) =
      (cutDoctype? depth quote rest).map fun found => (b :: found.1, found.2) := by
  have hne {d : UInt8} (hd : isLineEnd d = false) : (b == d) = false :=
    beq_eq_false_iff_ne.mpr fun hb => by
      rw [← hb, h] at hd
      cases hd
  have hquote : isQuote b = false := Bool.eq_false_iff.mpr fun hb => by
    rw [isLineEnd_of_isQuote hb] at h
    cases h
  cases quote with
  | some q =>
    rw [cutDoctype?]
    simp only [hne (isLineEnd_of_isQuote (hq q rfl)), Bool.false_eq_true, ↓reduceIte]
  | none =>
    rw [cutDoctype?]
    simp only [hquote, hne (show isLineEnd 0x5B = false from rfl),
      hne (show isLineEnd 0x5D = false from rfl), hne (show isLineEnd 0x3C = false from rfl),
      hne (show isLineEnd 0x3E = false from rfl), Bool.false_and, Bool.false_eq_true, ↓reduceIte]

theorem cutDoctype?_free {quote : Option UInt8} (hq : ∀ q ∈ quote, isQuote q) {before : Bytes}
    (h : ∀ b ∈ before, isLineEnd b) (depth : Nat) (rest : Bytes) :
    cutDoctype? depth quote (before ++ rest) =
      (cutDoctype? depth quote rest).map fun found => (before ++ found.1, found.2) := by
  induction before with
  | nil => simp
  | cons b before ih =>
    obtain ⟨hb, hbefore⟩ := List.forall_mem_cons.mp h
    rw [List.cons_append, cutDoctype?_lineEnd hq hb, ih hbefore, Option.map_map]
    rfl

theorem lineFeeds_comment (s : Bool) (text after : Bytes) :
    lineFeeds s (ascii "<!--" ++ text ++ ascii "-->" ++ after) =
      ascii "<!--" ++ lineFeeds false text ++ ascii "-->" ++ lineFeeds false after := by
  have hopening : OneLine (ascii "<!--") := by decide
  have hclosing : OneLine (ascii "-->") := by decide
  have hinner := hclosing.lineFeeds_delimiter (by decide) false text after
  have houter := hopening.lineFeeds_delimiter (by decide) s [] (text ++ ascii "-->" ++ after)
  simp only [List.append_assoc, List.nil_append, lineFeeds_nil] at hinner houter ⊢
  rw [houter, hinner]

theorem cutDoctype?_lineFeeds {quote : Option UInt8} (hq : ∀ q ∈ quote, isQuote q) (depth : Nat)
    (s : Bool) (bs : Bytes) : cutDoctype? depth quote (lineFeeds s bs) =
      (cutDoctype? depth quote bs).map (feedParts s) := by
  induction hn : bs.length using Nat.strongRecOn generalizing depth quote s bs with
  | ind n ih =>
    subst hn
    cases bs with
    | nil => simp [cutDoctype?]
    | cons b rest =>
      have ih {quote : Option UInt8} (hq : ∀ q ∈ quote, isQuote q) (depth : Nat) (s : Bool)
          {bs : Bytes} (hbs : bs.length ≤ rest.length) :
          cutDoctype? depth quote (lineFeeds s bs) =
            (cutDoctype? depth quote bs).map (feedParts s) :=
        ih bs.length (Nat.lt_succ_of_le hbs) hq depth s bs rfl
      cases hb : isLineEnd b with
      | true =>
        rw [lineFeeds, cutDoctype?_free hq fun c => isLineEnd_of_mem_feed hb,
          cutDoctype?_lineEnd hq hb]
        exact map_feed_feedParts (ih hq depth _ (Nat.le_refl _))
      | false =>
        have hgoOn {quote : Option UInt8} (hq : ∀ q ∈ quote, isQuote q) (depth : Nat) :
            (cutDoctype? depth quote (lineFeeds false rest)).map
                (fun found => (b :: found.1, found.2)) =
              ((cutDoctype? depth quote rest).map fun found => (b :: found.1, found.2)).map
                (feedParts s) :=
          map_cons_feedParts hb (ih hq depth false (Nat.le_refl _)) s
        have hnone : ∀ q ∈ (none : Option UInt8), isQuote q := by rintro _ ⟨⟩
        rw [lineFeeds_cons hb]
        cases quote with
        | some q =>
          rw [cutDoctype?, cutDoctype?]
          refine hgoOn ?_ depth
          split
          · exact hnone
          · exact hq
        | none =>
          have hcomment : OneLine (ascii "!--") := by decide
          have hprefix := isPrefixOf_lineFeeds hcomment rest
          by_cases hopen : (b == 0x3C && (ascii "!--").isPrefixOf rest) = true
          · have hopen' := hopen
            rw [← hprefix] at hopen'
            have hdrop : (lineFeeds false rest).drop 3 = lineFeeds false (rest.drop 3) :=
              drop_lineFeeds hcomment (Bool.and_eq_true_iff.mp hopen).2
            rw [cutDoctype?_comment hopen, cutDoctype?_comment hopen', hdrop,
              cut?_lineFeeds (by decide) (by decide)]
            -- The comment is passed over, and the end is looked for after it.
            cases hc : cut? (ascii "-->") (rest.drop 3) with
            | none => rfl
            | some comment =>
              obtain ⟨text, tail⟩ := comment
              have hlength := cut?_length hc
              rw [List.length_drop] at hlength
              have htail := ih hnone depth false (show tail.length ≤ rest.length by omega)
              simp only [Option.map_some, Option.bind_some, feedParts, htail, Option.map_map]
              refine congrArg (Option.map · _) (funext fun found => ?_)
              have hfed := lineFeeds_comment s text found.1
              simp only [Function.comp_apply, feedParts, hfed]
          · have hopen' := hopen
            rw [← hprefix] at hopen'
            rw [cutDoctype?, cutDoctype?]
            simp only [hopen, hopen', Bool.false_eq_true, ↓reduceIte]
            split
            next hquote => exact hgoOn (by rintro _ ⟨rfl⟩; exact hquote) depth
            next =>
              split
              · exact hgoOn hnone (depth + 1)
              · split
                · exact hgoOn hnone (depth - 1)
                · split
                  · rfl
                  · exact hgoOn hnone depth

-- ---------------------------------------------------------------------------
-- Trimming
-- ---------------------------------------------------------------------------

theorem trimStart_lineFeeds (s : Bool) (bs : Bytes) :
    trimStart (lineFeeds s bs) = lineFeeds false (trimStart bs) := by
  induction bs generalizing s with
  | nil => rfl
  | cons b rest ih =>
    unfold trimStart at ih ⊢
    cases hb : isSpace b with
    | false =>
      have hline := not_isLineEnd_of_not_isSpace hb
      rw [lineFeeds_cons hline, List.dropWhile_cons_of_neg (by simp [hb]),
        List.dropWhile_cons_of_neg (by simp [hb]), lineFeeds_cons hline]
    | true =>
      have hfeed : ∀ c ∈ feed s b, isSpace c := fun c hc => by
        cases hline : isLineEnd b with
        | true => exact isSpace_of_isLineEnd (isLineEnd_of_mem_feed hline hc)
        | false =>
          rw [feed_of_not hline, List.mem_singleton] at hc
          rwa [hc]
      rw [lineFeeds, List.dropWhile_append_of_pos hfeed, ih, List.dropWhile_cons_of_pos hb]

theorem takeWhile_lineFeeds {p : UInt8 → Bool} (hp : ∀ b, isLineEnd b → p b = false) (bs : Bytes) :
    (lineFeeds false bs).takeWhile p = bs.takeWhile p ∧
      (lineFeeds false bs).dropWhile p = lineFeeds false (bs.dropWhile p) := by
  induction bs with
  | nil => exact ⟨rfl, rfl⟩
  | cons b rest ih =>
    cases hb : p b with
    | true =>
      have hline : isLineEnd b = false := Bool.eq_false_iff.mpr fun h => by
        rw [hp b h] at hb
        cases hb
      rw [lineFeeds_cons hline, List.takeWhile_cons_of_pos hb, List.takeWhile_cons_of_pos hb,
        List.dropWhile_cons_of_pos hb, List.dropWhile_cons_of_pos hb, ih.1, ih.2]
      exact ⟨rfl, rfl⟩
    | false =>
      rw [List.takeWhile_cons_of_neg (by simp [hb]), List.dropWhile_cons_of_neg (by simp [hb])]
      cases hline : isLineEnd b with
      | true =>
        have hfeed : ¬ p 0x0A = true := by simp [hp 0x0A rfl]
        rw [lineFeeds_lineEnd hline, List.takeWhile_cons_of_neg hfeed,
          List.dropWhile_cons_of_neg hfeed]
        exact ⟨rfl, rfl⟩
      | false =>
        rw [lineFeeds_cons hline, List.takeWhile_cons_of_neg (by simp [hb]),
          List.dropWhile_cons_of_neg (by simp [hb])]
        exact ⟨rfl, rfl⟩

theorem not_isNameByte_of_isLineEnd (h : isLineEnd b) : isNameByte b = false := by
  rcases (Bool.or_eq_true_iff.mp h) with h | h <;> rw [eq_of_beq h] <;> rfl

theorem spanName_lineFeeds (bs : Bytes) :
    spanName (lineFeeds false bs) = ((spanName bs).1, lineFeeds false (spanName bs).2) := by
  obtain ⟨htake, hdrop⟩ := takeWhile_lineFeeds (fun _ h => not_isNameByte_of_isLineEnd h) bs
  rw [spanName, htake, hdrop, spanName]

theorem readName?_lineFeeds (bs : Bytes) :
    readName? (lineFeeds false bs) =
      (readName? bs).map fun found => (found.1, lineFeeds false found.2) := by
  cases bs with
  | nil => rfl
  | cons b rest =>
    have hspan := spanName_lineFeeds (b :: rest)
    cases hline : isLineEnd b with
    | true =>
      have hb : isNameStart b = false := Bool.eq_false_iff.mpr fun hb => by
        have hname := not_isNameByte_of_isLineEnd hline
        simp [isNameByte, hb] at hname
      rw [lineFeeds_lineEnd hline, readName?, readName?, hb]
      rfl
    | false =>
      rw [lineFeeds_cons hline] at hspan ⊢
      rw [readName?, readName?, hspan]
      split <;> rfl

theorem lineFeeds_eq_nil_iff : lineFeeds false bs = [] ↔ bs = [] := by
  cases bs with
  | nil => exact Iff.rfl
  | cons b rest =>
    cases hb : isLineEnd b with
    | false => simp [lineFeeds_cons hb]
    | true => simp [lineFeeds_lineEnd hb]

theorem getLast?_lineFeeds (h : isLineEnd d = false) :
    (lineFeeds s bs).getLast? = some d ↔ bs.getLast? = some d := by
  induction bs generalizing s with
  | nil => exact Iff.rfl
  | cons b rest ih =>
    rw [lineFeeds, ← List.singleton_append, List.getLast?_append, List.getLast?_append,
      Option.or_eq_some_iff, Option.or_eq_some_iff, ih]
    cases hb : isLineEnd b with
    | false =>
      have hr : (b == 0x0D) = false := by simpa using (isLineEnd_eq_false.mp hb).2
      rw [feed_of_not hb, hr, List.getLast?_eq_none_iff, List.getLast?_eq_none_iff,
        lineFeeds_eq_nil_iff]
    | true =>
      have hfeed : (feed s b).getLast? ≠ some d := fun hl => by
        rw [eq_of_mem_feed hb (List.mem_of_getLast? hl)] at h
        cases h
      have hb' : [b].getLast? ≠ some d := fun hl => by
        rw [← List.mem_singleton.mp (List.mem_of_getLast? hl), h] at hb
        cases hb
      simp only [hfeed, hb', and_false]

theorem getLast?_beq_lineFeeds (h : isLineEnd d = false) (s : Bool) (bs : Bytes) :
    ((lineFeeds s bs).getLast? == some d) = (bs.getLast? == some d) := by
  rw [Bool.eq_iff_iff, beq_iff_eq, beq_iff_eq]
  exact getLast?_lineFeeds h

theorem dropLast_lineFeeds (h : isLineEnd d = false) (hl : bs.getLast? = some d) (s : Bool) :
    (lineFeeds s bs).dropLast = lineFeeds s bs.dropLast := by
  obtain ⟨before, rfl⟩ := List.getLast?_eq_some_iff.mp hl
  rw [lineFeeds_append_cons h, lineFeeds_nil, List.dropLast_concat, List.dropLast_concat]

theorem isSpace_lineFeeds (h : ∀ b ∈ bs, isSpace b) : ∀ b ∈ lineFeeds s bs, isSpace b := by
  intro b hb
  cases hline : isLineEnd b with
  | true => exact isSpace_of_isLineEnd hline
  | false => exact h b ((mem_lineFeeds_iff hline).mp hb)

theorem trimEnd_spaces (h : ∀ b ∈ y, isSpace b) : trimEnd y = [] := by
  rw [trimEnd, List.dropWhile_eq_nil_iff.mpr fun b hb => h b (List.mem_reverse.mp hb)]
  rfl

theorem trimEnd_append_cons (hb : isSpace b = false) (h : ∀ c ∈ y, isSpace c) (x : Bytes) :
    trimEnd (x ++ b :: y) = x ++ [b] := by
  have hy : ∀ c ∈ y.reverse, isSpace c := fun c hc => h c (List.mem_reverse.mp hc)
  rw [trimEnd, List.reverse_append, List.reverse_cons, List.append_assoc,
    List.dropWhile_append_of_pos hy, List.singleton_append,
    List.dropWhile_cons_of_neg (by simp [hb])]
  simp

theorem exists_trimEnd (bs : Bytes) : (∀ b ∈ bs, isSpace b) ∨
    ∃ x b y, bs = x ++ b :: y ∧ isSpace b = false ∧ ∀ c ∈ y, isSpace c := by
  induction bs with
  | nil => exact .inl (by simp)
  | cons c rest ih =>
    rcases ih with h | ⟨x, b, y, rfl, hb, hy⟩
    · cases hc : isSpace c with
      | true => exact .inl (List.forall_mem_cons.mpr ⟨hc, h⟩)
      | false => exact .inr ⟨[], c, rest, rfl, hc, h⟩
    · exact .inr ⟨c :: x, b, y, rfl, hb, hy⟩

theorem trimEnd_lineFeeds (s : Bool) (bs : Bytes) :
    trimEnd (lineFeeds s bs) = lineFeeds s (trimEnd bs) := by
  rcases exists_trimEnd bs with h | ⟨x, b, y, rfl, hb, hy⟩
  · rw [trimEnd_spaces h, trimEnd_spaces (isSpace_lineFeeds h), lineFeeds_nil]
  · have hline := not_isLineEnd_of_not_isSpace hb
    rw [lineFeeds_append_cons hline, trimEnd_append_cons hb hy,
      trimEnd_append_cons hb (isSpace_lineFeeds hy), lineFeeds_append_cons hline, lineFeeds_nil]

theorem cutLastBracket?_lineFeeds (s : Bool) (bs : Bytes) :
    cutLastBracket? (lineFeeds s bs) = (cutLastBracket? bs).map (feedParts s) := by
  have hline : isLineEnd 0x5D = false := rfl
  have hfree {bs : Bytes} (h : ∀ b ∈ bs, (b == 0x5D) = false) (s : Bool) :
      ∀ b ∈ (lineFeeds s bs).reverse, (b == 0x5D) = false := by
    intro b hb
    refine beq_eq_false_iff_ne.mpr fun heq => ?_
    rw [heq, List.mem_reverse, mem_lineFeeds_iff hline] at hb
    cases h _ hb
  unfold cutLastBracket?
  cases hc : cutAt? (· == 0x5D) bs.reverse with
  | none =>
    have hnone := cutAt?_eq_none_iff.mp hc
    simp only [List.mem_reverse] at hnone
    rw [cutAt?_eq_none_iff.mpr (hfree hnone s)]
    rfl
  | some found =>
    obtain ⟨after, before⟩ := found
    obtain ⟨b, hb, hbs, hafter⟩ := cutAt?_append hc
    obtain rfl : b = 0x5D := eq_of_beq hb
    have hbs : bs = before.reverse ++ 0x5D :: after.reverse := by
      rw [← List.reverse_reverse bs, hbs]
      simp
    have hafter : ∀ b ∈ after.reverse, (b == 0x5D) = false := fun b hb =>
      hafter b (List.mem_reverse.mp hb)
    rw [hbs, lineFeeds_append_cons hline, List.reverse_append, List.reverse_cons,
      List.append_assoc, List.singleton_append, cutAt?_self (hfree hafter false) hb]
    simp [feedParts]

/-- White space is counted as spaces after line ends are line feeds. -/
theorem spaced_eq (bs : Bytes) :
    spaced bs = (lineFeeds false bs).map fun b => if isSpace b then 0x20 else b := by
  rw [← normalizeLineEnds_eq]
  have hspace (b : UInt8) : isSpace (if b == 0x0D then 0x0A else b) = isSpace b := by
    by_cases hb : b = 0x0D <;> simp [hb, isSpace]
  have hbyte (b : UInt8) : (if isSpace b then 0x20 else if b == 0x0D then 0x0A else b) =
      if isSpace b then 0x20 else b := by
    by_cases hb : b = 0x0D <;> simp [hb, isSpace]
  fun_induction normalizeLineEnds bs with
  | case1 => rfl
  | case2 b => simp only [spaced, List.map_cons, List.map_nil, hspace, hbyte]
  | case3 b c rest h ih =>
    rw [spaced, if_pos h, ih]
    rfl
  | case4 b c rest h ih => simp only [spaced, h, ih, List.map_cons, hspace, hbyte]; rfl

theorem spaced_lineFeeds (bs : Bytes) : spaced (lineFeeds false bs) = spaced bs := by
  rw [spaced_eq, lineFeeds_of_not_mem (not_mem_lineFeeds false bs), ← spaced_eq]

theorem oneLine_spaced (bs : Bytes) : OneLine (spaced bs) := by
  rw [spaced_eq]
  intro b hb
  obtain ⟨c, -, rfl⟩ := List.mem_map.mp hb
  cases hc : isSpace c with
  | true => rfl
  | false => exact not_isLineEnd_of_not_isSpace hc

end

end XmlStore
