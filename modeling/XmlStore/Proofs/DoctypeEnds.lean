import XmlStore.Proofs.Doctypes

/-!
# Ends of document type declarations

The search for the end of a declaration takes only comments as a whole. Elsewhere it follows quotes
and brackets, so it ends where the declaration does if these come in pairs; then a parser takes the
declaration and goes on right after it.
-/

namespace XmlStore

-- ---------------------------------------------------------------------------
-- Bytes without an end
-- ---------------------------------------------------------------------------

/-- From `depth` brackets deep these bytes bring the search `after` brackets deep, outside quotes
both times, and no end of a declaration is met. -/
inductive Passes : Nat → Bytes → Nat → Prop
  | nil {depth : Nat} : Passes depth [] depth
  | byte {depth after : Nat} {b : UInt8} {rest : Bytes} (hq : isQuote b = false) (ho : b ≠ 0x5B)
    (hc : b ≠ 0x5D) (hl : b = 0x3C → ¬ ascii "!--" <+: rest) (he : b = 0x3E → depth ≠ 0)
    (h : Passes depth rest after) : Passes depth (b :: rest) after
  | literal {depth after : Nat} {quote : UInt8} {text rest : Bytes} (hq : isQuote quote)
    (ht : quote ∉ text) (h : Passes depth rest after) :
    Passes depth (quote :: (text ++ quote :: rest)) after
  | opening {depth after : Nat} {rest : Bytes} (h : Passes (depth + 1) rest after) :
    Passes depth (0x5B :: rest) after
  | closing {depth after : Nat} {rest : Bytes} (h : Passes (depth - 1) rest after) :
    Passes depth (0x5D :: rest) after
  | comment {depth after : Nat} {text rest : Bytes} (ht : ¬ ascii "-->" <:+: text)
    (h : Passes depth rest after) :
    Passes depth (ascii "<!--" ++ (text ++ ascii "-->" ++ rest)) after

/-- Bytes that do not go on with the opening of a comment. -/
def StartsNew (rest : Bytes) : Prop := ∀ b, rest.head? = some b → b ∉ ascii "!--"

/-- What stands before these bytes stays in front of what is cut off. -/
def keepFront (text : Bytes) (cut : Option (Bytes × Bytes)) : Option (Bytes × Bytes) :=
  cut.map fun found => (text ++ found.1, found.2)

section
variable {depth after middle : Nat} {b quote : UInt8} {text first second before rest : Bytes}

theorem keepFront_nil (found : Option (Bytes × Bytes)) : keepFront [] found = found := by
  simp [keepFront]

theorem keepFront_append (first second : Bytes) (found : Option (Bytes × Bytes)) :
    keepFront first (keepFront second found) = keepFront (first ++ second) found := by
  simp [keepFront, Function.comp_def]

theorem keepFront_eq_some {found : Option (Bytes × Bytes)} :
    keepFront text found = some (text ++ before, rest) ↔ found = some (before, rest) := by
  cases found <;> simp [keepFront, Prod.ext_iff]

theorem cutDoctype?_byte (hq : isQuote b = false) (ho : b ≠ 0x5B) (hc : b ≠ 0x5D)
    (hl : b = 0x3C → ¬ ascii "!--" <+: rest) (he : b = 0x3E → depth ≠ 0) :
    cutDoctype? depth none (b :: rest) = keepFront [b] (cutDoctype? depth none rest) := by
  have ho : (b == 0x5B) = false := beq_eq_false_iff_ne.mpr ho
  have hc : (b == 0x5D) = false := beq_eq_false_iff_ne.mpr hc
  have hl : (b == 0x3C && (ascii "!--").isPrefixOf rest) = false := by
    rw [Bool.and_eq_false_imp]
    intro hb
    rw [Bool.eq_false_iff, Ne, List.isPrefixOf_iff_prefix]
    exact hl (eq_of_beq hb)
  have he : (b == 0x3E && depth == 0) = false := by
    rw [Bool.and_eq_false_imp]
    exact fun hb => beq_eq_false_iff_ne.mpr (he (eq_of_beq hb))
  rw [cutDoctype?]
  simp only [hq, ho, hc, hl, he, Bool.false_eq_true, ↓reduceIte, keepFront, List.singleton_append]

theorem cutDoctype?_quoted (ht : quote ∉ text) :
    cutDoctype? depth (some quote) (text ++ quote :: rest) =
      keepFront (text ++ [quote]) (cutDoctype? depth none rest) := by
  induction text with
  | nil =>
    rw [List.nil_append, cutDoctype?]
    simp [keepFront]
  | cons b more ih =>
    rw [List.mem_cons, not_or] at ht
    have hb : (b == quote) = false := beq_eq_false_iff_ne.mpr (Ne.symm ht.1)
    rw [List.cons_append, cutDoctype?]
    simp [hb, ih ht.2, keepFront, Function.comp_def]

theorem cutDoctype?_literal (hq : isQuote quote) (ht : quote ∉ text) :
    cutDoctype? depth none (quote :: (text ++ quote :: rest)) =
      keepFront (quote :: (text ++ [quote])) (cutDoctype? depth none rest) := by
  rw [cutDoctype?]
  simp only [hq, ↓reduceIte, cutDoctype?_quoted ht]
  exact keepFront_append [quote] (text ++ [quote]) _

theorem cutDoctype?_opening (rest : Bytes) :
    cutDoctype? depth none (0x5B :: rest) =
      keepFront [0x5B] (cutDoctype? (depth + 1) none rest) := by
  rw [cutDoctype?]
  rfl

theorem cutDoctype?_closing (rest : Bytes) :
    cutDoctype? depth none (0x5D :: rest) =
      keepFront [0x5D] (cutDoctype? (depth - 1) none rest) := by
  rw [cutDoctype?]
  rfl

theorem cutDoctype?_end (rest : Bytes) : cutDoctype? 0 none (0x3E :: rest) = some ([], rest) := by
  rw [cutDoctype?]
  rfl

theorem cutDoctype?_wholeComment (ht : ¬ ascii "-->" <:+: text) (rest : Bytes) :
    cutDoctype? depth none (ascii "<!--" ++ (text ++ ascii "-->" ++ rest)) =
      keepFront (ascii "<!--" ++ text ++ ascii "-->") (cutDoctype? depth none rest) := by
  have hopen : ((0x3C : UInt8) == 0x3C &&
      (ascii "!--").isPrefixOf (ascii "!--" ++ (text ++ ascii "-->" ++ rest))) = true :=
    List.isPrefixOf_iff_prefix.mpr (List.prefix_append _ _)
  have hcut : cut? (ascii "-->") ((ascii "!--" ++ (text ++ ascii "-->" ++ rest)).drop 3) =
      some (text, rest) := cut?_comment ht rest
  refine (cutDoctype?_comment hopen depth).trans ?_
  rw [hcut]
  rfl

theorem Passes.cut (h : Passes depth text after) (hrest : StartsNew rest) :
    cutDoctype? depth none (text ++ rest) = keepFront text (cutDoctype? after none rest) := by
  induction h with
  | nil => exact (keepFront_nil _).symm
  | byte hq ho hc hl he _ ih =>
    have hl := fun hb => (prefix_append_iff hrest).not.mpr (hl hb)
    rw [List.cons_append, cutDoctype?_byte hq ho hc hl he, ih, keepFront_append]
    rfl
  | literal hq ht _ ih =>
    rw [List.cons_append, List.append_assoc, List.cons_append, cutDoctype?_literal hq ht, ih,
      keepFront_append]
    simp
  | opening _ ih =>
    rw [List.cons_append, cutDoctype?_opening, ih, keepFront_append]
    rfl
  | closing _ ih =>
    rw [List.cons_append, cutDoctype?_closing, ih, keepFront_append]
    rfl
  | comment ht _ ih =>
    rw [List.append_assoc, List.append_assoc, cutDoctype?_wholeComment ht, ih, keepFront_append]
    simp

/-- No end is met before the search is outside all brackets. It begins within these quotes, if
any. -/
def PassesFrom (depth : Nat) : Option UInt8 → Bytes → Prop
  | none, bytes => Passes depth bytes 0
  | some quote, bytes =>
    ∃ text rest, quote ∉ text ∧ bytes = text ++ quote :: rest ∧ Passes depth rest 0

theorem exists_of_map_cons {cut : Option (Bytes × Bytes)}
    (h : cut.map (fun found => (b :: found.1, found.2)) = some (before, rest)) :
    ∃ more, before = b :: more ∧ cut = some (more, rest) := by
  obtain ⟨found, hf, he⟩ := Option.map_eq_some_iff.mp h
  obtain ⟨rfl, rfl⟩ := Prod.mk.inj he
  exact ⟨found.1, rfl, hf⟩

theorem PassesFrom.of_cut {quote : Option UInt8} {bs : Bytes}
    (h : cutDoctype? depth quote bs = some (before, rest)) : PassesFrom depth quote before := by
  fun_induction cutDoctype? depth quote bs generalizing before rest with
  | case1 => cases h
  | case2 depth b rest _ q =>
    rename_i ih
    obtain ⟨more, rfl, hf⟩ := exists_of_map_cons h
    have hpass := ih _ _ hf
    by_cases hb : b = q
    · subst hb
      rw [beq_self_eq_true, if_pos rfl] at hpass
      exact ⟨[], more, List.not_mem_nil, rfl, hpass⟩
    · rw [beq_eq_false_iff_ne.mpr hb, if_neg Bool.false_ne_true] at hpass
      obtain ⟨text, tail, hq, rfl, htail⟩ := hpass
      refine ⟨b :: text, tail, ?_, rfl, htail⟩
      rw [List.mem_cons, not_or]
      exact ⟨Ne.symm hb, hq⟩
  | case3 depth b rest _ hq =>
    rename_i ih
    obtain ⟨more, rfl, hf⟩ := exists_of_map_cons h
    obtain ⟨text, tail, ht, rfl, htail⟩ := ih _ _ hf
    exact .literal hq ht htail
  | case4 depth b rest _ _ ho =>
    rename_i ih
    obtain ⟨more, rfl, hf⟩ := exists_of_map_cons h
    obtain rfl := eq_of_beq ho
    exact .opening (ih _ _ hf)
  | case5 depth b rest _ _ _ hc =>
    rename_i ih
    obtain ⟨more, rfl, hf⟩ := exists_of_map_cons h
    obtain rfl := eq_of_beq hc
    exact .closing (ih _ _ hf)
  | case6 => cases h
  | case7 depth b rest _ _ _ _ text tail hcut _ ih =>
    obtain ⟨found, hf, he⟩ := Option.map_eq_some_iff.mp h
    obtain ⟨rfl, rfl⟩ := Prod.mk.inj he
    show Passes depth _ 0
    rw [List.append_assoc, List.append_assoc, ← List.append_assoc text]
    exact .comment (not_infix_of_cut? (by decide) hcut) (ih hf)
  | case8 depth b rest _ _ _ _ hend =>
    rw [Bool.and_eq_true] at hend
    obtain ⟨rfl, rfl⟩ := Prod.mk.inj (Option.some.inj h)
    rw [eq_of_beq hend.2]
    exact .nil
  | case9 depth b rest _ hq ho hc hopen hend =>
    rename_i ih
    obtain ⟨more, rfl, hf⟩ := exists_of_map_cons h
    have hrest := cutDoctype?_append hf
    refine .byte ?_ ?_ ?_ ?_ ?_ (ih _ _ hf)
    · exact eq_false_of_ne_true hq
    · exact fun hb => ho (beq_iff_eq.mpr hb)
    · exact fun hb => hc (beq_iff_eq.mpr hb)
    · intro hb hp
      refine hopen (Bool.and_eq_true_iff.mpr ⟨beq_iff_eq.mpr hb, ?_⟩)
      rw [List.isPrefixOf_iff_prefix, hrest]
      exact hp.trans (List.prefix_append _ _)
    · intro hb hd
      exact hend (Bool.and_eq_true_iff.mpr ⟨beq_iff_eq.mpr hb, beq_iff_eq.mpr hd⟩)

theorem cutDoctype?_iff (rest : Bytes) :
    cutDoctype? depth none (text ++ 0x3E :: rest) = some (text, rest) ↔ Passes depth text 0 := by
  refine ⟨PassesFrom.of_cut, fun h => ?_⟩
  rw [h.cut (forall_head?_cons (by decide) rest), cutDoctype?_end]
  simp [keepFront]

-- ---------------------------------------------------------------------------
-- Parts of what is passed
-- ---------------------------------------------------------------------------

theorem passes_inert (h : IsInert text) (hrest : Passes depth rest after) :
    Passes depth (text ++ rest) after := by
  induction text with
  | nil => exact hrest
  | cons b more ih =>
    obtain ⟨hq, ho, hc, hl, he, hmore⟩ := h.cons
    exact .byte hq ho hc (fun hb => absurd hb hl) (fun hb => absurd hb he) (ih hmore)

theorem Passes.append (h : Passes depth first middle) (h' : Passes middle second after)
    (hs : StartsNew second) : Passes depth (first ++ second) after := by
  induction h with
  | nil => exact h'
  | byte hq ho hc hl he _ ih =>
    exact .byte hq ho hc (fun hb => (prefix_append_iff hs).not.mpr (hl hb)) he (ih h')
  | literal hq ht _ ih =>
    rw [List.cons_append, List.append_assoc, List.cons_append]
    exact .literal hq ht (ih h')
  | opening _ ih => exact .opening (ih h')
  | closing _ ih => exact .closing (ih h')
  | comment ht _ ih =>
    rw [List.append_assoc, List.append_assoc]
    exact .comment ht (ih h')

theorem exists_of_append_eq {z : UInt8} (h : first ++ second = before ++ z :: rest)
    (hz : z ∉ second) : ∃ more, first = before ++ z :: more ∧ more ++ second = rest := by
  rcases List.append_eq_append_iff.mp h with ⟨more, -, rfl⟩ | ⟨more, rfl, hmore⟩
  · exact absurd (List.mem_append_right more List.mem_cons_self) hz
  · cases more with
    | nil =>
      rw [List.nil_append] at hmore
      exact absurd (hmore ▸ List.mem_cons_self) hz
    | cons b more =>
      obtain ⟨rfl, rfl⟩ := List.cons.inj hmore
      exact ⟨more, rfl, rfl⟩

/-- Bytes without quotes or `>` end nothing that has begun before them. -/
theorem Passes.split (h : Passes depth (first ++ second) after)
    (hs : ∀ b ∈ second, isQuote b = false ∧ b ≠ 0x3E) :
    ∃ middle, Passes depth first middle ∧ Passes middle second after := by
  generalize hall : first ++ second = all at h
  induction h generalizing first with
  | nil =>
    obtain ⟨rfl, rfl⟩ := List.append_eq_nil_iff.mp hall
    exact ⟨_, .nil, .nil⟩
  | byte hq ho hc hl he h ih =>
    cases first with
    | nil =>
      obtain rfl : second = _ := hall
      exact ⟨_, .nil, .byte hq ho hc hl he h⟩
    | cons b more =>
      obtain ⟨rfl, rfl⟩ := List.cons.inj hall
      obtain ⟨middle, hfirst, hsecond⟩ := ih rfl
      have hl := fun hb hp => hl hb (List.IsPrefix.trans hp (List.prefix_append _ _))
      exact ⟨middle, .byte hq ho hc hl he hfirst, hsecond⟩
  | @literal _ _ quote text rest hq ht _ ih =>
    -- The quote that ends the text is in the first part, and so is the text.
    have hquote : quote ∉ second := fun hm => by
      rw [(hs quote hm).1] at hq
      cases hq
    rw [← List.cons_append] at hall
    obtain ⟨more, rfl, hmore⟩ := exists_of_append_eq hall hquote
    obtain ⟨middle, hfirst, hsecond⟩ := ih hmore
    exact ⟨middle, .literal hq ht hfirst, hsecond⟩
  | opening h ih =>
    cases first with
    | nil =>
      obtain rfl : second = _ := hall
      exact ⟨_, .nil, .opening h⟩
    | cons b more =>
      obtain ⟨rfl, hmore⟩ := List.cons.inj hall
      obtain ⟨middle, hfirst, hsecond⟩ := ih hmore
      exact ⟨middle, .opening hfirst, hsecond⟩
  | closing h ih =>
    cases first with
    | nil =>
      obtain rfl : second = _ := hall
      exact ⟨_, .nil, .closing h⟩
    | cons b more =>
      obtain ⟨rfl, hmore⟩ := List.cons.inj hall
      obtain ⟨middle, hfirst, hsecond⟩ := ih hmore
      exact ⟨middle, .closing hfirst, hsecond⟩
  | @comment _ _ text rest ht _ ih =>
    have hform (tail : Bytes) : ascii "<!--" ++ (text ++ ascii "-->" ++ tail) =
        ascii "<!--" ++ (text ++ ascii "--") ++ 0x3E :: tail := by
      simp [ascii]
      rfl
    rw [hform] at hall
    obtain ⟨more, rfl, hmore⟩ := exists_of_append_eq hall fun hm => (hs 0x3E hm).2 rfl
    obtain ⟨middle, hfirst, hsecond⟩ := ih hmore
    rw [← hform]
    exact ⟨middle, .comment ht hfirst, hsecond⟩

/-- Bytes that the search goes through at any depth. -/
def IsPassed (bytes : Bytes) : Prop :=
  ∀ (depth : Nat) (rest : Bytes),
    cutDoctype? depth none (bytes ++ rest) = keepFront bytes (cutDoctype? depth none rest)

theorem IsPassed.append (h : IsPassed first) (h' : IsPassed second) :
    IsPassed (first ++ second) := by
  intro depth rest
  rw [List.append_assoc, h, h', keepFront_append]

theorem IsPassed.passes_iff (h : IsPassed text) :
    Passes depth (text ++ rest) 0 ↔ Passes depth rest 0 := by
  rw [← cutDoctype?_iff [], ← cutDoctype?_iff [], List.append_assoc, h, keepFront_eq_some]

theorem passes_opening_iff : Passes depth (0x5B :: rest) 0 ↔ Passes (depth + 1) rest 0 := by
  rw [← cutDoctype?_iff [], ← cutDoctype?_iff [], List.cons_append, cutDoctype?_opening]
  exact keepFront_eq_some

theorem passes_closing_iff : Passes depth (0x5D :: rest) 0 ↔ Passes (depth - 1) rest 0 := by
  rw [← cutDoctype?_iff [], ← cutDoctype?_iff [], List.cons_append, cutDoctype?_closing]
  exact keepFront_eq_some

theorem Passes.eq_of_nil (h : Passes depth [] after) : depth = after := by
  generalize hnil : [] = bytes at h
  cases h with
  | nil => rfl
  | _ => cases hnil

theorem isPassed_inert (h : IsInert text) : IsPassed text := by
  induction text with
  | nil => exact fun depth rest => (keepFront_nil _).symm
  | cons b more ih =>
    obtain ⟨hq, ho, hc, hl, he, hmore⟩ := h.cons
    intro depth rest
    rw [List.cons_append, cutDoctype?_byte hq ho hc (fun hb => absurd hb hl)
      (fun hb => absurd hb he), ih hmore, keepFront_append]
    rfl

theorem isPassed_literal (hq : isQuote quote) (ht : quote ∉ text) :
    IsPassed (quote :: (text ++ [quote])) := by
  intro depth rest
  rw [List.cons_append, List.append_assoc, List.singleton_append, cutDoctype?_literal hq ht]

theorem QuotedLiteral.Proper.isPassed {literal : QuotedLiteral} (h : literal.Proper) :
    IsPassed literal.write :=
  (isPassed_inert (isInert_spaces h.space)).append (isPassed_literal h.quote h.text)

theorem ExternalId.Proper.isPassed {externalId : ExternalId} (h : externalId.Proper) :
    IsPassed externalId.write := by
  cases h with
  | nothing => exact isPassed_inert isInert_nil
  | system h => exact (isPassed_inert (by decide)).append h.isPassed
  | both h h' => exact (isPassed_inert (by decide)).append (h.isPassed.append h'.isPassed)

end

-- ---------------------------------------------------------------------------
-- Parts of a subset
-- ---------------------------------------------------------------------------

/-- Within brackets, these bytes leave the search where it was. -/
def IsLevel (bytes : Bytes) : Prop := ∀ depth, Passes (depth + 1) bytes (depth + 1)

section
variable {depth after : Nat} {text rest : Bytes}

theorem Passes.markup (hl : ¬ ascii "!--" <+: rest) (h : Passes depth rest after) :
    Passes depth (0x3C :: rest) after :=
  .byte rfl (by decide) (by decide) (fun _ => hl) (fun he => absurd he (by decide)) h

theorem Passes.close (h : Passes (depth + 1) rest after) :
    Passes (depth + 1) (0x3E :: rest) after :=
  .byte rfl (by decide) (by decide) (fun hb => absurd hb (by decide))
    (fun _ => Nat.succ_ne_zero depth) h

theorem IsLevel.close (h : IsLevel text) (hrest : Passes (depth + 1) rest after) :
    Passes (depth + 1) (text ++ 0x3E :: rest) after :=
  (h depth).append hrest.close (forall_head?_cons (by decide) rest)

end

namespace SubsetPart

/-- A part that leaves the search where it was. Comments, the values of entities and names do so,
whatever they hold. -/
def IsLevel : SubsetPart → Prop
  | .instruction _ data => XmlStore.IsLevel data
  | .entity _ _ _ _ _ after => XmlStore.IsLevel after
  | .declaration body => XmlStore.IsLevel body
  | .space _ | .comment _ | .reference _ => True

theorem passes_write {part : SubsetPart} (h : part.Proper) (hlevel : part.IsLevel)
    {depth after : Nat} {rest : Bytes} (hrest : Passes (depth + 1) rest after) :
    Passes (depth + 1) (part.write ++ rest) after := by
  cases h with
  | space hs => exact passes_inert (isInert_spaces hs) hrest
  | @comment text ht =>
    have hform : (comment text).write ++ rest = ascii "<!--" ++ (text ++ ascii "-->" ++ rest) := by
      simp [write]
    rw [hform]
    exact .comment ht hrest
  | @instruction target data ht _ _ =>
    have hform : (instruction target data).write ++ rest =
        0x3C :: (ascii "?" ++ (target ++ (data ++ (ascii "?" ++ 0x3E :: rest)))) := by
      simp [write, ascii]
      decide
    have hend : Passes (depth + 1) (ascii "?" ++ 0x3E :: rest) after :=
      passes_inert (by decide) hrest.close
    have hdata := (hlevel depth).append hend (forall_head?_cons (by decide) _)
    rw [hform]
    exact .markup (fun hp => absurd (List.cons_prefix_cons.mp hp).1 (by decide))
      (passes_inert (by decide) (passes_inert (isInert_name ht) hdata))
  | @reference name hn =>
    have hform : (reference name).write ++ rest = ascii "%" ++ (name ++ (ascii ";" ++ rest)) := by
      simp [write, ascii]
      decide
    rw [hform]
    exact passes_inert (by decide) (passes_inert (isInert_name hn)
      (passes_inert (by decide) hrest))
  | @entity before name between quote value after hbefore hn hbetween hq hv _ =>
    have hform : (entity before name between quote value after).write ++ rest =
        0x3C :: (ascii "!ENTITY" ++ (before ++ (name ++ (between ++
          quote :: (value ++ quote :: (after ++ 0x3E :: rest)))))) := by
      simp [write, ascii]
      decide
    have hvalue := Passes.literal hq hv (XmlStore.IsLevel.close hlevel hrest)
    rw [hform]
    refine .markup (fun hp => ?_) (passes_inert (by decide)
      (passes_inert (isInert_spaces hbefore) (passes_inert (isInert_name hn)
        (passes_inert (isInert_spaces hbetween) hvalue))))
    exact absurd (List.cons_prefix_cons.mp (List.cons_prefix_cons.mp hp).2).1 (by decide)
  | @declaration body _ hc _ =>
    have hform : (declaration body).write ++ rest =
        0x3C :: (ascii "!" ++ (body ++ 0x3E :: rest)) := by
      simp [write, ascii]
      decide
    rw [hform]
    refine .markup (fun hp => hc ?_) (passes_inert (by decide)
      (XmlStore.IsLevel.close hlevel hrest))
    exact (prefix_append_iff (forall_head?_cons (by decide) rest)).mp
      (List.cons_prefix_cons.mp hp).2

theorem passes_writeAll {parts : List SubsetPart}
    (h : ∀ part ∈ parts, part.Proper ∧ part.IsLevel) (depth : Nat) :
    Passes (depth + 1) (writeAll parts) (depth + 1) := by
  induction parts with
  | nil => exact .nil
  | cons part more ih =>
    obtain ⟨⟨hproper, hlevel⟩, hmore⟩ := List.forall_mem_cons.mp h
    exact passes_write hproper hlevel (ih hmore)

end SubsetPart

-- ---------------------------------------------------------------------------
-- Going on after a declaration
-- ---------------------------------------------------------------------------

/-- What is told of an item. -/
def SubsetItem.event? : SubsetItem → Option Event
  | .entity _ _ => none
  | .comment text => some (.comment text)
  | .instruction target data => some (.instruction target data)

/-- The entities after those of a subset have been declared. -/
def Entities.declareAll (entities : Entities) : List SubsetItem → Entities
  | [] => entities
  | .entity name text :: rest => (entities.declare name text).declareAll rest
  | .comment _ :: rest | .instruction _ _ :: rest => entities.declareAll rest

theorem Construct.subsetEvents_eq (items : List SubsetItem) (c : Context) :
    (subsetEvents c items).1.map (·.2) = items.filterMap SubsetItem.event? ∧
      (subsetEvents c items).2 = { c with entities := c.entities.declareAll items } := by
  fun_induction subsetEvents c items with
  | case1 => exact ⟨rfl, rfl⟩
  | case2 c name text rest ih => exact ih
  | case3 c text rest others ih => exact ⟨congrArg (List.cons (Event.comment text)) ih.1, ih.2⟩
  | case4 c target data rest others ih =>
    exact ⟨congrArg (List.cons (Event.instruction target data)) ih.1, ih.2⟩

theorem declaration_doctype (c : Context) (here : Nat) (last : Bool) (rest : Bytes) :
    Construct.declaration c here last (ascii "<!DOCTYPE" ++ rest) =
      Construct.doctype c here last (ascii "<!DOCTYPE" ++ rest) := by
  rw [Construct.declaration, if_neg (Construct.not_truncated (by decide) rest), if_neg, if_neg,
    if_pos]
  · exact List.isPrefixOf_iff_prefix.mpr (List.prefix_append _ _)
  · exact Bool.false_ne_true
  · exact Bool.false_ne_true

/-- What another response does, after these events. -/
structure Response.Continues (response : Response) (told : List Event) (next : Response) :
    Prop where
  events : response.events.map (·.2) = told ++ next.events.map (·.2)
  context : response.parser.context = next.parser.context
  result : response.result = next.result
  parser : next.result = .ok () → response.parser = next.parser

namespace WrittenDoctype

variable {d : WrittenDoctype} {c : Context}

/-- The search comes to the end of the subset outside quotes, and no deeper than it was at its
start. -/
def Level (d : WrittenDoctype) : Prop :=
  ∃ depth ≤ 1, Passes 1 (SubsetPart.writeAll d.parts) depth

theorem level_iff (h : d.Proper) : d.Level ↔ Passes 0 (writeSubset d.subset) 0 := by
  unfold Level
  cases hsubset : d.subset with
  | none =>
    rw [parts, hsubset]
    exact ⟨fun _ => .nil, fun _ => ⟨1, Nat.le_refl 1, .nil⟩⟩
  | some subset =>
    obtain ⟨written, after⟩ := subset
    have hparts : d.parts = written := by rw [parts, hsubset]; rfl
    have hafter : IsInert after := isInert_spaces (h.after written after hsubset)
    -- The bracket that closes the subset counts down from one, or from none.
    have hclose {depth : Nat} : Passes depth (0x5D :: after) 0 ↔ depth ≤ 1 := by
      rw [passes_closing_iff, ← List.append_nil after, (isPassed_inert hafter).passes_iff]
      refine ⟨fun hnil => Nat.sub_eq_zero_iff_le.mp hnil.eq_of_nil, fun hd => ?_⟩
      rw [Nat.sub_eq_zero_iff_le.mpr hd]
      exact .nil
    rw [hparts, writeSubset, passes_opening_iff]
    constructor
    · rintro ⟨depth, hd, hpass⟩
      exact hpass.append (hclose.mpr hd) (forall_head?_cons (by decide) after)
    · intro hpass
      obtain ⟨depth, hpass, hrest⟩ := hpass.split fun b hb => by
        rcases List.mem_cons.mp hb with rfl | hb
        · decide
        · exact ⟨(hafter b hb).1, fun he => (hafter b hb).2 (he ▸ by decide)⟩
      exact ⟨depth, hclose.mp hrest, hpass⟩

theorem passes_body_iff (h : d.Proper) :
    Passes 0 d.body 0 ↔ Passes 0 (writeSubset d.subset) 0 := by
  have hkeyword : IsPassed (ascii "DOCTYPE") := isPassed_inert (by decide)
  have hbefore := isPassed_inert (isInert_spaces h.before)
  have hname := isPassed_inert (isInert_name h.name)
  have hgap := isPassed_inert (isInert_spaces h.gap)
  have hbetween := isPassed_inert (isInert_spaces h.between)
  rw [body, hkeyword.passes_iff, hbefore.passes_iff, hname.passes_iff, rest, hgap.passes_iff,
    h.externalId.isPassed.passes_iff, hbetween.passes_iff]

theorem cutDoctype?_write (h : d.Proper) (rest : Bytes) :
    cutDoctype? 0 none ((d.write ++ rest).drop 2) = some (d.body, rest) ↔ d.Level := by
  have hform : (d.write ++ rest).drop 2 = d.body ++ 0x3E :: rest := by
    rw [write, List.append_assoc, List.append_assoc]
    rfl
  rw [hform, cutDoctype?_iff, passes_body_iff h, level_iff h]

/-- What is told of a declaration. -/
def events (d : WrittenDoctype) : List Event :=
  .startDoctype d.name :: d.content.items.filterMap SubsetItem.event? ++ [.endDoctype]

/-- The context after a declaration. -/
def enter (d : WrittenDoctype) (c : Context) : Context :=
  { c with seenDoctype := true, entities := c.entities.declareAll d.content.items }

/-- The parser after a declaration, before it reads the rest. -/
def after (d : WrittenDoctype) (parser : Parser) (rest : Bytes) : Parser :=
  { parser with
    context := d.enter parser.context
    buffer := rest
    later := []
    position := parser.position + d.write.length }

theorem read_write (h : d.Proper) (hlevel : d.Level)
    (hstage : c.stage = .prolog) (hseen : c.seenDoctype = false) (here : Nat) (last : Bool)
    (rest : Bytes) :
    (Construct.read c here last (d.write ++ rest)).Is d.events (d.enter c) d.write.length := by
  have hread : Construct.read c here last (d.write ++ rest) =
      Construct.doctype c here last (d.write ++ rest) :=
    declaration_doctype c here last _
  have hmisplaced : (decide (c.stage ≠ .prolog) || c.seenDoctype) = false := by
    simp [hstage, hseen]
  have hlength : d.write.length = d.body.length + 3 := by
    have hopen : (ascii "<!").length = 2 := rfl
    rw [write, List.length_append, List.length_append, hopen, List.length_singleton]
    omega
  obtain ⟨hevents, hafter⟩ :=
    Construct.subsetEvents_eq d.content.items { c with seenDoctype := true }
  have hcut := (cutDoctype?_write h rest).mpr hlevel
  rw [hread, Construct.doctype, hmisplaced]
  simp only [Bool.false_eq_true, ↓reduceIte, hcut, readDoctype_write h]
  refine ⟨?_, hafter, by rw [hlength]⟩
  simp [events, hevents]
  rfl

theorem readConstructs_write (h : d.Proper) (hlevel : d.Level)
    (hstage : c.stage = .prolog) (hseen : c.seenDoctype = false) (here : Nat) (last : Bool)
    (rest : Bytes) :
    ∃ told : List (Context × Event), told.map (·.2) = d.events ∧
      readConstructs last c here (d.write ++ rest) =
        (readConstructs last (d.enter c) (here + d.write.length) rest).prepend told
          d.write.length := by
  obtain ⟨hevents, hcontext, houtcome⟩ := read_write h hlevel hstage hseen here last rest
  refine ⟨_, hevents, ?_⟩
  rw [readConstructs_eq_resume (List.append_ne_nil_of_left_ne_nil (by simp [write]) rest)]
  simp only [Reading.resume, houtcome, hcontext, List.drop_left]

theorem process_write (h : d.Proper) (hlevel : d.Level)
    {parser : Parser} (hstage : parser.context.stage = .prolog)
    (hseen : parser.context.seenDoctype = false) {rest : Bytes}
    (hunread : parser.unread = d.write ++ rest) (last : Bool) :
    (parser.process last).Continues d.events ((d.after parser rest).process last) := by
  obtain ⟨told, htold, hread⟩ :=
    readConstructs_write h hlevel hstage hseen parser.position last rest
  have hrest : (d.after parser rest).unread = rest := by simp [Parser.unread, after]
  have htells := parser.process_tells last
  have htells' := (d.after parser rest).process_tells last
  rw [hunread, hread] at htells
  rw [hrest] at htells'
  change Response.Tells _ _ (readConstructs last (d.enter parser.context)
    (parser.position + d.write.length) rest) at htells'
  have hevents : (parser.process last).events.map (·.2) =
      d.events ++ ((d.after parser rest).process last).events.map (·.2) := by
    rw [htells.events, htells'.events]
    simp [Reading.prepend, htold]
  have hcontext := htells.context.trans htells'.context.symm
  -- The outcomes are the same, but counted from the start of the declaration.
  cases ho : (readConstructs last (d.enter parser.context)
      (parser.position + d.write.length) rest).outcome with
  | error fault =>
    have hresult : (parser.process last).result = .error fault :=
      Parser.process_fault (by rw [hunread, hread, Reading.prepend, ho]; rfl)
    have hresult' : ((d.after parser rest).process last).result = .error fault :=
      Parser.process_fault (by rw [hrest]; exact ho)
    exact ⟨hevents, hcontext, hresult.trans hresult'.symm, by rw [hresult']; rintro ⟨⟩⟩
  | ok taken =>
    obtain ⟨hresult, hparser⟩ := @Parser.process_taken parser last (d.write.length + taken)
      (by rw [hunread, hread, Reading.prepend, ho]; rfl)
    obtain ⟨hresult', hparser'⟩ := @Parser.process_taken (d.after parser rest) last taken
      (by rw [hrest]; exact ho)
    have hleft : decide (d.write.length + taken < parser.unread.length) =
        decide (taken < (d.after parser rest).unread.length) := by
      rw [hunread, hrest, List.length_append, decide_eq_decide, Nat.add_lt_add_iff_left]
    have hdrop : parser.unread.drop (d.write.length + taken) =
        (d.after parser rest).unread.drop taken := by
      rw [hunread, hrest, List.drop_length_add_append]
    rw [hleft, ← Nat.add_assoc] at hresult
    rw [hleft, hdrop, ← Nat.add_assoc] at hparser
    refine ⟨hevents, hcontext, hresult.trans hresult'.symm, fun hok => ?_⟩
    have hall : ¬ (last && taken < (d.after parser rest).unread.length) := by
      intro hmore
      rw [hresult', if_pos hmore] at hok
      cases hok
    rw [hparser hall, hparser' hall, hunread, hread, hrest]
    rfl

theorem level_of_parts (h : ∀ part ∈ d.parts, part.Proper ∧ part.IsLevel) : d.Level :=
  ⟨1, Nat.le_refl 1, SubsetPart.passes_writeAll h 0⟩

/-- A declaration is found to end where it was written to end exactly if its subset is level,
whatever follows. Then a parser tells it and goes on right after it. -/
theorem ends_where_written (h : d.Proper) (rest : Bytes) :
    (cutDoctype? 0 none ((d.write ++ rest).drop 2) = some (d.body, rest) ↔ d.Level) ∧
      (d.Level → ∀ (parser : Parser) (last : Bool), parser.context.stage = .prolog →
        parser.context.seenDoctype = false → parser.unread = d.write ++ rest →
        (parser.process last).Continues d.events ((d.after parser rest).process last)) :=
  ⟨cutDoctype?_write h rest, fun hlevel _ last hstage hseen hunread =>
    process_write h hlevel hstage hseen hunread last⟩

/-- A single quote in a comment, a bracket in an identifier and in the value of an entity, and two
quotes in an instruction. -/
theorem bracketed_literals_end :
    let d : WrittenDoctype :=
      { name := ascii "a", gap := ascii " ", externalId := .system ⟨ascii " ", 0x22, ascii "]>"⟩
        subset := some ([.comment (ascii "it's"), .instruction (ascii "p") (ascii " 'x'"),
          .entity (ascii " ") (ascii "e") (ascii " ") 0x27 (ascii "]") []], ascii " ") }
    let parser : Parser :=
      { Parser.ofOptions {} with
        started := true
        later :=
          [ascii "<!DOCTYPE a SYSTEM \"]>\"[<!--it's--><?p 'x'?><!ENTITY e ']'>] ><a/>"] }
    d.Proper ∧ d.Level ∧
      cutDoctype? 0 none ((d.write ++ ascii "<a/>").drop 2) = some (d.body, ascii "<a/>") ∧
      parser.context.stage = .prolog ∧ parser.context.seenDoctype = false ∧
      parser.unread = d.write ++ ascii "<a/>" ∧
      (parser.process false).Continues
        [.startDoctype (ascii "a"), .comment (ascii "it's"),
          .instruction (ascii "p") (ascii "'x'"), .endDoctype]
        ((d.after parser (ascii "<a/>")).process false) := by
  intro d parser
  have hparts : ∀ part ∈ d.parts, part.Proper ∧ part.IsLevel := by
    intro part hm
    simp only [parts, d, Option.map_some, Option.getD_some, List.mem_cons, List.not_mem_nil,
      or_false] at hm
    rcases hm with rfl | rfl | rfl
    · exact ⟨.comment (by decide), trivial⟩
    · refine ⟨.instruction (by decide) (forall_head?_cons (by decide) _) (by decide), ?_⟩
      exact fun depth => passes_inert (by decide : IsInert (ascii " "))
        (.literal rfl (by decide : (0x27 : UInt8) ∉ ascii "x") .nil)
    · exact ⟨.entity (by decide) (by decide) (by decide) (by decide) (by decide) .nil,
        fun depth => .nil⟩
  have h : d.Proper :=
    { before := by decide
      name := by decide
      gap := by decide
      apart := fun hgap => absurd hgap (by decide)
      externalId := .system ⟨by decide, by decide, by decide⟩
      between := by decide
      parts := fun part hm => (hparts part hm).1
      after := by
        rintro written after hsubset
        obtain ⟨-, rfl⟩ := Prod.mk.inj (Option.some.inj hsubset)
        decide }
  have hlevel : d.Level := level_of_parts hparts
  have hunread : parser.unread = d.write ++ ascii "<a/>" := by decide
  obtain ⟨hcut, hprocess⟩ := ends_where_written h (ascii "<a/>")
  exact ⟨h, hlevel, hcut.mpr hlevel, rfl, rfl, hunread,
    hprocess hlevel parser false rfl rfl hunread⟩

/-- The reader of the subset takes an instruction as a whole, but a single quote in it hides the end
from the search. -/
theorem quote_in_instruction_hides_end :
    let d : WrittenDoctype :=
      { name := ascii "a", gap := ascii " "
        subset := some ([.instruction (ascii "p") (ascii " it's")], []) }
    d.Proper ∧ d.write ++ ascii "<a/>" = ascii "<!DOCTYPE a [<?p it's?>]><a/>" ∧
      readDoctype 24 (d.body.drop 7) =
        .ok { name := ascii "a", items := [.instruction (ascii "p") (ascii "it's")] } ∧
      cutDoctype? 0 none ((d.write ++ ascii "<a/>").drop 2) = none := by
  intro d
  have h : d.Proper :=
    { before := by decide
      name := by decide
      gap := by decide
      apart := fun _ => rfl
      externalId := .nothing
      between := by decide
      parts := by
        intro part hm
        obtain rfl := List.mem_singleton.mp hm
        exact .instruction (by decide) (forall_head?_cons (by decide) _) (by decide)
      after := by
        rintro written after hsubset
        obtain ⟨-, rfl⟩ := Prod.mk.inj (Option.some.inj hsubset)
        decide }
  exact ⟨h, by decide, readDoctype_write h 24, by decide +kernel⟩

end WrittenDoctype

end XmlStore
