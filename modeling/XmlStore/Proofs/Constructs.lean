import XmlStore.Event.Log
import XmlStore.Markup.Construct
import XmlStore.Proofs.Cutting

/-!
# Constructs settle

Markup and references are read as a whole or not at all: as long as the end is missing a reading
waits and leaves everything as it was, and once the end is there a reading is what it will be
however many bytes follow. `read_settles` says so of every construct but text, which
`XmlStore.Proofs.Splitting` is about.
-/

namespace XmlStore

/-- Text that a log takes as it is, or no text. -/
def Event.Plain (event : Event) : Prop := ∀ units, event ≠ .text (.utf16 units)

/-- A reading that takes `taken` bytes or ends with a fault, and that tells plain events. -/
structure Reading.Complete (taken : Nat) (reading : Reading Progress) : Prop where
  outcome : reading.outcome = .ok (.advance taken) ∨ ∃ fault, reading.outcome = .error fault
  plain : ∀ event ∈ reading.events, event.2.Plain

theorem Reading.Complete.fail (c : Context) (fault : Error) (taken : Nat) :
    (c.fail fault).Complete taken := ⟨.inr ⟨fault, rfl⟩, by simp [Context.fail]⟩

theorem Reading.Complete.failAt (c : Context) (position : Nat) (fault : Fault) (taken : Nat) :
    (c.failAt position fault).Complete taken := .fail c _ taken

theorem Reading.Complete.read (c : Context) {events : List Event}
    (h : ∀ event ∈ events, event.Plain) (taken : Nat) : (c.read events taken).Complete taken := by
  refine ⟨.inl rfl, ?_⟩
  simpa [Context.read] using h

namespace Construct

/-- At these bytes a construct is incomplete, and stays so while only such bytes come, or a reader
has read a construct that more bytes do not change. -/
def Settled (idle : Bytes → Prop) (c : Context) (reader : Bool → Bytes → Reading Progress)
    (bs : Bytes) : Prop :=
  (∃ position fault, ∀ last more, idle more →
      reader last (bs ++ more) = c.incomplete position last fault) ∨
    (∀ last more, reader last (bs ++ more) = reader false bs) ∧
      ∃ taken, 0 < taken ∧ taken ≤ bs.length ∧ (reader false bs).Complete taken

theorem Settled.mono {idle idle' : Bytes → Prop} {c : Context}
    {reader : Bool → Bytes → Reading Progress} {bs : Bytes} (h : Settled idle c reader bs)
    (hi : ∀ more, idle' more → idle more) : Settled idle' c reader bs := by
  rcases h with ⟨position, fault, h⟩ | h
  · exact .inl ⟨position, fault, fun last more hm => h last more (hi more hm)⟩
  · exact .inr h

theorem Settled.congr {idle : Bytes → Prop} {c : Context}
    {reader other : Bool → Bytes → Reading Progress} {bs : Bytes} (h : Settled idle c other bs)
    (he : ∀ last more, reader last (bs ++ more) = other last (bs ++ more)) :
    Settled idle c reader bs := by
  have hnow : reader false bs = other false bs := by simpa using he false []
  rcases h with ⟨position, fault, h⟩ | ⟨h, hc⟩
  · exact .inl ⟨position, fault, fun last more hm => (he last more).trans (h last more hm)⟩
  · refine .inr ⟨fun last more => ?_, hnow ▸ hc⟩
    rw [he, hnow, h]

/-- A fault that no more bytes can avert. -/
theorem Settled.failAt {idle : Bytes → Prop} {c : Context}
    {reader : Bool → Bytes → Reading Progress} {bs : Bytes} {position : Nat} {fault : Fault}
    (hbs : 1 ≤ bs.length)
    (h : ∀ last more, reader last (bs ++ more) = c.failAt position fault) :
    Settled idle c reader bs := by
  have hnow : reader false bs = c.failAt position fault := by simpa using h false []
  exact .inr ⟨fun last more => by rw [h, hnow], 1, by omega, hbs, hnow ▸ .failAt ..⟩

/-- A reader that cuts off its construct after the opening settles. -/
theorem settled_of_cut {z : UInt8} {width : Nat} {cut : Bytes → Option (Bytes × Bytes)}
    (hcut : Delimits z width cut) {opening : Nat} (ho : 0 < opening)
    {c : Context} {here : Nat} {fault : Fault} {body : Bytes → Reading Progress}
    {reader : Bool → Bytes → Reading Progress}
    (hreader : ∀ last bs, reader last bs =
      match cut (bs.drop opening) with
      | none => c.incomplete here last fault
      | some (before, _) => body before)
    (hbody : ∀ before, (body before).Complete (before.length + (opening + width)))
    {bs : Bytes} (hbs : opening ≤ bs.length) : Settled (z ∉ ·) c reader bs := by
  cases h : cut (bs.drop opening) with
  | none =>
    refine .inl ⟨here, fault, fun last more hz => ?_⟩
    rw [hreader, List.drop_append_of_le_length hbs, hcut.missing h hz]
  | some found =>
    refine .inr ⟨fun last more => ?_, found.1.length + (opening + width), by omega, ?_, ?_⟩
    · rw [hreader, hreader, List.drop_append_of_le_length hbs, hcut.grow h more, h]
    · have := hcut.length h
      rw [List.length_drop] at this
      omega
    · rw [hreader, h]
      exact hbody _

-- ---------------------------------------------------------------------------
-- Each construct
-- ---------------------------------------------------------------------------

section
variable {c : Context} {here : Nat} {bs : Bytes}

theorem reference_settled (h : 1 ≤ bs.length) : Settled (0x3B ∉ ·) c (reference c here) bs := by
  refine settled_of_cut (cutAt?_delimits 0x3B) (by omega) (fun _ _ => rfl) ?_ h
  intro name
  split
  · exact .failAt ..
  · split
    · exact .failAt ..
    · simp only
      split
      · exact .fail ..
      · exact .read _ (by simp [Event.Plain]) _

theorem openingEvents_plain (name : Bytes) (attributes : List Attribute) :
    ∀ event ∈ openingEvents name attributes, event.Plain := by
  intro event h units he
  simp only [openingEvents, List.mem_append, List.mem_filterMap, Option.map_eq_some_iff,
    List.mem_singleton] at h
  rcases h with ⟨_, _, _, _, rfl⟩ | rfl <;> simp at he

theorem startTag_settled (h : 1 ≤ bs.length) : Settled (0x3E ∉ ·) c (startTag c here) bs := by
  refine settled_of_cut (cutUnquoted?_delimits none) (by omega) (fun _ _ => rfl) ?_ h
  intro tag
  split
  · exact .failAt ..
  · simp only
    split
    · exact .fail ..
    · rename_i attributes _
      split
      · exact .failAt ..
      · split
        · refine ⟨.inl rfl, ?_⟩
          simp only [Context.read, List.forall_mem_map]
          intro event he
          rcases List.mem_append.mp he with he | he
          · exact openingEvents_plain _ _ event he
          · simp_all [Event.Plain]
        · refine ⟨.inl rfl, ?_⟩
          simpa only [Context.read, List.forall_mem_map] using openingEvents_plain _ attributes

theorem endTag_settled (h : 2 ≤ bs.length) : Settled (0x3E ∉ ·) c (endTag c here) bs := by
  refine settled_of_cut (cutAt?_delimits 0x3E) (by omega) (fun _ _ => rfl) ?_ h
  intro tag
  simp only
  split
  · exact .failAt ..
  · split
    · exact .failAt ..
    · exact ⟨.inl rfl, by simp [Context.read, Event.Plain]⟩

theorem xmlDeclaration_complete (taken : Nat) (data : Bytes) :
    (xmlDeclaration c here taken data).Complete taken := by
  unfold xmlDeclaration
  split
  · exact .failAt ..
  · split
    · exact .failAt ..
    · exact .read _ (by simp) _
    · simp only
      split
      · exact .read _ (by simp) _
      · exact .fail ..

theorem instruction_settled (h : 2 ≤ bs.length) : Settled (0x3E ∉ ·) c (instruction c here) bs := by
  refine settled_of_cut (cut?_delimits (ascii "?") 0x3E) (by omega) (fun _ _ => rfl) ?_ h
  intro body
  split
  · exact .failAt ..
  · simp only
    split
    · exact xmlDeclaration_complete ..
    · exact .read _ (by simp [Event.Plain]) _

theorem comment_settled (h : 4 ≤ bs.length) : Settled (0x3E ∉ ·) c (comment c here) bs := by
  refine settled_of_cut (cut?_delimits (ascii "--") 0x3E) (by omega) (fun _ _ => rfl) ?_ h
  intro text
  split
  · exact .failAt ..
  · exact .read _ (by simp [Event.Plain]) _

theorem literalSection_settled (h : 9 ≤ bs.length) :
    Settled (0x3E ∉ ·) c (literalSection c here) bs := by
  by_cases hs : c.stage = .content
  · refine settled_of_cut (cut?_delimits (ascii "]]") 0x3E) (by omega)
      (fun _ _ => if_neg (not_not_intro hs)) ?_ h
    intro text
    exact .read _ (by simp [Event.Plain]) _
  · exact .failAt (by omega) fun _ _ => if_pos hs

theorem subsetEvents_plain (items : List SubsetItem) (c : Context) :
    ∀ event ∈ (subsetEvents c items).1, event.2.Plain := by
  fun_induction subsetEvents c items with
  | case1 => simp
  | case2 c name text rest ih => exact ih
  | case3 c text rest others ih => simpa [Event.Plain] using ih
  | case4 c target data rest others ih => simpa [Event.Plain] using ih

theorem doctype_settled (h : 9 ≤ bs.length) : Settled (0x3E ∉ ·) c (doctype c here) bs := by
  by_cases hs : (c.stage ≠ .prolog || c.seenDoctype) = true
  · exact .failAt (by omega) fun _ _ => if_pos hs
  · refine settled_of_cut (cutDoctype?_delimits 0 none) (by omega) (fun _ _ => if_neg hs) ?_
      (Nat.le_trans (by omega : 2 ≤ 9) h)
    intro declaration
    simp only
    split
    · exact .fail ..
    · rename_i doctype _
      refine ⟨.inl rfl, ?_⟩
      simp only [List.mem_append, List.mem_cons, List.not_mem_nil, or_false]
      rintro event ((rfl | he) | rfl)
      · simp [Event.Plain]
      · exact subsetEvents_plain _ _ event he
      · simp [Event.Plain]

-- ---------------------------------------------------------------------------
-- Any construct
-- ---------------------------------------------------------------------------

/-- Once bytes are no mere beginning of an opening, it is decided whether they begin with it. -/
theorem opening_decided {opening : Bytes}
    (h : ¬ (bs.isPrefixOf opening && bs.length < opening.length) = true) (more : Bytes) :
    opening.isPrefixOf (bs ++ more) = opening.isPrefixOf bs ∧
      ¬ ((bs ++ more).isPrefixOf opening && (bs ++ more).length < opening.length) = true := by
  simp only [Bool.and_eq_true, List.isPrefixOf_iff_prefix, decide_eq_true_eq, not_and,
    Nat.not_lt] at h ⊢
  constructor
  · by_cases hlen : opening.length ≤ bs.length
    · exact isPrefixOf_append hlen more
    · have hno : ¬ bs <+: opening := fun hp => hlen (h hp)
      rw [Bool.eq_iff_iff, List.isPrefixOf_iff_prefix, List.isPrefixOf_iff_prefix]
      constructor
      · intro hp
        have hlen : bs.length ≤ opening.length := by omega
        have hprefix := List.prefix_of_prefix_length_le (List.prefix_append bs more) hp hlen
        exact absurd hprefix hno
      · intro hp
        exact absurd hp.length_le hlen
  · intro hp
    have := h ((List.prefix_append bs more).trans hp)
    rw [List.length_append]
    omega

theorem declaration_settled
    (h : ¬ (declarationOpenings.any fun opening =>
      bs.isPrefixOf opening && bs.length < opening.length) = true) (hbs : 1 ≤ bs.length) :
    Settled (0x3E ∉ ·) c (declaration c here) bs := by
  have hdecided : ∀ opening ∈ declarationOpenings, ∀ more,
      opening.isPrefixOf (bs ++ more) = opening.isPrefixOf bs ∧
        ¬ ((bs ++ more).isPrefixOf opening && (bs ++ more).length < opening.length) = true := by
    intro opening ho
    refine opening_decided fun hp => h ?_
    exact List.any_eq_true.mpr ⟨opening, ho, hp⟩
  have hopen : ∀ more, ¬ (declarationOpenings.any fun opening =>
      (bs ++ more).isPrefixOf opening && (bs ++ more).length < opening.length) = true := by
    intro more hany
    obtain ⟨opening, ho, hp⟩ := List.any_eq_true.mp hany
    exact (hdecided opening ho more).2 hp
  have hreader : ∀ last more, declaration c here last (bs ++ more) =
      if (ascii "<!--").isPrefixOf bs then comment c here last (bs ++ more)
      else if (ascii "<![CDATA[").isPrefixOf bs then literalSection c here last (bs ++ more)
      else if (ascii "<!DOCTYPE").isPrefixOf bs then doctype c here last (bs ++ more)
      else c.failAt here .unknownDeclaration := by
    intro last more
    rw [declaration, if_neg (hopen more), (hdecided _ (by simp [declarationOpenings]) more).1,
      (hdecided _ (by simp [declarationOpenings]) more).1,
      (hdecided _ (by simp [declarationOpenings]) more).1]
  have hlen : ∀ opening : Bytes, opening.isPrefixOf bs → opening.length ≤ bs.length :=
    fun opening hp => (List.isPrefixOf_iff_prefix.mp hp).length_le
  by_cases h1 : (ascii "<!--").isPrefixOf bs
  · exact (comment_settled (hlen _ h1)).congr fun last more => by rw [hreader, if_pos h1]
  by_cases h2 : (ascii "<![CDATA[").isPrefixOf bs
  · exact (literalSection_settled (hlen _ h2)).congr fun last more => by
      rw [hreader, if_neg h1, if_pos h2]
  by_cases h3 : (ascii "<!DOCTYPE").isPrefixOf bs
  · exact (doctype_settled (hlen _ h3)).congr fun last more => by
      rw [hreader, if_neg h1, if_neg h2, if_pos h3]
  exact .failAt hbs fun last more => by rw [hreader, if_neg h1, if_neg h2, if_neg h3]

theorem markup_settled {idle : Bytes → Prop} (hi : ∀ more, idle more → 0x3E ∉ more)
    {second : UInt8} {rest : Bytes}
    (hd : Settled idle c (declaration c here) (0x3C :: second :: rest)) :
    Settled idle c (markup c here) (0x3C :: second :: rest) := by
  have hreader : ∀ last more, markup c here last (0x3C :: second :: rest ++ more) =
      if second == 0x2F then endTag c here last (0x3C :: second :: rest ++ more)
      else if second == 0x3F then instruction c here last (0x3C :: second :: rest ++ more)
      else if second == 0x21 then declaration c here last (0x3C :: second :: rest ++ more)
      else if isNameStart second then startTag c here last (0x3C :: second :: rest ++ more)
      else c.failAt (here + 1) .afterLessThan := fun _ _ => rfl
  by_cases h1 : (second == 0x2F) = true
  · exact ((endTag_settled (by simp)).mono hi).congr fun _ _ => by rw [hreader, if_pos h1]
  by_cases h2 : (second == 0x3F) = true
  · exact ((instruction_settled (by simp)).mono hi).congr fun _ _ => by
      rw [hreader, if_neg h1, if_pos h2]
  by_cases h3 : (second == 0x21) = true
  · exact hd.congr fun _ _ => by rw [hreader, if_neg h1, if_neg h2, if_pos h3]
  by_cases h4 : isNameStart second = true
  · exact ((startTag_settled (by simp)).mono hi).congr fun _ _ => by
      rw [hreader, if_neg h1, if_neg h2, if_neg h3, if_pos h4]
  exact .failAt (by simp) fun _ _ => by
    rw [hreader, if_neg h1, if_neg h2, if_neg h3, if_neg h4]

end

/-- Any byte but those that begin markup and references. -/
def isText (b : UInt8) : Bool := !(b == 0x3C || b == 0x26)

theorem read_settles {bs : Bytes} (hbs : bs ≠ [])
    (ht : ∀ b, bs.head? = some b → isText b = false) (c : Context) (here : Nat) :
    Settled (· = []) c (read c here) bs := by
  obtain ⟨first, rest, rfl⟩ := List.exists_cons_of_ne_nil hbs
  have ht := ht first rfl
  simp only [isText, Bool.not_eq_false', Bool.or_eq_true, beq_iff_eq] at ht
  rcases ht with rfl | rfl
  · cases rest with
    | nil => exact .inl ⟨here, .truncatedMarkup, fun last more hm => by subst hm; rfl⟩
    | cons second rest =>
      refine (markup_settled (by simp) ?_).congr fun _ _ => rfl
      by_cases h : (declarationOpenings.any fun opening =>
          (0x3C :: second :: rest).isPrefixOf opening &&
            (0x3C :: second :: rest).length < opening.length) = true
      · refine .inl ⟨here, .truncatedMarkup, fun last more hm => ?_⟩
        rw [hm, List.append_nil, declaration, if_pos h]
      · exact (declaration_settled h (by simp)).mono (by simp)
  · exact ((reference_settled (by simp)).mono (by simp)).congr fun _ _ => rfl

/-- A construct that waits goes on waiting until the byte that it awaits comes. -/
theorem read_awaits {bs : Bytes} {z : UInt8} (h : awaited? bs = some z) (c : Context) (here : Nat) :
    Settled (z ∉ ·) c (read c here) bs := by
  unfold awaited? at h
  split at h
  next rest =>
    obtain rfl := Option.some.inj h
    exact (reference_settled (by simp)).congr fun _ _ => rfl
  next rest =>
    split at h
    next h7 =>
      obtain rfl := Option.some.inj h
      have h7 : 7 < rest.length := by simpa using h7
      cases rest with
      | nil => simp at h7
      | cons second rest =>
        have hlen : 9 ≤ (0x3C :: second :: rest).length := by
          simp only [List.length_cons] at h7 ⊢
          omega
        have hmax : ∀ opening ∈ declarationOpenings, opening.length ≤ 9 := by decide
        refine (markup_settled (by simp) (declaration_settled ?_ (by simp))).congr fun _ _ => rfl
        intro hany
        obtain ⟨opening, ho, hp⟩ := List.any_eq_true.mp hany
        rw [Bool.and_eq_true, decide_eq_true_eq] at hp
        have := hmax opening ho
        omega
    next => simp at h
  next => simp at h

end Construct

end XmlStore
