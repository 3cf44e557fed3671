import XmlStore.Proofs.Doctypes
import XmlStore.Proofs.Escaping
import XmlStore.Proofs.LineFeeds
import XmlStore.Proofs.Naming

/-!
# Readers and line ends

A reader finds the same in a text whether or not the line ends of the text are line feeds: it fails
both times, or what it finds the second time has line feeds for line ends. Only the positions of
faults are others.
-/

namespace XmlStore

-- ---------------------------------------------------------------------------
-- Outcomes
-- ---------------------------------------------------------------------------

/-- Both outcomes are faults, or the second one is made of the first. -/
inductive Mirrors {ε α β : Type} (f : α → β) : Except ε α → Except ε β → Prop
  | ok (a : α) : Mirrors f (.ok a) (.ok (f a))
  | error (first second : ε) : Mirrors f (.error first) (.error second)

namespace Mirrors

variable {ε α β γ δ : Type} {f : α → β} {g : γ → δ} {first : Except ε α} {second : Except ε β}

theorem bind (h : Mirrors f first second) {next : α → Except ε γ} {next' : β → Except ε δ}
    (hn : ∀ a, first = .ok a → Mirrors g (next a) (next' (f a))) :
    Mirrors g (first >>= next) (second >>= next') := by
  cases h with
  | ok a => exact hn a rfl
  | error fault fault' => exact .error fault fault'

theorem map (h : Mirrors f first second) {k : α → γ} {k' : β → δ} (hk : ∀ a, k' (f a) = g (k a)) :
    Mirrors g (first.map k) (second.map k') := by
  cases h with
  | ok a =>
    change Mirrors g (.ok (k a)) (.ok (k' (f a)))
    rw [hk]
    exact .ok (k a)
  | error fault fault' => exact .error fault fault'

end Mirrors

section
variable {stop stop' : Nat} {text rest : Bytes} {b : UInt8}

theorem isSpace_of_trimStart (h : trimStart text = b :: rest) : isSpace b = false := by
  have hhead := List.head?_dropWhile_not isSpace text
  unfold trimStart at h
  rw [h] at hhead
  exact hhead

theorem trimStart_lineFeeds_cons (h : trimStart text = b :: rest) (s : Bool) :
    trimStart (lineFeeds s text) = b :: lineFeeds false rest := by
  have hb := not_isLineEnd_of_not_isSpace (isSpace_of_trimStart h)
  rw [trimStart_lineFeeds, h, lineFeeds_cons hb]

theorem of_trimStart_lineFeeds {s : Bool} (h : trimStart (lineFeeds s text) = b :: rest) :
    ∃ more, trimStart text = b :: more := by
  cases ht : trimStart text with
  | nil =>
    rw [trimStart_lineFeeds, ht] at h
    cases h
  | cons c more =>
    rw [trimStart_lineFeeds_cons ht] at h
    rw [(List.cons.inj h).1]
    exact ⟨more, rfl⟩

theorem cutAt?_quote_lineFeeds {quote : UInt8} (h : isQuote quote) (bs : Bytes) :
    cutAt? (· == quote) (lineFeeds false bs) =
      (cutAt? (· == quote) bs).map (feedParts false) := by
  refine cutAt?_lineFeeds (fun b hb => beq_eq_false_iff_ne.mpr ?_) false bs
  rintro rfl
  rw [isLineEnd_of_isQuote h] at hb
  cases hb

-- ---------------------------------------------------------------------------
-- Document type declarations
-- ---------------------------------------------------------------------------

def SubsetItem.fed : SubsetItem → SubsetItem
  | .entity name text => .entity name (lineFeeds false text)
  | .comment text => .comment (lineFeeds false text)
  | .instruction target data => .instruction target (lineFeeds false data)

def Doctype.fed (doctype : Doctype) : Doctype where
  name := doctype.name
  publicId := doctype.publicId.map (lineFeeds false)
  systemId := doctype.systemId.map (lineFeeds false)
  items := doctype.items.map SubsetItem.fed

theorem readLiteral_mirrors (stop stop' : Nat) (s : Bool) (text : Bytes) :
    Mirrors (feedParts false) (readLiteral stop text) (readLiteral stop' (lineFeeds s text)) := by
  unfold readLiteral
  cases ht : trimStart text with
  | nil =>
    rw [trimStart_lineFeeds, ht]
    exact .error _ _
  | cons quote quoted =>
    rw [trimStart_lineFeeds_cons ht]
    dsimp only
    split
    next hq =>
      rw [cutAt?_quote_lineFeeds hq]
      cases cutAt? (· == quote) quoted with
      | none => exact .error _ _
      | some found => exact .ok found
    next => exact .error _ _

theorem head?_lineFeeds_eq {d : UInt8} (h : isLineEnd d = false) (bs : Bytes) :
    (lineFeeds false bs).head? = some d ↔ bs.head? = some d := by
  have hd : d ≠ 0x0A := (isLineEnd_eq_false.mp h).1
  cases bs with
  | nil => exact Iff.rfl
  | cons b rest =>
    cases hb : isLineEnd b with
    | false => rw [lineFeeds_cons hb]; exact Iff.rfl
    | true =>
      rw [lineFeeds_lineEnd hb]
      constructor
      · intro he
        exact absurd (Option.some.inj he).symm hd
      · intro he
        rw [Option.some.inj he, h] at hb
        cases hb

theorem readEntity_mirrors (stop stop' : Nat) (s : Bool) (body : Bytes) :
    Mirrors (Option.map SubsetItem.fed) (readEntity stop body)
      (readEntity stop' (lineFeeds s body)) := by
  unfold readEntity
  dsimp only
  rw [trimStart_lineFeeds]
  by_cases hparameter : (trimStart body).head? = some 0x25
  · rw [if_pos hparameter, if_pos ((head?_lineFeeds_eq rfl _).mpr hparameter)]
    exact .ok none
  · rw [if_neg hparameter, if_neg (fun h => hparameter ((head?_lineFeeds_eq rfl _).mp h)),
      readName?_lineFeeds]
    cases readName? (trimStart body) with
    | none => exact .error _ _
    | some found =>
      obtain ⟨name, rest⟩ := found
      dsimp only [Option.map_some]
      have hquote : (trimStart (lineFeeds false rest)).head?.any isQuote =
          (trimStart rest).head?.any isQuote := by
        cases ht : trimStart rest with
        | nil => rw [trimStart_lineFeeds, ht, lineFeeds_nil]
        | cons quote quoted => rw [trimStart_lineFeeds_cons ht]; rfl
      rw [hquote]
      split
      · rw [trimStart_lineFeeds]
        exact (readLiteral_mirrors ..).map fun _ => rfl
      · exact .ok none

/-- What is found of an item, and what follows it. -/
def feedItem (found : Option SubsetItem × Bytes) : Option SubsetItem × Bytes :=
  (found.1.map SubsetItem.fed, lineFeeds false found.2)

theorem readItem_mirrors (stop stop' : Nat) (text : Bytes) :
    Mirrors feedItem (readItem stop text) (readItem stop' (lineFeeds false text)) := by
  have hopens {opening : Bytes} (h : OneLine opening) := isPrefixOf_lineFeeds h text
  unfold readItem failAtStart
  rw [hopens (show OneLine (ascii "<!--") by decide),
    hopens (show OneLine (ascii "<?>") by decide),
    hopens (show OneLine (ascii "<?") by decide),
    hopens (show OneLine (ascii "<!ENTITY") by decide),
    hopens (show OneLine (ascii "<!") by decide)]
  split
  next hp =>
    have hdrop : (lineFeeds false text).drop 4 = lineFeeds false (text.drop 4) :=
      drop_lineFeeds (by decide) hp
    rw [hdrop, cut?_lineFeeds (by decide) (by decide)]
    cases cut? (ascii "-->") (text.drop 4) with
    | none => exact .error _ _
    | some found => exact .ok (some (SubsetItem.comment found.1), found.2)
  next =>
    split
    next => exact .error _ _
    next =>
      split
      next hp =>
        have hdrop : (lineFeeds false text).drop 2 = lineFeeds false (text.drop 2) :=
          drop_lineFeeds (by decide) hp
        rw [hdrop, cut?_lineFeeds (by decide) (by decide)]
        cases cut? (ascii "?>") (text.drop 2) with
        | none => exact .error _ _
        | some found =>
          obtain ⟨body, rest⟩ := found
          dsimp only [Option.map_some, feedParts]
          rw [readName?_lineFeeds]
          cases readName? body with
          | none => exact .error _ _
          | some found =>
            obtain ⟨target, data⟩ := found
            dsimp only [Option.map_some]
            rw [trimStart_lineFeeds]
            exact .ok (some (SubsetItem.instruction target (trimStart data)), rest)
      next =>
        split
        next hp =>
          have hdrop : (lineFeeds false text).drop 8 = lineFeeds false (text.drop 8) :=
            drop_lineFeeds (by decide) hp
          rw [hdrop, cutUnquoted?_lineFeeds (by simp)]
          cases cutUnquoted? none (text.drop 8) with
          | none => exact .error _ _
          | some found =>
            obtain ⟨body, rest⟩ := found
            dsimp only [Option.map_some, feedParts]
            have hentity := readEntity_mirrors body.length (lineFeeds false body).length false body
            generalize readEntity body.length body = first at hentity
            generalize readEntity _ (lineFeeds false body) = second at hentity
            cases hentity with
            | ok item => exact .ok (item, rest)
            | error => exact .error _ _
        next =>
          split
          next hp =>
            have hdrop : (lineFeeds false text).drop 2 = lineFeeds false (text.drop 2) :=
              drop_lineFeeds (by decide) hp
            rw [hdrop, cutUnquoted?_lineFeeds (by simp)]
            cases cutUnquoted? none (text.drop 2) with
            | none => exact .error _ _
            | some found => exact .ok (none, found.2)
          next =>
            by_cases hreference : text.head? = some 0x25
            · have hline : ∀ b, isLineEnd b → (b == 0x3B) = false := by
                intro b hb
                refine beq_eq_false_iff_ne.mpr ?_
                rintro rfl
                cases hb
              rw [if_pos hreference, if_pos ((head?_lineFeeds_eq rfl _).mpr hreference),
                cutAt?_lineFeeds hline]
              cases cutAt? (· == 0x3B) text with
              | none => exact .ok (none, [])
              | some found => exact .ok (none, found.2)
            · rw [if_neg hreference, if_neg fun h => hreference ((head?_lineFeeds_eq rfl _).mp h)]
              exact .error _ _

/-- The name of an entity holds no line end. -/
def SubsetItem.Named : SubsetItem → Prop
  | .entity name _ => OneLine name
  | _ => True

theorem oneLine_of_isName {name : Bytes} (h : isName name) : OneLine name := by
  intro b hb
  refine Bool.eq_false_iff.mpr fun hline => ?_
  have hname := isNameByte_of_isName h b hb
  rw [not_isNameByte_of_isLineEnd hline] at hname
  cases hname

theorem readEntity_named {body : Bytes} {item : SubsetItem}
    (h : readEntity stop body = .ok (some item)) : item.Named := by
  unfold readEntity at h
  dsimp only at h
  split at h
  · cases h
  · split at h
    next => cases h
    next name rest hname =>
      split at h
      · obtain ⟨literal, -, he⟩ := Reading.map_eq_ok h
        cases he
        exact oneLine_of_isName (readName?_named hname)
      · cases h

/-- An item takes bytes off the text, and an entity has a name. -/
theorem readItem_sound {item : Option SubsetItem} (hne : text ≠ [])
    (h : readItem stop text = .ok (item, rest)) :
    rest.length < text.length ∧ ∀ found ∈ item, found.Named := by
  have hpos : 0 < text.length := List.length_pos_iff.mpr hne
  have hremark {found : SubsetItem} (hf : found.Named) : ∀ other ∈ some found, other.Named := by
    rintro _ ⟨rfl⟩
    exact hf
  unfold readItem failAtStart at h
  split at h
  · split at h
    next => cases h
    next comment after hc =>
      cases h
      have hlength := cut?_length hc
      rw [List.length_drop] at hlength
      exact ⟨by omega, hremark trivial⟩
  · split at h
    · cases h
    · split at h
      · split at h
        next => cases h
        next body after hc =>
          have hlength := cut?_length hc
          rw [List.length_drop] at hlength
          split at h
          next => cases h
          next =>
            cases h
            exact ⟨by omega, hremark trivial⟩
      · split at h
        · split at h
          next => cases h
          next body after hc =>
            have hlength := congrArg List.length (cutUnquoted?_append hc)
            rw [List.length_drop, List.length_append, List.length_cons] at hlength
            split at h
            next => cases h
            next found hentity =>
              cases h
              refine ⟨by omega, ?_⟩
              rintro found rfl
              exact readEntity_named hentity
        · split at h
          · split at h
            next => cases h
            next body after hc =>
              cases h
              have hlength := congrArg List.length (cutUnquoted?_append hc)
              rw [List.length_drop, List.length_append, List.length_cons] at hlength
              exact ⟨by omega, by simp⟩
          · split at h
            · split at h
              next =>
                cases h
                exact ⟨hpos, by simp⟩
              next before after hc =>
                cases h
                obtain ⟨b, -, hbytes, -⟩ := cutAt?_append hc
                have hlength := congrArg List.length hbytes
                rw [List.length_append, List.length_cons] at hlength
                exact ⟨by omega, by simp⟩
            · cases h

theorem readItems_nil (stop fuel : Nat) : readItems stop fuel [] = .ok [] := by
  cases fuel <;> rfl

theorem readItems_mirrors (stop stop' : Nat) {fuel fuel' : Nat} {s : Bool} {text : Bytes}
    (hf : text.length ≤ fuel) (hf' : (lineFeeds s text).length ≤ fuel') :
    Mirrors (List.map SubsetItem.fed) (readItems stop fuel text)
      (readItems stop' fuel' (lineFeeds s text)) := by
  induction fuel generalizing fuel' s text with
  | zero =>
    obtain rfl := List.length_eq_zero_iff.mp (Nat.le_zero.mp hf)
    rw [lineFeeds_nil, readItems_nil, readItems_nil]
    exact .ok []
  | succ fuel ih =>
    have htrim := length_trimStart_le text
    have htrim' := length_trimStart_le (lineFeeds s text)
    rw [← SubsetPart.readItems_trimStart, ← SubsetPart.readItems_trimStart stop' fuel']
    cases ht : trimStart text with
    | nil =>
      rw [trimStart_lineFeeds, ht, lineFeeds_nil, readItems_nil, readItems_nil]
      exact .ok []
    | cons b more =>
      have hb := isSpace_of_trimStart ht
      have ht' := trimStart_lineFeeds_cons ht s
      rw [ht] at htrim
      rw [ht', List.length_cons] at htrim'
      obtain ⟨fuel', rfl⟩ := Nat.exists_eq_succ_of_ne_zero (show fuel' ≠ 0 by omega)
      have hself (rest : Bytes) : trimStart (b :: rest) = b :: rest :=
        List.dropWhile_cons_of_neg (by simp [hb])
      rw [ht', readItems, readItems, hself, hself]
      simp only [List.isEmpty_cons, Bool.false_eq_true, ↓reduceIte]
      have hitem := readItem_mirrors stop stop' (b :: more)
      rw [lineFeeds_cons (not_isLineEnd_of_not_isSpace hb)] at hitem
      cases hi : readItem stop (b :: more) with
      | error fault =>
        rw [hi] at hitem
        generalize readItem stop' _ = second at hitem
        cases hitem with
        | error => exact .error _ _
      | ok found =>
        rw [hi] at hitem
        generalize hi' : readItem stop' _ = second at hitem
        cases hitem with
        | ok found =>
          obtain ⟨item, rest⟩ := found
          have hlength := (readItem_sound (List.cons_ne_nil _ _) hi).1
          have hlength' := (readItem_sound (List.cons_ne_nil _ _) hi').1
          simp only [List.length_cons] at hlength'
          have hrest : Mirrors (List.map SubsetItem.fed) (readItems stop fuel rest)
              (readItems stop' fuel' (lineFeeds false rest)) := ih (by omega) (by omega)
          refine Mirrors.bind hrest fun items _ => ?_
          have hjoin : (item.map SubsetItem.fed).toList ++ items.map SubsetItem.fed =
              (item.toList ++ items).map SubsetItem.fed := by
            cases item <;> rfl
          dsimp only [feedItem]
          rw [hjoin]
          exact .ok (item.toList ++ items)

theorem readItems_named {fuel : Nat} {items : List SubsetItem}
    (h : readItems stop fuel text = .ok items) : ∀ item ∈ items, item.Named := by
  induction fuel generalizing text items with
  | zero =>
    cases h
    simp
  | succ fuel ih =>
    rw [readItems] at h
    dsimp only at h
    split at h
    · cases h
      simp
    next hne =>
      have hne : trimStart text ≠ [] := fun ht => hne (by rw [ht]; rfl)
      obtain ⟨⟨item, rest⟩, hitem, h⟩ := exists_of_bind_eq_ok h
      obtain ⟨others, hothers, h⟩ := exists_of_bind_eq_ok h
      cases h
      refine List.forall_mem_append.mpr ⟨fun found hf => ?_, ih hothers⟩
      exact (readItem_sound hne hitem).2 found (Option.mem_toList.mp hf)

/-- What is found of the external identifiers, and what follows them. -/
def feedExternalId (found : Option Bytes × Option Bytes × Bytes) :
    Option Bytes × Option Bytes × Bytes :=
  (found.1.map (lineFeeds false), found.2.1.map (lineFeeds false), lineFeeds false found.2.2)

theorem readExternalId_mirrors (stop stop' : Nat) (text : Bytes) :
    Mirrors feedExternalId (readExternalId stop text)
      (readExternalId stop' (lineFeeds false text)) := by
  unfold readExternalId
  rw [isPrefixOf_lineFeeds (show OneLine (ascii "PUBLIC") by decide),
    isPrefixOf_lineFeeds (show OneLine (ascii "SYSTEM") by decide)]
  split
  next hp =>
    have hdrop : (lineFeeds false text).drop 6 = lineFeeds false (text.drop 6) :=
      drop_lineFeeds (by decide) hp
    rw [hdrop]
    refine (readLiteral_mirrors ..).bind fun publicId _ => ?_
    refine (readLiteral_mirrors ..).bind fun systemId _ => ?_
    exact .ok (some publicId.1, some systemId.1, systemId.2)
  next =>
    split
    next hp =>
      have hdrop : (lineFeeds false text).drop 6 = lineFeeds false (text.drop 6) :=
        drop_lineFeeds (by decide) hp
      rw [hdrop]
      refine (readLiteral_mirrors ..).bind fun systemId _ => ?_
      exact .ok (none, some systemId.1, systemId.2)
    next => exact .ok (none, none, text)

theorem readDoctype_mirrors (stop stop' : Nat) (s : Bool) (content : Bytes) :
    Mirrors Doctype.fed (readDoctype stop content) (readDoctype stop' (lineFeeds s content)) := by
  unfold readDoctype
  dsimp only
  rw [trimStart_lineFeeds, readName?_lineFeeds]
  cases readName? (trimStart content) with
  | none => exact .error _ _
  | some found =>
    obtain ⟨name, rest⟩ := found
    dsimp only [Option.map_some]
    rw [trimStart_lineFeeds]
    refine (readExternalId_mirrors ..).bind fun externalId _ => ?_
    obtain ⟨publicId, systemId, rest⟩ := externalId
    dsimp only [feedExternalId]
    split
    next inner ht =>
      have ht' := trimStart_lineFeeds_cons ht false
      simp only [ht', cutLastBracket?_lineFeeds]
      cases cutLastBracket? inner with
      | none => exact .error _ _
      | some found =>
        obtain ⟨subset, after⟩ := found
        have hitems := readItems_mirrors (stop - (after.length + 1))
          (stop' - ((lineFeeds false after).length + 1)) (Nat.le_refl subset.length)
          (Nat.le_refl (lineFeeds false subset).length)
        refine hitems.bind fun items _ => ?_
        exact .ok ({ name, publicId, systemId, items } : Doctype)
    next hno =>
      split
      next inner' ht' =>
        obtain ⟨more, ht⟩ := of_trimStart_lineFeeds ht'
        exact absurd ht (hno more)
      next => exact .ok ({ name, publicId, systemId } : Doctype)

theorem readDoctype_named {content : Bytes} {doctype : Doctype}
    (h : readDoctype stop content = .ok doctype) : ∀ item ∈ doctype.items, item.Named := by
  unfold readDoctype at h
  dsimp only at h
  split at h
  next => cases h
  next =>
    obtain ⟨⟨publicId, systemId, rest⟩, -, h⟩ := exists_of_bind_eq_ok h
    dsimp only at h
    split at h
    · split at h
      next => cases h
      next =>
        obtain ⟨items, hitems, h⟩ := exists_of_bind_eq_ok h
        cases h
        exact readItems_named hitems
    · cases h
      simp

-- ---------------------------------------------------------------------------
-- Attributes
-- ---------------------------------------------------------------------------

def Attribute.fed (att : Attribute) : Attribute := { att with value := lineFeeds false att.value }

/-- An attribute, and what follows it. -/
def feedAttribute (found : Attribute × Bytes) : Attribute × Bytes :=
  (found.1.fed, lineFeeds false found.2)

theorem readAttribute_mirrors (stop stop' : Nat) (text : Bytes) :
    Mirrors feedAttribute (readAttribute stop text)
      (readAttribute stop' (lineFeeds false text)) := by
  unfold readAttribute
  rw [readName?_lineFeeds]
  cases readName? text with
  | none => exact .error _ _
  | some found =>
    obtain ⟨name, afterName⟩ := found
    dsimp only [Option.map_some]
    split
    next afterEquals ht =>
      simp only [trimStart_lineFeeds_cons ht]
      cases hq : trimStart afterEquals with
      | nil =>
        simp only [trimStart_lineFeeds, hq, lineFeeds_nil]
        exact .error _ _
      | cons quote quoted =>
        simp only [trimStart_lineFeeds_cons hq]
        split
        next hquote =>
          rw [cutAt?_quote_lineFeeds hquote]
          cases cutAt? (· == quote) quoted with
          | none => exact .error _ _
          | some found =>
            obtain ⟨value, rest⟩ := found
            have hlt : (lineFeeds false value).contains 0x3C = value.contains 0x3C := by
              have hmem := @mem_lineFeeds_iff value 0x3C false rfl
              rw [Bool.eq_iff_iff, List.contains_iff_mem, List.contains_iff_mem, hmem]
            simp only [Option.map_some, feedParts, hlt]
            split
            · exact .error _ _
            · exact .ok (Attribute.mk name value, rest)
        next => exact .error _ _
    next hno =>
      split
      next afterEquals ht' =>
        obtain ⟨more, ht⟩ := of_trimStart_lineFeeds ht'
        exact absurd ht (hno more)
      next => exact .error _ _

theorem rawAttributes_fault {body : Bytes} {fault : Error} (htext : trimStart text = body)
    (hbody : body ≠ []) (h : readAttribute stop body = .error fault) :
    rawAttributes stop text = ([], some fault) := by
  rw [rawAttributes]
  split
  next hnil => exact absurd (htext.symm.trans hnil) hbody
  next b tail hcons =>
    rw [← hcons, htext]
    split
    next fault' he =>
      rw [h] at he
      cases he
      rfl
    next att rest he =>
      rw [h] at he
      cases he

theorem rawAttributes_lineFeeds (stop stop' : Nat) (s : Bool) (text : Bytes) :
    (rawAttributes stop' (lineFeeds s text)).1 =
        (rawAttributes stop text).1.map Attribute.fed ∧
      (rawAttributes stop' (lineFeeds s text)).2.isSome = (rawAttributes stop text).2.isSome := by
  fun_induction rawAttributes stop text generalizing s with
  | case1 text ht =>
    rw [rawAttributes, trimStart_lineFeeds, ht]
    exact ⟨rfl, rfl⟩
  | case2 text b rest ht fault hread =>
    have ht' := trimStart_lineFeeds_cons ht s
    have hmirrors := readAttribute_mirrors stop stop' (b :: rest)
    rw [lineFeeds_cons (not_isLineEnd_of_not_isSpace (isSpace_of_trimStart ht)), hread] at hmirrors
    generalize hread' : readAttribute stop' _ = second at hmirrors
    cases hmirrors with
    | error =>
      rw [rawAttributes_fault ht' (List.cons_ne_nil _ _) hread']
      exact ⟨rfl, rfl⟩
  | case3 text b rest ht att more hread others ih =>
    have ht' := trimStart_lineFeeds_cons ht s
    have hmirrors := readAttribute_mirrors stop stop' (b :: rest)
    rw [lineFeeds_cons (not_isLineEnd_of_not_isSpace (isSpace_of_trimStart ht)), hread] at hmirrors
    generalize hread' : readAttribute stop' _ = second at hmirrors
    cases hmirrors with
    | ok =>
      obtain ⟨hothers, hfault⟩ := ih false
      rw [rawAttributes_cons ht' (List.cons_ne_nil _ _) hread']
      exact ⟨congrArg (att.fed :: ·) hothers, hfault⟩

-- ---------------------------------------------------------------------------
-- Declared encodings
-- ---------------------------------------------------------------------------

theorem declaredEncoding?_mirrors (data : Bytes) :
    Mirrors (Option.map (lineFeeds false)) (Construct.declaredEncoding? data)
      (Construct.declaredEncoding? (lineFeeds false data)) := by
  unfold Construct.declaredEncoding?
  rw [cut?_lineFeeds (show OneLine (ascii "encoding") by decide) (by decide)]
  cases cut? (ascii "encoding") data with
  | none => exact .ok none
  | some found =>
    obtain ⟨before, rest⟩ := found
    dsimp only [Option.map_some, feedParts]
    split
    next afterEquals ht =>
      simp only [trimStart_lineFeeds_cons ht]
      cases hq : trimStart afterEquals with
      | nil =>
        simp only [trimStart_lineFeeds, hq, lineFeeds_nil]
        exact .error _ _
      | cons quote quoted =>
        simp only [trimStart_lineFeeds_cons hq]
        split
        next hquote =>
          rw [cutAt?_quote_lineFeeds hquote]
          cases cutAt? (· == quote) quoted with
          | none => exact .error _ _
          | some found => exact .ok (some found.1)
        next => exact .error _ _
    next hno =>
      split
      next afterEquals ht' =>
        obtain ⟨more, ht⟩ := of_trimStart_lineFeeds ht'
        exact absurd ht (hno more)
      next => exact .error _ _

end

end XmlStore
