import XmlStore.Proofs.Finished
import XmlStore.Proofs.LockStep
import XmlStore.Proofs.Naming

/-!
# The normal form of ingested documents

In the store of an ingested document there is one root element, each run of character data is one
text, and no attribute comes twice. The parser keeps the order of events and tells attributes
apart, the assembly makes one call of each run, and the builder drops what is no node. An automaton
over the calls says what the first two guarantee; an outline that takes the steps of the automaton
keeps what the store then shows.
-/

namespace XmlStore

-- ---------------------------------------------------------------------------
-- Calls in order
-- ---------------------------------------------------------------------------

/-- How far a document has come. In its content there are so many elements around the innermost
open one. -/
inductive Region where
  | unstarted
  | prolog
  | content (above : Nat)
  | epilog
  | ended

namespace Region

/-- The number of open elements. -/
def depth : Region → Nat
  | content above => above + 1
  | _ => 0

/-- After the end of an element with so many elements around it. -/
def within : Nat → Region
  | 0 => epilog
  | above + 1 => content above

@[simp] theorem depth_within (above : Nat) : (within above).depth = above := by
  cases above <;> rfl

/-- An element may begin in a region, which then is the content of the element. -/
inductive Enters : Region → Region → Prop
  | root : Enters prolog (content 0)
  | child (above : Nat) : Enters (content above) (content (above + 1))

theorem Enters.depth {region inner : Region} (h : region.Enters inner) :
    inner.depth = region.depth + 1 := by
  cases h <;> rfl

end Region

/-- A region, and whether the last node in it is a text that nothing has followed yet. -/
structure Site where
  region : Region
  afterText : Bool := false

def Call.text? : Call → Option Bytes
  | .text content _ => some content
  | _ => none

namespace Site

/-- What the next call may be. Texts stand alone, are not empty, and are well formed; the names of
attributes are distinct. -/
inductive Step : Site → Call → Site → Prop
  | startDocument {afterText : Bool} (name : Bytes) :
    Step ⟨.unstarted, afterText⟩ (.startDocument name) { region := .prolog }
  | comment {region : Region} {afterText : Bool} (content : Bytes) :
    Step ⟨region, afterText⟩ (.comment content) { region }
  | instruction {region : Region} {afterText : Bool} (content : Bytes) :
    Step ⟨region, afterText⟩ (.instruction content) { region }
  | declareNamespace {site : Site} (qualifier uri : Bytes) :
    Step site (.declareNamespace qualifier uri) site
  | startElement {region inner : Region} {afterText : Bool} (h : region.Enters inner)
    (name : Bytes) {attributes : List Attribute} (ha : (attributes.map (·.name)).Nodup) :
    Step ⟨region, afterText⟩ (.startElement name attributes) { region := inner }
  | text {above : Nat} {content : Bytes} (hne : content ≠ []) (hv : Utf8.isValid content) :
    Step { region := .content above } (.text content false) ⟨.content above, true⟩
  | endElement {above : Nat} {afterText : Bool} (name : Bytes) :
    Step ⟨.content above, afterText⟩ (.endElement name) { region := .within above }
  | endDocument {afterText : Bool} : Step ⟨.epilog, afterText⟩ .endDocument { region := .ended }

/-- Calls from before a document on. -/
inductive Steps : List Call → Site → Prop
  | start : Steps [] { region := .unstarted }
  | next {calls : List Call} {call : Call} {site later : Site} (h : Steps calls site)
    (hs : Step site call later) : Steps (calls ++ [call]) later

end Site

-- ---------------------------------------------------------------------------
-- Calls of a document
-- ---------------------------------------------------------------------------

namespace Event

variable {event : Event} {events rest : List Event} {call : Call} {calls : List Call} {run : Bytes}
  {declared : List (Bytes × Bytes)} {inDoctype : Bool}

end Event

namespace Site

variable {before calls : List Call} {region : Region} {run : Bytes}

theorem Steps.declared {site : Site} (h : Steps before site) (declared : List (Bytes × Bytes)) :
    Steps (before ++ declared.map fun ns => .declareNamespace ns.1 ns.2) site := by
  induction declared generalizing before with
  | nil => simpa using h
  | cons ns rest ih =>
    rw [List.map_cons, List.append_cons]
    exact ih (h.next (.declareNamespace ns.1 ns.2))

theorem Steps.flushed (h : Steps before { region }) (hv : Utf8.isValid run)
    (hrun : run ≠ [] → ∃ above, region = .content above) (declared : List (Bytes × Bytes)) :
    ∃ afterText, Steps (before ++ Event.flushed run declared) ⟨region, afterText⟩ := by
  unfold Event.flushed
  cases hempty : run.isEmpty with
  | true => exact ⟨false, h.declared declared⟩
  | false =>
    have hne : run ≠ [] := List.isEmpty_eq_false_iff.mp hempty
    obtain ⟨above, rfl⟩ := hrun hne
    have htext := (h.next (.text hne hv)).declared declared
    rw [List.append_assoc] at htext
    exact ⟨true, htext⟩

end Site

namespace Place

/-- The region of the calls for what comes next. -/
def region : Place → Region
  | unstarted => .unstarted
  | prolog _ | subset | declaring [] => .prolog
  | declaring (_ :: path) | content _ path => .content path.length
  | epilog => .epilog
  | ended => .ended

variable {place : Place} {events : List Event} {before calls : List Call} {run : Bytes}
  {declared : List (Bytes × Bytes)}

end Place

-- ---------------------------------------------------------------------------
-- Nodes of one parent
-- ---------------------------------------------------------------------------

def Item.text? : Item → Option Bytes
  | .text value => some value
  | _ => none

def Item.isElement : Item → Bool
  | .element .. => true
  | _ => false

/-- What stands right below a node, in order: its attributes, or everything else. -/
def itemsBelow (entries : List Entry) (p : Nat) (attributes : Bool) : List Item :=
  (entries.filter fun entry => entry.parent == some p && entry.item.isAttr == attributes).map
    (·.item)

def textsOf (entries : List Entry) : List Bytes := entries.filterMap (·.item.text?)

/-- One of two neighbours is no text. -/
def Item.Apart (a b : Item) : Prop := a.text? = none ∨ b.text? = none

section
variable {entries new : List Entry} {p : Nat} {attributes : Bool} {item : Item}

@[simp] theorem itemsBelow_append (entries new : List Entry) (p : Nat) (attributes : Bool) :
    itemsBelow (entries ++ new) p attributes =
      itemsBelow entries p attributes ++ itemsBelow new p attributes := by
  simp [itemsBelow]

@[simp] theorem textsOf_append (entries new : List Entry) :
    textsOf (entries ++ new) = textsOf entries ++ textsOf new := by
  simp [textsOf]

theorem itemsBelow_single (parent : Option Nat) (item : Item) (p : Nat) (attributes : Bool) :
    itemsBelow [⟨parent, item⟩] p attributes =
      if parent = some p ∧ item.isAttr = attributes then [item] else [] := by
  unfold itemsBelow
  split <;> simp_all

theorem itemsBelow_attributes (q : Nat) (atts : List Attribute) (p : Nat) (attributes : Bool) :
    itemsBelow (atts.map fun att => ⟨some q, .attr att.name att.value⟩) p attributes =
      if q = p ∧ attributes then atts.map fun att => .attr att.name att.value else [] := by
  unfold itemsBelow
  split <;> simp_all [List.filter_map, Function.comp_def, Item.isAttr]

theorem NodeTable.Layout.itemsBelow_length {table : NodeTable} {path : List Nat}
    (h : table.Layout path) (attributes : Bool) :
    itemsBelow (table.map fun row => ⟨row.parent, row.item⟩) table.length attributes = [] := by
  simp only [itemsBelow, List.map_eq_nil_iff, List.filter_eq_nil_iff, List.forall_mem_map]
  intro row hm hbelow
  obtain ⟨q, hrow⟩ := List.mem_iff_getElem?.mp hm
  have hq := (List.getElem?_eq_some_iff.mp hrow).1
  have hparent : row.parent = some table.length := by simp_all
  have := (h.parent hrow hparent).1
  omega

end

/-- A text of a document: it is not empty, is well formed, and is not dropped. -/
structure GoodText (chop : Bool) (value : Bytes) : Prop where
  nonempty : value ≠ []
  valid : Utf8.isValid value
  kept : chop = true → ∃ b ∈ value, isSpace b = false

/-- Nodes in normal form, of which more may come. -/
structure Neat (chop : Bool) (entries : List Entry) : Prop where
  apart : ∀ p, (itemsBelow entries p false).IsChain Item.Apart
  document : ∀ item ∈ itemsBelow entries 0 false, item.text? = none
  texts : ∀ value ∈ textsOf entries, GoodText chop value
  attributes : ∀ p, ((itemsBelow entries p true).map (·.name)).Nodup

/-- The last node below another one is no text. -/
def Settled (entries : List Entry) (p : Nat) : Prop :=
  ∀ item ∈ (itemsBelow entries p false).getLast?, item.text? = none

section
variable {chop : Bool} {entries : List Entry} {p q : Nat} {item : Item} {atts : List Attribute}

theorem Neat.push (h : Neat chop entries) (hattr : item.isAttr = false)
    (hitem : item.text? = none ∨ p ≠ 0 ∧ Settled entries p)
    (htext : ∀ value, item.text? = some value → GoodText chop value) :
    Neat chop (entries ++ [⟨some p, item⟩]) where
  apart := by
    intro q
    rw [itemsBelow_append, itemsBelow_single]
    split
    next hq =>
      obtain rfl := Option.some.inj hq.1
      refine List.isChain_append.mpr ⟨h.apart p, .singleton item, ?_⟩
      rintro last hlast _ ⟨rfl⟩
      exact hitem.elim .inr fun hsettled => .inl (hsettled.2 last hlast)
    next =>
      rw [List.append_nil]
      exact h.apart q
  document := by
    rw [itemsBelow_append, itemsBelow_single, List.forall_mem_append]
    refine ⟨h.document, ?_⟩
    split
    next hq =>
      obtain rfl := Option.some.inj hq.1
      exact List.forall_mem_singleton.mpr (hitem.elim id fun hne => absurd rfl hne.1)
    next => simp
  texts := by
    rw [textsOf_append, List.forall_mem_append]
    refine ⟨h.texts, fun value hm => htext value ?_⟩
    simpa [textsOf] using hm
  attributes := by
    intro q
    rw [itemsBelow_append, itemsBelow_single, if_neg (by simp [hattr]), List.append_nil]
    exact h.attributes q

theorem Neat.addAttributes (h : Neat chop entries) (hnone : itemsBelow entries q true = [])
    (hd : (atts.map (·.name)).Nodup) :
    Neat chop (entries ++ atts.map fun att => ⟨some q, .attr att.name att.value⟩) where
  apart := by
    intro p
    rw [itemsBelow_append, itemsBelow_attributes, if_neg (by simp), List.append_nil]
    exact h.apart p
  document := by
    rw [itemsBelow_append, itemsBelow_attributes, if_neg (by simp), List.append_nil]
    exact h.document
  texts := by
    have hnotext : textsOf (atts.map fun att => ⟨some q, .attr att.name att.value⟩) = [] := by
      simp [textsOf, Item.text?]
    rw [textsOf_append, hnotext, List.append_nil]
    exact h.texts
  attributes := by
    intro p
    rw [itemsBelow_append, itemsBelow_attributes]
    split
    next hq =>
      obtain rfl := hq.1
      simpa [hnone, Function.comp_def, Item.name] using hd
    next =>
      rw [List.append_nil]
      exact h.attributes p

theorem Settled.push (h : Settled entries q) (hitem : item.text? = none ∨ p ≠ q) :
    Settled (entries ++ [⟨some p, item⟩]) q := by
  unfold Settled
  rw [itemsBelow_append, itemsBelow_single]
  split
  next hq =>
    obtain rfl := Option.some.inj hq.1
    rw [List.getLast?_concat]
    rintro _ ⟨rfl⟩
    exact hitem.elim id fun hne => absurd rfl hne
  next =>
    rw [List.append_nil]
    exact h

theorem settled_push (entries : List Entry) (p : Nat) (hattr : item.isAttr = false)
    (hitem : item.text? = none) : Settled (entries ++ [⟨some p, item⟩]) p := by
  unfold Settled
  rw [itemsBelow_append, itemsBelow_single, if_pos ⟨rfl, hattr⟩, List.getLast?_concat]
  rintro _ ⟨rfl⟩
  exact hitem

theorem settled_of_none (h : itemsBelow entries p false = []) : Settled entries p := by
  simp [Settled, h]

theorem Settled.addAttributes (h : Settled entries p) (q : Nat) (atts : List Attribute) :
    Settled (entries ++ atts.map fun att => ⟨some q, .attr att.name att.value⟩) p := by
  unfold Settled
  rw [itemsBelow_append, itemsBelow_attributes, if_neg (by simp), List.append_nil]
  exact h

end

-- ---------------------------------------------------------------------------
-- Outlines of documents
-- ---------------------------------------------------------------------------

/-- The number of root elements that have begun. -/
def Region.roots : Region → Nat
  | unstarted | prolog => 0
  | _ => 1

/-- The outline of a document that has come so far with these calls. -/
structure Outline.Tidy (outline : Outline) (chop : Bool) (site : Site) (calls : List Call) :
    Prop where
  chops : outline.chop = chop
  neat : Neat chop outline.entries
  depth : outline.opened.length = site.region.depth
  settled : ∀ p ∈ outline.path.tail, Settled outline.entries p
  ready : site.afterText = false → ∀ p ∈ outline.path.head?, Settled outline.entries p
  root : (itemsBelow outline.entries 0 false).countP Item.isElement = site.region.roots
  spelled : chop = false → textsOf outline.entries = calls.filterMap Call.text?

namespace Outline.Tidy

variable {outline later : Outline} {chop : Bool} {site next : Site} {region : Region}
  {calls : List Call} {call : Call} {p : Nat} {rest : List Nat}

theorem ofName (chop : Bool) (name : Bytes) :
    (Outline.ofName chop name).Tidy chop { region := .prolog } [.startDocument name] := by
  have hnone (p : Nat) (attributes : Bool) :
      itemsBelow (Outline.ofName chop name).entries p attributes = [] := rfl
  refine ⟨rfl, ⟨?_, ?_, ?_, ?_⟩, rfl, ?_, ?_, rfl, fun _ => rfl⟩
  · exact fun p => .nil
  · rintro _ ⟨⟩
  · rintro _ ⟨⟩
  · exact fun p => .nil
  · rintro _ ⟨⟩
  · exact fun _ p _ => settled_of_none (hnone p false)

theorem lt_head (hw : outline.WellFormed) (hpath : outline.path = p :: rest) :
    ∀ q ∈ rest, q < p := by
  have hchain := hw.layout.chain
  rw [hpath] at hchain
  cases hchain with
  | cons _ _ _ habove _ => exact habove

/-- The document is the innermost open node if no element is open. -/
theorem head_eq_zero_iff (hw : outline.WellFormed) (hpath : outline.path = p :: rest) :
    p = 0 ↔ outline.opened.length = 0 := by
  constructor
  · rintro rfl
    have hrest : rest = [] := List.eq_nil_iff_forall_not_mem.mpr fun q hq =>
      absurd (lt_head hw hpath q hq) (Nat.not_lt_zero q)
    have hlength := hw.opens.length
    rw [hpath, hrest] at hlength
    exact (Nat.succ.inj hlength).symm
  · intro hopened
    have hopens := hw.opens
    rw [List.length_eq_zero_iff.mp hopened] at hopens
    rw [hopens.path_eq] at hpath
    exact (List.cons.inj hpath).1.symm

theorem remark (h : outline.Tidy chop site calls) (hw : outline.WellFormed) {item : Item}
    (hattr : item.isAttr = false) (htext : item.text? = none) (hroot : item.isElement = false)
    (hcall : call.text? = none) :
    (outline.leaf item).Tidy chop { region := site.region } (calls ++ [call]) := by
  obtain ⟨p, rest, hpath⟩ := hw.exists_path
  have hentries : (outline.leaf item).entries = outline.entries ++ [⟨some p, item⟩] := by
    rw [entries_leaf, hpath]
    rfl
  refine ⟨h.chops, ?_, h.depth, ?_, ?_, ?_, ?_⟩
  · rw [hentries]
    exact h.neat.push hattr (.inl htext) (by simp [htext])
  · rw [hentries]
    exact fun q hq => (h.settled q hq).push (.inl htext)
  · rw [hentries]
    intro _ q hq
    have hq : outline.path.head? = some q := hq
    rw [hpath] at hq
    obtain rfl := Option.some.inj hq
    exact settled_push _ _ hattr htext
  · rw [hentries, itemsBelow_append, itemsBelow_single, ← h.root]
    split <;> simp [hroot]
  · intro hchop
    rw [hentries, textsOf_append, h.spelled hchop]
    simp [textsOf, htext, hcall]

theorem enter (h : outline.Tidy chop site calls) (hw : outline.WellFormed) {inner : Region}
    (henters : site.region.Enters inner) (name : Bytes) {attributes : List Attribute}
    (ha : (attributes.map (·.name)).Nodup) :
    (outline.enter name attributes).Tidy chop { region := inner }
      (calls ++ [.startElement name attributes]) := by
  obtain ⟨p, rest, hpath⟩ := hw.exists_path
  have hhead := lt_head hw hpath
  have hentries : (outline.enter name attributes).entries =
      outline.entries ++ [⟨some p, .element name attributes.length⟩] ++
        attributes.map fun att => ⟨some outline.table.length, .attr att.name att.value⟩ := by
    rw [entries_enter, hpath, List.append_assoc]
    rfl
  have hnone (attributes : Bool) :
      itemsBelow outline.entries outline.table.length attributes = [] :=
    hw.layout.itemsBelow_length attributes
  have hlt : p < outline.table.length := hw.layout.chain.lt (by rw [hpath]; exact .head _)
  have hpushed : Neat chop
      (outline.entries ++ [⟨some p, .element name attributes.length⟩]) :=
    h.neat.push rfl (.inl rfl) (by rintro _ ⟨⟩)
  have hlast : Settled (outline.entries ++ [⟨some p, .element name attributes.length⟩]) p :=
    settled_push outline.entries p rfl rfl
  refine ⟨h.chops, ?_, ?_, ?_, ?_, ?_, ?_⟩
  · rw [hentries]
    refine hpushed.addAttributes ?_ ha
    rw [itemsBelow_append, hnone, itemsBelow_single, if_neg (by simp [Item.isAttr])]
    rfl
  · have hdepth := h.depth
    rw [henters.depth, ← hdepth]
    rfl
  · intro q hq
    have hq : q ∈ outline.path := hq
    rw [hentries]
    refine Settled.addAttributes ?_ _ _
    rw [hpath] at hq
    rcases List.mem_cons.mp hq with rfl | hq
    · exact hlast
    · exact (h.settled q (by rwa [hpath])).push (.inl rfl)
  · intro _ q hq
    obtain rfl := Option.some.inj (hq : some outline.table.length = some q)
    rw [hentries]
    refine Settled.addAttributes (settled_of_none ?_) _ _
    rw [itemsBelow_append, hnone, itemsBelow_single, if_neg (by simp [Nat.ne_of_lt hlt])]
    rfl
  · have hroot := h.root
    rw [hentries, itemsBelow_append, itemsBelow_append, itemsBelow_attributes,
      if_neg (by simp), itemsBelow_single, List.append_nil, List.countP_append, hroot]
    -- In the prolog the document is the innermost open node, and in the content it is not.
    have hzero := head_eq_zero_iff hw hpath
    rw [h.depth] at hzero
    obtain ⟨region, afterText⟩ := site
    cases henters with
    | root =>
      obtain rfl := hzero.mpr rfl
      rfl
    | child above =>
      have hne : p ≠ 0 := fun hp => Nat.succ_ne_zero above (hzero.mp hp)
      rw [if_neg fun hp => hne (Option.some.inj hp.1)]
      rfl
  · intro hchop
    rw [hentries, textsOf_append, textsOf_append, h.spelled hchop]
    simp [textsOf, Item.text?, Call.text?, List.filterMap_eq_nil_iff]

theorem text (h : outline.Tidy chop { region } calls) (hw : outline.WellFormed)
    (hregion : region.depth ≠ 0) {content : Bytes} (hne : content ≠ [])
    (hv : Utf8.isValid content) (ht : outline.take (.text content false) = some later) :
    later.Tidy chop ⟨region, true⟩ (calls ++ [.text content false]) := by
  obtain ⟨p, rest, hpath⟩ := hw.exists_path
  have hlength := hw.opens.length
  rw [h.depth] at hlength
  have hp : p ≠ 0 := by
    rw [Ne, head_eq_zero_iff hw hpath, h.depth]
    exact hregion
  have hdrops : dropsText outline.chop false outline.path content =
      (content.all isSpace && chop) := by
    have hpath1 : (outline.path.length == 1) = false := by
      rw [hlength]
      simpa using hregion
    have hempty : content.isEmpty = false := List.isEmpty_eq_false_iff.mpr hne
    rw [dropsText, hpath1, hempty, h.chops]
    simp
  obtain rfl := Option.some.inj ht
  rw [hdrops]
  split
  next hdropped =>
    -- A text that is dropped is one that may be dropped.
    have hchop : chop = true := (Bool.and_eq_true_iff.mp hdropped).2
    refine ⟨h.chops, h.neat, h.depth, h.settled, by rintro ⟨⟩, h.root, ?_⟩
    rw [hchop]
    rintro ⟨⟩
  next hkept =>
    have hgood : GoodText chop content := by
      refine ⟨hne, hv, fun hchop => ?_⟩
      simpa [hchop] using hkept
    have hentries : (outline.leaf (.text content)).entries =
        outline.entries ++ [⟨some p, .text content⟩] := by
      rw [entries_leaf, hpath]
      rfl
    have hsettled : Settled outline.entries p := h.ready rfl p (by rw [hpath]; rfl)
    refine ⟨h.chops, ?_, h.depth, ?_, by rintro ⟨⟩, ?_, ?_⟩
    · rw [hentries]
      refine h.neat.push rfl (.inr ⟨hp, hsettled⟩) ?_
      rintro _ ⟨⟩
      exact hgood
    · rw [hentries]
      intro q hq
      have hrest : q ∈ rest := by
        have hq : q ∈ outline.path.tail := hq
        rwa [hpath] at hq
      exact (h.settled q hq).push (.inr (Nat.ne_of_gt (lt_head hw hpath q hrest)))
    · rw [hentries, itemsBelow_append, itemsBelow_single, if_neg (by simp [hp]), List.append_nil]
      exact h.root
    · intro hchop
      rw [hentries, textsOf_append, h.spelled hchop]
      simp [textsOf, Item.text?, Call.text?]

theorem leave (h : outline.Tidy chop site calls) {above : Nat}
    (hregion : site.region = .content above) {name : Bytes}
    (ht : outline.take (.endElement name) = some later) :
    later.Tidy chop { region := .within above } (calls ++ [.endElement name]) := by
  simp only [Outline.take] at ht
  split at ht
  next element opened position path ho hpath =>
    split at ht
    · cases ht
      have hentries := outline.entries_close position path opened
      have hdepth := h.depth
      have hsettled := h.settled
      have hroot := h.root
      rw [ho, hregion] at hdepth
      rw [hpath] at hsettled
      rw [hregion] at hroot
      refine ⟨h.chops, ?_, ?_, ?_, ?_, ?_, ?_⟩
      · rw [hentries]
        exact h.neat
      · rw [Region.depth_within]
        exact Nat.succ.inj hdepth
      · rw [hentries]
        exact fun q hq => hsettled q (List.mem_of_mem_tail hq)
      · rw [hentries]
        exact fun _ q hq => hsettled q (List.mem_of_mem_head? hq)
      · rw [hentries, hroot]
        cases above <;> rfl
      · intro hchop
        rw [hentries, h.spelled hchop, List.filterMap_append]
        exact (List.append_nil _).symm
    · cases ht
  · cases ht

theorem take (h : outline.Tidy chop site calls) (hw : outline.WellFormed)
    (hs : site.Step call next) (ht : outline.take call = some later) :
    later.Tidy chop next (calls ++ [call]) := by
  cases hs with
  | startDocument name => cases ht
  | endDocument => cases ht
  | comment content =>
    cases ht
    exact h.remark hw rfl rfl rfl rfl
  | instruction content =>
    cases ht
    exact h.remark hw rfl rfl rfl rfl
  | declareNamespace qualifier uri =>
    cases ht
    refine ⟨h.chops, h.neat, h.depth, h.settled, h.ready, h.root, fun hchop => ?_⟩
    rw [List.filterMap_append]
    exact (h.spelled hchop).trans (List.append_nil _).symm
  | startElement henters name ha =>
    simp only [Outline.take] at ht
    split at ht
    · cases ht
      exact h.enter hw henters name ha
    · cases ht
  | text hne hv => exact h.text hw (Nat.succ_ne_zero _) hne hv ht
  | endElement name => exact h.leave rfl ht

theorem endDocument {afterText : Bool} (h : outline.Tidy chop ⟨.epilog, afterText⟩ calls)
    (hw : outline.WellFormed) :
    outline.Tidy chop { region := .ended } (calls ++ [.endDocument]) := by
  obtain ⟨p, rest, hpath⟩ := hw.exists_path
  refine ⟨h.chops, h.neat, h.depth, h.settled, fun _ q hq => ?_, h.root, fun hchop => ?_⟩
  · obtain rfl := (head_eq_zero_iff hw hpath).mpr h.depth
    rw [hpath] at hq
    obtain rfl := Option.some.inj hq
    exact fun item hm => h.neat.document item (List.mem_of_mem_getLast? hm)
  · rw [List.filterMap_append]
    exact (h.spelled hchop).trans (List.append_nil _).symm

end Outline.Tidy

namespace Phase

variable {options : IndexOptions} {chop : Bool} {phase : Phase} {site : Site} {calls : List Call}

/-- A phase to which these calls have led, from site to site. -/
def Tidy (chop : Bool) (site : Site) (calls : List Call) : Phase → Prop
  | unstarted => calls = []
  | within outline _ | ended outline _ => outline.WellFormed ∧ outline.Tidy chop site calls

end Phase

-- ---------------------------------------------------------------------------
-- Stores of documents
-- ---------------------------------------------------------------------------

theorem map_filter_range {α β : Type} (l : List α) {keep : Nat → Bool} {f : α → Bool}
    {g : Nat → β} {k : α → β} (hkeep : ∀ i a, l[i]? = some a → keep i = f a)
    (hg : ∀ i a, l[i]? = some a → g i = k a) :
    ((List.range l.length).filter keep).map g = (l.filter f).map k := by
  induction l using List.reverseRecOn with
  | nil => rfl
  | append_singleton l a ih =>
    have hlast : (l ++ [a])[l.length]? = some a := List.getElem?_concat_length
    have hfirst {i : Nat} {b : α} (h : l[i]? = some b) : (l ++ [a])[i]? = some b :=
      (List.getElem?_append_left (List.getElem?_eq_some_iff.mp h).1).trans h
    rw [List.length_append, List.length_singleton, List.range_succ, List.filter_append,
      List.filter_append, List.map_append, List.map_append,
      ih (fun i b h => hkeep i b (hfirst h)) fun i b h => hg i b (hfirst h)]
    simp [List.filter_cons, hkeep _ _ hlast, hg _ _ hlast, apply_ite]

namespace Store

variable {store : Store} {entries : List Entry} {chop : Bool} {p : Nat}

/-- A store in normal form. -/
structure Normal (store : Store) (chop : Bool) : Prop where
  document : store.kind? 0 = some .document
  root : ∃ root, (store.children 0).filter (store.kind? · == some .element) = [root]
  rootText : ∀ p ∈ store.children 0, store.kind? p ≠ some .text
  apart : ∀ p, (store.children p).IsChain fun q r =>
    ¬ (store.kind? q = some .text ∧ store.kind? r = some .text)
  texts : ∀ p, store.kind? p = some .text → store.value p ≠ [] ∧ Utf8.isValid (store.value p) ∧
    (chop = true → ∃ b ∈ store.value p, isSpace b = false)
  attributes : ∀ p, ((store.attributes p).map store.name).Nodup

theorem Shows.map_nodesOf (h : store.Shows entries) (p : Nat) (attributes : Bool) {β : Type}
    {f : Nat → β} {g : Item → β} (hf : ∀ q entry, entries[q]? = some entry → f q = g entry.item) :
    (store.nodesOf p attributes).map f = (itemsBelow entries p attributes).map g := by
  have hkind : ∀ item : Item, (some item.kind == some NodeKind.attr) = item.isAttr := by
    rintro (_ | _ | _ | _ | _ | _) <;> rfl
  rw [nodesOf, h.size, itemsBelow, List.map_map]
  refine map_filter_range entries (fun q entry hq => ?_) hf
  obtain ⟨hk, -, -, hparent⟩ := h.node hq
  rw [hparent, hk, hkind]

theorem Shows.map_children (h : store.Shows entries) (hp : p < store.size) :
    (store.children p).map store.kind? =
      (itemsBelow entries p false).map fun item => some item.kind := by
  rw [h.children hp]
  exact h.map_nodesOf p false fun q entry hq => (h.node hq).1

theorem lt_size_of_kind? {kind : NodeKind} (h : store.kind? p = some kind) : p < store.size := by
  obtain ⟨node, hn, -⟩ := Option.map_eq_some_iff.mp h
  exact (Array.getElem?_eq_some_iff.mp hn).1

theorem Shows.entry (h : store.Shows entries) {kind : NodeKind} (hk : store.kind? p = some kind) :
    ∃ entry, entries[p]? = some entry ∧ entry.item.kind = kind ∧
      store.value p = entry.item.value := by
  have hp := lt_size_of_kind? hk
  rw [h.size] at hp
  obtain ⟨hkind, -, hvalue, -⟩ := h.node (List.getElem?_eq_getElem hp)
  exact ⟨_, List.getElem?_eq_getElem hp, Option.some.inj (hkind.symm.trans hk), hvalue⟩

theorem text?_eq_none_iff {item : Item} : item.text? = none ↔ item.kind ≠ .text := by
  cases item <;> simp [Item.text?, Item.kind]

theorem text?_of_kind {item : Item} (h : item.kind = .text) : item.text? = some item.value := by
  cases item with
  | text value => rfl
  | _ => cases h

theorem isElement_eq (item : Item) : item.isElement = (some item.kind == some .element) := by
  cases item <;> rfl

theorem node?_eq_none (hp : ¬ p < store.size) : store.node? p = none :=
  Array.getElem?_eq_none (Nat.le_of_not_lt hp)

theorem Shows.normal (h : store.Shows entries) (hn : Neat chop entries)
    (hdocument : store.kind? 0 = some .document)
    (hroot : (itemsBelow entries 0 false).countP Item.isElement = 1) : store.Normal chop where
  document := hdocument
  root := by
    have hcount := congrArg (List.countP (· == some .element))
      (h.map_children (lt_size_of_kind? hdocument))
    rw [List.countP_map, List.countP_map] at hcount
    refine List.length_eq_one_iff.mp ?_
    rw [← List.countP_eq_length_filter, ← hroot]
    refine hcount.trans (List.countP_congr fun item _ => ?_)
    rw [isElement_eq]
    rfl
  rootText := by
    intro p hp htext
    have hm := List.mem_map_of_mem (f := store.kind?) hp
    rw [h.map_children (lt_size_of_kind? hdocument), htext, List.mem_map] at hm
    obtain ⟨item, hitem, hkind⟩ := hm
    exact text?_eq_none_iff.mp (hn.document item hitem) (Option.some.inj hkind)
  apart := by
    intro p
    by_cases hp : p < store.size
    · have hapart : ((itemsBelow entries p false).map fun item => some item.kind).IsChain
          fun a b => ¬ (a = some .text ∧ b = some .text) := by
        refine (List.isChain_map _).mpr ((hn.apart p).imp fun a b h => ?_)
        rintro ⟨ha, hb⟩
        exact h.elim (fun h => text?_eq_none_iff.mp h (Option.some.inj ha))
          fun h => text?_eq_none_iff.mp h (Option.some.inj hb)
      rw [← h.map_children hp] at hapart
      exact (List.isChain_map _).mp hapart
    · rw [Store.children, node?_eq_none hp]
      exact .nil
  texts := by
    intro p hp
    obtain ⟨entry, hentry, hkind, hvalue⟩ := h.entry hp
    obtain ⟨hne, hv, hkept⟩ := hn.texts entry.item.value
      (List.mem_filterMap.mpr ⟨entry, List.mem_of_getElem? hentry, text?_of_kind hkind⟩)
    rw [hvalue]
    exact ⟨hne, hv, hkept⟩
  attributes := by
    intro p
    by_cases hp : p < store.size
    · rw [h.attributes hp, h.map_nodesOf p true fun q entry hq => (h.node hq).2.1]
      exact hn.attributes p
    · rw [Store.attributes, node?_eq_none hp]
      exact .nil

theorem Shows.stringValue_document (h : store.Shows entries) {node : Node}
    (hnode : store.node? 0 = some node) (hkind : node.kind = .document)
    (hsize : node.size = store.size) : store.stringValue 0 = (textsOf entries).flatten := by
  have hzero : store.kind? 0 = some .document := by rw [kind?, hnode, Option.map_some, hkind]
  have hrange : List.range store.size = 0 :: List.range' 1 (store.size - 1) := by
    rw [← Nat.sub_add_cancel (lt_size_of_kind? hzero), List.range_eq_range', List.range'_succ]
    rfl
  have htexts : ((List.range store.size).filter fun p => store.kind? p == some .text).map
      store.value = textsOf entries := by
    have hfiltered : textsOf entries =
        (entries.filter fun entry => some entry.item.kind == some .text).map (·.item.value) := by
      unfold textsOf
      rw [← List.filterMap_eq_map, List.filterMap_filter]
      refine List.filterMap_congr fun entry _ => ?_
      obtain ⟨parent, item⟩ := entry
      cases item <;> rfl
    rw [hfiltered, h.size]
    refine map_filter_range entries (fun q entry hq => ?_) fun q entry hq => (h.node hq).2.2.1
    rw [(h.node hq).1]
  rw [hrange, List.filter_cons_of_neg (by rw [hzero]; decide)] at htexts
  rw [stringValue, hnode, ← htexts, ← List.flatMap_def]
  simp only [hkind, hsize]

end Store

-- ---------------------------------------------------------------------------
-- Ingested documents
-- ---------------------------------------------------------------------------

theorem Outline.Tidy.finished {outline : Outline} {chop afterText : Bool} {calls : List Call}
    (h : outline.Tidy chop ⟨.ended, afterText⟩ calls) (hw : outline.WellFormed) {store : Store}
    (hs : store.Sound) (ht : store.table = outline.table.close 0) :
    store.Normal chop ∧
      (chop = false → store.stringValue 0 = (calls.filterMap Call.text?).flatten) := by
  have hopens := hw.opens
  rw [List.length_eq_zero_iff.mp h.depth] at hopens
  have hpath := hopens.path_eq
  have hlayout := hw.layout
  have hattributed := hw.attributed
  rw [hpath] at hlayout hattributed hopens
  have hshows : store.Shows outline.entries :=
    hs.shows (ht ▸ hlayout.close) (ht ▸ hattributed.close)
      (ht ▸ outline.entries_close 0 outline.path outline.opened)
  cases hopens with
  | @document row name hrow hitem =>
    have hclosed : store.table[0]? = some { row with size := outline.table.length } := by
      rw [ht, NodeTable.getElem?_close, hrow]
      rfl
    obtain ⟨node, hnode, hnoderow⟩ := Store.of_getElem?_table hclosed
    have hkind : store.kind? 0 = some .document := by
      rw [Store.kind?_eq hclosed, hitem]
      rfl
    have hnodekind : node.kind = .document := by
      rw [Store.kind?, hnode] at hkind
      exact Option.some.inj hkind
    have hsize : node.size = store.size := by
      rw [← store.length_table, ht, NodeTable.length_close]
      exact congrArg Row.size hnoderow
    refine ⟨hshows.normal h.neat hkind h.root, fun hchop => ?_⟩
    rw [hshows.stringValue_document hnode hnodekind hsize, h.spelled hchop]

namespace Ingestion

variable {name source : String} {inputSize : Nat} {reading : ReadOptions}
  {indexing : IndexOptions} {encoding : Encoding} {pieces : List Bytes} {db : Database}

end Ingestion

end XmlStore
