import XmlStore.Proofs.Extents
import XmlStore.Tree.Call
import XmlStore.Tree.Scope

/-!
# What node calls describe

The calls between the start and the end of a document describe a tree if they are nested: every
element ends by its own name, a declaration of a namespace has an element to go to, and every
qualifier is bound where it is used. `listing` tells the nodes of the tree in document order. An
`Outline` is the tree as far as calls have described it.
-/

namespace XmlStore

/-- An open element with the namespaces that it declares, in order. -/
structure Opened where
  name : Bytes
  declared : List (Bytes × Bytes)

/-- The declarations that are in scope, innermost first. -/
abbrev Scopes := List (List (Bytes × Bytes))

namespace Scopes

/-- The URI of the innermost declaration, the last one where an element has several. -/
def lookup? (scopes : Scopes) (qualifier : Bytes) : Option Bytes :=
  if qualifier = ascii "xml" then some Scope.xmlUri
  else scopes.findSome? fun declared => (declared.reverse.find? (·.1 == qualifier)).map (·.2)

/-- The namespace of a name, if its qualifier is bound. -/
def uri? (scopes : Scopes) (name : Bytes) (isAttribute : Bool) : Option Bytes :=
  match (QName.ofBytes name).qualifier with
  | some qualifier => scopes.lookup? qualifier
  | none => some (if isAttribute then [] else (scopes.lookup? []).getD [])

/-- The qualifier of a name is `xml` or is declared. -/
def Bound (scopes : Scopes) (name : Bytes) : Prop :=
  ∀ qualifier, (QName.ofBytes name).qualifier = some qualifier →
    qualifier = ascii "xml" ∨ ∃ declared ∈ scopes, qualifier ∈ declared.map (·.1)

theorem lookup?_isSome_iff (scopes : Scopes) (qualifier : Bytes) :
    (scopes.lookup? qualifier).isSome ↔
      qualifier = ascii "xml" ∨ ∃ declared ∈ scopes, qualifier ∈ declared.map (·.1) := by
  unfold lookup?
  by_cases hx : qualifier = ascii "xml"
  · simp [hx]
  · simp only [hx, ↓reduceIte, false_or, List.findSome?_isSome_iff, Option.isSome_map,
      List.find?_isSome, List.mem_reverse, List.mem_map, beq_iff_eq]

theorem uri?_isSome_iff (scopes : Scopes) (name : Bytes) (isAttribute : Bool) :
    (scopes.uri? name isAttribute).isSome ↔ scopes.Bound name := by
  unfold uri? Bound
  cases (QName.ofBytes name).qualifier with
  | none => simp
  | some qualifier => simp [lookup?_isSome_iff]

end Scopes

-- ---------------------------------------------------------------------------
-- Nested calls
-- ---------------------------------------------------------------------------

/-- Calls that close the open elements, where `pending` are the declarations that wait for an
element. -/
inductive Nested : List Opened → List (Bytes × Bytes) → List Call → Prop
  | done : Nested [] [] []
  | startElement {opened pending name attributes rest}
    (hname : Scopes.Bound (pending :: opened.map (·.declared)) name)
    (hattributes : ∀ att ∈ attributes,
      Scopes.Bound (pending :: opened.map (·.declared)) att.name)
    (h : Nested (⟨name, pending⟩ :: opened) [] rest) :
    Nested opened pending (.startElement name attributes :: rest)
  | endElement {name declared opened pending rest} (h : Nested opened pending rest) :
    Nested (⟨name, declared⟩ :: opened) pending (.endElement name :: rest)
  | text {opened pending content raw rest} (h : Nested opened pending rest) :
    Nested opened pending (.text content raw :: rest)
  | comment {opened pending content rest} (h : Nested opened pending rest) :
    Nested opened pending (.comment content :: rest)
  | instruction {opened pending content rest} (h : Nested opened pending rest) :
    Nested opened pending (.instruction content :: rest)
  | declareNamespace {opened pending qualifier uri rest}
    (h : Nested opened (pending ++ [(qualifier, uri)]) rest) :
    Nested opened pending (.declareNamespace qualifier uri :: rest)

/-- A text that is no node: it is empty, or white space that is dropped or stands outside the root
element. -/
def dropsText (chop raw : Bool) (path : List Nat) (content : Bytes) : Bool :=
  content.isEmpty || content.all isSpace && (chop && !raw || path.length == 1)

/-- A node as it is listed: below which node it stands, and what it is. -/
structure Entry where
  parent : Option Nat
  item : Item
  deriving DecidableEq, Repr

/-- The nodes that calls describe, the first of them at the position `next`, below the nodes of the
path. -/
def listing (chop : Bool) : List Nat → Nat → List Call → List Entry
  | _, _, [] => []
  | path, next, .startElement name attributes :: rest =>
    ⟨path.head?, .element name attributes.length⟩ ::
      attributes.map (fun att => ⟨some next, .attr att.name att.value⟩) ++
      listing chop (next :: path) (next + 1 + attributes.length) rest
  | path, next, .endElement _ :: rest => listing chop path.tail next rest
  | path, next, .text content raw :: rest =>
    if dropsText chop raw path content then listing chop path next rest
    else ⟨path.head?, .text content⟩ :: listing chop path (next + 1) rest
  | path, next, .comment content :: rest =>
    ⟨path.head?, .comment content⟩ :: listing chop path (next + 1) rest
  | path, next, .instruction content :: rest =>
    ⟨path.head?, .instruction content⟩ :: listing chop path (next + 1) rest
  | path, next, _ :: rest => listing chop path next rest

-- ---------------------------------------------------------------------------
-- Outlines
-- ---------------------------------------------------------------------------

structure Outline where
  chop : Bool
  table : NodeTable
  /-- The open nodes, innermost first, the document last. -/
  path : List Nat := [0]
  /-- The open elements, innermost first. -/
  opened : List Opened := []
  /-- The declarations for the next element. -/
  pending : List (Bytes × Bytes) := []

namespace Outline

def ofName (chop : Bool) (name : Bytes) : Outline :=
  { chop, table := [{ parent := none, depth := 0, item := .document name }] }

def scopes (outline : Outline) : Scopes :=
  outline.pending :: outline.opened.map (·.declared)

def leaf (outline : Outline) (item : Item) : Outline :=
  { outline with
    table := outline.table ++
      [{ parent := outline.path.head?, depth := outline.path.length, item }] }

def elementRow (outline : Outline) (name : Bytes) (attributes : List Attribute) : Row :=
  { parent := outline.path.head?
    depth := outline.path.length
    uri := (outline.scopes.uri? name false).getD []
    item := .element name attributes.length }

def attributeRow (outline : Outline) (att : Attribute) : Row :=
  { parent := some outline.table.length
    depth := outline.path.length + 1
    uri := (outline.scopes.uri? att.name true).getD []
    item := .attr att.name att.value }

def enter (outline : Outline) (name : Bytes) (attributes : List Attribute) : Outline :=
  { outline with
    table := outline.table ++ outline.elementRow name attributes ::
      attributes.map outline.attributeRow
    path := outline.table.length :: outline.path
    opened := ⟨name, outline.pending⟩ :: outline.opened
    pending := [] }

/-- The outline after one more call, if the call goes on with it. -/
def take (outline : Outline) : Call → Option Outline
  | .startDocument _ | .endDocument => none
  | .startElement name attributes =>
    if (outline.scopes.uri? name false).isSome ∧
        attributes.all fun att => (outline.scopes.uri? att.name true).isSome then
      some (outline.enter name attributes)
    else none
  | .endElement name =>
    match outline.opened, outline.path with
    | element :: opened, position :: path =>
      if element.name = name then
        some { outline with table := outline.table.close position, path, opened }
      else none
    | _, _ => none
  | .text content raw =>
    some (if dropsText outline.chop raw outline.path content then outline
      else outline.leaf (.text content))
  | .comment content => some (outline.leaf (.comment content))
  | .instruction content => some (outline.leaf (.instruction content))
  | .declareNamespace qualifier uri =>
    some { outline with pending := outline.pending ++ [(qualifier, uri)] }

-- ---------------------------------------------------------------------------
-- Outlines keep their form
-- ---------------------------------------------------------------------------

/-- The open nodes are the document and the open elements. -/
inductive Opens (table : NodeTable) : List Nat → List Opened → Prop
  | document {row : Row} {name : Bytes} (hrow : table[0]? = some row)
    (hitem : row.item = .document name) : Opens table [0] []
  | element {p : Nat} {path : List Nat} {row : Row} {element : Opened} {opened : List Opened}
    {count : Nat} (hrow : table[p]? = some row) (hitem : row.item = .element element.name count)
    (h : Opens table path opened) : Opens table (p :: path) (element :: opened)

theorem Opens.length {table : NodeTable} {path : List Nat} {opened : List Opened}
    (h : Opens table path opened) : path.length = opened.length + 1 := by
  induction h with
  | document => rfl
  | element _ _ _ ih => rw [List.length_cons, List.length_cons, ih]

theorem Opens.path_eq {table : NodeTable} {path : List Nat} (h : Opens table path []) :
    path = [0] := by
  cases h with
  | document => rfl

theorem Opens.append {table : NodeTable} {path : List Nat} {opened : List Opened}
    (h : Opens table path opened) (more : List Row) : Opens (table ++ more) path opened := by
  have hleft : ∀ {p : Nat} {row : Row}, table[p]? = some row → (table ++ more)[p]? = some row :=
    fun hrow => (List.getElem?_append_left (List.getElem?_eq_some_iff.mp hrow).1).trans hrow
  induction h with
  | document hrow hitem => exact .document (hleft hrow) hitem
  | element hrow hitem _ ih => exact .element (hleft hrow) hitem ih

theorem Opens.close {table : NodeTable} {path : List Nat} {opened : List Opened}
    (h : Opens table path opened) (p : Nat) : Opens (table.close p) path opened := by
  induction h with
  | document hrow hitem =>
    obtain ⟨row', hrow', -, -, hitem'⟩ := NodeTable.exists_getElem?_close (p := p) hrow
    exact .document hrow' (hitem'.trans hitem)
  | element hrow hitem _ ih =>
    obtain ⟨row', hrow', -, -, hitem'⟩ := NodeTable.exists_getElem?_close (p := p) hrow
    exact .element hrow' (hitem'.trans hitem) ih

structure WellFormed (outline : Outline) : Prop where
  layout : outline.table.Layout outline.path
  attributed : outline.table.Attributed outline.path
  opens : Opens outline.table outline.path outline.opened

variable {outline later : Outline}

theorem ofName_wellFormed (chop : Bool) (name : Bytes) : (ofName chop name).WellFormed := by
  have hrow : ∀ {p : Nat} {row : Row}, (ofName chop name).table[p]? = some row →
      p = 0 ∧ row = { parent := none, depth := 0, item := .document name } := by
    intro p row h
    cases p with
    | zero => exact ⟨rfl, (Option.some.inj h).symm⟩
    | succ p => cases h
  refine ⟨⟨?_, ?_, ?_, ?_, ?_⟩, ⟨?_, ?_, ?_, ?_⟩, .document rfl rfl⟩
  · exact .cons rfl rfl rfl (by simp) .nil
  · intro p row h
    obtain ⟨rfl, rfl⟩ := hrow h
    exact ⟨Nat.zero_lt_one, Nat.le_refl _⟩
  · intro p row h _
    obtain ⟨rfl, rfl⟩ := hrow h
    exact ⟨rfl, rfl⟩
  · intro p q row h hp
    obtain ⟨rfl, rfl⟩ := hrow h
    cases hp
  · intro p q row h hpq _
    obtain ⟨rfl, rfl⟩ := hrow h
    cases hpq
  · intro p q row h hpq hq
    obtain ⟨rfl, rfl⟩ := hrow h
    exact absurd hpq (Nat.not_lt_of_le hq)
  · intro p q row att _ h hp
    obtain ⟨rfl, rfl⟩ := hrow h
    cases hp
  · intro p q row att _ h hp
    obtain ⟨rfl, rfl⟩ := hrow h
    cases hp
  · intro p row _ h
    obtain ⟨rfl, rfl⟩ := hrow h
    rfl

theorem WellFormed.exists_path (h : outline.WellFormed) :
    ∃ p rest, outline.path = p :: rest := by
  cases hp : outline.path with
  | nil =>
    have := h.opens.length
    rw [hp] at this
    cases this
  | cons p rest => exact ⟨p, rest, rfl⟩

theorem WellFormed.leaf (h : outline.WellFormed) (item : Item) (hattr : item.isAttr = false)
    (hcount : item.attributeCount = 0) : (outline.leaf item).WellFormed := by
  obtain ⟨p, rest, hpath⟩ := h.exists_path
  have hlayout := h.layout
  have hattributed := h.attributed
  rw [hpath] at hlayout hattributed
  refine ⟨?_, ?_, h.opens.append _⟩
  · simp only [Outline.leaf, hpath]
    exact hlayout.push rfl rfl rfl (.inl rfl)
  · simp only [Outline.leaf, hpath]
    exact hattributed.push hlayout rfl hattr hcount (by simp) (.inl rfl)

theorem WellFormed.enter (h : outline.WellFormed) (name : Bytes) (attributes : List Attribute) :
    (outline.enter name attributes).WellFormed := by
  obtain ⟨p, rest, hpath⟩ := h.exists_path
  have hlayout := h.layout
  have hattributed := h.attributed
  rw [hpath] at hlayout hattributed
  have hparent : (outline.elementRow name attributes).parent = some p := by
    simp [elementRow, hpath]
  have hdepth : (outline.elementRow name attributes).depth = rest.length + 1 := by
    simp [elementRow, hpath]
  refine ⟨?_, ?_, ?_⟩
  · have hopened := hlayout.push hparent hdepth rfl (.inr rfl)
    simp only [Outline.enter, hpath]
    rw [List.append_cons]
    refine hopened.append_attributes ?_
    rw [List.forall_mem_map]
    intro att _
    exact ⟨rfl, by simp [attributeRow, hpath], rfl⟩
  · simp only [Outline.enter, hpath]
    refine hattributed.push hlayout hparent rfl (List.length_map _).symm ?_ (.inr rfl)
    rw [List.forall_mem_map]
    intro att _
    exact ⟨rfl, rfl, rfl⟩
  · exact .element NodeTable.getElem?_block_self rfl (h.opens.append _)

theorem WellFormed.take (h : outline.WellFormed) {call : Call}
    (ht : outline.take call = some later) : later.WellFormed := by
  cases call with
  | startDocument name => cases ht
  | endDocument => cases ht
  | startElement name attributes =>
    simp only [Outline.take] at ht
    split at ht
    · cases ht
      exact h.enter name attributes
    · cases ht
  | endElement name =>
    simp only [Outline.take] at ht
    split at ht
    next element opened position path ho hp =>
      split at ht
      · cases ht
        have hlayout := h.layout
        have hattributed := h.attributed
        have hopens := h.opens
        rw [hp] at hlayout hattributed hopens
        rw [ho] at hopens
        cases hopens with
        | element _ _ hopens => exact ⟨hlayout.close, hattributed.close, hopens.close position⟩
      · cases ht
    · cases ht
  | text content raw =>
    cases ht
    split
    · exact h
    · exact h.leaf _ rfl rfl
  | comment content =>
    cases ht
    exact h.leaf _ rfl rfl
  | instruction content =>
    cases ht
    exact h.leaf _ rfl rfl
  | declareNamespace qualifier uri =>
    cases ht
    exact ⟨h.layout, h.attributed, h.opens⟩

-- ---------------------------------------------------------------------------
-- Nested calls go on with an outline
-- ---------------------------------------------------------------------------

def entries (outline : Outline) : List Entry :=
  outline.table.map fun row => ⟨row.parent, row.item⟩

/-- The outline after calls that all go on with it. -/
def takeAll (outline : Outline) (calls : List Call) : Option Outline := calls.foldlM take outline

theorem entries_close (outline : Outline) (p : Nat) (path : List Nat) (opened : List Opened) :
    entries { outline with table := outline.table.close p, path, opened } = outline.entries := by
  refine List.ext_getElem? fun q => ?_
  simp only [entries, List.getElem?_map, NodeTable.getElem?_close]
  cases outline.table[q]? with
  | none => rfl
  | some row =>
    simp only [Option.map_some]
    split <;> rfl

theorem entries_leaf (outline : Outline) (item : Item) :
    (outline.leaf item).entries = outline.entries ++ [⟨outline.path.head?, item⟩] := by
  simp [entries, leaf]

theorem length_leaf (outline : Outline) (item : Item) :
    (outline.leaf item).table.length = outline.table.length + 1 := by
  simp [leaf]

theorem entries_enter (outline : Outline) (name : Bytes) (attributes : List Attribute) :
    (outline.enter name attributes).entries =
      outline.entries ++ (⟨outline.path.head?, .element name attributes.length⟩ ::
        attributes.map fun att => ⟨some outline.table.length, .attr att.name att.value⟩) := by
  simp [entries, enter, elementRow, attributeRow]

theorem takeAll_cons {call : Call} {calls : List Call} (h : outline.take call = some later) :
    outline.takeAll (call :: calls) = later.takeAll calls := by
  rw [takeAll, List.foldlM_cons, h]
  rfl

/-- Calls that go on with an outline, close its elements and list these nodes. -/
def Lists (outline : Outline) (calls : List Call) (new : List Entry) : Prop :=
  ∃ later, outline.takeAll calls = some later ∧ later.WellFormed ∧ later.opened = [] ∧
    later.pending = [] ∧ later.chop = outline.chop ∧ later.entries = outline.entries ++ new

theorem Lists.cons {call : Call} {calls : List Call} {first new : List Entry}
    (ht : outline.take call = some later) (hchop : later.chop = outline.chop)
    (he : later.entries = outline.entries ++ first) (h : later.Lists calls new) :
    outline.Lists (call :: calls) (first ++ new) := by
  obtain ⟨last, hrun, hlast, hopened, hpending, hc, hentries⟩ := h
  refine ⟨last, (takeAll_cons ht).trans hrun, hlast, hopened, hpending, hc.trans hchop, ?_⟩
  rw [hentries, he, List.append_assoc]

theorem Lists.silent {call : Call} {calls : List Call} {new : List Entry}
    (ht : outline.take call = some later) (hchop : later.chop = outline.chop)
    (he : later.entries = outline.entries) (h : later.Lists calls new) :
    outline.Lists (call :: calls) new := by
  have he : later.entries = outline.entries ++ [] := he.trans (List.append_nil _).symm
  exact .cons ht hchop he h

theorem Lists.leaf {item : Item} {call : Call} {calls : List Call} {new : List Entry}
    (ht : outline.take call = some (outline.leaf item))
    (h : (outline.leaf item).Lists calls new) :
    outline.Lists (call :: calls) (⟨outline.path.head?, item⟩ :: new) :=
  .cons ht rfl (entries_leaf outline item) h

/-- Nested calls go on with an outline of the elements that they close, and list its new nodes. -/
theorem lists_of_nested {opened : List Opened} {pending : List (Bytes × Bytes)}
    {calls : List Call} (hn : Nested opened pending calls) (h : outline.WellFormed)
    (ho : outline.opened = opened) (hp : outline.pending = pending) :
    outline.Lists calls (listing outline.chop outline.path outline.table.length calls) := by
  induction hn generalizing outline with
  | done => exact ⟨outline, rfl, h, ho, hp, rfl, (List.append_nil _).symm⟩
  | @startElement opened pending name attributes rest hname hattributes _ ih =>
    subst ho hp
    have ht : outline.take (.startElement name attributes) =
        some (outline.enter name attributes) := by
      refine if_pos ⟨(outline.scopes.uri?_isSome_iff _ _).mpr hname, ?_⟩
      rw [List.all_eq_true]
      exact fun att ha => (outline.scopes.uri?_isSome_iff _ _).mpr (hattributes att ha)
    have hlength : (outline.enter name attributes).table.length =
        outline.table.length + 1 + attributes.length := by
      simp [enter, Nat.add_comm, Nat.add_left_comm]
    have ih := ih (h.enter name attributes) rfl rfl
    rw [hlength] at ih
    exact .cons ht rfl (entries_enter ..) ih
  | @endElement name declared opened pending rest _ ih =>
    have hopens := h.opens
    rw [ho] at hopens
    cases hpath : outline.path with
    | nil => rw [hpath] at hopens; cases hopens
    | cons position path =>
      have ht : outline.take (.endElement name) =
          some { outline with table := outline.table.close position, path, opened } := by
        rw [Outline.take, ho, hpath]
        exact if_pos rfl
      have ih := ih (h.take ht) rfl hp
      rw [NodeTable.length_close] at ih
      exact .silent ht rfl (entries_close outline position path opened) ih
  | @text opened pending content raw rest _ ih =>
    rw [listing]
    by_cases hd : dropsText outline.chop raw outline.path content
    · rw [if_pos hd]
      exact .silent (congrArg some (if_pos hd)) rfl rfl (ih h ho hp)
    · rw [if_neg hd]
      have ih := ih (h.leaf (.text content) rfl rfl) ho hp
      rw [length_leaf] at ih
      exact .leaf (congrArg some (if_neg hd)) ih
  | @comment opened pending content rest _ ih =>
    have ih := ih (h.leaf (.comment content) rfl rfl) ho hp
    rw [length_leaf] at ih
    exact .leaf rfl ih
  | @instruction opened pending content rest _ ih =>
    have ih := ih (h.leaf (.instruction content) rfl rfl) ho hp
    rw [length_leaf] at ih
    exact .leaf rfl ih
  | @declareNamespace opened pending qualifier uri rest _ ih =>
    have ht : outline.take (.declareNamespace qualifier uri) =
        some { outline with pending := outline.pending ++ [(qualifier, uri)] } := rfl
    exact .silent ht rfl rfl (ih (h.take ht) ho (congrArg (· ++ [(qualifier, uri)]) hp))

end Outline

-- ---------------------------------------------------------------------------
-- What a call adds
-- ---------------------------------------------------------------------------

namespace Outline

def leafRow (outline : Outline) (item : Item) : Row :=
  { parent := outline.path.head?, depth := outline.path.length, item }

/-- The rows that a call adds. -/
def added (outline : Outline) : Call → List Row
  | .startElement name attributes =>
    outline.elementRow name attributes :: attributes.map outline.attributeRow
  | .text content raw =>
    if dropsText outline.chop raw outline.path content then []
    else [outline.leafRow (.text content)]
  | .comment content => [outline.leafRow (.comment content)]
  | .instruction content => [outline.leafRow (.instruction content)]
  | .startDocument _ | .endDocument | .endElement _ | .declareNamespace _ _ => []

end Outline

namespace NodeTable

/-- The nodes and their namespaces. -/
def resolved (table : NodeTable) : List (Item × Bytes) := table.map fun row => (row.item, row.uri)

theorem resolved_close (table : NodeTable) (p : Nat) :
    (table.close p).resolved = table.resolved := by
  refine List.ext_getElem? fun q => ?_
  simp only [resolved, List.getElem?_map, getElem?_close]
  cases table[q]? with
  | none => rfl
  | some row =>
    simp only [Option.map_some]
    split <;> rfl

end NodeTable

theorem Outline.take_resolved {outline later : Outline} {call : Call}
    (ht : outline.take call = some later) :
    later.table.resolved = outline.table.resolved ++ NodeTable.resolved (outline.added call) := by
  have hsame : outline.table.resolved = outline.table.resolved ++ NodeTable.resolved [] :=
    (List.append_nil _).symm
  cases call with
  | startDocument name => cases ht
  | endDocument => cases ht
  | startElement name attributes =>
    simp only [Outline.take] at ht
    split at ht
    · cases ht
      exact List.map_append
    · cases ht
  | endElement name =>
    simp only [Outline.take] at ht
    split at ht
    next element opened position path ho hp =>
      split at ht
      · cases ht
        exact (NodeTable.resolved_close _ _).trans hsame
      · cases ht
    · cases ht
  | text content raw =>
    cases ht
    simp only [Outline.added]
    split
    · exact hsame
    · exact List.map_append
  | comment content =>
    cases ht
    exact List.map_append
  | instruction content =>
    cases ht
    exact List.map_append
  | declareNamespace qualifier uri =>
    cases ht
    exact hsame

end XmlStore
