import XmlStore.Proofs.Declaring
import XmlStore.Proofs.Indexing

/-!
# What a builder keeps besides its tree

Each node that a builder adds is noted in the indexes and in the height, under the number of nodes
before it, and the declarations that came before an element are recorded for its position. An
`Account` tells all that; what a call does to it is known from the outline before the call.
-/

namespace XmlStore

-- ---------------------------------------------------------------------------
-- Declarations
-- ---------------------------------------------------------------------------

/-- What an element declares in effect; `xml` is never declared. -/
def declaring (declared : List (Bytes × Bytes)) : List (Bytes × Bytes) :=
  declared.filter (·.1 != ascii "xml")

namespace Store

/-- The declarations with the positions of their elements, in order. -/
def declarations (store : Store) : List (Nat × Bytes × Bytes) :=
  store.namespaces.toList.map fun ns =>
    (ns.position, store.names.get ns.qualifier, store.names.get ns.uri)

theorem Ordered.declarations_of {store : Store} (h : store.Ordered) (p : Nat) :
    store.namespacesOf p = (store.declarations.filter (·.1 == p)).map (·.2) := by
  rw [h.namespacesOf_eq, declarations, List.filter_map, List.map_map]
  rfl

/-- The qualifiers and URIs of the declarations are names. -/
def Numbered (store : Store) : Prop :=
  ∀ ns ∈ store.namespaces.toList,
    ns.qualifier < store.names.size ∧ ns.uri < store.names.size

theorem declarations_of_extends {store later : Store} (h : store.Numbered)
    (hn : later.namespaces = store.namespaces) (he : later.names.Extends store.names) :
    later.Numbered ∧ later.declarations = store.declarations := by
  constructor
  · intro ns hm
    obtain ⟨hq, hu⟩ := h ns (hn ▸ hm)
    exact ⟨Nat.lt_of_lt_of_le hq he.size, Nat.lt_of_lt_of_le hu he.size⟩
  · unfold declarations
    rw [hn]
    refine List.map_congr_left fun ns hm => ?_
    obtain ⟨hq, hu⟩ := h ns hm
    rw [he.get hq, he.get hu]

theorem declarations_foldl {store : Store} (h : store.Numbered) (p : Nat)
    {declared : List (Nat × Nat)}
    (hd : ∀ ns ∈ declared, ns.1 < store.names.size ∧ ns.2 < store.names.size) :
    let later := declared.foldl (fun store ns => store.declareNamespace p ns.1 ns.2) store
    later.Numbered ∧ later.nodes = store.nodes ∧ later.names = store.names ∧
      later.declarations = store.declarations ++ declared.map fun ns =>
        (p, store.names.get ns.1, store.names.get ns.2) := by
  induction declared generalizing store with
  | nil => exact ⟨h, rfl, rfl, (List.append_nil _).symm⟩
  | cons ns rest ih =>
    have hnext : (store.declareNamespace p ns.1 ns.2).Numbered := by
      intro other hm
      simp only [declareNamespace, Array.toList_push, List.mem_append, List.mem_singleton] at hm
      rcases hm with hm | rfl
      · exact h other hm
      · exact hd ns List.mem_cons_self
    obtain ⟨hlater, hnodes, hnames, hdeclared⟩ :=
      ih hnext fun other hm => hd other (List.mem_cons_of_mem ns hm)
    refine ⟨hlater, hnodes, hnames, ?_⟩
    have hfirst : (store.declareNamespace p ns.1 ns.2).declarations =
        store.declarations ++ [(p, store.names.get ns.1, store.names.get ns.2)] := by
      simp [declarations, declareNamespace]
    rw [List.map_cons, List.append_cons, ← hfirst]
    exact hdeclared

end Store

/-- The bindings at the depth of the innermost element are what it declares. -/
theorem Scope.Shows.declaredAt {scope : Scope} {names : Names} {opened : List Opened}
    {element : Opened} (h : scope.Shows names (element :: opened)) :
    (∀ ns ∈ scope.declaredAt (opened.length + 1), ns.1 < names.size ∧ ns.2 < names.size) ∧
      (scope.declaredAt (opened.length + 1)).map
        (fun ns => (names.get ns.1, names.get ns.2)) = declaring element.declared := by
  have hbound : ((boundBy (element :: opened)).filter
      fun b => decide (b.2.2 = opened.length + 1 ∧ 0 < opened.length + 1)) =
        (declaring element.declared).reverse.map fun ns => (ns.1, ns.2, opened.length + 1) := by
    have houter : (boundBy opened).filter
        (fun b => decide (b.2.2 = opened.length + 1 ∧ 0 < opened.length + 1)) = [] := by
      refine List.filter_eq_nil_iff.mpr fun bound hm => ?_
      have := depth_of_mem_boundBy hm
      simp only [decide_eq_true_eq]
      omega
    rw [boundBy, List.filter_append, houter, List.append_nil]
    refine List.filter_eq_self.mpr fun bound hm => ?_
    obtain ⟨ns, -, rfl⟩ := List.mem_map.mp hm
    simp
  rw [← h.bindings, List.filter_map] at hbound
  constructor
  · intro ns hm
    obtain ⟨b, hb, rfl⟩ := List.mem_map.mp hm
    exact h.numbers b (List.mem_filter.mp (List.mem_reverse.mp hb)).1
  · have hpairs := congrArg (fun bound => (bound.map fun b => (b.1, b.2.1)).reverse) hbound
    simp only [List.map_map, ← List.map_reverse, List.reverse_reverse] at hpairs
    rw [Scope.declaredAt, List.map_map]
    refine hpairs.trans ?_
    exact List.map_id _

-- ---------------------------------------------------------------------------
-- Accounts
-- ---------------------------------------------------------------------------

/-- What the indexes note of a node. -/
def Indexes.note (indexes : Indexes) (position : Nat) : Item → Indexes
  | .document _ => indexes
  | .element name _ => indexes.enterElement name
  | .attr name value => indexes.addAttribute position name value
  | .text value => indexes.addText position value
  | .comment _ => indexes.addLeaf .comment
  | .instruction _ => indexes.addLeaf .instruction

structure Account where
  /-- The number of nodes. -/
  size : Nat
  indexes : Indexes
  height : Nat := 0
  /-- The namespaces that elements declare, with the positions of the elements. -/
  declared : List (Nat × Bytes × Bytes) := []

namespace Account

def note (account : Account) (row : Row) : Account :=
  { account with
    size := account.size + 1
    indexes := account.indexes.note account.size row.item
    height := max account.height row.depth }

def noteAll (account : Account) (rows : List Row) : Account := rows.foldl note account

def reach (account : Account) (depth : Nat) : Account :=
  { account with height := max account.height depth }

/-- A depth may be counted before the nodes or after them. -/
theorem noteAll_reach (account : Account) (depth : Nat) (rows : List Row) :
    (account.reach depth).noteAll rows = (account.noteAll rows).reach depth := by
  induction rows generalizing account with
  | nil => rfl
  | cons row rest ih =>
    have hnote : (account.reach depth).note row = (account.note row).reach depth := by
      simp only [note, reach, Nat.max_right_comm]
    exact (congrArg (·.noteAll rest) hnote).trans (ih (account.note row))

end Account

/-- An account with the namespaces that the next element declares. -/
def Account.declare (account : Account) (declared : List (Bytes × Bytes)) : Account :=
  { account with declared := account.declared ++ (declaring declared).map (account.size, ·) }

/-- The account after a call that goes on with an outline. -/
def Account.take (account : Account) (outline : Outline) (call : Call) : Account :=
  match call with
  | .startElement _ _ => (account.declare outline.pending).noteAll (outline.added call)
  | .endElement _ => { account with indexes := account.indexes.leaveElement }
  | _ => account.noteAll (outline.added call)

namespace Builder

/-- A builder that keeps this besides its tree. -/
structure Accounts (account : Account) (builder : Builder) : Prop where
  size : builder.store.size = account.size
  indexes : builder.indexes = account.indexes
  height : builder.height = account.height
  names : builder.store.names.Sound
  numbered : builder.store.Numbered
  declared : builder.store.declarations = account.declared

variable {account : Account} {builder later : Builder} {outline : Outline}

theorem Accounts.same (h : builder.Accounts account)
    (hindexes : later.indexes = builder.indexes) (hheight : later.height = builder.height)
    (hstore : later.store = builder.store) : later.Accounts account := by
  refine ⟨?_, hindexes.trans h.indexes, hheight.trans h.height, ?_, ?_, ?_⟩
  · rw [hstore]
    exact h.size
  · rw [hstore]
    exact h.names
  · rw [hstore]
    exact h.numbered
  · rw [hstore]
    exact h.declared

theorem accounts_intern (name : Bytes) : Keeps (Accounts account) (intern name) := by
  intro builder h
  obtain ⟨hnames, hextends, -⟩ := h.names.intern name
  let store : Store := { builder.store with names := (builder.store.names.intern name).2 }
  obtain ⟨hnumbered, hdeclared⟩ : store.Numbered ∧ _ :=
    Store.declarations_of_extends h.numbered rfl hextends
  exact .of_run rfl
    ⟨h.size, h.indexes, h.height, hnames, hnumbered, hdeclared.trans h.declared⟩

theorem accounts_keep (value : Bytes) : Keeps (Accounts account) (keep value) := by
  intro builder h
  refine (keep_run builder value).mono ?_ fun _ _ _ => trivial
  rintro _ _ ⟨-, -, rfl⟩
  exact ⟨h.size, h.indexes, h.height, h.names, h.numbered, h.declared⟩

theorem accounts_reach (h : builder.Accounts account) (depth : Nat) :
    Triple (Builder.reach depth) builder (fun _ later => later.Accounts (account.reach depth))
      fun _ _ => False :=
  .of_run rfl ⟨h.size, h.indexes, congrArg (max · depth) h.height, h.names, h.numbered,
    h.declared⟩

theorem accounts_commit (h : builder.Accounts account) (node : Node) :
    Triple (commit node) builder
      (fun position later => position = account.size ∧
        later.Accounts { account with size := account.size + 1 })
      fun _ _ => True := by
  refine (commit_run builder node).mono ?_ fun _ _ _ => trivial
  rintro position _ ⟨rfl, -, rfl⟩
  refine ⟨h.size, ?_, h.indexes, h.height, h.names, h.numbered, h.declared⟩
  rw [← h.size]
  exact Store.size_withNode ..

theorem Accounts.note (h : builder.Accounts { account with size := account.size + 1 })
    {row : Row} {indexes : Indexes}
    (hi : indexes = account.indexes.note account.size row.item) :
    Triple (Builder.reach row.depth) { builder with indexes }
      (fun _ later => later.Accounts (account.note row)) fun _ _ => False :=
  .of_run rfl ⟨h.size, hi, congrArg (max · row.depth) h.height, h.names, h.numbered, h.declared⟩

theorem accounts_leaf (h : builder.Accounts account) (content : Span → Content) (value : Bytes) :
    Triple (leaf content value) builder
      (fun position later => position = account.size ∧ later.Accounts
        ({ account with size := account.size + 1 }.reach builder.stack.size))
      fun _ _ => True := by
  refine Triple.bind (keeps_parent (· = builder) builder rfl) ?_
  rintro parent _ rfl
  refine .step rfl (((accounts_keep value) _ h).bind fun span builder1 h1 => ?_)
  refine (keeps_measure (Accounts account) _ _ builder1 h1).bind fun level builder1 h1 => ?_
  refine (accounts_commit h1 _).bind ?_
  rintro position builder2 ⟨hposition, h2⟩
  exact (accounts_reach h2 _).bind_safe fun _ builder3 h3 => .pure ⟨hposition, h3⟩

theorem accounts_other (h : builder.Accounts account) {kind : NodeKind}
    (content : Span → Content) (value : Bytes) (item : Item)
    (hi : ∀ (indexes : Indexes) (position : Nat),
      indexes.addLeaf kind = indexes.note position item) :
    Triple (other kind content value) builder
      (fun _ later => later.Accounts
        (account.note { parent := none, depth := builder.stack.size, item }))
      fun _ _ => True := by
  refine (accounts_leaf h content value).bind ?_
  rintro position builder1 ⟨-, h1⟩
  refine .of_run rfl ⟨h1.size, ?_, h1.height, h1.names, h1.numbered, h1.declared⟩
  exact (congrArg (·.addLeaf kind) h1.indexes).trans (hi account.indexes account.size)

theorem accounts_addAttribute (h : builder.Accounts account) (element : Nat) (att : Attribute)
    {row : Row} (hrow : row.item = .attr att.name att.value) :
    Triple (addAttribute element row.depth att) builder
      (fun _ later => later.Accounts (account.note row)) fun _ _ => True := by
  unfold addAttribute
  refine (keeps_resolve (Accounts account) att.name true builder h).bind fun uri builder1 h1 => ?_
  refine (accounts_intern att.name builder1 h1).bind fun name builder2 h2 => ?_
  refine (accounts_keep att.value builder2 h2).bind fun span builder3 h3 => ?_
  refine (accounts_commit h3 _).bind ?_
  rintro position builder4 ⟨rfl, h4⟩
  refine .step rfl ((h4.note ?_).mono (fun _ _ hl => hl) fun _ _ hf => hf.elim)
  rw [h4.indexes, hrow]
  rfl

theorem accounts_addAttributes (h : builder.Accounts account) (element depth : Nat)
    (attributes : List Attribute) (row : Attribute → Row)
    (hrow : ∀ att, (row att).item = .attr att.name att.value ∧ (row att).depth = depth) :
    Triple (attributes.forM (addAttribute element depth)) builder
      (fun _ later => later.Accounts (account.noteAll (attributes.map row))) fun _ _ => True := by
  induction attributes generalizing builder account with
  | nil => exact .of_run rfl h
  | cons att rest ih =>
    have hatt := accounts_addAttribute h element att (hrow att).1
    rw [(hrow att).2] at hatt
    exact hatt.bind fun _ builder1 h1 => ih h1

-- ---------------------------------------------------------------------------
-- Calls
-- ---------------------------------------------------------------------------

theorem accounts_startElement (hb : Builds outline builder) (hw : outline.WellFormed)
    (h : builder.Accounts account) (name : Bytes) (attributes : List Attribute) :
    Triple (startElement name attributes) builder
      (fun _ later => later.Accounts (account.take outline (.startElement name attributes)))
      fun _ _ => True := by
  obtain ⟨p, rest, hpath⟩ := hw.exists_path
  have hp : outline.path.head? = some p := by rw [hpath]; rfl
  have hdepth : builder.stack.size = outline.path.length := hb.stack_size
  have hlength := hw.opens.length
  unfold startElement
  refine .step (parent_run hb hp) (.step rfl ?_)
  rw [hdepth, hlength]
  -- Both what is built and what is kept besides are followed up to the declarations.
  have hbind : Triple (bindPending (outline.opened.length + 1)) builder
      (fun _ later => later.Accounts account) fun _ _ => False :=
    .of_run rfl (h.same rfl rfl rfl)
  refine ((bindPending_spec hb name).and_safe hbind).bind_safe ?_
  rintro _ builder1 ⟨hb1, h1⟩
  refine Triple.bind (keeps_resolve (· = builder1) name false builder1 rfl) ?_
  rintro uri builder1 rfl
  refine ((intern_spec hb1 name).and_safe (accounts_intern name builder1 h1)).bind_safe ?_
  rintro id builder2 ⟨⟨hb2, -⟩, h2⟩
  refine (measure_run builder2 _ _).bind_mono (fun _ _ _ => trivial) ?_
  rintro level builder2 ⟨rfl, rfl, -⟩
  refine (measure_run builder2 _ _).bind_mono (fun _ _ _ => trivial) ?_
  rintro count builder2 ⟨rfl, rfl, -⟩
  refine (commit_run builder2 _).bind_mono (fun _ _ _ => trivial) ?_
  rintro position _ ⟨rfl, -, rfl⟩
  refine .step rfl (.step rfl ?_)
  let node : Node :=
    { parent := some p, depth := outline.opened.length + 1
      content := .element id uri attributes.length }
  let entered : Account :=
    { account.declare outline.pending with
      size := account.size + 1
      indexes := account.indexes.enterElement name }
  obtain ⟨hnumbers, hdeclared⟩ := hb2.scope.declaredAt
  have hpushed : (builder2.store.withNode node).Numbered := h2.numbered
  obtain ⟨hnumbered, hnodes, hnames, hrecorded⟩ :=
    Store.declarations_foldl hpushed builder2.store.size hnumbers
  have hafter : entered.reach (outline.opened.length + 1) =
      (account.declare outline.pending).note (outline.elementRow name attributes) := by
    simp only [Account.note, Account.reach, entered, Outline.elementRow, hlength]
    rfl
  have hall := entered.noteAll_reach (outline.opened.length + 1)
    (attributes.map outline.attributeRow)
  rw [hafter] at hall
  have h3 : Accounts entered { builder2 with
      store := (builder2.scope.declaredAt (outline.opened.length + 1)).foldl
        (fun store ns => store.declareNamespace builder2.store.size ns.1 ns.2)
        (builder2.store.withNode node)
      indexes := builder2.indexes.enterElement name } := by
    refine ⟨?_, congrArg (·.enterElement name) h2.indexes, h2.height, ?_, hnumbered, ?_⟩
    · rw [Store.size, hnodes, show entered.size = account.size + 1 from rfl, ← h2.size]
      exact Store.size_withNode ..
    · rw [hnames]
      exact h2.names
    · rw [hrecorded, show entered.declared = (account.declare outline.pending).declared from rfl,
        Account.declare, ← hdeclared, List.map_map, ← h2.size, ← h2.declared]
      rfl
  refine (accounts_addAttributes h3 builder2.store.size _ attributes outline.attributeRow
    fun att => ⟨rfl, congrArg (· + 1) hlength⟩).bind ?_
  rintro _ builder4 h4
  refine .step rfl (.of_run rfl ?_)
  show Accounts (((account.declare outline.pending).note _).noteAll _) _
  rw [hall]
  exact ⟨h4.size, h4.indexes, congrArg (max · _) h4.height, h4.names, h4.numbered, h4.declared⟩

theorem accounts_endElement (h : builder.Accounts account) (name : Bytes) :
    Triple (endElement name) builder
      (fun _ later => later.Accounts { account with indexes := account.indexes.leaveElement })
      fun _ _ => True := by
  unfold endElement
  refine Triple.bind (keeps_parent (· = builder) builder rfl) ?_
  rintro position builder rfl
  refine .step rfl ?_
  dsimp only
  split
  · exact trivial
  · split
    · exact trivial
    · refine (keeps_measure (· = builder) _ _ builder rfl).bind ?_
      rintro size builder rfl
      refine .of_run rfl ⟨?_, congrArg (·.leaveElement) h.indexes, h.height, h.names, h.numbered,
        h.declared⟩
      exact (size_close ..).trans h.size

theorem accounts_text (hb : Builds outline builder) (h : builder.Accounts account)
    (content : Bytes) (raw : Bool) :
    Triple (text content raw) builder
      (fun _ later => later.Accounts (account.take outline (.text content raw)))
      fun _ _ => True := by
  have hdrop : dropsText outline.chop raw outline.path content = (content.isEmpty ||
      content.all isSpace && (builder.chop && !raw || builder.stack.size == 1)) := by
    rw [dropsText, hb.chop, hb.stack_size]
  have htake : account.take outline (.text content raw) = account.noteAll
      (if dropsText outline.chop raw outline.path content then []
        else [outline.leafRow (.text content)]) := rfl
  rw [htake, hdrop]
  unfold text
  cases content.isEmpty with
  | true => exact .pure h
  | false =>
    refine .step rfl ?_
    cases content.all isSpace && (builder.chop && !raw || builder.stack.size == 1) with
    | true =>
      exact (keeps_parent (Accounts account) builder h).bind fun _ _ h1 => .pure h1
    | false =>
      refine (accounts_leaf h .text content).bind ?_
      rintro position builder1 ⟨rfl, h1⟩
      rw [hb.stack_size] at h1
      exact .of_run rfl ⟨h1.size, congrArg (·.addText account.size content) h1.indexes, h1.height,
        h1.names, h1.numbered, h1.declared⟩

theorem accounts_declareNamespace (h : builder.Accounts account) (qualifier uri : Bytes) :
    Triple (declareNamespace qualifier uri) builder (fun _ later => later.Accounts account)
      fun _ _ => True := by
  unfold declareNamespace
  refine (keeps_parent (Accounts account) builder h).bind fun _ builder1 h1 => ?_
  refine (accounts_intern qualifier builder1 h1).bind fun _ builder2 h2 => ?_
  exact (accounts_intern uri builder2 h2).bind fun _ _ h3 => .of_run rfl (h3.same rfl rfl rfl)

theorem take_accounts (hb : Builds outline builder) (hw : outline.WellFormed)
    (h : builder.Accounts account) {call : Call} (hc : call ≠ .endDocument) :
    Triple (take call) builder (fun _ later => later.Accounts (account.take outline call))
      fun _ _ => True := by
  cases call with
  | startDocument name =>
    unfold take startDocument
    refine .step rfl ?_
    rw [hb.started]
    exact trivial
  | endDocument => exact absurd rfl hc
  | startElement name attributes => exact accounts_startElement hb hw h name attributes
  | endElement name => exact accounts_endElement h name
  | text content raw => exact accounts_text hb h content raw
  | comment content =>
    have hother := accounts_other h .comment content (.comment content) fun _ _ => rfl
    rw [hb.stack_size] at hother
    exact hother
  | instruction content =>
    have hother := accounts_other h .instruction content (.instruction content) fun _ _ => rfl
    rw [hb.stack_size] at hother
    exact hother
  | declareNamespace qualifier uri => exact accounts_declareNamespace h qualifier uri

end Builder

end XmlStore
