import XmlStore.Proofs.Room
import XmlStore.Proofs.Scoping

/-!
# Building follows the outline

A builder between the start and the end of a document has built an outline. It takes a call exactly
if the call goes on with the outline, and then it has built the outline after that call.
-/

namespace XmlStore

structure Builds (outline : Outline) (builder : Builder) : Prop where
  started : builder.started = true
  unfinished : builder.finished = false
  chop : builder.chop = outline.chop
  stack : builder.stack.toList = outline.path.reverse
  sound : builder.store.Sound
  table : builder.store.table = outline.table
  scope : builder.scope.Shows builder.store.names outline.opened
  numbers : ∀ ns ∈ builder.pending,
    ns.1 < builder.store.names.size ∧ ns.2 < builder.store.names.size
  pending : builder.pending.map
    (fun ns => (builder.store.names.get ns.1, builder.store.names.get ns.2)) = outline.pending

namespace Builds

variable {outline : Outline} {builder : Builder} {store : Store}

theorem stack_size (h : Builds outline builder) : builder.stack.size = outline.path.length := by
  rw [← Array.length_toList, h.stack, List.length_reverse]

theorem grow (h : Builds outline builder) (hg : store.Grows builder.store) (hs : store.Sound)
    (ht : store.table = builder.store.table) : Builds outline { builder with store } where
  started := h.started
  unfinished := h.unfinished
  chop := h.chop
  stack := h.stack
  sound := hs
  table := ht.trans h.table
  scope := h.scope.grow hg.names
  numbers := by
    intro ns hm
    obtain ⟨hq, hu⟩ := h.numbers ns hm
    exact ⟨Nat.lt_of_lt_of_le hq hg.names.size, Nat.lt_of_lt_of_le hu hg.names.size⟩
  pending := by
    rw [← h.pending]
    refine List.map_congr_left fun ns hm => ?_
    obtain ⟨hq, hu⟩ := h.numbers ns hm
    rw [hg.names.get hq, hg.names.get hu]

theorem push (h : Builds outline builder) {node : Node} {row : Row}
    (hc : builder.store.Holds node.content) (hr : builder.store.row node = row) :
    Builds { outline with table := outline.table ++ [row] }
      { builder with store := builder.store.withNode node } := by
  obtain ⟨hs, ht⟩ := h.sound.withNode hc
  refine ⟨h.started, h.unfinished, h.chop, h.stack, hs, ?_, h.scope, h.numbers, h.pending⟩
  rw [ht, h.table, hr]

theorem aside (h : Builds outline builder) {options : IndexOptions} {metadata : Metadata}
    {indexes : Indexes} {height elements : Nat} :
    Builds outline { builder with options, metadata, indexes, height, elements } :=
  ⟨h.started, h.unfinished, h.chop, h.stack, h.sound, h.table, h.scope, h.numbers, h.pending⟩

theorem record (h : Builds outline builder) (namespaces : Array NamespaceDeclaration) :
    Builds outline { builder with store := { builder.store with namespaces } } :=
  h.grow ⟨.refl _, [], (List.append_nil _).symm⟩ ⟨h.sound.names, h.sound.holds⟩ rfl

end Builds

/-- The values of the nodes, nothing for an element. -/
def NodeTable.values (table : NodeTable) : List Bytes := table.map fun row => row.item.value

theorem NodeTable.length_values (table : NodeTable) : table.values.length = table.length :=
  List.length_map _

theorem Outline.take_values {outline later : Outline} {call : Call}
    (ht : outline.take call = some later) :
    later.table.values = outline.table.values ++ NodeTable.values (outline.added call) := by
  have hvalues := congrArg (List.map fun entry => entry.1.value) (Outline.take_resolved ht)
  simpa [NodeTable.resolved, NodeTable.values, Function.comp_def] using hvalues

theorem Outline.takeAll_values {outline later : Outline} {calls : List Call}
    (ht : outline.takeAll calls = some later) : outline.table.values <+: later.table.values := by
  induction calls generalizing outline with
  | nil =>
    cases ht
    exact List.prefix_refl _
  | cons call rest ih =>
    cases hnext : outline.take call with
    | none =>
      rw [Outline.takeAll, List.foldlM_cons, hnext] at ht
      cases ht
    | some next =>
      rw [Outline.takeAll_cons hnext] at ht
      have hlater := ih ht
      rw [Outline.take_values hnext] at hlater
      exact (List.prefix_append _ _).trans hlater

namespace Builder

variable {outline : Outline} {builder : Builder}

-- ---------------------------------------------------------------------------
-- Steps
-- ---------------------------------------------------------------------------

theorem parent_run (h : Builds outline builder) {p : Nat} (hp : outline.path.head? = some p) :
    parent builder = .ok p builder := by
  have hback : builder.stack.back? = some p := by
    rw [← Array.getLast?_toList, h.stack, List.getLast?_reverse, hp]
  unfold parent
  rw [run_get_bind, h.started, h.unfinished, hback]
  rfl

theorem intern_spec (h : Builds outline builder) (text : Bytes) :
    Triple (intern text) builder
      (fun id builder' => Builds outline builder' ∧ builder'.store.Grows builder.store ∧
        id < builder'.store.names.size ∧ builder'.store.names.get id = text)
      fun _ _ => False := by
  obtain ⟨hg, hs, ht⟩ := h.sound.intern text
  obtain ⟨-, -, hid, hget⟩ := h.sound.names.intern text
  exact .of_run rfl ⟨h.grow hg hs ht, hg, hid, hget⟩

theorem keep_spec (h : Builds outline builder) (value : Bytes) :
    Triple (keep value) builder
      (fun span builder' => Builds outline builder' ∧ builder'.store.Grows builder.store ∧
        span.stop ≤ builder'.store.values.size ∧ builder'.store.valueAt span = value)
      fun fault _ => Exceeds fault := by
  obtain ⟨hg, hs, ht, hspan, hvalue⟩ := h.sound.withValue value
  refine (keep_run builder value).mono ?_ fun _ _ hf => hf.2.1
  rintro _ _ ⟨rfl, -, rfl⟩
  exact ⟨h.grow hg hs ht, hg, hspan, hvalue⟩

theorem namespace?_spec (h : Builds outline builder) (qualifier : Bytes) :
    (builder.namespace? qualifier).map builder.store.names.get =
        Scopes.lookup? (outline.opened.map (·.declared)) qualifier ∧
      ∀ id, builder.namespace? qualifier = some id → id < builder.store.names.size := by
  unfold namespace?
  cases hf : builder.store.names.find? qualifier with
  | none => exact ⟨(h.scope.lookup?_eq_none h.sound.names hf).symm, by simp⟩
  | some id =>
    obtain ⟨hid, rfl⟩ := h.sound.names.get_of_find? hf
    exact ⟨h.scope.resolve? h.sound.names hid, fun _ => h.scope.resolve?_lt⟩

theorem resolve_spec (h : Builds outline builder) (name : Bytes) (isAttribute : Bool) :
    Triple (resolve name isAttribute) builder
      (fun id builder' => builder' = builder ∧ id < builder.store.names.size ∧
        Scopes.uri? (outline.opened.map (·.declared)) name isAttribute =
          some (builder.store.names.get id))
      fun _ _ => Scopes.uri? (outline.opened.map (·.declared)) name isAttribute = none := by
  unfold resolve Scopes.uri?
  refine .step rfl ?_
  have hzero := h.sound.names.get_zero
  have hpos := h.sound.names.size_pos
  cases (QName.ofBytes name).qualifier with
  | some qualifier =>
    obtain ⟨hl, hlt⟩ := namespace?_spec h qualifier
    simp only [← hl]
    cases hn : builder.namespace? qualifier with
    | some id => exact .pure ⟨rfl, hlt id hn, rfl⟩
    | none => exact .throw rfl
  | none =>
    cases isAttribute with
    | true => exact .pure ⟨rfl, hpos, congrArg some hzero.symm⟩
    | false =>
      have hl := h.scope.resolve? h.sound.names hpos
      rw [hzero] at hl
      simp only [← hl, Bool.false_eq_true, ↓reduceIte]
      cases hr : builder.scope.resolve? 0 with
      | some id => exact .pure ⟨rfl, h.scope.resolve?_lt hr, rfl⟩
      | none => exact .pure ⟨rfl, hpos, congrArg some hzero.symm⟩

-- ---------------------------------------------------------------------------
-- Nodes
-- ---------------------------------------------------------------------------

theorem leaf_spec (h : Builds outline builder) (hw : outline.WellFormed)
    {content : Span → Content} (item : Item) {value : Bytes}
    (hc : ∀ {store : Store} {span : Span}, span.stop ≤ store.values.size →
      store.Holds (content span))
    (hi : ∀ {store : Store} {span : Span}, store.valueAt span = value →
      store.item (content span) = item)
    (hu : ∀ span, (content span).uriId = 0) :
    Triple (leaf content value) builder (fun _ builder' => Builds (outline.leaf item) builder')
      fun fault _ => Exceeds fault := by
  obtain ⟨p, rest, hpath⟩ := hw.exists_path
  have hp : outline.path.head? = some p := by rw [hpath]; rfl
  unfold leaf
  refine .step (parent_run h hp) (.step rfl ((keep_spec h value).bind ?_))
  rintro span builder1 ⟨h1, -, hspan, hvalue⟩
  refine (measure_run builder1 _ _).bind_mono (fun _ _ hf => hf.2.1) ?_
  rintro level builder1 ⟨rfl, rfl, -⟩
  refine (commit_run builder1 _).bind_mono (fun _ _ hf => hf.2.1) ?_
  rintro position _ ⟨-, -, rfl⟩
  refine .step rfl (.pure (h1.push (hc hspan) ?_).aside)
  simp only [Store.row, hi hvalue, hu, h1.sound.names.get_zero, h.stack_size, hp]

theorem addAttribute_spec (h : Builds outline builder) (element depth : Nat) (att : Attribute) :
    Triple (addAttribute element depth att) builder
      (fun _ builder' =>
        (Scopes.uri? (outline.opened.map (·.declared)) att.name true).isSome ∧
          Builds { outline with table := outline.table ++
            [{ parent := some element, depth
               uri := (Scopes.uri? (outline.opened.map (·.declared)) att.name true).getD []
               item := .attr att.name att.value }] } builder')
      fun fault _ => Scopes.uri? (outline.opened.map (·.declared)) att.name true = none ∨
        Exceeds fault := by
  unfold addAttribute
  refine (resolve_spec h att.name true).bind_mono (fun _ _ hf => .inl hf) ?_
  rintro uri _ ⟨rfl, huri, he⟩
  refine (intern_spec h att.name).bind_safe ?_
  rintro name builder1 ⟨h1, hg1, hname, hget⟩
  refine (keep_spec h1 att.value).bind_mono (fun _ _ hf => .inr hf) ?_
  rintro span builder2 ⟨h2, hg2, hspan, hvalue⟩
  refine (commit_run builder2 _).bind_mono (fun _ _ hf => .inr hf.2.1) ?_
  rintro position _ ⟨-, -, rfl⟩
  refine .step rfl (.of_run rfl ⟨by rw [he]; rfl, ?_⟩)
  have hname2 := Nat.lt_of_lt_of_le hname hg2.names.size
  have huri1 := Nat.lt_of_lt_of_le huri hg1.names.size
  have huri2 := Nat.lt_of_lt_of_le huri1 hg2.names.size
  refine (h2.push ?_ ?_).aside
  · exact ⟨hname2, huri2, hspan⟩
  · simp only [Store.row, Store.item, Content.uriId, hg2.names.get hname, hget, hvalue,
      hg2.names.get huri1, hg1.names.get huri, he, Option.getD_some]

theorem addAttributes_spec (h : Builds outline builder) (element depth : Nat)
    (attributes : List Attribute) :
    Triple (attributes.forM (addAttribute element depth)) builder
      (fun _ builder' =>
        (∀ att ∈ attributes,
          (Scopes.uri? (outline.opened.map (·.declared)) att.name true).isSome) ∧
          Builds { outline with table := outline.table ++ attributes.map fun att =>
            { parent := some element, depth
              uri := (Scopes.uri? (outline.opened.map (·.declared)) att.name true).getD []
              item := .attr att.name att.value } } builder')
      fun fault _ => (∃ att ∈ attributes,
        Scopes.uri? (outline.opened.map (·.declared)) att.name true = none) ∨ Exceeds fault := by
  induction attributes generalizing outline builder with
  | nil =>
    refine .of_run rfl ⟨by simp, ?_⟩
    rw [List.map_nil, List.append_nil]
    exact h
  | cons att rest ih =>
    refine (addAttribute_spec h element depth att).bind_mono ?_ ?_
    · exact fun _ _ hf => hf.imp_left fun hnone => ⟨att, List.mem_cons_self, hnone⟩
    · rintro _ builder1 ⟨hsome, h1⟩
      refine (ih h1).mono ?_ ?_
      · rintro _ builder2 ⟨hall, h2⟩
        refine ⟨List.forall_mem_cons.mpr ⟨hsome, hall⟩, ?_⟩
        rw [List.map_cons, List.append_cons]
        exact h2
      · exact fun _ _ hf => hf.imp_left fun ⟨other, hm, hnone⟩ =>
          ⟨other, List.mem_cons_of_mem att hm, hnone⟩

theorem commit_spec (h : Builds outline builder) {node : Node} (row : Row)
    (hc : builder.store.Holds node.content) (hr : builder.store.row node = row) :
    Triple (commit node) builder
      (fun position builder' => position = outline.table.length ∧
        Builds { outline with table := outline.table ++ [row] } builder')
      fun fault _ => Exceeds fault := by
  refine (commit_run builder node).mono ?_ fun _ _ hf => hf.2.1
  rintro position _ ⟨rfl, -, rfl⟩
  refine ⟨?_, h.push hc hr⟩
  rw [← h.table, Store.length_table]
  rfl

theorem bindPending_spec (h : Builds outline builder) (name : Bytes) :
    Triple (bindPending (outline.opened.length + 1)) builder
      (fun _ builder' => Builds { outline with
        opened := ⟨name, outline.pending⟩ :: outline.opened, pending := [] } builder')
      fun _ _ => False := by
  refine .of_run rfl
    ⟨h.started, h.unfinished, h.chop, h.stack, h.sound, h.table, ?_, by simp, rfl⟩
  rw [← h.pending]
  exact h.scope.declareAll h.sound.names h.numbers name

theorem recordNamespaces_spec (h : Builds outline builder) (position depth : Nat) :
    Triple (recordNamespaces position depth) builder (fun _ builder' => Builds outline builder')
      fun _ _ => False := by
  obtain ⟨namespaces, hn⟩ := Store.foldl_declareNamespace builder.store position
    (builder.scope.declaredAt depth)
  refine .of_run rfl ?_
  simp only [hn]
  exact h.record namespaces

theorem other_spec (h : Builds outline builder) (hw : outline.WellFormed) {kind : NodeKind}
    {content : Span → Content} (item : Item) {value : Bytes}
    (hc : ∀ {store : Store} {span : Span}, span.stop ≤ store.values.size →
      store.Holds (content span))
    (hi : ∀ {store : Store} {span : Span}, store.valueAt span = value →
      store.item (content span) = item)
    (hu : ∀ span, (content span).uriId = 0) :
    Triple (other kind content value) builder
      (fun _ builder' => Builds (outline.leaf item) builder') fun fault _ => Exceeds fault :=
  (leaf_spec h hw item hc hi hu).bind fun _ _ h1 => .of_run rfl h1.aside

theorem added_eq (h : Builds outline builder) {call : Call} {later : Outline}
    (ht : outline.take call = some later) :
    builder.added call = NodeTable.values (outline.added call) := by
  cases call with
  | startDocument name => cases ht
  | endDocument => cases ht
  | startElement name attributes =>
    simp [added, Outline.added, NodeTable.values, Outline.elementRow, Outline.attributeRow,
      Item.value, Function.comp_def]
  | text content raw =>
    have hdrop : dropsText builder.chop raw builder.stack.toList content =
        dropsText outline.chop raw outline.path content := by
      rw [dropsText, dropsText, h.chop, h.stack, List.length_reverse]
    rw [added, Outline.added, hdrop]
    split <;> rfl
  | _ => rfl

/-- A builder that has taken no call. -/
structure Fresh (builder : Builder) : Prop where
  unstarted : builder.started = false
  unfinished : builder.finished = false
  stack : builder.stack = #[]
  nodes : builder.store.nodes = #[]
  values : builder.store.values = #[]
  names : builder.store.names.Sound
  scope : builder.scope.Shows builder.store.names []
  pending : builder.pending = []

theorem ofOptions_fresh (options : IndexOptions) (chop : Bool) (metadata : Metadata) :
    Fresh { ofOptions options with chop, metadata } := by
  obtain ⟨hn, hs⟩ := Scope.initial_shows Names.empty_sound
  unfold ofOptions
  generalize Scope.initial .empty = initial at hn hs ⊢
  exact ⟨rfl, rfl, rfl, rfl, rfl, hn, hs, rfl⟩

variable [Segmenter]

/-- What a step with an outline does: a builder follows if the outline goes on and what it adds
fits, and refuses the call otherwise. -/
def Follows (outline : Outline) (builder : Builder) (call : Call) : Prop :=
  Triple (take call) builder
    (fun _ builder' => ∃ later, outline.take call = some later ∧ Builds later builder')
    fun fault _ => outline.take call = none ∨ Exceeds fault

theorem startElement_follows (h : Builds outline builder) (hw : outline.WellFormed)
    (name : Bytes) (attributes : List Attribute) :
    Follows outline builder (.startElement name attributes) := by
  obtain ⟨p, rest, hpath⟩ := hw.exists_path
  have hp : outline.path.head? = some p := by rw [hpath]; rfl
  have hdepth : builder.stack.size = outline.opened.length + 1 := by
    rw [h.stack_size, hw.opens.length]
  have hnext : outline.take (.startElement name attributes) =
      if (outline.scopes.uri? name false).isSome ∧
          attributes.all fun att => (outline.scopes.uri? att.name true).isSome then
        some (outline.enter name attributes)
      else none := rfl
  unfold Follows take startElement
  refine .step (parent_run h hp) (.step rfl ?_)
  rw [hdepth]
  refine (bindPending_spec h name).bind_safe ?_
  rintro _ builder1 h1
  refine (resolve_spec h1 name false).bind_mono ?_ ?_
  · intro _ _ hf
    refine .inl (hnext.trans (if_neg fun hs => ?_))
    exact absurd (show outline.scopes.uri? name false = none from hf)
      (Option.ne_none_iff_isSome.mpr hs.1)
  rintro uri builder1 ⟨rfl, huri, he⟩
  have he : outline.scopes.uri? name false = some (builder1.store.names.get uri) := he
  refine (intern_spec h1 name).bind_safe ?_
  rintro id builder2 ⟨h2, hg, hid, hget⟩
  refine (measure_run builder2 _ _).bind_mono (fun _ _ hf => .inr hf.2.1) ?_
  rintro level builder2 ⟨rfl, rfl, -⟩
  refine (measure_run builder2 _ _).bind_mono (fun _ _ hf => .inr hf.2.1) ?_
  rintro count builder2 ⟨rfl, rfl, -⟩
  refine (commit_spec h2 (outline.elementRow name attributes) ?_ ?_).bind_mono
    (fun _ _ hf => .inr hf) ?_
  · exact ⟨hid, Nat.lt_of_lt_of_le huri hg.names.size⟩
  · simp only [Store.row, Store.item, Content.uriId, hget, hg.names.get huri, Outline.elementRow,
      hp, hw.opens.length, he, Option.getD_some]
  rintro position builder3 ⟨rfl, h3⟩
  refine .step rfl ((recordNamespaces_spec h3.aside _ _).bind_safe ?_)
  rintro _ builder4 h4
  refine (addAttributes_spec h4 _ _ attributes).bind_mono ?_ ?_
  · intro _ _ hf
    refine hf.imp_left ?_
    rintro ⟨att, hm, hnone⟩
    refine hnext.trans (if_neg fun hs => ?_)
    exact absurd (show outline.scopes.uri? att.name true = none from hnone)
      (Option.ne_none_iff_isSome.mpr (List.all_eq_true.mp hs.2 att hm))
  rintro _ builder5 ⟨hall, h5⟩
  refine .step rfl (.of_run rfl ⟨outline.enter name attributes, ?_, ?_⟩)
  · exact hnext.trans (if_pos ⟨by rw [he]; rfl, List.all_eq_true.mpr hall⟩)
  · have htable : builder5.store.table = (outline.enter name attributes).table := by
      rw [h5.table, List.append_assoc, List.singleton_append]
      refine congrArg (fun rows => outline.table ++ outline.elementRow name attributes :: rows) ?_
      refine List.map_congr_left fun att _ => ?_
      rw [Outline.attributeRow, hw.opens.length]
      rfl
    refine ⟨h5.started, h5.unfinished, h5.chop, ?_, h5.sound, htable, h5.scope, h5.numbers,
      h5.pending⟩
    simp [h5.stack, Outline.enter]

theorem endElement_follows (h : Builds outline builder) (hw : outline.WellFormed)
    (name : Bytes) : Follows outline builder (.endElement name) := by
  obtain ⟨p, rest, hpath⟩ := hw.exists_path
  have hp : outline.path.head? = some p := by rw [hpath]; rfl
  have hsize : builder.stack.size = outline.opened.length + 1 := by
    rw [h.stack_size, hw.opens.length]
  have hopens := hw.opens
  rw [hpath] at hopens
  unfold Follows take endElement
  refine .step (parent_run h hp) (.step rfl ?_)
  rw [hsize]
  cases ho : outline.opened with
  | nil =>
    refine .throw (.inl ?_)
    rw [Outline.take, ho]
  | cons element opened =>
    have hscope := h.scope
    rw [ho] at hopens hscope
    rw [List.length_cons, if_neg (by omega)]
    cases hopens with
    | element hrow hitem _ =>
      rw [← h.table] at hrow
      have hname : builder.store.name p = element.name := by
        rw [h.sound.name_eq hrow, hitem]
        rfl
      have hnext : outline.take (.endElement name) =
          if element.name = name then
            some { outline with table := outline.table.close p, path := rest, opened }
          else none := by
        rw [Outline.take, ho, hpath]
      simp only [hname]
      by_cases hn : element.name = name
      · rw [if_neg (not_not.mpr hn)]
        rw [if_pos hn] at hnext
        refine (measure_run builder _ _).bind_mono (fun _ _ hf => .inr hf.2.1) ?_
        rintro size builder ⟨rfl, rfl, -⟩
        obtain ⟨hs, ht⟩ := h.sound.close p
        refine .of_run rfl ⟨_, hnext, h.started, h.unfinished, h.chop, ?_, hs, ?_,
          hscope.leave, h.numbers, h.pending⟩
        · simp [Array.toList_pop, h.stack, hpath]
        · rw [ht, h.table]
      · rw [if_pos hn]
        exact .throw (.inl (hnext.trans (if_neg hn)))

theorem text_follows (h : Builds outline builder) (hw : outline.WellFormed)
    (content : Bytes) (raw : Bool) : Follows outline builder (.text content raw) := by
  obtain ⟨p, rest, hpath⟩ := hw.exists_path
  have hp : outline.path.head? = some p := by rw [hpath]; rfl
  have hdrop : dropsText outline.chop raw outline.path content = (content.isEmpty ||
      content.all isSpace && (builder.chop && !raw || builder.stack.size == 1)) := by
    rw [dropsText, h.chop, h.stack_size]
  change Triple (text content raw) builder _ _
  rw [Outline.take, hdrop]
  unfold text
  cases content.isEmpty with
  | true => exact .pure ⟨outline, rfl, h⟩
  | false =>
    refine .step rfl ?_
    cases content.all isSpace && (builder.chop && !raw || builder.stack.size == 1) with
    | true => exact .step (parent_run h hp) (.pure ⟨outline, rfl, h⟩)
    | false =>
      refine (leaf_spec h hw (.text content) id ?_ fun _ => rfl).bind_mono
        (fun _ _ hf => .inr hf) ?_
      · exact fun hv => congrArg Item.text hv
      · exact fun _ _ h1 => .of_run rfl ⟨_, rfl, h1.aside⟩

theorem declareNamespace_follows (h : Builds outline builder) (hw : outline.WellFormed)
    (qualifier uri : Bytes) : Follows outline builder (.declareNamespace qualifier uri) := by
  obtain ⟨p, rest, hpath⟩ := hw.exists_path
  have hp : outline.path.head? = some p := by rw [hpath]; rfl
  unfold Follows take declareNamespace
  refine .step (parent_run h hp) ((intern_spec h qualifier).bind_safe ?_)
  rintro id builder1 ⟨h1, hg1, hid, hget⟩
  refine (intern_spec h1 uri).bind_safe ?_
  rintro id' builder2 ⟨h2, hg2, hid', hget'⟩
  refine .of_run rfl ⟨_, rfl, h2.started, h2.unfinished, h2.chop, h2.stack, h2.sound, h2.table,
    h2.scope, ?_, ?_⟩
  · intro ns hm
    rcases List.mem_append.mp hm with hm | hm
    · exact h2.numbers ns hm
    · obtain rfl := List.mem_singleton.mp hm
      exact ⟨Nat.lt_of_lt_of_le hid hg2.names.size, hid'⟩
  · rw [List.map_append, h2.pending]
    simp only [List.map_cons, List.map_nil, hg2.names.get hid, hget, hget']

theorem take_follows (h : Builds outline builder) (hw : outline.WellFormed) {call : Call}
    (hc : call ≠ .endDocument) : Follows outline builder call := by
  cases call with
  | startDocument name =>
    unfold Follows take startDocument
    refine .step rfl ?_
    rw [h.started]
    exact .throw (.inl rfl)
  | endDocument => exact absurd rfl hc
  | startElement name attributes => exact startElement_follows h hw name attributes
  | endElement name => exact endElement_follows h hw name
  | text content raw => exact text_follows h hw content raw
  | comment content =>
    refine (other_spec h hw (.comment content) id ?_ fun _ => rfl).mono ?_ fun _ _ hf => .inr hf
    · exact fun hv => congrArg Item.comment hv
    · exact fun _ _ h1 => ⟨_, rfl, h1⟩
  | instruction content =>
    refine (other_spec h hw (.instruction content) id ?_ fun _ => rfl).mono ?_
      fun _ _ hf => .inr hf
    · exact fun hv => congrArg Item.instruction hv
    · exact fun _ _ h1 => ⟨_, rfl, h1⟩
  | declareNamespace qualifier uri => exact declareNamespace_follows h hw qualifier uri

-- ---------------------------------------------------------------------------
-- Runs
-- ---------------------------------------------------------------------------

/-- A builder that has kept the values of its outline takes a call that goes on with the outline, if
the outline after it fits. -/
theorem take_fits (h : Builds outline builder) (hw : outline.WellFormed)
    (hv : builder.store.values.size = lengths outline.table.values) {call : Call} {later : Outline}
    (ht : outline.take call = some later) (hfit : Fit later.table.values) :
    Triple (take call) builder
      (fun _ builder' => Builds later builder' ∧
        builder'.store.values.size = lengths later.table.values)
      fun _ _ => False := by
  have hc : call ≠ .endDocument := by
    rintro rfl
    cases ht
  have hlater := Outline.take_values ht
  have hadded := added_eq h ht
  have hsize : builder.size = outline.table.values.length := by
    rw [NodeTable.length_values, ← h.table, Store.length_table]
    rfl
  have hroom : builder.Room (builder.added call) := by
    have hdepth : builder.stack.size ≤ builder.size := by
      rw [hsize, NodeTable.length_values, h.stack_size]
      exact hw.layout.chain.length_le fun _ => hw.layout.chain.lt
    have hnodes := hfit.nodes
    have hbytes := hfit.bytes
    rw [hlater, ← hadded, List.length_append, ← hsize] at hnodes
    rw [hlater, ← hadded, lengths_append, ← hv] at hbytes
    exact ⟨by omega, by omega, hbytes⟩
  refine ((take_follows h hw hc).and (take_adds builder call)).mono ?_ ?_
  · rintro _ builder' ⟨⟨later', ht', hb⟩, hadds⟩
    obtain rfl := Option.some.inj (ht.symm.trans ht')
    refine ⟨hb, ?_⟩
    rw [hadds.values, hlater, lengths_append, hv, hadded]
  · rintro _ _ ⟨hnone | he, hfull⟩
    · cases ht.symm.trans hnone
    · exact hfull he hroom

/-- A builder takes the calls that go on with its outline, if the outline after them fits. -/
theorem run_fits (h : Builds outline builder) (hw : outline.WellFormed)
    (hv : builder.store.values.size = lengths outline.table.values) {calls : List Call}
    {later : Outline} (ht : outline.takeAll calls = some later) (hfit : Fit later.table.values) :
    Triple (calls.forM take) builder (fun _ builder' => Builds later builder')
      fun _ _ => False := by
  induction calls generalizing outline builder with
  | nil =>
    cases ht
    exact .pure h
  | cons call rest ih =>
    cases hnext : outline.take call with
    | none =>
      rw [Outline.takeAll, List.foldlM_cons, hnext] at ht
      cases ht
    | some next =>
      rw [Outline.takeAll_cons hnext] at ht
      refine (take_fits h hw hv hnext (hfit.of_prefix (Outline.takeAll_values ht))).bind ?_
      rintro _ builder1 ⟨h1, hv1⟩
      exact ih h1 (hw.take hnext) hv1 ht

theorem startDocument_spec (h : Fresh builder) (name : Bytes) :
    Triple (take (.startDocument name)) builder
      (fun _ builder' => Builds (.ofName builder.chop name) builder')
      fun fault _ => Exceeds fault := by
  have hsound : builder.store.Sound := by
    refine ⟨h.names, fun node hm => ?_⟩
    rw [h.nodes] at hm
    cases hm
  have htable : builder.store.table = [] := by rw [Store.table, h.nodes]; rfl
  obtain ⟨hg, hs, ht, hspan, hvalue⟩ := hsound.withValue name
  unfold take startDocument
  refine .step rfl ?_
  rw [h.unstarted]
  refine .step rfl ((keep_run _ name).bind_mono (fun _ _ hf => hf.2.1) ?_)
  rintro span _ ⟨rfl, -, rfl⟩
  refine (commit_run _ _).bind_mono (fun _ _ hf => hf.2.1) ?_
  rintro position _ ⟨rfl, -, rfl⟩
  refine .of_run rfl ?_
  have hnode : (builder.store.withValue name).Holds
      (Node.mk none 0 1 (.document (builder.store.nextSpan name))).content := hspan
  obtain ⟨hs', ht'⟩ := hs.withNode hnode
  refine ⟨rfl, h.unfinished, rfl, ?_, hs', ht'.trans ?_, h.scope.grow hg.names, ?_, ?_⟩
  · simp [h.stack, Builder.size, Store.size, Store.withValue, h.nodes, Outline.ofName]
  · rw [ht, htable]
    simp only [Store.row, Store.item, Content.uriId, hvalue, hs.names.get_zero, Outline.ofName,
      List.nil_append]
  · simp [h.pending]
  · simp [h.pending, Outline.ofName]

theorem endDocument_spec (h : Builds outline builder) (hw : outline.WellFormed)
    (ho : outline.opened = []) (hp : outline.pending = []) :
    Triple (take .endDocument) builder
      (fun _ builder' => builder'.finished = true ∧ builder'.store.Sound ∧
        builder'.store.table = outline.table.close 0 ∧ builder'.stack = #[])
      fun fault _ => Exceeds fault ∧ maxEntry < outline.table.length := by
  have hpath : outline.path = [0] := (ho ▸ hw.opens).path_eq
  have hsize : builder.stack.size = 1 := by rw [h.stack_size, hpath]; rfl
  have hpending : builder.pending = [] := List.map_eq_nil_iff.mp (h.pending.trans hp)
  have hlength : builder.store.size = outline.table.length := by
    rw [← h.table, Store.length_table]
  obtain ⟨hs, ht⟩ := h.sound.close 0
  unfold take endDocument
  refine .step (parent_run h (by rw [hpath]; rfl)) (.step rfl ?_)
  rw [hsize, hpending, if_neg (Nat.lt_irrefl 1)]
  refine (measure_run builder _ _).bind_mono (fun _ _ hf => ⟨hf.2.1, hlength ▸ hf.2.2⟩) ?_
  rintro size builder ⟨rfl, rfl, -⟩
  exact .of_run rfl ⟨rfl, hs, ht.trans (congrArg (·.close 0) h.table), rfl⟩

end Builder

end XmlStore
