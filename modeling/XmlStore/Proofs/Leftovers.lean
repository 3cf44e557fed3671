import XmlStore.Proofs.Finished

/-!
# What refused calls leave

A builder goes on after a refused call with whatever the call has done so far. Of the nodes and the
open positions a refused call changes nothing, with one exception: an element with an attribute
whose prefix is undeclared stays in the table, which has fewer attributes after it than the element
counts, and is not open. No later call mends it. All other runs finish with a whole store.
-/

namespace XmlStore

open NodeTable (Layout Attributed)

-- ---------------------------------------------------------------------------
-- Skeletons
-- ---------------------------------------------------------------------------

/-- The nodes and open positions of a builder, without names, values and scopes. -/
structure Skeleton where
  nodes : List Node
  stack : List Nat
  started : Bool
  finished : Bool

def Builder.skeleton (builder : Builder) : Skeleton where
  nodes := builder.store.nodes.toList
  stack := builder.stack.toList
  started := builder.started
  finished := builder.finished

/-- The nodes as rows, with nothing for names and values. -/
def NodeTable.ofNodes (nodes : List Node) : NodeTable := nodes.map (Store.row {})

namespace Skeleton

/-- The innermost open position of a document that has started and not ended. -/
structure Open (s : Skeleton) (p : Nat) : Prop where
  started : s.started = true
  unfinished : s.finished = false
  last : s.stack.getLast? = some p

structure IsAttributeOf (element depth : Nat) (node : Node) : Prop where
  parent : node.parent = some element
  depth : node.depth = depth
  size : node.size = 1
  kind : node.kind = .attr

/-- The element that comes next, with nodes after it. -/
def block (s : Skeleton) (p name uri count : Nat) (attributes : List Node) : List Node :=
  s.nodes ++ { parent := some p, depth := s.stack.length, content := .element name uri count } ::
    attributes

@[simp] theorem getElem?_block (s : Skeleton) (p name uri count : Nat) (attributes : List Node) :
    (s.block p name uri count attributes)[s.nodes.length]? =
      some { parent := some p, depth := s.stack.length, content := .element name uri count } := by
  simp [block]

/-- The first open node with its size. -/
def close (s : Skeleton) (p : Nat) : List Node :=
  s.nodes.modify p fun node => { node with size := s.nodes.length - p }

/-- What a call does that is taken. One that starts a document may be refused after that. -/
inductive Taken (s : Skeleton) : Skeleton → Prop
  | nothing : Taken s s
  | start (h : s.started = false) : Taken s { s with started := true }
  | document (name : Span) (h : s.started = false) :
    Taken s { s with
      nodes := s.nodes ++ [{ parent := none, depth := 0, content := .document name }]
      stack := s.stack ++ [s.nodes.length]
      started := true }
  | leaf {p : Nat} {content : Content} (h : s.Open p) (hcount : content.attributeCount = 0)
    (hkind : content.kind ≠ .attr) :
    Taken s { s with
      nodes := s.nodes ++ [{ parent := some p, depth := s.stack.length, content }] }
  | enter {p name uri : Nat} {attributes : List Node} (h : s.Open p)
    (ha : ∀ node ∈ attributes, IsAttributeOf s.nodes.length (s.stack.length + 1) node) :
    Taken s { s with
      nodes := s.block p name uri attributes.length attributes
      stack := s.stack ++ [s.nodes.length] }
  | leave {p : Nat} (h : s.Open p) (hlength : 2 ≤ s.stack.length) :
    Taken s { s with nodes := s.close p, stack := s.stack.dropLast }
  | finish {p : Nat} (h : s.Open p) (hlength : s.stack.length ≤ 1) :
    Taken s { s with nodes := s.close 0, stack := [], finished := true }

/-- What a call does that is refused in time: no nodes are added. -/
structure Stays (s s' : Skeleton) : Prop where
  taken : Taken s s'
  nodes : s'.nodes = s.nodes

theorem Stays.of_eq {s s' : Skeleton} (h : s' = s) : Stays s s' := h ▸ ⟨.nothing, rfl⟩

/-- An element is added that is not opened and lacks attributes. -/
inductive Strays (s : Skeleton) : Skeleton → Prop
  | element {p name uri count : Nat} {attributes : List Node} (h : s.Open p)
    (hcount : attributes.length < count) :
    Strays s { s with nodes := s.block p name uri count attributes }

end Skeleton

-- ---------------------------------------------------------------------------
-- What the calls do
-- ---------------------------------------------------------------------------

namespace Builder

open Skeleton (Taken Stays Strays Open IsAttributeOf)

variable {builder : Builder}

/-- What needs an open position is refused without one, and nothing has changed then. -/
theorem parent_bind {α : Type} {next : Nat → Action α} {post : α → Builder → Prop}
    {fault : BuildFault → Builder → Prop} (hfault : ∀ e, fault e builder)
    (h : ∀ p, builder.skeleton.Open p → Triple (next p) builder post fault) :
    Triple (parent >>= next) builder post fault := by
  have hparent : Triple parent builder (fun p later => later = builder ∧ builder.skeleton.Open p)
      fun _ later => later = builder := by
    refine .step rfl ?_
    cases hs : builder.started with
    | false => exact .throw rfl
    | true =>
      cases hf : builder.finished with
      | true => exact .throw rfl
      | false =>
        cases hp : builder.stack.back? with
        | none => exact .throw rfl
        | some p =>
          refine .pure ⟨rfl, hs, hf, ?_⟩
          show builder.stack.toList.getLast? = some p
          rw [← hp, Array.getLast?_toList]
  refine .bind (hparent.mono (fun _ _ hp => hp) ?_) ?_
  · rintro e _ rfl
    exact hfault e
  · rintro p _ ⟨rfl, hopen⟩
    exact h p hopen

theorem measure_places (builder : Builder) (n : Nat) (counted : Counted) :
    Triple (measure n counted) builder (fun m later => m = n ∧ later = builder)
      fun fault later => later = builder ∧ Exceeds fault :=
  (measure_run builder n counted).mono (fun _ _ hp => ⟨hp.1, hp.2.1⟩) fun _ _ hf => ⟨hf.1, hf.2.1⟩

theorem commit_places (builder : Builder) (node : Node) :
    Triple (commit node) builder
      (fun position later => position = builder.skeleton.nodes.length ∧
        later.skeleton = { builder.skeleton with nodes := builder.skeleton.nodes ++ [node] })
      fun fault later => later = builder ∧ Exceeds fault := by
  refine (commit_run builder node).mono ?_ fun _ _ hf => ⟨hf.1, hf.2.1⟩
  rintro position _ ⟨rfl, -, rfl⟩
  refine ⟨(Array.length_toList).symm, ?_⟩
  simp [skeleton, Store.withNode]

theorem keep_places (builder : Builder) (value : Bytes) :
    Triple (keep value) builder (fun _ later => later.skeleton = builder.skeleton)
      fun fault later => later = builder ∧ Exceeds fault := by
  refine (keep_run builder value).mono ?_ fun _ _ hf => ⟨hf.1, hf.2.1⟩
  rintro span _ ⟨-, -, rfl⟩
  rfl

theorem intern_places (builder : Builder) (name : Bytes) :
    Triple (intern name) builder (fun _ later => later.skeleton = builder.skeleton)
      fun _ _ => False := .of_run rfl rfl

/-- Resolving a name fails only for the qualifier of the name. -/
theorem resolve_places (builder : Builder) (name : Bytes) (isAttribute : Bool) :
    Triple (resolve name isAttribute) builder (fun _ later => later = builder)
      fun fault later => later = builder ∧ ∃ qualifier,
        (QName.ofBytes name).qualifier = some qualifier ∧
          fault = .undeclaredQualifier qualifier := by
  unfold resolve
  refine .step rfl ?_
  cases (QName.ofBytes name).qualifier with
  | none => exact .pure rfl
  | some qualifier =>
    cases hn : builder.namespace? qualifier with
    | some uri =>
      simp only [hn]
      exact .pure rfl
    | none =>
      simp only [hn]
      exact .throw ⟨rfl, qualifier, rfl, rfl⟩

theorem recordNamespaces_places (builder : Builder) (position depth : Nat) :
    Triple (recordNamespaces position depth) builder
      (fun _ later => later.skeleton = builder.skeleton) fun _ _ => False := by
  obtain ⟨namespaces, hn⟩ := Store.foldl_declareNamespace builder.store position
    (builder.scope.declaredAt depth)
  refine .of_run rfl ?_
  simp only [hn]
  rfl

/-- Why one of these attributes is refused. -/
def RefusesAttribute (attributes : List Attribute) (fault : BuildFault) : Prop :=
  (∃ att ∈ attributes, ∃ qualifier, (QName.ofBytes att.name).qualifier = some qualifier ∧
    fault = .undeclaredQualifier qualifier) ∨ Exceeds fault

theorem addAttribute_places (builder : Builder) (element depth : Nat) (att : Attribute) :
    Triple (addAttribute element depth att) builder
      (fun _ later => ∃ node, IsAttributeOf element depth node ∧
        later.skeleton = { builder.skeleton with nodes := builder.skeleton.nodes ++ [node] })
      fun fault later => later.skeleton = builder.skeleton ∧ RefusesAttribute [att] fault := by
  unfold addAttribute
  refine (resolve_places builder att.name true).bind_mono ?_ ?_
  · rintro _ _ ⟨rfl, hq⟩
    exact ⟨rfl, .inl ⟨att, List.mem_singleton_self att, hq⟩⟩
  rintro uri _ rfl
  refine (intern_places _ att.name).bind_safe ?_
  rintro name builder1 h1
  refine (keep_places builder1 att.value).bind_mono ?_ ?_
  · rintro _ _ ⟨rfl, he⟩
    exact ⟨h1, .inr he⟩
  rintro span builder2 h2
  refine (commit_places builder2 _).bind_mono ?_ ?_
  · rintro _ _ ⟨rfl, he⟩
    exact ⟨h2.trans h1, .inr he⟩
  rintro position builder3 ⟨-, h3⟩
  refine .step rfl (.of_run rfl ⟨{ parent := some element, depth, content := .attr name uri span },
    ⟨rfl, rfl, rfl, rfl⟩, ?_⟩)
  rw [← h1, ← h2]
  exact h3

theorem addAttributes_places (builder : Builder) (element depth : Nat)
    (attributes : List Attribute) :
    Triple (attributes.forM (addAttribute element depth)) builder
      (fun _ later => ∃ nodes, nodes.length = attributes.length ∧
        (∀ node ∈ nodes, IsAttributeOf element depth node) ∧
        later.skeleton = { builder.skeleton with nodes := builder.skeleton.nodes ++ nodes })
      fun fault later => ∃ nodes, nodes.length < attributes.length ∧
        later.skeleton = { builder.skeleton with nodes := builder.skeleton.nodes ++ nodes } ∧
        RefusesAttribute attributes fault := by
  induction attributes generalizing builder with
  | nil => exact .of_run rfl ⟨[], rfl, by simp, by simp⟩
  | cons att rest ih =>
    refine (addAttribute_places builder element depth att).bind_mono ?_ ?_
    · rintro fault later ⟨hsame, hr⟩
      refine ⟨[], Nat.succ_pos _, by simp [hsame], hr.imp_left ?_⟩
      rintro ⟨_, hm, hq⟩
      obtain rfl := List.mem_singleton.mp hm
      exact ⟨_, List.mem_cons_self, hq⟩
    rintro _ builder1 ⟨node, hnode, h1⟩
    refine (ih builder1).mono ?_ ?_
    · rintro _ later ⟨nodes, hlength, hall, h2⟩
      refine ⟨node :: nodes, by simp [hlength], List.forall_mem_cons.mpr ⟨hnode, hall⟩, ?_⟩
      simp [h2, h1]
    · rintro fault later ⟨nodes, hlength, h2, hr⟩
      refine ⟨node :: nodes, Nat.succ_lt_succ hlength, by simp [h2, h1], hr.imp_left ?_⟩
      rintro ⟨other, hm, hq⟩
      exact ⟨other, List.mem_cons_of_mem att hm, hq⟩

/-- What a call does if it is taken, and what it has done if it is refused. -/
def Places (builder : Builder) (call : Call) : Prop :=
  Triple (take call) builder (fun _ later => Taken builder.skeleton later.skeleton)
    fun fault later => Stays builder.skeleton later.skeleton ∨
      Strays builder.skeleton later.skeleton ∧ ∃ name attributes,
        call = .startElement name attributes ∧ attributes ≠ [] ∧ RefusesAttribute attributes fault

theorem startElement_places (builder : Builder) (name : Bytes) (attributes : List Attribute) :
    Places builder (.startElement name attributes) := by
  unfold Places take startElement
  refine parent_bind (fun _ => .inl (.of_eq rfl)) fun p hopen => ?_
  refine .step rfl (.step rfl ?_)
  refine (resolve_places _ name false).bind_mono ?_ ?_
  · rintro _ _ ⟨rfl, -⟩
    exact .inl (.of_eq rfl)
  rintro uri _ rfl
  refine (intern_places _ name).bind_safe ?_
  rintro id builder2 (h2 : builder2.skeleton = builder.skeleton)
  refine (measure_places builder2 _ _).bind_mono ?_ ?_
  · rintro _ _ ⟨rfl, -⟩
    exact .inl (.of_eq h2)
  rintro level builder2 ⟨rfl, rfl⟩
  refine (measure_places builder2 _ _).bind_mono ?_ ?_
  · rintro _ _ ⟨rfl, -⟩
    exact .inl (.of_eq h2)
  rintro count builder2 ⟨rfl, rfl⟩
  refine (commit_places builder2 _).bind_mono ?_ ?_
  · rintro _ _ ⟨rfl, -⟩
    exact .inl (.of_eq h2)
  rintro position builder3 ⟨rfl, h3⟩
  refine .step rfl ((recordNamespaces_places _ _ _).bind_safe ?_)
  rintro _ builder4 (h4 : builder4.skeleton = builder3.skeleton)
  rw [h2] at h3 ⊢
  have hblock (nodes : List Node) :
      builder4.skeleton.nodes ++ nodes =
        builder.skeleton.block p id uri attributes.length nodes := by
    rw [h4, h3, List.append_assoc]
    rfl
  rw [h3] at h4
  refine (addAttributes_places builder4 _ _ attributes).bind_mono ?_ ?_
  · rintro fault later ⟨nodes, hlength, hlater, hr⟩
    refine .inr ⟨?_, name, attributes, rfl, ?_, hr⟩
    · rw [hlater, hblock, h4]
      exact .element hopen hlength
    · rintro rfl
      exact Nat.not_lt_zero _ hlength
  rintro _ builder5 ⟨nodes, hlength, hall, h5⟩
  rw [hblock, h4, ← hlength] at h5
  refine .step rfl (.of_run rfl ?_)
  have hopened (position : Nat) : skeleton { builder5 with stack := builder5.stack.push position } =
      { builder5.skeleton with stack := builder5.skeleton.stack ++ [position] } := by
    simp [skeleton]
  have htaken : Taken builder.skeleton
      (skeleton { builder5 with stack := builder5.stack.push builder.skeleton.nodes.length }) := by
    rw [hopened, h5]
    exact .enter hopen hall
  exact htaken

/-- A text, comment or instruction, and what is done about the indexes. -/
theorem leaf_places (builder : Builder) {content : Span → Content} (value : Bytes)
    (hcount : ∀ span, (content span).attributeCount = 0)
    (hkind : ∀ span, (content span).kind ≠ .attr) {next : Nat → Action Unit}
    {fault : BuildFault → Builder → Prop}
    (hfault : ∀ e later, later.skeleton = builder.skeleton → fault e later)
    (hnext : ∀ position later, Triple (next position) later
      (fun _ last => last.skeleton = later.skeleton) fun _ _ => False) :
    Triple (leaf content value >>= next) builder
      (fun _ later => Taken builder.skeleton later.skeleton) fault := by
  have hleaf : Triple (leaf content value) builder
      (fun _ later => Taken builder.skeleton later.skeleton) fault := by
    refine parent_bind (fun e => hfault e builder rfl) fun p hopen => ?_
    refine .step rfl ((keep_places builder value).bind_mono ?_ ?_)
    · rintro e _ ⟨rfl, -⟩
      exact hfault e _ rfl
    rintro span builder1 h1
    refine (measure_places builder1 _ _).bind_mono ?_ ?_
    · rintro e _ ⟨rfl, -⟩
      exact hfault e _ h1
    rintro level builder1 ⟨rfl, rfl⟩
    refine (commit_places builder1 _).bind_mono ?_ ?_
    · rintro e _ ⟨rfl, -⟩
      exact hfault e _ h1
    rintro position builder2 ⟨-, h2⟩
    rw [h1] at h2
    refine .step rfl (.of_run rfl ?_)
    have htaken : Taken builder.skeleton builder2.skeleton := by
      rw [h2]
      exact .leaf hopen (hcount span) (hkind span)
    exact htaken
  refine hleaf.bind fun position later htaken => ?_
  refine (hnext position later).mono ?_ fun _ _ hf => hf.elim
  rintro _ last hlast
  rw [hlast]
  exact htaken

/-- Every call changes the nodes and the open positions in one of these ways. -/
theorem take_places (builder : Builder) (call : Call) : Places builder call := by
  cases call with
  | startDocument name =>
    unfold Places take startDocument
    refine .step rfl ?_
    cases hs : builder.started with
    | true => exact .throw (.inl (.of_eq rfl))
    | false =>
      have hstart : Stays builder.skeleton (skeleton { builder with started := true }) :=
        ⟨.start hs, rfl⟩
      refine .step rfl ((keep_run _ name).bind_mono ?_ ?_)
      · rintro _ _ ⟨rfl, -⟩
        exact .inl hstart
      rintro span _ ⟨-, -, rfl⟩
      refine (commit_run _ _).bind_mono ?_ ?_
      · rintro _ _ ⟨rfl, -⟩
        exact .inl hstart
      rintro position _ ⟨rfl, -, rfl⟩
      refine .of_run rfl ?_
      have htaken : Taken builder.skeleton _ := .document span hs
      simpa [skeleton, Store.withNode, Store.withValue, Builder.size, Store.size] using htaken
  | endDocument =>
    unfold Places take endDocument
    refine parent_bind (fun _ => .inl (.of_eq rfl)) fun p hopen => ?_
    refine .step rfl ?_
    by_cases hlength : builder.stack.size > 1
    · rw [if_pos hlength]
      exact .throw (.inl (.of_eq rfl))
    rw [if_neg hlength]
    cases builder.pending.isEmpty with
    | false => exact .throw (.inl (.of_eq rfl))
    | true =>
      have htaken := Taken.finish hopen (Nat.le_of_not_lt hlength)
      refine (measure_places builder _ _).bind_mono (fun _ _ hf => .inl (.of_eq ?_)) ?_
      · rw [hf.1]
      rintro size builder ⟨rfl, rfl⟩
      refine .of_run rfl ?_
      simpa [skeleton, Store.close, Store.size, Skeleton.close] using htaken
  | startElement name attributes => exact startElement_places builder name attributes
  | endElement name =>
    unfold Places take endElement
    refine parent_bind (fun _ => .inl (.of_eq rfl)) fun p hopen => ?_
    refine .step rfl ?_
    by_cases hlength : builder.stack.size < 2
    · rw [if_pos hlength]
      exact .throw (.inl (.of_eq rfl))
    rw [if_neg hlength]
    by_cases hname : builder.store.name p ≠ name
    · rw [if_pos hname]
      exact .throw (.inl (.of_eq rfl))
    rw [if_neg hname]
    have htaken := Taken.leave hopen (Nat.le_of_not_lt hlength)
    refine (measure_places builder _ _).bind_mono (fun _ _ hf => .inl (.of_eq ?_)) ?_
    · rw [hf.1]
    rintro size builder ⟨rfl, rfl⟩
    refine .of_run rfl ?_
    simpa [skeleton, Store.close, Store.size, Skeleton.close] using htaken
  | text content raw =>
    change Triple (text content raw) builder _ _
    unfold text
    cases content.isEmpty with
    | true => exact .pure .nothing
    | false =>
      refine .step rfl ?_
      cases content.all isSpace && ((builder.chop && !raw) || builder.stack.size == 1) with
      | true =>
        exact parent_bind (fun _ => .inl (.of_eq rfl)) fun p hopen => .pure .nothing
      | false =>
        exact leaf_places builder content (fun _ => rfl) (fun _ => by simp [Content.kind])
          (fun _ _ h => .inl (.of_eq h)) fun _ _ => .of_run rfl rfl
  | comment content =>
    exact leaf_places builder content (fun _ => rfl) (fun _ => by simp [Content.kind])
      (fun _ _ h => .inl (.of_eq h)) fun _ _ => .of_run rfl rfl
  | instruction content =>
    exact leaf_places builder content (fun _ => rfl) (fun _ => by simp [Content.kind])
      (fun _ _ h => .inl (.of_eq h)) fun _ _ => .of_run rfl rfl
  | declareNamespace qualifier uri =>
    unfold Places take declareNamespace
    refine parent_bind (fun _ => .inl (.of_eq rfl)) fun p hopen => ?_
    refine .step rfl (.step rfl (.of_run rfl ?_))
    exact .nothing

end Builder

-- ---------------------------------------------------------------------------
-- Regular and broken skeletons
-- ---------------------------------------------------------------------------

theorem Store.isAttr_eq (store : Store) (node : Node) :
    (store.row node).item.isAttr = decide (node.kind = .attr) := by
  cases hc : node.content <;> simp [row, item, Item.isAttr, Node.kind, Content.kind, hc]

namespace NodeTable

theorem ofNodes_append (nodes more : List Node) :
    ofNodes (nodes ++ more) = ofNodes nodes ++ ofNodes more := List.map_append

theorem length_ofNodes (nodes : List Node) : (ofNodes nodes).length = nodes.length :=
  List.length_map _

theorem ofNodes_close (s : Skeleton) (p : Nat) :
    ofNodes (s.close p) = (ofNodes s.nodes).close p := by
  refine List.ext_getElem? fun q => ?_
  rw [getElem?_close, length_ofNodes]
  simp only [ofNodes, Skeleton.close, List.getElem?_map, List.getElem?_modify]
  cases s.nodes[q]? with
  | none => rfl
  | some node =>
    simp only [Option.map_eq_map, Option.map_some]
    split <;> rfl

end NodeTable

namespace Skeleton

variable {s s' : Skeleton} {p : Nat}

/-- Nothing strays: the nodes are laid out in the table, with all attributes. -/
inductive Regular : Skeleton → Prop
  | empty (started : Bool) : Regular ⟨[], [], started, false⟩
  | within {nodes : List Node} {path : List Nat} (hne : path ≠ [])
    (hl : Layout (.ofNodes nodes) path) (ha : Attributed (.ofNodes nodes) path) :
    Regular ⟨nodes, path.reverse, true, false⟩
  | ended {nodes : List Node} (hl : Layout (.ofNodes nodes) [])
    (ha : Attributed (.ofNodes nodes) []) : Regular ⟨nodes, [], true, true⟩

/-- An element that is not open ends before its attributes. -/
structure Broken (s : Skeleton) : Prop where
  within : ∀ q ∈ s.stack, q < s.nodes.length
  element : ∃ p node, 0 < p ∧ p ∉ s.stack ∧ s.nodes[p]? = some node ∧ node.size = 1 ∧
    0 < node.content.attributeCount

theorem Regular.of_open (h : Regular s) (ho : s.Open p) :
    ∃ nodes rest, s = ⟨nodes, rest.reverse ++ [p], true, false⟩ ∧
      Layout (.ofNodes nodes) (p :: rest) ∧ Attributed (.ofNodes nodes) (p :: rest) := by
  cases h with
  | empty => cases ho.last
  | ended => cases ho.unfinished
  | @within nodes path hne hl ha =>
    have hp : path.reverse.getLast? = some p := ho.last
    rw [List.getLast?_reverse] at hp
    cases path with
    | nil => exact absurd rfl hne
    | cons q rest =>
      cases hp
      exact ⟨nodes, rest, by rw [List.reverse_cons], hl, ha⟩

theorem Regular.inside {nodes : List Node} {rest : List Nat}
    (hl : Layout (.ofNodes nodes) (p :: rest)) (ha : Attributed (.ofNodes nodes) (p :: rest)) :
    Regular ⟨nodes, rest.reverse ++ [p], true, false⟩ := by
  rw [← List.reverse_cons]
  exact .within (List.cons_ne_nil _ _) hl ha

theorem Regular.enter {nodes attributes : List Node} {rest : List Nat} {element : Node}
    (hl : Layout (.ofNodes nodes) (p :: rest)) (ha : Attributed (.ofNodes nodes) (p :: rest))
    (hparent : element.parent = some p) (hdepth : element.depth = rest.length + 1)
    (hsize : element.size = 1) (hkind : element.kind ≠ .attr)
    (hcount : element.content.attributeCount = attributes.length)
    (hall : ∀ node ∈ attributes, IsAttributeOf nodes.length (rest.length + 2) node) :
    Regular ⟨nodes ++ element :: attributes, rest.reverse ++ [p] ++ [nodes.length],
      true, false⟩ := by
  have hrows : ∀ att ∈ NodeTable.ofNodes attributes,
      att.parent = some (NodeTable.ofNodes nodes).length ∧ att.depth = rest.length + 2 ∧
        att.size = 1 ∧ att.item.isAttr = true ∧ att.item.attributeCount = 0 := by
    intro att hm
    obtain ⟨node, hnode, rfl⟩ := List.mem_map.mp hm
    obtain ⟨hparent, hdepth, hsize, hkind⟩ := hall node hnode
    rw [NodeTable.length_ofNodes]
    refine ⟨hparent, hdepth, hsize, by simp [Store.isAttr_eq, hkind], ?_⟩
    rw [Store.attributeCount_eq]
    unfold Node.kind at hkind
    cases hc : node.content <;> simp_all [Content.kind, Content.attributeCount]
  have hblock : NodeTable.ofNodes (nodes ++ element :: attributes) =
      NodeTable.ofNodes nodes ++ Store.row {} element :: NodeTable.ofNodes attributes :=
    NodeTable.ofNodes_append _ _
  have hopened : Layout (NodeTable.ofNodes nodes ++ [Store.row {} element])
      ((NodeTable.ofNodes nodes).length :: p :: rest) := hl.push hparent hdepth hsize (.inr rfl)
  rw [← List.reverse_cons, ← NodeTable.length_ofNodes]
  refine .inside ?_ ?_
  · rw [hblock, List.append_cons]
    exact hopened.append_attributes fun att hm =>
      ⟨(hrows att hm).1, (hrows att hm).2.1, (hrows att hm).2.2.1⟩
  · rw [hblock]
    refine ha.push hl hparent (by simp [Store.isAttr_eq, hkind]) ?_ ?_ (.inr rfl)
    · rw [Store.attributeCount_eq, hcount, NodeTable.length_ofNodes]
    · exact fun att hm => ⟨(hrows att hm).1, (hrows att hm).2.2.2⟩

theorem Regular.taken (h : Regular s) (ht : Taken s s') : Regular s' := by
  cases ht with
  | nothing => exact h
  | start hs =>
    cases h with
    | empty => exact .empty true
    | within => cases hs
    | ended => cases hs
  | document name hs =>
    cases h with
    | empty =>
      have hw := Outline.ofName_wellFormed false (Store.valueAt {} name)
      have hnodes : NodeTable.ofNodes [{ parent := none, depth := 0, content := .document name }] =
          (Outline.ofName false (Store.valueAt {} name)).table := rfl
      have hlayout := hw.layout
      have hattributed := hw.attributed
      rw [← hnodes] at hlayout hattributed
      exact .inside hlayout hattributed
    | within => cases hs
    | ended => cases hs
  | @leaf p content ho hcount hkind =>
    obtain ⟨nodes, rest, rfl, hl, ha⟩ := h.of_open ho
    refine .inside ?_ ?_
    · rw [NodeTable.ofNodes_append]
      exact hl.push rfl (by simp [Store.row]) rfl (.inl rfl)
    · rw [NodeTable.ofNodes_append]
      refine ha.push hl rfl ?_ ?_ (by simp) (.inl rfl)
      · simp [Store.isAttr_eq, Node.kind, hkind]
      · exact (Store.attributeCount_eq _ _).trans hcount
  | enter ho hall =>
    obtain ⟨nodes, rest, rfl, hl, ha⟩ := h.of_open ho
    simp only [block, List.length_append, List.length_reverse, List.length_singleton] at hall ⊢
    exact .enter hl ha rfl rfl rfl (by simp [Node.kind, Content.kind]) rfl hall
  | @leave p ho hlength =>
    obtain ⟨nodes, rest, rfl, hl, ha⟩ := h.of_open ho
    have hne : rest ≠ [] := by
      rintro rfl
      exact absurd hlength (by simp)
    simp only [List.dropLast_concat]
    refine .within hne ?_ ?_
    · rw [NodeTable.ofNodes_close]
      exact hl.close
    · rw [NodeTable.ofNodes_close]
      exact ha.close
  | @finish p ho hlength =>
    obtain ⟨nodes, rest, rfl, hl, ha⟩ := h.of_open ho
    obtain rfl : rest = [] := by
      simpa using hlength
    have hp : p = 0 := by
      cases hl.chain with
      | cons hrow hparent _ _ _ => exact (hl.root hrow hparent).1
    subst hp
    refine .ended ?_ ?_
    · rw [NodeTable.ofNodes_close]
      exact hl.close
    · rw [NodeTable.ofNodes_close]
      exact ha.close

theorem Regular.of_finished (h : Regular s) (hf : s.finished = true) :
    Layout (.ofNodes s.nodes) [] ∧ Attributed (.ofNodes s.nodes) [] := by
  cases h with
  | empty => cases hf
  | within => cases hf
  | ended hl ha => exact ⟨hl, ha⟩

theorem Strays.length_lt (h : Strays s s') : s.nodes.length < s'.nodes.length := by
  cases h with
  | element => simp [block]

theorem Regular.strays (h : Regular s) (hs : Strays s s') : Broken s' := by
  cases hs with
  | @element p name uri count attributes ho hcount =>
    obtain ⟨nodes, rest, rfl, hl, ha⟩ := h.of_open ho
    have hin : ∀ q ∈ rest.reverse ++ [p], q < nodes.length := by
      intro q hq
      rw [← List.reverse_cons, List.mem_reverse] at hq
      rw [← NodeTable.length_ofNodes]
      exact hl.chain.lt hq
    have hp := hin p (by simp)
    exact ⟨fun q hq => Nat.lt_of_lt_of_le (hin q hq) (by simp [block]), nodes.length, _,
      Nat.zero_lt_of_lt hp, fun hm => Nat.lt_irrefl _ (hin _ hm), getElem?_block .., rfl,
      Nat.zero_lt_of_lt hcount⟩

/-- What is added and what is closed leaves the element as it is. -/
theorem Broken.grow (h : Broken s) {nodes : List Node} {stack : List Nat}
    {started finished : Bool} (hlength : s.nodes.length ≤ nodes.length)
    (hstack : ∀ q ∈ stack, q ∈ s.stack ∨ s.nodes.length ≤ q ∧ q < nodes.length)
    (hnodes : ∀ p node, 0 < p → p ∉ s.stack → s.nodes[p]? = some node → nodes[p]? = some node) :
    Broken ⟨nodes, stack, started, finished⟩ := by
  obtain ⟨hin, p, node, hpos, hp, hnode, hsize, hcount⟩ := h
  have hlt := (List.getElem?_eq_some_iff.mp hnode).1
  refine ⟨fun q hq => ?_, p, node, hpos, fun hm => ?_, hnodes p node hpos hp hnode, hsize, hcount⟩
  · rcases hstack q hq with hq | hq
    · exact Nat.lt_of_lt_of_le (hin q hq) hlength
    · exact hq.2
  · rcases hstack p hm with hq | hq
    · exact hp hq
    · exact absurd hlt (Nat.not_lt_of_le hq.1)

theorem Broken.taken (h : Broken s) (ht : Taken s s') : Broken s' := by
  cases ht with
  | nothing => exact h
  | start hs => exact ⟨h.within, h.element⟩
  | document name hs =>
    refine h.grow (by simp) (fun q hq => ?_) fun q node _ _ hnode => ?_
    · rcases List.mem_append.mp hq with hq | hq
      · exact .inl hq
      · obtain rfl := List.mem_singleton.mp hq
        exact .inr ⟨Nat.le_refl _, by simp⟩
    · exact (List.getElem?_append_left (List.getElem?_eq_some_iff.mp hnode).1).trans hnode
  | leaf ho hcount hkind =>
    refine h.grow (by simp) (fun q hq => .inl hq) fun q node _ _ hnode => ?_
    exact (List.getElem?_append_left (List.getElem?_eq_some_iff.mp hnode).1).trans hnode
  | enter ho hall =>
    refine h.grow (by simp [block]) (fun q hq => ?_) fun q node _ _ hnode => ?_
    · rcases List.mem_append.mp hq with hq | hq
      · exact .inl hq
      · obtain rfl := List.mem_singleton.mp hq
        exact .inr ⟨Nat.le_refl _, by simp [block]⟩
    · exact (List.getElem?_append_left (List.getElem?_eq_some_iff.mp hnode).1).trans hnode
  | leave ho hlength =>
    refine h.grow (by simp [close]) (fun q hq => .inl (List.mem_of_mem_dropLast hq))
      fun q node _ hq hnode => ?_
    have hne : _ ≠ q := fun he => hq (he ▸ List.mem_of_getLast? ho.last)
    exact (List.getElem?_modify_ne _ _ hne).trans hnode
  | finish ho hlength =>
    refine h.grow (by simp [close]) (by simp) fun q node hpos _ hnode => ?_
    exact (List.getElem?_modify_ne _ _ (Nat.ne_of_lt hpos)).trans hnode

theorem Broken.strays (h : Broken s) (hs : Strays s s') : Broken s' := by
  cases hs with
  | element ho hcount =>
    refine h.grow (by simp [block]) (fun q hq => .inl hq) fun q node _ _ hnode => ?_
    exact (List.getElem?_append_left (List.getElem?_eq_some_iff.mp hnode).1).trans hnode

end Skeleton

-- ---------------------------------------------------------------------------
-- Whole stores
-- ---------------------------------------------------------------------------

namespace Store

/-- Every element has its attributes right after it and within its extent, and jumping from sibling
to sibling finds its children. -/
structure Whole (store : Store) : Prop where
  attributes : ∀ {p q : Nat} {node : Node}, store.node? p = some node → node.kind = .element →
    p < q → q ≤ p + node.content.attributeCount →
    store.kind? q = some .attr ∧ store.parent? q = some p ∧ q < p + node.size
  children : ∀ {p : Nat} {node : Node}, store.node? p = some node → node.kind = .element →
    store.children p = store.nodesOf p false

variable {store other : Store}

theorem siblings_congr (h : store.nodes = other.nodes) (next stop : Nat) :
    store.siblings next stop = other.siblings next stop := by
  have hnode (p : Nat) : other.node? p = store.node? p := congrArg (·[p]?) h.symm
  fun_induction siblings store next stop with
  | case1 next hlt node hn ih =>
    conv_rhs => unfold siblings
    rw [if_pos hlt, hnode, hn, ih]
  | case2 next hlt hn =>
    unfold siblings
    rw [if_pos hlt, hnode, hn]
  | case3 next hlt =>
    unfold siblings
    rw [if_neg hlt]

theorem children_congr (h : store.nodes = other.nodes) (p : Nat) :
    store.children p = other.children p := by
  have hnode : other.node? p = store.node? p := congrArg (·[p]?) h.symm
  unfold children
  rw [hnode]
  cases store.node? p with
  | none => rfl
  | some node => exact siblings_congr h _ _

theorem getElem?_ofNodes (store : Store) (p : Nat) :
    (NodeTable.ofNodes store.nodes.toList)[p]? = (store.node? p).map (row {}) := by
  simp [NodeTable.ofNodes, node?]

theorem whole_of_layout (hl : Layout (.ofNodes store.nodes.toList) [])
    (ha : Attributed (.ofNodes store.nodes.toList) []) : store.Whole := by
  constructor
  · intro p q node hn _ hlt hle
    have hrow : (NodeTable.ofNodes store.nodes.toList)[p]? = some (row {} node) := by
      rw [getElem?_ofNodes, hn]
      rfl
    rw [← attributeCount_eq {} node] at hle
    obtain ⟨att, hatt, hparent, hattr⟩ := ha.own hrow hlt hle
    obtain ⟨-, hend, -⟩ := hl.parent hatt hparent
    have hbound := (hl.bounds hatt).1
    rw [NodeTable.extent_closed List.not_mem_nil hrow] at hend
    rw [getElem?_ofNodes, Option.map_eq_some_iff] at hatt
    obtain ⟨other, hq, rfl⟩ := hatt
    rw [isAttr_eq] at hattr
    refine ⟨?_, ?_, Nat.lt_of_lt_of_le hbound hend⟩
    · rw [kind?, hq]
      exact congrArg some (of_decide_eq_true hattr)
    · rw [parent?, hq]
      exact hparent
  · intro p node hn _
    have hrow : (table { nodes := store.nodes })[p]? = some (row {} node) := by
      rw [getElem?_table]
      exact congrArg (Option.map _) hn
    have hchildren : children { nodes := store.nodes } p =
        nodesOf { nodes := store.nodes } p false := children_eq hl ha hrow
    have hsame : store.children p = children { nodes := store.nodes } p := by
      apply children_congr
      rfl
    rw [hsame, hchildren]
    rfl

theorem not_whole_of_broken {s : Skeleton} (h : s.Broken) (hs : s.nodes = store.nodes.toList) :
    ¬ store.Whole := by
  obtain ⟨-, p, node, -, -, hnode, hsize, hcount⟩ := h
  rw [hs, Array.getElem?_toList] at hnode
  intro hw
  have hkind : node.kind = .element := by
    unfold Node.kind
    cases hc : node.content with
    | element => rfl
    | _ => simp [hc, Content.attributeCount] at hcount
  obtain ⟨-, -, hlt⟩ := hw.attributes hnode hkind (Nat.lt_succ_self p) (by omega)
  omega

end Store

-- ---------------------------------------------------------------------------
-- Runs that go on
-- ---------------------------------------------------------------------------

namespace Builder

open Skeleton (Taken Stays Strays)

variable {builder : Builder}

theorem length_skeleton (builder : Builder) : builder.skeleton.nodes.length = builder.size :=
  Array.length_toList

theorem Fresh.regular (h : Fresh builder) : builder.skeleton.Regular := by
  have hskeleton : builder.skeleton = ⟨[], [], false, false⟩ := by
    simp [skeleton, h.nodes, h.stack, h.unstarted, h.unfinished]
  rw [hskeleton]
  exact .empty false

/-- What a call leaves, whether or not it is refused. -/
def after (builder : Builder) (call : Call) : Builder :=
  match take call builder with
  | .ok _ later | .error _ later => later

/-- What calls leave if the caller goes on after each refusal. -/
def goOn (calls : List Call) (builder : Builder) : Builder := calls.foldl after builder

/-- The call is refused, and the table has grown all the same. -/
def LeavesNodes (builder : Builder) (call : Call) : Prop :=
  ∃ fault later, take call builder = .error fault later ∧ later.size ≠ builder.size

/-- A call goes on regularly, or it is refused and an element strays. -/
theorem after_cases (builder : Builder) (call : Call) :
    Taken builder.skeleton (builder.after call).skeleton ∧ ¬ builder.LeavesNodes call ∨
      Strays builder.skeleton (builder.after call).skeleton ∧ builder.LeavesNodes call := by
  have hplaces := take_places builder call
  unfold Places Triple at hplaces
  unfold after LeavesNodes
  cases hr : take call builder with
  | ok _ later =>
    rw [hr] at hplaces
    exact .inl ⟨hplaces, by simp⟩
  | error fault later =>
    rw [hr] at hplaces
    rcases hplaces with hstays | ⟨hstrays, -⟩
    · refine .inl ⟨hstays.taken, ?_⟩
      rintro ⟨_, _, he, hne⟩
      cases he
      exact hne (by rw [← length_skeleton, ← length_skeleton, hstays.nodes])
    · refine .inr ⟨hstrays, fault, later, rfl, ?_⟩
      rw [← length_skeleton, ← length_skeleton]
      exact Nat.ne_of_gt hstrays.length_lt

/-- As long as no call leaves nodes all is regular, and from then on it is broken. -/
theorem goOn_cases (h : builder.skeleton.Regular) (calls : List Call) :
    (goOn calls builder).skeleton.Regular ∧
        (∀ before call, before ++ [call] <+: calls → ¬ (goOn before builder).LeavesNodes call) ∨
      (goOn calls builder).skeleton.Broken ∧
        ∃ before call, before ++ [call] <+: calls ∧ (goOn before builder).LeavesNodes call := by
  induction calls using List.reverseRecOn with
  | nil => exact .inl ⟨h, by simp⟩
  | append_singleton calls last ih =>
    have hlast : goOn (calls ++ [last]) builder = (goOn calls builder).after last := by
      simp [goOn]
    rw [hlast]
    rcases ih with ⟨hregular, hnone⟩ | ⟨hbroken, before, call, hprefix, hleaves⟩
    · rcases after_cases (goOn calls builder) last with ⟨htaken, hno⟩ | ⟨hstrays, hleaves⟩
      · refine .inl ⟨hregular.taken htaken, fun before call hprefix => ?_⟩
        rcases List.prefix_concat_iff.mp hprefix with he | hprefix
        · obtain ⟨rfl, hsame⟩ := List.append_inj' he rfl
          obtain rfl := List.singleton_inj.mp hsame
          exact hno
        · exact hnone before call hprefix
      · exact .inr ⟨hregular.strays hstrays, calls, last, List.prefix_refl _, hleaves⟩
    · refine .inr ⟨?_, before, call, hprefix.trans (List.prefix_append _ _), hleaves⟩
      rcases after_cases (goOn calls builder) last with ⟨htaken, -⟩ | ⟨hstrays, -⟩
      · exact hbroken.taken htaken
      · exact hbroken.strays hstrays

/-- A finished store is whole if and only if no call on the way was refused and left nodes, and
only elements are refused in this way, for an attribute of an undeclared prefix or because there is
no room for all of their attributes. -/
theorem finish_whole_iff (options : IndexOptions) (chop : Bool) (metadata : Metadata)
    {calls : List Call} {db : Database}
    (h : (goOn calls { ofOptions options with chop, metadata }).finish = .ok db) :
    (db.store.Whole ↔ ∀ before call, before ++ [call] <+: calls →
      ¬ (goOn before { ofOptions options with chop, metadata }).LeavesNodes call) ∧
    ∀ builder call, LeavesNodes builder call → ∃ name attributes fault later,
      call = .startElement name attributes ∧ attributes ≠ [] ∧
      take call builder = .error fault later ∧
      ((∃ att ∈ attributes, ∃ qualifier, (QName.ofBytes att.name).qualifier = some qualifier ∧
          fault = .undeclaredQualifier qualifier) ∨
        Exceeds fault ∧ ¬ builder.Room (builder.added call)) := by
  constructor
  · have hfirst := (ofOptions_fresh options chop metadata).regular
    rw [finish] at h
    split at h
    next hfinished =>
      cases h
      rcases goOn_cases hfirst calls with ⟨hregular, hnone⟩ | ⟨hbroken, before, call, hp, hleaves⟩
      · obtain ⟨hl, ha⟩ := hregular.of_finished hfinished
        exact iff_of_true (Store.whole_of_layout hl ha) hnone
      · exact iff_of_false (Store.not_whole_of_broken hbroken rfl) fun hnone =>
          hnone before call hp hleaves
    next => cases h
  · rintro builder call ⟨fault, later, hr, hne⟩
    have hplaces := take_places builder call
    have hadds := take_adds builder call
    unfold Places Triple at hplaces
    unfold Triple at hadds
    rw [hr] at hplaces hadds
    rcases hplaces with hstays | ⟨-, name, attributes, hcall, hsome, hrefused⟩
    · exact absurd (by rw [← length_skeleton, ← length_skeleton, hstays.nodes]) hne
    · refine ⟨name, attributes, fault, later, hcall, hsome, hr, hrefused.imp_right ?_⟩
      exact fun he => ⟨he, hadds he⟩

/-- An element, an end tag, a second start and a comment that are refused on the way. -/
def refusedCalls : List Call :=
  [.startDocument (ascii "d"), .startElement (ascii "a") [⟨ascii "k", ascii "v"⟩],
    .startElement (ascii "p:b") [], .endElement (ascii "b"), .startDocument (ascii "d"),
    .endElement (ascii "a"), .endDocument, .comment (ascii "c")]

theorem refusedCalls_small : ∀ n < 9,
    let builder := goOn (refusedCalls.take n) { ofOptions {} with chop := false, metadata := {} }
    builder.stack.size ≤ 9 ∧ builder.size ≤ 9 ∧ builder.store.values.size ≤ 9 := by
  decide +kernel

theorem refusedCalls_finish_whole :
    ∃ db, (goOn refusedCalls { ofOptions {} with chop := false, metadata := {} }).finish = .ok db ∧
      (∀ before call, before ++ [call] <+: refusedCalls →
        ¬ (goOn before { ofOptions {} with chop := false, metadata := {} }).LeavesNodes call) ∧
      db.store.Whole := by
  have hfinished : (goOn refusedCalls
      { ofOptions {} with chop := false, metadata := {} }).finished = true := by decide +kernel
  obtain ⟨hwhole, hleaves⟩ := finish_whole_iff {} false {} (if_pos hfinished)
  have hnone : ∀ before call, before ++ [call] <+: refusedCalls →
      ¬ (goOn before { ofOptions {} with chop := false, metadata := {} }).LeavesNodes call := by
    intro before call hprefix hleft
    obtain ⟨name, attributes, fault, later, rfl, hsome, -, hrefused⟩ := hleaves _ _ hleft
    have hmem := hprefix.subset (List.mem_append_right before List.mem_cons_self)
    simp only [refusedCalls, List.mem_cons, Call.startElement.injEq, reduceCtorEq, false_or,
      or_false, List.not_mem_nil] at hmem
    obtain ⟨rfl, rfl⟩ : name = ascii "a" ∧ attributes = [⟨ascii "k", ascii "v"⟩] :=
      hmem.resolve_right fun hb => hsome hb.2
    rcases hrefused with ⟨att, hm, qualifier, hq, -⟩ | ⟨-, hfull⟩
    · obtain rfl := List.mem_singleton.mp hm
      cases hq
    · have hbefore := List.prefix_iff_eq_take.mp ((List.prefix_append ..).trans hprefix)
      have hlength : before.length < 9 := by
        have := hprefix.length_le
        rw [List.length_append] at this
        exact Nat.lt_of_succ_le (Nat.le_succ_of_le this)
      obtain ⟨hdepth, hnodes, hvalues⟩ := refusedCalls_small _ hlength
      rw [← hbefore] at hdepth hnodes hvalues
      refine hfull ⟨?_, ?_, ?_⟩
      · exact Nat.le_trans hdepth (by decide)
      · exact Nat.le_trans (Nat.add_le_add_right hnodes 1) (by decide)
      · exact Nat.le_trans (Nat.add_le_add_right hvalues 1) (by decide)
  exact ⟨_, if_pos hfinished, hnone, hwhole.mpr hnone⟩

/-- An element whose attribute has an undeclared prefix. -/
def strayElement : List Call :=
  [.startDocument (ascii "d"), .startElement (ascii "a") [⟨ascii "x:k", ascii "v"⟩], .endDocument]

/-- The element is refused and stays, and the document is finished all the same. -/
theorem strayElement_finishes_broken :
    ∃ db, (goOn strayElement { ofOptions {} with chop := false, metadata := {} }).finish = .ok db ∧
      ¬ db.store.Whole := by
  have hnode : (goOn strayElement
      { ofOptions {} with chop := false, metadata := {} }).store.node? 1 =
        some { parent := some 0, depth := 1, content := .element 3 0 1 } := by decide +kernel
  have hnone : (goOn strayElement
      { ofOptions {} with chop := false, metadata := {} }).store.kind? 2 = none := by
    decide +kernel
  have hfinished : (goOn strayElement
      { ofOptions {} with chop := false, metadata := {} }).finished = true := by decide +kernel
  generalize goOn strayElement { ofOptions {} with chop := false, metadata := {} } = last at *
  refine ⟨_, if_pos hfinished, fun hwhole => ?_⟩
  obtain ⟨hkind, -⟩ := hwhole.attributes hnode rfl (Nat.lt_succ_self 1) (Nat.le_refl 2)
  cases hnone.symm.trans hkind

end Builder

end XmlStore
