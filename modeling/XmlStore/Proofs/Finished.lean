import Mathlib.Data.List.Sort
import XmlStore.Proofs.Building

/-!
# Finished stores

When the document ends no node is open, so that the sizes are the extents of the subtrees. A
finished store lists the nodes that the calls describe, and the jumps over sizes find the tree that
these nodes form.
-/

namespace XmlStore

open NodeTable (Layout Attributed Boundary Below)

-- ---------------------------------------------------------------------------
-- Navigation
-- ---------------------------------------------------------------------------

namespace Store

variable {store : Store} {p : Nat} {row : Row}

/-- Jumping from a boundary finds the children from there on, in order. -/
theorem siblings_spec (h : store.table.Layout []) (hrow : store.table[p]? = some row)
    {next : Nat} (hp : p < next) (hb : store.table.Boundary p next (p + row.size)) :
    (store.siblings next (p + row.size)).Pairwise (· < ·) ∧
      ∀ q, q ∈ store.siblings next (p + row.size) ↔
        next ≤ q ∧ q < p + row.size ∧ store.parent? q = some p := by
  fun_induction siblings store next (p + row.size) with
  | case1 next hlt node hn ih =>
    obtain ⟨child, hchild, hparent, hpos, hend, hno, hb'⟩ := h.child_at hrow hp hlt hb
    have hsize : max node.size 1 = child.size := by
      rw [getElem?_table, hn] at hchild
      obtain rfl := Option.some.inj hchild
      exact Nat.max_eq_left hpos
    rw [hsize] at ih ⊢
    obtain ⟨hsorted, hmem⟩ := ih (by omega) hb'
    constructor
    · refine List.pairwise_cons.mpr ⟨fun q hq => ?_, hsorted⟩
      have := (hmem q).mp hq
      omega
    · intro q
      rw [List.mem_cons, hmem]
      constructor
      · rintro (rfl | ⟨hle, hq⟩)
        · refine ⟨Nat.le_refl _, hlt, ?_⟩
          rw [parent?_eq]
          exact Option.bind_eq_some_iff.mpr ⟨child, hchild, hparent⟩
        · exact ⟨by omega, hq⟩
      · rintro ⟨hle, hq, hqp⟩
        rcases Nat.eq_or_lt_of_le hle with rfl | hlt'
        · exact .inl rfl
        · refine .inr ⟨Nat.le_of_not_lt fun hin => ?_, hq, hqp⟩
          exact hno q hlt' hin (store.parent?_eq q ▸ hqp)
  | case2 next hlt hn =>
    obtain ⟨child, hchild, -⟩ := h.child_at hrow hp hlt hb
    rw [getElem?_table, hn] at hchild
    cases hchild
  | case3 next hlt =>
    refine ⟨.nil, fun q => ?_⟩
    simp only [List.not_mem_nil, false_iff]
    omega

/-- The nodes right below a parent that are its attributes, or that are not. -/
def nodesOf (store : Store) (parent : Nat) (attributes : Bool) : List Nat :=
  (List.range store.size).filter fun q =>
    store.parent? q == some parent && (store.kind? q == some .attr) == attributes

theorem nodesOf_pairwise (store : Store) (p : Nat) (attributes : Bool) :
    (store.nodesOf p attributes).Pairwise (· < ·) :=
  List.pairwise_lt_range.filter _

theorem mem_nodesOf {attributes : Bool} {q : Nat} :
    q ∈ store.nodesOf p attributes ↔ ∃ node, store.table[q]? = some node ∧
      node.parent = some p ∧ node.item.isAttr = attributes := by
  rw [nodesOf, List.mem_filter, List.mem_range, ← length_table, parent?_eq]
  have hkind : ∀ item : Item, (some item.kind == some NodeKind.attr) = item.isAttr := by
    rintro (_ | _ | _ | _ | _ | _) <;> rfl
  constructor
  · rintro ⟨hq, hsame⟩
    have hnode := List.getElem?_eq_getElem hq
    refine ⟨_, hnode, ?_⟩
    rw [NodeTable.parent?, hnode, kind?_eq hnode, hkind] at hsame
    simpa using hsame
  · rintro ⟨node, hnode, hparent, rfl⟩
    refine ⟨(List.getElem?_eq_some_iff.mp hnode).1, ?_⟩
    rw [NodeTable.parent?, hnode, kind?_eq hnode, hkind]
    simp [hparent]

/-- The positions of attributes are those of the nodes that are attributes. -/
theorem attributes_eq (h : store.table.Layout []) (ha : store.table.Attributed [])
    (hrow : store.table[p]? = some row) : store.attributes p = store.nodesOf p true := by
  obtain ⟨node, hn, rfl⟩ := of_getElem?_table hrow
  rw [attributes, hn]
  refine List.Pairwise.eq_of_mem_iff List.pairwise_lt_range' (nodesOf_pairwise ..) fun q => ?_
  rw [mem_nodesOf, List.mem_range'_1, ← attributeCount_eq store]
  constructor
  · rintro ⟨hq, hq'⟩
    exact ha.own hrow hq (by omega)
  · rintro ⟨att, hatt, hparent, hattr⟩
    have hle := (ha.only hrow hatt hparent).mp hattr
    have hlt := (h.parent hatt hparent).1
    omega

/-- Jumping over the attributes, and then from sibling to sibling, finds the other nodes. -/
theorem children_eq (h : store.table.Layout []) (ha : store.table.Attributed [])
    (hrow : store.table[p]? = some row) : store.children p = store.nodesOf p false := by
  obtain ⟨hsorted, hmem⟩ := siblings_spec h hrow (by omega) (ha.boundary h hrow)
  obtain ⟨node, hn, rfl⟩ := of_getElem?_table hrow
  rw [children, hn]
  simp only [← attributeCount_eq store]
  refine List.Pairwise.eq_of_mem_iff hsorted (nodesOf_pairwise ..) fun q => ?_
  rw [mem_nodesOf]
  refine (hmem q).trans ?_
  constructor
  · rintro ⟨hle, -, hparent⟩
    rw [parent?_eq] at hparent
    obtain ⟨child, hchild, hp⟩ := NodeTable.of_parent? hparent
    refine ⟨child, hchild, hp, Bool.eq_false_iff.mpr fun hattr => ?_⟩
    have := (ha.only hrow hchild hp).mp hattr
    omega
  · rintro ⟨child, hchild, hp, hattr⟩
    obtain ⟨hlt, hend, -⟩ := h.parent hchild hp
    have hpos := (h.bounds hchild).1
    rw [NodeTable.extent_closed List.not_mem_nil hrow] at hend
    have hafter : ¬ q ≤ p + (store.row node).item.attributeCount := by
      rw [← ha.only hrow hchild hp, hattr]
      exact Bool.false_ne_true
    refine ⟨by omega, Nat.lt_of_lt_of_le hpos hend, ?_⟩
    rw [parent?_eq]
    exact Option.bind_eq_some_iff.mpr ⟨child, hchild, hp⟩

-- ---------------------------------------------------------------------------
-- The tree of a store
-- ---------------------------------------------------------------------------

/-- A store of these nodes, whose accessors find the tree that the nodes form. -/
structure Shows (store : Store) (entries : List Entry) : Prop where
  size : store.size = entries.length
  node : ∀ {p : Nat} {entry : Entry}, entries[p]? = some entry →
    store.kind? p = some entry.item.kind ∧ store.name p = entry.item.name ∧
      store.value p = entry.item.value ∧ store.parent? p = entry.parent
  root : ∀ {p : Nat}, p < store.size → store.parent? p = none → p = 0 ∧ store.depth p = 0
  depth : ∀ {p q : Nat}, store.parent? q = some p → store.depth q = store.depth p + 1
  extent : ∀ {p : Nat} {node : Node}, store.node? p = some node →
    node.size = 1 + {q | Below store.table p q}.ncard
  children : ∀ {p : Nat}, p < store.size → store.children p = store.nodesOf p false
  attributes : ∀ {p : Nat}, p < store.size → store.attributes p = store.nodesOf p true

theorem Sound.shows (hs : store.Sound) (h : store.table.Layout [])
    (ha : store.table.Attributed []) {entries : List Entry}
    (he : store.table.map (fun row => ⟨row.parent, row.item⟩) = entries) :
    store.Shows entries where
  size := by rw [← he, List.length_map, length_table]
  node := by
    intro p entry hp
    rw [← he, List.getElem?_map, Option.map_eq_some_iff] at hp
    obtain ⟨row, hrow, rfl⟩ := hp
    refine ⟨kind?_eq hrow, hs.name_eq hrow, value_eq hrow, ?_⟩
    rw [parent?_eq, NodeTable.parent?, hrow]
    rfl
  root := by
    intro p hp hparent
    rw [← length_table] at hp
    have hrow := List.getElem?_eq_getElem hp
    rw [parent?_eq, NodeTable.parent?, hrow] at hparent
    rw [depth_eq hrow]
    exact h.root hrow hparent
  depth := by
    intro p q hparent
    rw [parent?_eq] at hparent
    obtain ⟨row, hrow, hp⟩ := NodeTable.of_parent? hparent
    obtain ⟨-, -, above, habove, hdepth⟩ := h.parent hrow hp
    rw [depth_eq hrow, depth_eq habove, hdepth]
  extent := by
    intro p node hn
    have hrow : store.table[p]? = some (store.row node) := by rw [getElem?_table, hn]; rfl
    exact h.size_eq hrow
  children := by
    intro p hp
    rw [← length_table] at hp
    exact children_eq h ha (List.getElem?_eq_getElem hp)
  attributes := by
    intro p hp
    rw [← length_table] at hp
    exact attributes_eq h ha (List.getElem?_eq_getElem hp)

end Store

namespace Builder

theorem Fresh.startDocument_fits {builder : Builder} (h : Fresh builder) {name : Bytes}
    (hfit : Fit [name]) :
    Triple (take (.startDocument name)) builder
      (fun _ builder' => Builds (.ofName builder.chop name) builder' ∧
        builder'.store.values.size = lengths (Outline.ofName builder.chop name).table.values)
      fun _ _ => False := by
  have hsize : builder.size = 0 := by rw [size, Store.size, h.nodes]; rfl
  have hvalues : builder.store.values.size = 0 := by rw [h.values]; rfl
  have hroom : builder.Room (builder.added (.startDocument name)) := by
    refine ⟨?_, ?_, ?_⟩
    · rw [h.stack]
      exact Nat.zero_le _
    · rw [hsize]
      exact Nat.zero_le _
    · rw [hvalues, Nat.zero_add]
      exact hfit.bytes
  refine ((startDocument_spec h name).and (take_adds builder (.startDocument name))).mono ?_ ?_
  · rintro _ builder' ⟨hb, hadds⟩
    refine ⟨hb, ?_⟩
    rw [hadds.values, hvalues, Nat.zero_add]
    rfl
  · rintro _ _ ⟨he, hfull⟩
    exact hfull he hroom

theorem Fresh.finish_shows {builder : Builder} (h : Fresh builder) (name : Bytes)
    {calls : List Call} (hn : Nested [] [] calls)
    (hfit : Fit ((⟨none, .document name⟩ :: listing builder.chop [0] 1 calls).map
      fun entry => entry.item.value)) :
    ∃ builder' db,
      (.startDocument name :: (calls ++ [.endDocument])).forM take builder = .ok () builder' ∧
      builder'.finish = .ok db ∧
      db.store.Shows (⟨none, .document name⟩ :: listing builder.chop [0] 1 calls) := by
  have hwell := Outline.ofName_wellFormed builder.chop name
  obtain ⟨later, hrun, hw, hopened, hpending, -, hentries⟩ :=
    Outline.lists_of_nested hn hwell rfl rfl
  have hentries : later.entries = ⟨none, .document name⟩ :: listing builder.chop [0] 1 calls :=
    hentries
  have hvalues : later.table.values = later.entries.map fun entry => entry.item.value := by
    simp [NodeTable.values, Outline.entries]
  rw [← hentries, ← hvalues] at hfit
  have hlast : Triple ((.startDocument name :: (calls ++ [.endDocument])).forM take) builder
      (fun _ builder' => builder'.finished = true ∧ builder'.store.Sound ∧
        builder'.store.table = later.table.close 0)
      fun _ _ => False := by
    rw [List.forM_eq_forM, List.forM_cons, List.forM_append]
    refine (h.startDocument_fits (hfit.of_prefix (Outline.takeAll_values hrun))).bind_safe ?_
    rintro _ builder1 ⟨h1, hv1⟩
    refine (run_fits h1 hwell hv1 hrun hfit).bind_safe ?_
    rintro _ builder2 h2
    refine (endDocument_spec h2 hw hopened hpending).bind_mono ?_ ?_
    · rintro _ _ ⟨-, hfull⟩
      rw [← NodeTable.length_values] at hfull
      exact Nat.not_le_of_gt hfull hfit.nodes
    rintro _ builder3 ⟨hf, hs, ht, -⟩
    exact .pure ⟨hf, hs, ht⟩
  obtain ⟨⟨⟩, builder', hok, hfinished, hsound, htable⟩ := hlast.succeeds fun _ _ => id
  refine ⟨builder', _, hok, if_pos hfinished, ?_⟩
  have hpath : later.path = [0] := (hopened ▸ hw.opens).path_eq
  have hlayout := hw.layout
  have hattributed := hw.attributed
  rw [hpath] at hlayout hattributed
  refine hsound.shows (htable ▸ hlayout.close) (htable ▸ hattributed.close) ?_
  have hclosed := later.entries_close 0 later.path later.opened
  rw [htable]
  exact hclosed.trans hentries

/-- A document whose calls are nested is taken, if its nodes and their values are no more than can
be stored, and the finished store shows the tree that the calls describe. -/
theorem finish_shows_listing (options : IndexOptions) (chop : Bool) (metadata : Metadata)
    (name : Bytes) {calls : List Call} (hn : Nested [] [] calls)
    (hfit : Fit ((⟨none, .document name⟩ :: listing chop [0] 1 calls).map
      fun entry => entry.item.value)) :
    ∃ builder db,
      (.startDocument name :: (calls ++ [.endDocument])).forM take
        { ofOptions options with chop, metadata } = .ok () builder ∧
      builder.finish = .ok db ∧
      db.store.Shows (⟨none, .document name⟩ :: listing chop [0] 1 calls) :=
  (ofOptions_fresh options chop metadata).finish_shows name hn hfit

/-- One element with a namespace, an attribute, a text that is dropped and one that is kept. -/
def oneElement : List Call :=
  [.declareNamespace (ascii "p") (ascii "u"), .startElement (ascii "p:a") [⟨ascii "k", ascii "v"⟩],
    .text (ascii " ") false, .text (ascii "t") false, .endElement (ascii "p:a")]

theorem oneElement_nested : Nested [] [] oneElement := by
  have hname : Scopes.Bound [[(ascii "p", ascii "u")]] (ascii "p:a") := by
    intro qualifier hq
    obtain rfl := Option.some.inj (hq : some (ascii "p") = some qualifier)
    exact .inr ⟨_, List.mem_cons_self, List.mem_cons_self⟩
  have hattribute : ∀ att ∈ [Attribute.mk (ascii "k") (ascii "v")],
      Scopes.Bound [[(ascii "p", ascii "u")]] att.name := by
    intro att hm qualifier hq
    obtain rfl := List.mem_singleton.mp hm
    cases (hq : none = some qualifier)
  exact .declareNamespace (.startElement hname hattribute (.text (.text (.endElement .done))))

/-- The nodes of one element. -/
def oneElementNodes : List Entry :=
  [⟨none, .document (ascii "d")⟩, ⟨some 0, .element (ascii "p:a") 1⟩,
    ⟨some 1, .attr (ascii "k") (ascii "v")⟩, ⟨some 1, .text (ascii "t")⟩]

theorem oneElement_fits : Fit (oneElementNodes.map fun entry => entry.item.value) :=
  ⟨by decide, by decide⟩

theorem finish_shows_one_element :
    Nested [] [] oneElement ∧ Fit (oneElementNodes.map fun entry => entry.item.value) ∧
      ∃ builder db,
        (.startDocument (ascii "d") :: (oneElement ++ [.endDocument])).forM take
          { ofOptions {} with chop := true, metadata := {} } = .ok () builder ∧
        builder.finish = .ok db ∧
        db.store.Shows oneElementNodes :=
  ⟨oneElement_nested, oneElement_fits,
    finish_shows_listing {} true {} (ascii "d") oneElement_nested oneElement_fits⟩

end Builder

end XmlStore
