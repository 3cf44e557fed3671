import XmlStore.Proofs.Extents
import XmlStore.Proofs.Interning
import XmlStore.Tree.Store

/-!
# What a store shows

The nodes of a store refer to names and values that are kept elsewhere. Reading them gives the
table that the store shows. Names and values are only ever added, so that the rows of a table stay
what they are.
-/

namespace XmlStore

def Item.kind : Item → NodeKind
  | .document _ => .document
  | .element _ _ => .element
  | .attr _ _ => .attr
  | .text _ => .text
  | .comment _ => .comment
  | .instruction _ => .instruction

def Item.name : Item → Bytes
  | .element name _ | .attr name _ => name
  | _ => []

def Item.value : Item → Bytes
  | .element _ _ => []
  | .document value | .attr _ value | .text value | .comment value | .instruction value => value

namespace Store

/-- The names and the value of a node are there. -/
def Holds (store : Store) : Content → Prop
  | .element name uri _ => name < store.names.size ∧ uri < store.names.size
  | .attr name uri value =>
    name < store.names.size ∧ uri < store.names.size ∧ value.stop ≤ store.values.size
  | .document value | .text value | .comment value | .instruction value =>
    value.stop ≤ store.values.size

structure Sound (store : Store) : Prop where
  names : store.names.Sound
  holds : ∀ node ∈ store.nodes.toList, store.Holds node.content

def item (store : Store) : Content → Item
  | .document name => .document (store.valueAt name)
  | .element name _ attributes => .element (store.names.get name) attributes
  | .attr name _ value => .attr (store.names.get name) (store.valueAt value)
  | .text value => .text (store.valueAt value)
  | .comment value => .comment (store.valueAt value)
  | .instruction value => .instruction (store.valueAt value)

def row (store : Store) (node : Node) : Row :=
  { parent := node.parent
    depth := node.depth
    size := node.size
    uri := store.names.get node.content.uriId
    item := store.item node.content }

def table (store : Store) : NodeTable := store.nodes.toList.map store.row

/-- A store with the names and values of another one, and maybe more. -/
structure Grows (later store : Store) : Prop where
  names : later.names.Extends store.names
  values : ∃ more, later.values.toList = store.values.toList ++ more

variable {store later : Store} {node : Node}

theorem Grows.size_le (h : later.Grows store) : store.values.size ≤ later.values.size := by
  obtain ⟨more, hm⟩ := h.values
  have := congrArg List.length hm
  rw [List.length_append, Array.length_toList, Array.length_toList] at this
  omega

theorem valueAt_eq_read (store : Store) (span : Span) :
    store.valueAt span = span.read store.values.toList := by
  simp [valueAt, Span.read, Span.stop, List.extract]

theorem Grows.valueAt (h : later.Grows store) {span : Span}
    (hs : span.stop ≤ store.values.size) : later.valueAt span = store.valueAt span := by
  obtain ⟨more, hm⟩ := h.values
  rw [valueAt_eq_read, valueAt_eq_read, hm]
  exact Span.read_append (by rwa [Array.length_toList]) more

theorem Grows.holds (h : later.Grows store) {content : Content} (hc : store.Holds content) :
    later.Holds content := by
  have hn := h.names.size
  have hv := h.size_le
  cases content with
  | element name uri attributes =>
    exact ⟨Nat.lt_of_lt_of_le hc.1 hn, Nat.lt_of_lt_of_le hc.2 hn⟩
  | attr name uri value =>
    exact ⟨Nat.lt_of_lt_of_le hc.1 hn, Nat.lt_of_lt_of_le hc.2.1 hn, Nat.le_trans hc.2.2 hv⟩
  | _ => exact Nat.le_trans hc hv

theorem Grows.row (h : later.Grows store) (hs : store.Sound) (hc : store.Holds node.content) :
    later.row node = store.row node := by
  have hzero : later.names.get 0 = store.names.get 0 := h.names.get hs.names.size_pos
  unfold Store.row
  cases hn : node.content with
  | element name uri attributes =>
    rw [hn] at hc
    simp only [Store.item, Content.uriId, h.names.get hc.1, h.names.get hc.2]
  | attr name uri value =>
    rw [hn] at hc
    simp only [Store.item, Content.uriId, h.names.get hc.1, h.names.get hc.2.1, h.valueAt hc.2.2]
  | _ =>
    rw [hn] at hc
    simp only [Store.item, Content.uriId, hzero, h.valueAt hc]

theorem Grows.sound_table (h : later.Grows store) (hs : store.Sound)
    (hn : later.names.Sound) (he : later.nodes = store.nodes) :
    later.Sound ∧ later.table = store.table := by
  refine ⟨⟨hn, fun node hm => h.holds (hs.holds node (he ▸ hm))⟩, ?_⟩
  unfold table
  rw [he]
  exact List.map_congr_left fun node hm => h.row hs (hs.holds node hm)

-- ---------------------------------------------------------------------------
-- Changes
-- ---------------------------------------------------------------------------

theorem Sound.intern (hs : store.Sound) (text : Bytes) :
    Grows { store with names := (store.names.intern text).2 } store ∧
      Sound { store with names := (store.names.intern text).2 } ∧
      table { store with names := (store.names.intern text).2 } = store.table := by
  obtain ⟨hnames, hext, -⟩ := hs.names.intern text
  have hg : Grows { store with names := (store.names.intern text).2 } store :=
    ⟨hext, [], (List.append_nil _).symm⟩
  exact ⟨hg, hg.sound_table hs hnames rfl⟩

/-- The span that the next value takes. -/
def nextSpan (store : Store) (value : Bytes) : Span := ⟨store.values.size, value.length⟩

theorem size_withNode (store : Store) (node : Node) : (store.withNode node).size = store.size + 1 :=
  Array.size_push _

theorem size_values_withValue (store : Store) (value : Bytes) :
    (store.withValue value).values.size = store.values.size + value.length := by
  have hbytes : (store.values ++ value).toList = store.values.toList ++ value :=
    Array.toList_appendList
  have hlength := congrArg List.length hbytes
  rwa [Array.length_toList, List.length_append, Array.length_toList] at hlength

theorem grows_withValue (store : Store) (value : Bytes) :
    (store.withValue value).Grows store ∧
      (store.nextSpan value).stop ≤ (store.withValue value).values.size ∧
      (store.withValue value).valueAt (store.nextSpan value) = value := by
  refine ⟨⟨.refl _, value, Array.toList_appendList ..⟩, ?_, ?_⟩
  · exact (store.size_values_withValue value).ge
  · rw [valueAt_eq_read]
    have := Span.read_appended store.values.toList value
    simpa [withValue, nextSpan, Span.appended] using this

theorem Sound.withValue (hs : store.Sound) (value : Bytes) :
    (store.withValue value).Grows store ∧ (store.withValue value).Sound ∧
      (store.withValue value).table = store.table ∧
      (store.nextSpan value).stop ≤ (store.withValue value).values.size ∧
      (store.withValue value).valueAt (store.nextSpan value) = value := by
  obtain ⟨hg, hspan, hvalue⟩ := store.grows_withValue value
  obtain ⟨hsound, htable⟩ := hg.sound_table hs hs.names rfl
  exact ⟨hg, hsound, htable, hspan, hvalue⟩

theorem Sound.withNode (hs : store.Sound) (hc : store.Holds node.content) :
    (store.withNode node).Sound ∧
      (store.withNode node).table = store.table ++ [store.row node] := by
  refine ⟨⟨hs.names, fun other hm => ?_⟩, ?_⟩
  · simp only [Store.withNode, Array.toList_push, List.mem_append, List.mem_singleton] at hm
    rcases hm with hm | rfl
    · exact hs.holds other hm
    · exact hc
  · simp only [table, Store.withNode, Array.toList_push, List.map_append, List.map_cons,
      List.map_nil]
    rfl

theorem push_cases (store : Store) (node : Node) :
    store.size ≤ maxEntry ∧ store.push node = .ok (store.size, store.withNode node) ∨
      maxEntry < store.size ∧ store.push node = .error (.exceeded .nodes) := by
  unfold push entry
  rcases Nat.lt_or_ge maxEntry store.size with h | h
  · rw [if_neg (Nat.not_le_of_gt h)]
    exact .inr ⟨h, rfl⟩
  · rw [if_pos h]
    exact .inl ⟨h, rfl⟩

theorem addValue_cases (store : Store) (value : Bytes) :
    store.values.size + value.length ≤ maxEntry ∧
        store.addValue value = .ok (store.nextSpan value, store.withValue value) ∨
      maxEntry < store.values.size + value.length ∧
        store.addValue value = .error (.exceeded .values) := by
  unfold addValue entry
  rcases Nat.lt_or_ge maxEntry (store.values.size + value.length) with h | h
  · refine .inr ⟨h, ?_⟩
    rw [if_neg (Nat.not_le_of_gt h)]
    split <;> rfl
  · refine .inl ⟨h, ?_⟩
    rw [if_pos h, if_pos (Nat.le_trans (Nat.le_add_right ..) h)]
    show Except.ok (Span.mk _ _, _) = _
    rw [Nat.add_sub_cancel_left]
    rfl

theorem length_table (store : Store) : store.table.length = store.size := by
  simp [table, size]

theorem Sound.close (hs : store.Sound) (position : Nat) :
    (store.close position (store.size - position)).Sound ∧
      (store.close position (store.size - position)).table = store.table.close position := by
  have hnodes : (store.close position (store.size - position)).nodes.toList =
      store.nodes.toList.modify position fun node => { node with size := store.size - position } :=
    Array.toList_modify
  constructor
  · refine ⟨hs.names, fun node hm => ?_⟩
    rw [hnodes] at hm
    obtain ⟨q, hq⟩ := List.mem_iff_getElem?.mp hm
    rw [List.getElem?_modify] at hq
    obtain ⟨old, hold, rfl⟩ := Option.map_eq_some_iff.mp hq
    have := hs.holds old (List.mem_of_getElem? hold)
    split <;> exact this
  · rw [NodeTable.close, length_table]
    unfold table
    rw [hnodes]
    refine List.ext_getElem? fun q => ?_
    simp only [List.getElem?_map, List.getElem?_modify]
    cases store.nodes.toList[q]? with
    | none => rfl
    | some node =>
      simp only [Option.map_eq_map, Option.map_some]
      split <;> rfl

-- ---------------------------------------------------------------------------
-- Reading
-- ---------------------------------------------------------------------------

variable {position : Nat} {row : Row}

theorem getElem?_table (store : Store) (position : Nat) :
    store.table[position]? = (store.node? position).map store.row := by
  rw [table, List.getElem?_map, Array.getElem?_toList, node?]

theorem of_getElem?_table (h : store.table[position]? = some row) :
    ∃ node, store.node? position = some node ∧ store.row node = row := by
  rw [getElem?_table] at h
  exact Option.map_eq_some_iff.mp h

theorem parent?_eq (store : Store) (position : Nat) :
    store.parent? position = store.table.parent? position := by
  rw [NodeTable.parent?, getElem?_table, parent?]
  cases store.node? position <;> rfl

theorem depth_eq (h : store.table[position]? = some row) : store.depth position = row.depth := by
  obtain ⟨node, hn, rfl⟩ := of_getElem?_table h
  rw [depth, hn]
  rfl

theorem kind?_eq (h : store.table[position]? = some row) :
    store.kind? position = some row.item.kind := by
  obtain ⟨node, hn, rfl⟩ := of_getElem?_table h
  rw [kind?, hn]
  cases hc : node.content <;> simp [row, item, Item.kind, Node.kind, Content.kind, hc]

theorem Sound.name_eq (hs : store.Sound) (h : store.table[position]? = some row) :
    store.name position = row.item.name := by
  obtain ⟨node, hn, rfl⟩ := of_getElem?_table h
  rw [name, hn]
  cases hc : node.content <;>
    simp [Store.row, Store.item, Item.name, Content.nameId, hc, hs.names.get_zero]

theorem value_eq (h : store.table[position]? = some row) :
    store.value position = row.item.value := by
  obtain ⟨node, hn, rfl⟩ := of_getElem?_table h
  rw [value, hn]
  cases hc : node.content <;> simp [Store.row, Store.item, Item.value, Content.value?, hc]

theorem attributeCount_eq (store : Store) (node : Node) :
    (store.row node).item.attributeCount = node.content.attributeCount := by
  cases hc : node.content <;>
    simp [Store.row, Store.item, Item.attributeCount, Content.attributeCount, hc]

end Store

end XmlStore
