import XmlStore.Proofs.NormalForm

/-!
# Text below a node

The text of a document or an element is read off the positions that its subtree takes. It is told by
the calls as well: by the texts that are committed while the node is open. Both agree while the
table grows, and where it is finished the children of a node divide its text among them.
-/

namespace XmlStore

-- ---------------------------------------------------------------------------
-- Texts by position
-- ---------------------------------------------------------------------------

namespace Item

variable {item : Item}

theorem kind_of_isAttr (h : item.isAttr = true) : item.kind = .attr := by
  cases item <;> first | rfl | cases h

theorem text?_of_isAttr (h : item.isAttr = true) : item.text? = none := by
  cases item <;> first | rfl | cases h

end Item

namespace NodeTable

/-- The texts at the positions from `first` on, before `last`. -/
def textsFrom (table : NodeTable) (first last : Nat) : List Bytes :=
  (((table.map (·.item)).take last).drop first).filterMap Item.text?

variable {table : NodeTable} {first last p : Nat} {row : Row}

theorem textsFrom_split (middle : Nat) (hfirst : first ≤ middle) (hlast : middle ≤ last)
    (hend : middle ≤ table.length) :
    table.textsFrom first last = table.textsFrom first middle ++ table.textsFrom middle last := by
  unfold textsFrom
  have hlength : (table.map (·.item)).length = table.length := List.length_map _
  have htake : ((table.map (·.item)).take last).take middle = (table.map (·.item)).take middle := by
    rw [List.take_take, Nat.min_eq_left hlast]
  conv_lhs => rw [← List.take_append_drop middle ((table.map (·.item)).take last), htake]
  rw [List.drop_append_of_le_length (by rw [List.length_take, hlength]; omega),
    List.filterMap_append]

theorem textsFrom_self (table : NodeTable) (first : Nat) : table.textsFrom first first = [] := by
  unfold textsFrom
  rw [List.drop_eq_nil_of_le (List.length_take_le _ _)]
  rfl

theorem textsFrom_single (hrow : table[p]? = some row) :
    table.textsFrom p (p + 1) = row.item.text?.toList := by
  obtain ⟨hp, rfl⟩ := List.getElem?_eq_some_iff.mp hrow
  have hlength : (table.map (·.item)).length = table.length := List.length_map _
  unfold textsFrom
  rw [List.take_succ_eq_append_getElem (by omega), List.drop_append_of_le_length
    (by rw [List.length_take]; omega), List.drop_eq_nil_of_le (List.length_take_le _ _),
    List.getElem_map, List.nil_append, List.filterMap_cons]
  cases table[p].item.text? <;> rfl

theorem textsFrom_cons (hrow : table[p]? = some row) (hlast : p < last) :
    table.textsFrom p last = row.item.text?.toList ++ table.textsFrom (p + 1) last := by
  have hp := (List.getElem?_eq_some_iff.mp hrow).1
  rw [textsFrom_split (p + 1) (Nat.le_succ p) hlast hp, textsFrom_single hrow]

theorem textsFrom_append (hlast : last ≤ table.length) (more : List Row) :
    textsFrom (table ++ more) first last = table.textsFrom first last := by
  have hlength : (table.map (·.item)).length = table.length := List.length_map _
  unfold textsFrom
  rw [List.map_append, List.take_append_of_le_length (by omega)]

theorem textsFrom_close (table : NodeTable) (p first last : Nat) :
    (table.close p).textsFrom first last = table.textsFrom first last := by
  have hitems : (table.close p).map (·.item) = table.map (·.item) := by
    refine List.ext_getElem? fun q => ?_
    rw [List.getElem?_map, List.getElem?_map, getElem?_close, Option.map_map]
    refine congrArg (Option.map · _) (funext fun row => ?_)
    simp only [Function.comp_apply]
    split <;> rfl
  rw [textsFrom, hitems, textsFrom]

theorem textsFrom_eq_nil
    (h : ∀ q row, first ≤ q → q < last → table[q]? = some row → row.item.text? = none) :
    table.textsFrom first last = [] := by
  refine List.filterMap_eq_nil_iff.mpr fun item hm => ?_
  obtain ⟨i, hi⟩ := List.mem_iff_getElem?.mp hm
  rw [List.getElem?_drop, List.getElem?_take] at hi
  split at hi
  next hlt =>
    rw [List.getElem?_map, Option.map_eq_some_iff] at hi
    obtain ⟨row, hrow, rfl⟩ := hi
    exact h _ row (Nat.le_add_right _ _) hlt hrow
  next => cases hi

end NodeTable

-- ---------------------------------------------------------------------------
-- Texts that calls commit
-- ---------------------------------------------------------------------------

/-- What calls tell of the texts of a document. -/
structure Tally where
  /-- The open nodes, innermost first. -/
  path : List Nat := []
  /-- The number of nodes so far. -/
  size : Nat := 0
  /-- The texts that became nodes, in order, each with the nodes that were open around it. -/
  texts : List (List Nat × Bytes) := []

namespace Tally

/-- The open nodes are nested as the calls are, and each node takes the next position. -/
def take (chop : Bool) (tally : Tally) : Call → Tally
  | .startDocument _ =>
    { tally with path := tally.size :: tally.path, size := tally.size + 1 }
  | .startElement _ attributes =>
    { tally with path := tally.size :: tally.path, size := tally.size + 1 + attributes.length }
  | .endElement _ | .endDocument => { tally with path := tally.path.tail }
  | .text content raw =>
    if dropsText chop raw tally.path content then tally
    else
      { tally with size := tally.size + 1, texts := tally.texts ++ [(tally.path, content)] }
  | .comment _ | .instruction _ => { tally with size := tally.size + 1 }
  | .declareNamespace .. => tally

def ofCalls (chop : Bool) (calls : List Call) : Tally := calls.foldl (take chop) {}

/-- The texts that were committed between the opening and the closing of a node. -/
def within (tally : Tally) (p : Nat) : List Bytes :=
  (tally.texts.filter fun text => p ∈ text.1).map (·.2)

/-- The texts of a table, of which the nodes on a path are open, are told by a tally. -/
structure Of (tally : Tally) (table : NodeTable) (opened : List Nat) : Prop where
  path : tally.path = opened
  size : tally.size = table.length
  inner : ∀ text ∈ tally.texts, ∀ p ∈ text.1,
    ∃ row, table[p]? = some row ∧ row.item.isLeaf = false
  texts : ∀ {p : Nat} {row : Row}, table[p]? = some row →
    table.textsFrom (p + 1) (table.extent opened p) = tally.within p
  document : ∀ {p : Nat} {row : Row}, table[p]? = some row → row.item.kind = .document → p = 0

variable {tally : Tally} {table : NodeTable} {path rest : List Nat} {p q : Nat} {row : Row}

theorem Of.within_eq_nil (h : tally.Of table path)
    (hno : ∀ row, table[q]? = some row → row.item.isLeaf = true) : tally.within q = [] := by
  unfold within
  rw [List.map_eq_nil_iff, List.filter_eq_nil_iff]
  intro text hm hq
  obtain ⟨row, hrow, hinner⟩ := h.inner text hm q (of_decide_eq_true hq)
  exact Bool.false_ne_true (hinner.symm.trans (hno row hrow))

/-- A text that became a node, if there is one, is within the nodes that were open around it. -/
theorem within_add (tally : Tally) (opened path : List Nat) (size : Nat) (text : Option Bytes)
    (q : Nat) :
    within { path, size, texts := tally.texts ++ text.toList.map fun content => (opened, content) }
      q = tally.within q ++ if q ∈ opened then text.toList else [] := by
  simp only [within, List.filter_append, List.map_append]
  cases text with
  | none => simp
  | some content => by_cases hq : q ∈ opened <;> simp [hq]

/-- One more node below the innermost open one, which may be left open itself. -/
theorem Of.push (h : tally.Of table (p :: rest)) (hl : table.Layout (p :: rest))
    (hopen : ∀ q ∈ p :: rest, ∃ row, table[q]? = some row ∧ row.item.isLeaf = false)
    (row : Row) (hsize : row.size = 1) (hitem : row.item.kind ≠ .document)
    (hpath : path = p :: rest ∨ path = table.length :: p :: rest) :
    Of { path, size := table.length + 1,
         texts := tally.texts ++ row.item.text?.toList.map fun content => (p :: rest, content) }
      (table ++ [row]) path where
  path := rfl
  size := by rw [List.length_append, List.length_singleton]
  inner := by
    have hleft {q : Nat} : (∃ row, table[q]? = some row ∧ row.item.isLeaf = false) →
        ∃ row', (table ++ [row])[q]? = some row' ∧ row'.item.isLeaf = false := by
      rintro ⟨row', hrow', hinner⟩
      exact ⟨row', (List.getElem?_append_left (List.getElem?_eq_some_iff.mp hrow').1).trans hrow',
        hinner⟩
    refine List.forall_mem_append.mpr ⟨fun text hm q hq => hleft (h.inner text hm q hq), ?_⟩
    rw [List.forall_mem_map]
    exact fun _ _ q hq => hleft (hopen q hq)
  texts := by
    intro q row' hrow
    have hpushed : (table ++ [row])[table.length]? = some row := List.getElem?_concat_length
    have hlength : (table ++ [row]).length = table.length + 1 := List.length_append
    rw [within_add]
    rcases NodeTable.getElem?_push_cases hrow with ⟨hq, hrow⟩ | ⟨rfl, rfl⟩
    · -- An open node reaches to the end of the table, and so over the new row; a closed one
      -- ends before it.
      rw [NodeTable.extent_push hpath hq, ← h.texts hrow]
      split
      next hopened =>
        rw [NodeTable.textsFrom_split table.length hq (Nat.le_succ _) (by omega),
          NodeTable.textsFrom_single hpushed, NodeTable.textsFrom_append (Nat.le_refl _),
          NodeTable.extent_open hopened]
      next => rw [NodeTable.textsFrom_append (hl.bounds hrow).2, List.append_nil]
    · -- No text can have been committed below a node that was not there.
      have hfresh : table.length ∉ p :: rest := fun hm => Nat.lt_irrefl _ (hl.chain.lt hm)
      rw [NodeTable.extent_pushed hsize, NodeTable.textsFrom_self, if_neg hfresh,
        List.append_nil, h.within_eq_nil (by simp)]
  document := by
    intro q row' hrow hkind
    rcases NodeTable.getElem?_push_cases hrow with ⟨-, hrow⟩ | ⟨-, rfl⟩
    · exact h.document hrow hkind
    · exact absurd hkind hitem

theorem Of.append_attributes (atts : List Row) (h : tally.Of table (p :: rest))
    (hl : table.Layout (p :: rest))
    (hopen : ∀ q ∈ p :: rest, ∃ row, table[q]? = some row ∧ row.item.isLeaf = false)
    (hatts : ∀ att ∈ atts, att.parent = some p ∧ att.depth = rest.length + 1 ∧ att.size = 1)
    (hitems : ∀ att ∈ atts, att.item.isAttr = true) :
    Of { tally with size := table.length + atts.length } (table ++ atts) (p :: rest) := by
  induction atts generalizing tally table with
  | nil =>
    rw [List.append_nil]
    exact ⟨h.path, rfl, h.inner, h.texts, h.document⟩
  | cons att atts ih =>
    obtain ⟨⟨hparent, hdepth, hsize⟩, hrest⟩ := List.forall_mem_cons.mp hatts
    obtain ⟨hattr, hothers⟩ := List.forall_mem_cons.mp hitems
    have hkind := Item.kind_of_isAttr hattr
    have hpushed := h.push hl hopen att hsize (by rw [hkind]; nofun) (.inl rfl)
    have hopen' : ∀ q ∈ p :: rest,
        ∃ row, (table ++ [att])[q]? = some row ∧ row.item.isLeaf = false := by
      intro q hq
      obtain ⟨row, hrow, hinner⟩ := hopen q hq
      exact ⟨row, (List.getElem?_append_left (hl.chain.lt hq)).trans hrow, hinner⟩
    have hall := ih hpushed (hl.push hparent hdepth hsize (.inl rfl)) hopen' hrest hothers
    rw [Item.text?_of_isAttr hattr] at hall
    simp only [Option.toList_none, List.map_nil, List.append_nil, List.length_append,
      List.length_singleton] at hall
    rw [List.append_cons, List.length_cons, Nat.add_comm atts.length, ← Nat.add_assoc, h.path]
    exact hall

theorem Of.close (h : tally.Of table (p :: rest)) :
    Of { tally with path := rest } (table.close p) rest where
  path := rfl
  size := by rw [NodeTable.length_close, h.size]
  inner := by
    intro text hm q hq
    obtain ⟨row, hrow, hinner⟩ := h.inner text hm q hq
    obtain ⟨row', hrow', -, -, hitem⟩ := NodeTable.exists_getElem?_close (p := p) hrow
    exact ⟨row', hrow', hitem ▸ hinner⟩
  texts := by
    intro q row' hrow'
    obtain ⟨row, hrow, -⟩ := NodeTable.of_getElem?_close hrow'
    rw [NodeTable.textsFrom_close,
      NodeTable.extent_close (List.getElem?_eq_some_iff.mp hrow).1]
    exact h.texts hrow
  document := by
    intro q row' hrow' hkind
    obtain ⟨row, hrow, -, -, hitem⟩ := NodeTable.of_getElem?_close hrow'
    exact h.document hrow (hitem ▸ hkind)

end Tally

theorem Outline.Opens.inner {table : NodeTable} {path : List Nat} {opened : List Opened}
    (h : Opens table path opened) :
    ∀ q ∈ path, ∃ row, table[q]? = some row ∧ row.item.isLeaf = false := by
  induction h with
  | document hrow hitem => exact List.forall_mem_singleton.mpr ⟨_, hrow, by rw [hitem]; rfl⟩
  | element hrow hitem _ ih => exact List.forall_mem_cons.mpr ⟨⟨_, hrow, by rw [hitem]; rfl⟩, ih⟩

namespace Tally

variable {tally : Tally} {outline later : Outline}

theorem Of.ofName (chop : Bool) (name : Bytes) :
    Of (take chop {} (.startDocument name)) (Outline.ofName chop name).table
      (Outline.ofName chop name).path := by
  refine ⟨rfl, rfl, List.forall_mem_nil _, ?_, ?_⟩
  · intro p row hrow
    obtain rfl : p = 0 := Nat.lt_one_iff.mp (List.getElem?_eq_some_iff.mp hrow).1
    rfl
  · intro p row hrow _
    exact Nat.lt_one_iff.mp (List.getElem?_eq_some_iff.mp hrow).1

theorem Of.leaf (h : tally.Of outline.table outline.path) (hw : outline.WellFormed) (item : Item)
    (hitem : item.kind ≠ .document) :
    Of { path := outline.path, size := tally.size + 1,
         texts := tally.texts ++ item.text?.toList.map fun content => (outline.path, content) }
      (outline.leaf item).table (outline.leaf item).path := by
  obtain ⟨p, rest, hpath⟩ := hw.exists_path
  have hlayout := hw.layout
  have hopen := hw.opens.inner
  have hsize := h.size
  rw [hpath] at h hlayout hopen
  have hpushed := h.push hlayout hopen ⟨outline.path.head?, outline.path.length, 1, [], item⟩
    rfl hitem (.inl rfl)
  simp only [Outline.leaf, hpath, hsize]
  rw [hpath] at hpushed
  exact hpushed

theorem Of.remark (h : tally.Of outline.table outline.path) (hw : outline.WellFormed)
    {item : Item} (hitem : item.kind ≠ .document) (htext : item.text? = none) :
    Of { tally with size := tally.size + 1 } (outline.leaf item).table
      (outline.leaf item).path := by
  have hleaf := h.leaf hw item hitem
  rw [htext, Option.toList_none, List.map_nil, List.append_nil, ← h.path] at hleaf
  exact hleaf

theorem Of.enter (h : tally.Of outline.table outline.path) (hw : outline.WellFormed)
    (chop : Bool) (name : Bytes) (attributes : List Attribute) :
    Of (tally.take chop (.startElement name attributes)) (outline.enter name attributes).table
      (outline.enter name attributes).path := by
  obtain ⟨p, rest, hpath⟩ := hw.exists_path
  have hlayout := hw.layout
  have hopen := hw.opens.inner
  have hparent : (outline.elementRow name attributes).parent = some p := by
    simp [Outline.elementRow, hpath]
  have hdepth : (outline.elementRow name attributes).depth = rest.length + 1 := by
    simp [Outline.elementRow, hpath]
  have hentered : Outline.Opens (outline.table ++ [outline.elementRow name attributes])
      (outline.table.length :: outline.path) (⟨name, []⟩ :: outline.opened) :=
    .element List.getElem?_concat_length rfl (hw.opens.append _)
  have htold := h
  rw [hpath] at htold hlayout hopen hentered
  have hfirst := htold.push hlayout hopen (outline.elementRow name attributes) rfl
    (by simp [Outline.elementRow, Item.kind]) (.inr rfl)
  have hall := hfirst.append_attributes (attributes.map outline.attributeRow)
    (hlayout.push hparent hdepth rfl (.inr rfl)) hentered.inner
    (List.forall_mem_map.mpr fun att _ => ⟨rfl, by simp [Outline.attributeRow, hpath], rfl⟩)
    (List.forall_mem_map.mpr fun att _ => rfl)
  rw [← List.append_cons, List.length_append, List.length_singleton, List.length_map] at hall
  rw [Tally.take, h.path, h.size]
  simp only [Outline.enter, hpath]
  have htexts : tally.texts ++ (outline.elementRow name attributes).item.text?.toList.map
      (fun content => (p :: rest, content)) = tally.texts := List.append_nil _
  rw [htexts] at hall
  exact hall

theorem Of.take (h : tally.Of outline.table outline.path) (hw : outline.WellFormed) {call : Call}
    (ht : outline.take call = some later) :
    (tally.take outline.chop call).Of later.table later.path ∧ later.chop = outline.chop := by
  cases call with
  | startDocument name => cases ht
  | endDocument => cases ht
  | startElement name attributes =>
    simp only [Outline.take] at ht
    split at ht
    · cases ht
      exact ⟨h.enter hw _ name attributes, rfl⟩
    · cases ht
  | endElement name =>
    simp only [Outline.take] at ht
    split at ht
    next element opened position path _ hp =>
      split at ht
      · cases ht
        rw [hp] at h
        have hclosed := h.close
        refine ⟨?_, rfl⟩
        rw [Tally.take, h.path]
        exact hclosed
      · cases ht
    · cases ht
  | text content raw =>
    cases ht
    rw [Tally.take, h.path]
    split
    · exact ⟨h, rfl⟩
    · exact ⟨h.leaf hw (.text content) (by simp [Item.kind]), rfl⟩
  | comment content =>
    cases ht
    exact ⟨h.remark hw (by simp [Item.kind]) rfl, rfl⟩
  | instruction content =>
    cases ht
    exact ⟨h.remark hw (by simp [Item.kind]) rfl, rfl⟩
  | declareNamespace qualifier uri =>
    cases ht
    exact ⟨h, rfl⟩

end Tally

namespace Phase

variable {options : IndexOptions} {chop : Bool} {phase later : Phase} {calls : List Call}

/-- A phase to which calls with this tally have led. -/
def Tallied (chop : Bool) (tally : Tally) : Phase → Prop
  | unstarted => tally = {}
  | within outline _ =>
    outline.WellFormed ∧ outline.chop = chop ∧ tally.Of outline.table outline.path
  | ended outline _ => tally.Of (outline.table.close 0) []

theorem Tallied.take_empty {tally : Tally} (h : phase.Tallied chop tally) (raw : Bool) :
    phase.Tallied chop (tally.take chop (.text [] raw)) := by
  have hsame : tally.take chop (.text [] raw) = tally := rfl
  rwa [hsame]

theorem Tallied.step {tally : Tally} (h : phase.Tallied chop tally) {call : Call}
    (hs : phase.Step options chop call later) : later.Tallied chop (tally.take chop call) := by
  cases hs with
  | startDocument name =>
    obtain rfl : tally = {} := h
    exact ⟨Outline.ofName_wellFormed chop name, rfl, .ofName chop name⟩
  | goOn ht =>
    obtain ⟨hw, rfl, htold⟩ := h
    obtain ⟨htaken, hchop⟩ := htold.take hw ht
    exact ⟨hw.take ht, hchop, htaken⟩
  | @endDocument outline _ hopened _ =>
    obtain ⟨hw, -, htold⟩ := h
    have hroot : outline.path = [0] := (hopened ▸ hw.opens).path_eq
    rw [hroot] at htold
    have hclosed := htold.close
    have htaken : tally.take chop .endDocument = { tally with path := [] } := by
      rw [Tally.take, htold.path]
      rfl
    rw [← htaken] at hclosed
    exact hclosed
  | nothing raw => exact h.take_empty raw

theorem Steps.tallied (h : Steps options chop .unstarted calls phase) :
    phase.Tallied chop (.ofCalls chop calls) := by
  induction h with
  | start => rfl
  | next _ hs ih =>
    rw [Tally.ofCalls, List.foldl_append]
    exact ih.step hs

end Phase

-- ---------------------------------------------------------------------------
-- The text of a finished store
-- ---------------------------------------------------------------------------

namespace Store

variable {store : Store} {p : Nat} {row : Row} {tally : Tally}

theorem flatMap_texts (first count : Nat) (h : first + count ≤ store.table.length) :
    ((List.range' first count).filter fun q => store.kind? q == some .text).flatMap store.value =
      (store.table.textsFrom first (first + count)).flatten := by
  induction count generalizing first with
  | zero => rw [Nat.add_zero, NodeTable.textsFrom_self]; rfl
  | succ count ih =>
    have hrow : store.table[first]? = some store.table[first] := List.getElem?_eq_getElem (by omega)
    rw [List.range'_succ, NodeTable.textsFrom_cons hrow (by omega), List.flatten_append,
      show first + (count + 1) = first + 1 + count by omega, ← ih _ (by omega), List.filter_cons,
      kind?_eq hrow]
    cases hitem : store.table[first].item with
    | text value => simp [Item.kind, Item.text?, value_eq hrow, hitem, Item.value]
    | _ => simp [Item.kind, Item.text?]

theorem node_kind {node : Node} (hn : store.node? p = some node)
    (hrow : store.table[p]? = some (store.row node)) : node.kind = (store.row node).item.kind := by
  have hkind := kind?_eq hrow
  rw [kind?, hn] at hkind
  exact Option.some.inj hkind

theorem stringValue_inner (hl : store.table.Layout []) (hrow : store.table[p]? = some row)
    (hkind : row.item.kind = .document ∨ row.item.kind = .element) :
    store.stringValue p = (store.table.textsFrom (p + 1) (p + row.size)).flatten := by
  obtain ⟨hpos, hend⟩ := hl.bounds hrow
  rw [NodeTable.extent_closed List.not_mem_nil hrow] at hpos hend
  obtain ⟨node, hn, rfl⟩ := of_getElem?_table hrow
  have hnode : (store.row node).size = node.size := rfl
  have hsize : p + 1 + (node.size - 1) = p + (store.row node).size := by omega
  have htexts := flatMap_texts (p + 1) (node.size - 1) (hsize.trans_le hend)
  rw [hsize] at htexts
  rw [← htexts, stringValue, hn]
  rw [← node_kind hn hrow] at hkind
  rcases hkind with hkind | hkind <;> simp only [hkind]

theorem stringValue_other (hkind : ¬ (store.kind? p = some .document ∨
    store.kind? p = some .element)) : store.stringValue p = store.value p := by
  unfold stringValue
  cases hn : store.node? p with
  | none => rw [value, hn]; rfl
  | some node =>
    rw [kind?, hn] at hkind
    cases hnode : node.kind with
    | document => exact absurd (.inl (congrArg some hnode)) hkind
    | element => exact absurd (.inr (congrArg some hnode)) hkind
    | _ => simp only [hnode]

theorem exists_row (store : Store)
    (h : store.kind? p = some .document ∨ store.kind? p = some .element) :
    ∃ row, store.table[p]? = some row ∧
      (row.item.kind = .document ∨ row.item.kind = .element) := by
  have hp : p < store.table.length := by
    rw [length_table]
    exact h.elim lt_size_of_kind? lt_size_of_kind?
  have hrow : store.table[p]? = some store.table[p] := List.getElem?_eq_getElem hp
  rw [kind?_eq hrow, Option.some_inj, Option.some_inj] at h
  exact ⟨_, hrow, h⟩

/-- The children that are elements or texts. -/
def textChildren (store : Store) (p : Nat) : List Nat :=
  (store.children p).filter fun q => store.kind? q == some .element || store.kind? q == some .text

theorem textsFrom_siblings (h : store.table.Layout []) (ht : tally.Of store.table [])
    (hrow : store.table[p]? = some row) {next : Nat} (hp : p < next)
    (hb : store.table.Boundary p next (p + row.size)) :
    (store.table.textsFrom next (p + row.size)).flatten =
      ((store.siblings next (p + row.size)).filter fun q =>
        store.kind? q == some .element || store.kind? q == some .text).flatMap
          store.stringValue := by
  have hend := (h.bounds hrow).2
  rw [NodeTable.extent_closed List.not_mem_nil hrow] at hend
  fun_induction siblings store next (p + row.size) with
  | case1 next hlt node hn ih =>
    obtain ⟨child, hchild, -, hpos, hstop, -, hb'⟩ := h.child_at hrow hp hlt hb
    have hsize : max node.size 1 = child.size := by
      rw [getElem?_table, hn] at hchild
      obtain rfl := Option.some.inj hchild
      exact Nat.max_eq_left hpos
    rw [hsize] at ih ⊢
    rw [NodeTable.textsFrom_split (next + child.size) (by omega) hstop (by omega),
      NodeTable.textsFrom_cons hchild (by omega), List.flatten_append, List.flatten_append,
      ih (by omega) hb', List.filter_cons, kind?_eq hchild]
    -- Only an element has texts below it: a text, a comment and an instruction are never open.
    have hextent : store.table.extent [] next = next + child.size :=
      NodeTable.extent_closed List.not_mem_nil hchild
    have hbelow (hleaf : child.item.isLeaf = true) :
        store.table.textsFrom (next + 1) (next + child.size) = [] := by
      rw [← hextent, ht.texts hchild]
      exact ht.within_eq_nil fun row hr => Option.some.inj (hchild.symm.trans hr) ▸ hleaf
    have hother (hk : ¬ (child.item.kind = .document ∨ child.item.kind = .element)) :
        store.stringValue next = child.item.value := by
      rw [stringValue_other (by rw [kind?_eq hchild]; simpa using hk), value_eq hchild]
    cases hitem : child.item with
    | document name =>
      have := ht.document hchild (by rw [hitem]; rfl)
      omega
    | element name count =>
      have hinner := stringValue_inner h hchild (.inr (by rw [hitem]; rfl))
      simp [Item.kind, Item.text?, hinner]
    | text value =>
      have hvalue := hother (by simp [hitem, Item.kind])
      have hnone := hbelow (by rw [hitem]; rfl)
      simp [Item.kind, Item.text?, hvalue, hnone, hitem, Item.value]
    | _ =>
      have hnone := hbelow (by rw [hitem]; rfl)
      simp [Item.kind, Item.text?, hnone]
  | case2 next hlt hn =>
    obtain ⟨child, hchild, -⟩ := h.child_at hrow hp hlt hb
    rw [getElem?_table, hn] at hchild
    cases hchild
  | case3 next hlt =>
    rw [NodeTable.textsFrom_eq_nil fun q _ hq hq' => absurd (Nat.lt_of_le_of_lt hq hq') hlt]
    rfl

/-- The text of a document or an element is that of its elements and texts. -/
theorem stringValue_children (h : store.table.Layout []) (ha : store.table.Attributed [])
    (ht : tally.Of store.table []) (hrow : store.table[p]? = some row)
    (hkind : row.item.kind = .document ∨ row.item.kind = .element) :
    store.stringValue p = (store.textChildren p).flatMap store.stringValue := by
  obtain ⟨hpos, hend⟩ := h.bounds hrow
  rw [NodeTable.extent_closed List.not_mem_nil hrow] at hpos hend
  -- The attributes stand before the children.
  have hattributes : p + 1 + row.item.attributeCount ≤ p + row.size := by
    rcases Nat.eq_zero_or_pos row.item.attributeCount with hzero | hcount
    · omega
    · obtain ⟨att, hatt, hparent, -⟩ :=
        ha.own hrow (Nat.lt_add_of_pos_right hcount) (Nat.le_refl _)
      have hle := (h.parent hatt hparent).2.1
      have hlt := (h.bounds hatt).1
      rw [NodeTable.extent_closed List.not_mem_nil hrow] at hle
      omega
  have hnone : store.table.textsFrom (p + 1) (p + 1 + row.item.attributeCount) = [] := by
    refine NodeTable.textsFrom_eq_nil fun q att hq hq' hatt => ?_
    obtain ⟨att', hatt', -, hattr⟩ := ha.own hrow (q := q) hq (by omega)
    obtain rfl := Option.some.inj (hatt.symm.trans hatt')
    exact Item.text?_of_isAttr hattr
  rw [stringValue_inner h hrow hkind, NodeTable.textsFrom_split _ (Nat.le_add_right _ _) hattributes
    (by omega), hnone, List.nil_append,
    textsFrom_siblings h ht hrow (by omega) (ha.boundary h hrow)]
  obtain ⟨node, hn, rfl⟩ := of_getElem?_table hrow
  rw [textChildren, children, hn, attributeCount_eq]
  rfl

end Store

namespace Builder

/-- The calls up to the end of a document have been taken. The text of the document or of an element
is made up of the texts that were committed between its opening and its closing, in order, and as
well of the texts of its children that are elements or texts; any other node has its value. -/
theorem finish_stringValue {options : IndexOptions} {chop : Bool} {metadata : Metadata}
    {calls : List Call} {builder : Builder}
    (h : (calls ++ [Call.endDocument]).forM take { ofOptions options with chop, metadata } =
      .ok () builder) :
    ∃ db, builder.finish = .ok db ∧
      (∀ p, db.store.kind? p = some .document ∨ db.store.kind? p = some .element →
        db.store.stringValue p = ((Tally.ofCalls chop calls).within p).flatten ∧
        db.store.stringValue p = (db.store.textChildren p).flatMap db.store.stringValue) ∧
      ∀ p, ¬ (db.store.kind? p = some .document ∨ db.store.kind? p = some .element) →
        db.store.stringValue p = db.store.value p := by
  obtain ⟨before, hbefore, hlast⟩ := of_run_forM_append h
  obtain ⟨_, hend, hnil⟩ := of_run_forM_cons hlast
  cases hnil
  obtain ⟨phase, hsteps, hat⟩ := run_steps (ofOptions_at options chop metadata) hbefore
  obtain ⟨_, hstep, hat⟩ := (take_step hat .endDocument).run_ok hend
  have htallied := (hsteps.tallied).step hstep
  cases hstep with
  | goOn ht => cases ht
  | @endDocument outline account hopened _ =>
    cases hat with
    | ended _ hfinished hs htable hw =>
      have hroot : outline.path = [0] := (hopened ▸ hw.opens).path_eq
      have hlayout := hw.layout
      have hattributed := hw.attributed
      rw [hroot] at hlayout hattributed
      have hclosed := hlayout.close
      have hattributes := hattributed.close
      have htold : Tally.Of _ (outline.table.close 0) [] := htallied
      rw [← htable] at hclosed hattributes htold
      refine ⟨_, if_pos hfinished, fun p hp => ?_, fun p hp => Store.stringValue_other hp⟩
      obtain ⟨row, hrow, hkind⟩ := builder.store.exists_row hp
      refine ⟨?_, Store.stringValue_children hclosed hattributes htold hrow hkind⟩
      have hextent : builder.store.table.extent [] p = p + row.size :=
        NodeTable.extent_closed List.not_mem_nil hrow
      rw [Store.stringValue_inner hclosed hrow hkind, ← hextent, htold.texts hrow]
      rfl

/-- An element with an attribute and a text before another element, in which a comment stands
between two texts; the white space after it is dropped. -/
def nestedTexts : List Call :=
  [.startDocument (ascii "d"), .startElement (ascii "a") [⟨ascii "k", ascii "v"⟩],
    .text (ascii "x") false, .startElement (ascii "b") [], .text (ascii "y") false,
    .comment (ascii "c"), .text (ascii "z") false, .endElement (ascii "b"),
    .text (ascii " ") false, .endElement (ascii "a")]

/-- The database of a document whose calls are taken. -/
def databaseOf? (chop : Bool) (calls : List Call) : Option Database :=
  match calls.forM take { ofOptions {} with chop, metadata := {} } with
  | .ok _ builder => builder.finish.toOption
  | .error _ _ => none

theorem of_databaseOf?_eq_some {chop : Bool} {calls : List Call} {db : Database}
    (h : databaseOf? chop calls = some db) :
    ∃ builder, calls.forM take { ofOptions {} with chop, metadata := {} } = .ok () builder ∧
      builder.finish = .ok db := by
  unfold databaseOf? at h
  cases hrun : calls.forM take { ofOptions {} with chop, metadata := {} } with
  | error fault builder =>
    rw [hrun] at h
    cases h
  | ok _ builder =>
    rw [hrun] at h
    have h : builder.finish.toOption = some db := h
    cases hfinish : builder.finish with
    | error fault =>
      rw [hfinish] at h
      cases h
    | ok finished =>
      rw [hfinish] at h
      exact ⟨builder, rfl, hfinish.trans (congrArg Except.ok (Option.some.inj h))⟩

theorem stringValue_of_nestedTexts :
    ∃ builder db,
      (nestedTexts ++ [Call.endDocument]).forM take
        { ofOptions {} with chop := true, metadata := {} } = .ok () builder ∧
      builder.finish = .ok db ∧
      db.store.stringValue 1 = ((Tally.ofCalls true nestedTexts).within 1).flatten ∧
      (Tally.ofCalls true nestedTexts).within 1 = [ascii "x", ascii "y", ascii "z"] ∧
      db.store.stringValue 1 = [3, 4].flatMap db.store.stringValue ∧
      db.store.stringValue 2 = db.store.value 2 := by
  have hshape : (databaseOf? true (nestedTexts ++ [Call.endDocument])).map (fun db =>
      (db.store.kind? 1, db.store.kind? 2, db.store.textChildren 1)) =
      some (some .element, some .attr, [3, 4]) := by
    decide +kernel
  obtain ⟨db, hdb, hnodes⟩ := Option.map_eq_some_iff.mp hshape
  obtain ⟨builder, hrun, hfinish⟩ := of_databaseOf?_eq_some hdb
  obtain ⟨finished, hfinished, hinner, hother⟩ := finish_stringValue hrun
  obtain rfl := Except.ok.inj (hfinished.symm.trans hfinish)
  obtain ⟨helement, hattr, hchildren⟩ :
      finished.store.kind? 1 = some .element ∧ finished.store.kind? 2 = some .attr ∧
        finished.store.textChildren 1 = [3, 4] := by
    simpa only [Prod.mk.injEq] using hnodes
  obtain ⟨htexts, hvalues⟩ := hinner 1 (.inr helement)
  rw [hchildren] at hvalues
  refine ⟨builder, finished, hrun, hfinish, htexts, by decide +kernel, hvalues, hother 2 ?_⟩
  rw [hattr]
  rintro (h | h) <;> cases h

end Builder

end XmlStore
