import XmlStore.Proofs.Building
import XmlStore.Proofs.Occurrences

/-!
# The word index of a store

Whatever calls a builder takes, its word index is one of the text nodes in its store: each text
that is committed is added to the index, and no text node changes afterwards.
-/

namespace XmlStore

-- ---------------------------------------------------------------------------
-- The texts of a store
-- ---------------------------------------------------------------------------

namespace Store

/-- The positions and values of the text nodes among the first nodes. -/
def textsBelow (store : Store) (count : Nat) : List (Nat × Bytes) :=
  ((List.range count).filter fun p => store.kind? p == some .text).map fun p =>
    (p, store.value p)

/-- The positions and values of all text nodes, in order. -/
def texts (store : Store) : List (Nat × Bytes) := store.textsBelow store.size

variable {store later : Store} {node : Node} {p count : Nat}

theorem mem_texts {text : Bytes} :
    (p, text) ∈ store.texts ↔ store.kind? p = some .text ∧ store.value p = text := by
  have hlt : store.kind? p = some .text → p < store.size := by
    intro h
    obtain ⟨node, hn, -⟩ := Option.map_eq_some_iff.mp h
    exact (Array.getElem?_eq_some_iff.mp hn).1
  simp only [texts, textsBelow, List.mem_map, List.mem_filter, List.mem_range, beq_iff_eq,
    Prod.mk.injEq]
  constructor
  · rintro ⟨q, ⟨-, hk⟩, rfl, hv⟩
    exact ⟨hk, hv⟩
  · rintro ⟨hk, hv⟩
    exact ⟨p, ⟨hlt hk, hk⟩, rfl, hv⟩

theorem texts_pairwise (store : Store) : store.texts.Pairwise (·.1 < ·.1) :=
  (List.pairwise_lt_range.filter _).map _ fun _ _ h => h

theorem textsBelow_congr (h : ∀ p < count, later.kind? p = store.kind? p ∧
      (store.kind? p = some .text → later.value p = store.value p)) :
    later.textsBelow count = store.textsBelow count := by
  have hfilter : (List.range count).filter (fun p => later.kind? p == some .text) =
      (List.range count).filter fun p => store.kind? p == some .text :=
    List.filter_congr fun p hp => by rw [(h p (List.mem_range.mp hp)).1]
  unfold textsBelow
  rw [hfilter]
  refine List.map_congr_left fun p hp => ?_
  obtain ⟨hlt, hk⟩ := List.mem_filter.mp hp
  rw [(h p (List.mem_range.mp hlt)).2 (beq_iff_eq.mp hk)]

theorem textsBelow_succ (store : Store) (count : Nat) :
    store.textsBelow (count + 1) = store.textsBelow count ++
      if store.kind? count = some .text then [(count, store.value count)] else [] := by
  unfold textsBelow
  rw [List.range_succ, List.filter_append, List.map_append]
  by_cases h : store.kind? count = some .text <;> simp [h]

/-- The values of the text nodes are there. -/
def HoldsTexts (store : Store) : Prop :=
  ∀ node ∈ store.nodes.toList, ∀ span, node.content = .text span →
    span.stop ≤ store.values.size

theorem HoldsTexts.withValue (h : store.HoldsTexts) (value : Bytes) :
    (store.withValue value).HoldsTexts ∧ (store.withValue value).texts = store.texts := by
  obtain ⟨hg, -, -⟩ := store.grows_withValue value
  refine ⟨fun node hm span hc => Nat.le_trans (h node hm span hc) hg.size_le, ?_⟩
  refine textsBelow_congr fun p hp => ⟨rfl, fun hk => ?_⟩
  obtain ⟨node, hn, hkind⟩ := Option.map_eq_some_iff.mp hk
  have hmem : node ∈ store.nodes.toList := Array.mem_toList_iff.mpr (Array.mem_of_getElem? hn)
  have hn' : (store.withValue value).node? p = some node := hn
  unfold Store.value
  rw [hn, hn']
  cases hc : node.content with
  | text span => simpa [hc, Content.value?] using hg.valueAt (h node hmem span hc)
  | _ => simp [Node.kind, Content.kind, hc] at hkind

theorem node?_close (store : Store) (position size p : Nat) :
    (store.close position size).node? p =
      (store.node? p).map fun node => if position = p then { node with size } else node := by
  unfold node? close
  rw [Array.getElem?_modify]
  split
  · rfl
  · simp

theorem HoldsTexts.close (h : store.HoldsTexts) (position size : Nat) :
    (store.close position size).HoldsTexts ∧ (store.close position size).texts = store.texts := by
  constructor
  · intro node hm span hc
    obtain ⟨p, hp⟩ := Array.getElem?_of_mem (Array.mem_toList_iff.mp hm)
    have hp : (store.close position size).node? p = some node := hp
    rw [node?_close, Option.map_eq_some_iff] at hp
    obtain ⟨old, hold, rfl⟩ := hp
    have hmem : old ∈ store.nodes.toList := Array.mem_toList_iff.mpr (Array.mem_of_getElem? hold)
    refine h old hmem span ?_
    split at hc <;> exact hc
  · have hsize : (store.close position size).size = store.size := Array.size_modify
    unfold texts
    rw [hsize]
    refine textsBelow_congr fun p _ => ?_
    unfold kind? Store.value
    rw [node?_close]
    cases store.node? p with
    | none => exact ⟨rfl, fun _ => rfl⟩
    | some node =>
      by_cases hp : position = p <;> simp [hp, Node.kind, valueAt, Store.close]

theorem node?_withNode (store : Store) (node : Node) (p : Nat) :
    (store.withNode node).node? p = if p = store.size then some node else store.node? p :=
  Array.getElem?_push

/-- The text that a node is, if it is one. -/
def text? (store : Store) : Content → Option Bytes
  | .text span => some (store.valueAt span)
  | _ => none

theorem HoldsTexts.withNode (h : store.HoldsTexts) (node : Node)
    (hc : ∀ span, node.content = .text span → span.stop ≤ store.values.size) :
    (store.withNode node).HoldsTexts ∧ (store.withNode node).texts =
      store.texts ++ (store.text? node.content).toList.map fun text => (store.size, text) := by
  constructor
  · intro other hm span ho
    simp only [Store.withNode, Array.toList_push, List.mem_append, List.mem_singleton] at hm
    rcases hm with hm | rfl
    · exact h other hm span ho
    · exact hc span ho
  · have hold : (store.withNode node).textsBelow store.size = store.texts := by
      refine textsBelow_congr fun p hp => ?_
      unfold kind? Store.value
      rw [node?_withNode, if_neg (Nat.ne_of_lt hp)]
      exact ⟨rfl, fun _ => rfl⟩
    unfold texts at hold ⊢
    rw [size_withNode, textsBelow_succ, hold]
    unfold kind? Store.value
    rw [node?_withNode, if_pos rfl]
    cases hcontent : node.content <;>
      simp [text?, Node.kind, Content.kind, Content.value?, hcontent, Store.withNode, valueAt]

theorem HoldsTexts.withText (h : store.HoldsTexts) (text : Bytes) (parent depth : Nat) :
    let added := (store.withValue text).withNode
      { parent := some parent, depth, content := .text (store.nextSpan text) }
    added.HoldsTexts ∧ added.texts = store.texts ++ [(store.size, text)] := by
  obtain ⟨-, hspan, hvalue⟩ := store.grows_withValue text
  obtain ⟨hkept, htexts⟩ := h.withValue text
  let node : Node := { parent := some parent, depth, content := .text (store.nextSpan text) }
  obtain ⟨hadded, hmore⟩ := hkept.withNode node fun span hc => by
    cases hc
    exact hspan
  refine ⟨hadded, hmore.trans ?_⟩
  rw [htexts]
  exact congrArg (fun value => store.texts ++ [(store.size, value)]) hvalue

end Store

-- ---------------------------------------------------------------------------
-- What is only looked at
-- ---------------------------------------------------------------------------

namespace Builder

theorem keeps_parent (p : Builder → Prop) : Keeps p parent := by
  refine .read fun builder _ => ?_
  dsimp only
  split
  · exact .throw_bind _
  · split
    · exact .throw_bind _
    · split
      · exact .throw _
      · exact .pure _

theorem keeps_measure (p : Builder → Prop) (n : Nat) (counted : Counted) :
    Keeps p (measure n counted) := by
  intro builder h
  refine (measure_run builder n counted).mono ?_ fun _ _ _ => trivial
  rintro _ builder ⟨-, rfl, -⟩
  exact h

theorem keeps_resolve (p : Builder → Prop) (name : Bytes) (isAttribute : Bool) :
    Keeps p (resolve name isAttribute) := by
  refine .read fun builder _ => ?_
  split
  · split
    · exact .pure _
    · exact .throw _
  · exact .pure _

end Builder

theorem Database.wordIndex_ok {db : Database} {index : WordIndex} {fuzzy : Bool}
    (hfresh : db.metadata.stale = false) (hbuilt : db.metadata.words = true)
    (hindex : db.indexes.words = some index)
    (hfuzzy : fuzzy → db.metadata.fuzzy = true ∧ index.fuzzy = true) :
    db.wordIndex fuzzy = .ok index := by
  unfold wordIndex index?
  rw [hfresh, hbuilt, hindex]
  cases fuzzy with
  | false => rfl
  | true =>
    obtain ⟨hrecorded, hvariant⟩ := hfuzzy rfl
    simp [hrecorded, hvariant, bind, Except.bind]

-- ---------------------------------------------------------------------------
-- Calls
-- ---------------------------------------------------------------------------

variable [Segmenter]

/-- A builder that was given these options, with an index of the texts in its store if it was to
keep one. -/
structure Builder.Indexed (asked : IndexOptions) (builder : Builder) : Prop where
  options : builder.options = asked
  holds : builder.store.HoldsTexts
  words : asked.words → ∃ index, builder.indexes.words = some index ∧
    index.fuzzy = asked.fuzzy ∧ index.Lists builder.store.texts

namespace Builder

variable {options : IndexOptions} {builder later : Builder}

/-- Nodes other than texts make no difference, nor does what a builder keeps besides. -/
theorem Indexed.same (h : builder.Indexed options) (hoptions : later.options = builder.options)
    (hwords : later.indexes.words = builder.indexes.words) (hholds : later.store.HoldsTexts)
    (htexts : later.store.texts = builder.store.texts) : later.Indexed options where
  options := hoptions.trans h.options
  holds := hholds
  words := by
    rw [hwords, htexts]
    exact h.words

theorem Indexed.addText (h : builder.Indexed options) {position : Nat} {text : Bytes}
    (hoptions : later.options = builder.options) (hindexes : later.indexes = builder.indexes)
    (hholds : later.store.HoldsTexts)
    (htexts : later.store.texts = builder.store.texts ++ [(position, text)]) :
    Indexed options { later with indexes := later.indexes.addText position text } where
  options := hoptions.trans h.options
  holds := hholds
  words := by
    intro hw
    obtain ⟨index, hindex, hf, hlists⟩ := h.words hw
    refine ⟨index.add position text, ?_, hf, ?_⟩
    · simp [Indexes.addText, hindexes, hindex]
    · show (index.add position text).Lists later.store.texts
      rw [htexts]
      exact hlists.add position text

theorem keeps_keep (value : Bytes) : Keeps (Indexed options) (keep value) := by
  intro builder h
  obtain ⟨hholds, htexts⟩ := h.holds.withValue value
  refine (keep_run builder value).mono ?_ fun _ _ _ => trivial
  rintro _ _ ⟨-, -, rfl⟩
  exact h.same rfl rfl hholds htexts

theorem keeps_commit {node : Node} (hc : node.content.kind ≠ .text) :
    Keeps (Indexed options) (commit node) := by
  intro builder h
  obtain ⟨hholds, htexts⟩ := h.holds.withNode node fun span hs => by
    simp [Content.kind, hs] at hc
  refine (commit_run builder node).mono ?_ fun _ _ _ => trivial
  rintro _ _ ⟨-, -, rfl⟩
  refine h.same rfl rfl hholds (htexts.trans ?_)
  cases hn : node.content <;> simp_all [Store.text?, Content.kind]

theorem keeps_reach (depth : Nat) : Keeps (Indexed options) (reach depth) :=
  .modify fun _ h => h.same rfl rfl h.holds rfl

theorem keeps_intern (name : Bytes) : Keeps (Indexed options) (intern name) :=
  fun _ h => .of_run rfl (h.same rfl rfl h.holds rfl)

theorem keeps_leaf {content : Span → Content} (hc : ∀ span, (content span).kind ≠ .text)
    (value : Bytes) : Keeps (Indexed options) (leaf content value) :=
  (keeps_parent _).bind fun _ => .read fun _ _ => (keeps_keep value).bind fun span =>
    (keeps_measure _ _ _).bind fun _ => (keeps_commit (hc span)).bind fun _ =>
      (keeps_reach _).bind fun _ => .pure _

theorem keeps_text (content : Bytes) (raw : Bool) : Keeps (Indexed options) (text content raw) := by
  unfold text
  split
  · exact .pure _
  refine .read fun state _ => ?_
  split
  · exact (keeps_parent _).bind fun _ => .pure _
  intro builder h
  refine .bind (.bind (keeps_parent (· = builder) builder rfl) ?_) fun position later hl => hl
  rintro parent builder rfl
  -- Until the text is in the index the store has one more, so these steps go together.
  refine .step rfl ((keep_run builder content).bind_mono (fun _ _ _ => trivial) ?_)
  rintro _ _ ⟨rfl, -, rfl⟩
  refine (measure_run _ _ _).bind_mono (fun _ _ _ => trivial) ?_
  rintro level _ ⟨-, rfl, -⟩
  refine (commit_run _ _).bind_mono (fun _ _ _ => trivial) ?_
  rintro _ _ ⟨rfl, -, rfl⟩
  obtain ⟨hholds, htexts⟩ := h.holds.withText content parent level
  exact .step rfl (.of_run rfl (h.addText rfl rfl hholds htexts))

theorem keeps_startDocument (name : Bytes) : Keeps (Indexed options) (startDocument name) := by
  refine .read fun state _ => ?_
  split
  · exact .throw_bind _
  · exact .bind (.modify fun _ h => h.same rfl rfl h.holds rfl) fun _ => (keeps_keep name).bind
      fun _ => (keeps_commit (by simp [Content.kind])).bind fun _ =>
        .modify fun _ h => h.same rfl rfl h.holds rfl

theorem keeps_endDocument : Keeps (Indexed options) endDocument := by
  refine (keeps_parent _).bind fun _ => ?_
  intro builder h
  refine .step rfl ?_
  dsimp only
  split
  · exact trivial
  · split
    · exact trivial
    · refine (keeps_measure (· = builder) _ _ builder rfl).bind ?_
      rintro size builder rfl
      obtain ⟨hholds, htexts⟩ := h.holds.close 0 size
      exact .of_run rfl (h.same rfl rfl hholds htexts)

theorem keeps_endElement (name : Bytes) : Keeps (Indexed options) (endElement name) := by
  refine (keeps_parent _).bind fun position => ?_
  intro builder h
  refine .step rfl ?_
  dsimp only
  split
  · exact trivial
  · split
    · exact trivial
    · refine (keeps_measure (· = builder) _ _ builder rfl).bind ?_
      rintro size builder rfl
      obtain ⟨hholds, htexts⟩ := h.holds.close position (size - position)
      exact .of_run rfl (h.same rfl rfl hholds htexts)

theorem keeps_bindPending (depth : Nat) : Keeps (Indexed options) (bindPending depth) :=
  .modify fun _ h => h.same rfl rfl h.holds rfl

theorem keeps_recordNamespaces (position depth : Nat) :
    Keeps (Indexed options) (recordNamespaces position depth) := by
  refine .modify fun builder h => ?_
  obtain ⟨namespaces, hn⟩ :=
    builder.store.foldl_declareNamespace position (builder.scope.declaredAt depth)
  rw [hn]
  exact h.same rfl rfl h.holds rfl

theorem keeps_addAttribute (element depth : Nat) (att : Attribute) :
    Keeps (Indexed options) (addAttribute element depth att) :=
  (keeps_resolve _ _ _).bind fun _ => (keeps_intern _).bind fun _ => (keeps_keep _).bind fun _ =>
    (keeps_commit (by simp [Content.kind])).bind fun _ =>
      .bind (.modify fun _ h => h.same rfl rfl h.holds rfl) fun _ => keeps_reach _

theorem keeps_startElement (name : Bytes) (attributes : List Attribute) :
    Keeps (Indexed options) (startElement name attributes) :=
  (keeps_parent _).bind fun _ => .read fun _ _ => (keeps_bindPending _).bind fun _ =>
    (keeps_resolve _ _ _).bind fun _ => (keeps_intern _).bind fun _ =>
      (keeps_measure _ _ _).bind fun _ => (keeps_measure _ _ _).bind fun _ =>
        (keeps_commit (by simp [Content.kind])).bind fun _ =>
          .bind (.modify fun _ h => h.same rfl rfl h.holds rfl) fun _ =>
            (keeps_recordNamespaces _ _).bind fun _ =>
              .bind (.forM fun _ => keeps_addAttribute _ _ _) fun _ =>
                .bind (.modify fun _ h => h.same rfl rfl h.holds rfl) fun _ => keeps_reach _

theorem keeps_other (kind : NodeKind) {content : Span → Content}
    (hc : ∀ span, (content span).kind ≠ .text) (value : Bytes) :
    Keeps (Indexed options) (other kind content value) :=
  (keeps_leaf hc value).bind fun _ => .modify fun _ h => h.same rfl rfl h.holds rfl

theorem keeps_declareNamespace (qualifier uri : Bytes) :
    Keeps (Indexed options) (declareNamespace qualifier uri) :=
  (keeps_parent _).bind fun _ => (keeps_intern _).bind fun _ => (keeps_intern _).bind fun _ =>
    .modify fun _ h => h.same rfl rfl h.holds rfl

theorem keeps_take (call : Call) : Keeps (Indexed options) (take call) := by
  cases call with
  | startDocument name => exact keeps_startDocument name
  | endDocument => exact keeps_endDocument
  | startElement name attributes => exact keeps_startElement name attributes
  | endElement name => exact keeps_endElement name
  | text content raw => exact keeps_text content raw
  | comment content => exact keeps_other _ (by simp [Content.kind]) _
  | instruction content => exact keeps_other _ (by simp [Content.kind]) _
  | declareNamespace qualifier uri => exact keeps_declareNamespace qualifier uri

theorem indexed_ofOptions (options : IndexOptions) (chop : Bool) (metadata : Metadata) :
    Indexed options { ofOptions options with chop, metadata } where
  options := by simp [ofOptions]
  holds := by simp [Store.HoldsTexts, ofOptions]
  words := by
    intro hw
    refine ⟨{ fuzzy := options.fuzzy }, ?_, ?_, ?_⟩
    · simp [ofOptions, Indexes.ofOptions, hw]
    · simp
    · have htexts : (ofOptions options).store.texts = [] := by
        simp [Store.texts, Store.textsBelow, Store.size, ofOptions]
      simp only [htexts]
      exact WordIndex.lists_empty _

/-- A builder that has taken any calls has an index of its texts. -/
theorem indexed_run {chop : Bool} {metadata : Metadata} {calls : List Call}
    (h : calls.forM take { ofOptions options with chop, metadata } = .ok () builder) :
    builder.Indexed options :=
  (Keeps.forM keeps_take _ (indexed_ofOptions options chop metadata)).run_ok h

end Builder

/-- A database that answers which places of its texts match a token. -/
structure Database.Answers (db : Database) (fuzzy : Bool) : Prop where
  index : ∃ index, db.wordIndex fuzzy = .ok index
  postings : ∀ token, ∃ found, db.postings token fuzzy = .ok found ∧
    WordIndex.Finds db.store.texts fuzzy token found

/-- A finished document answers if it was built with a word index, and tolerantly if that index has
the tolerant variant. -/
theorem Builder.Indexed.answers {options : IndexOptions} {builder : Builder}
    (h : builder.Indexed options) {db : Database} (hfinish : builder.finish = .ok db)
    (hwords : options.words) {fuzzy : Bool} (hfuzzy : fuzzy → options.fuzzy) :
    db.Answers fuzzy := by
  obtain ⟨index, hindex, hvariant, hlists⟩ := h.words hwords
  unfold finish at hfinish
  split at hfinish
  case isFalse => cases hfinish
  injection hfinish with hdb
  have hok : db.wordIndex fuzzy = .ok index := by
    subst hdb
    refine Database.wordIndex_ok rfl (by simp [h.options, hwords]) hindex fun hf => ?_
    simp [h.options, hwords, hvariant, hfuzzy hf]
  subst hdb
  refine ⟨⟨index, hok⟩, fun token => ?_⟩
  unfold Database.postings
  rw [hok]
  cases fuzzy with
  | false => exact ⟨_, rfl, hlists.finds_postings token⟩
  | true =>
    obtain ⟨found, hfound, hfinds⟩ :=
      hlists.finds_fuzzyPostings (hvariant.trans (hfuzzy rfl)) token
    refine ⟨found, ?_, hfinds⟩
    simp [bind, Except.bind, hfound, pure, Except.pure]

end XmlStore
