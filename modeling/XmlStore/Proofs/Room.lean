import XmlStore.Proofs.Outline
import XmlStore.Proofs.Storing
import XmlStore.Proofs.Triples
import XmlStore.Tree.Builder

/-!
# Room in the tables

Positions, offsets, depths and counts are stored in 32 bits. A call is refused for that only if
what it adds does not fit, and an element that is taken has fitted.
-/

namespace XmlStore

/-- A table or a count would become longer than is stored. -/
def Exceeds (fault : BuildFault) : Prop := ∃ counted, fault = .exceeded counted

/-- The bytes of values. -/
def lengths (values : List Bytes) : Nat := (values.map List.length).sum

@[simp] theorem lengths_nil : lengths [] = 0 := rfl

@[simp] theorem lengths_append (values more : List Bytes) :
    lengths (values ++ more) = lengths values + lengths more := by
  simp [lengths]

@[simp] theorem lengths_cons (value : Bytes) (values : List Bytes) :
    lengths (value :: values) = value.length + lengths values := rfl

/-- Nodes with these values are no more than can be stored. -/
structure Fit (values : List Bytes) : Prop where
  nodes : values.length ≤ maxEntry
  bytes : lengths values ≤ maxEntry

theorem Fit.of_prefix {values more : List Bytes} (h : Fit more) (hp : values <+: more) :
    Fit values := by
  obtain ⟨rest, rfl⟩ := hp
  have hbytes := h.bytes
  rw [lengths_append] at hbytes
  exact ⟨Nat.le_trans (List.length_append ▸ Nat.le_add_right ..) h.nodes, by omega⟩

/-- A value that fills an empty buffer to the last byte, and one byte more. -/
def longValue : Bytes := List.replicate (maxEntry + 1) 0x61

theorem lt_length_longValue : maxEntry < longValue.length :=
  Nat.lt_of_lt_of_eq (Nat.lt_succ_self _) List.length_replicate.symm

theorem Store.foldl_declareNamespace (store : Store) (position : Nat)
    (declared : List (Nat × Nat)) :
    ∃ namespaces, declared.foldl
      (fun store ns => store.declareNamespace position ns.1 ns.2) store =
        { store with namespaces } := by
  induction declared generalizing store with
  | nil => exact ⟨store.namespaces, rfl⟩
  | cons ns rest ih => exact ih (store.declareNamespace position ns.1 ns.2)

namespace Builder

variable {builder later : Builder} {values : List Bytes}

-- ---------------------------------------------------------------------------
-- What is checked
-- ---------------------------------------------------------------------------

theorem measure_run (builder : Builder) (n : Nat) (counted : Counted) :
    Triple (measure n counted) builder
      (fun m later => m = n ∧ later = builder ∧ n ≤ maxEntry)
      fun fault later => later = builder ∧ Exceeds fault ∧ maxEntry < n := by
  unfold measure Store.entry
  split
  next h => exact .of_run rfl ⟨rfl, rfl, h⟩
  next h => exact .throw ⟨rfl, ⟨counted, rfl⟩, Nat.lt_of_not_le h⟩

theorem onStore_run {α : Type} {change : Store → Except BuildFault (α × Store)}
    {post : α → Builder → Prop} {fault : BuildFault → Builder → Prop}
    (hp : ∀ a store, change builder.store = .ok (a, store) → post a { builder with store })
    (hf : ∀ e, change builder.store = .error e → fault e builder) :
    Triple (onStore change) builder post fault := by
  have hchange : Triple (MonadExcept.ofExcept (change builder.store)) builder
      (fun result later => change builder.store = .ok result ∧ later = builder) fault :=
    .ofExcept (fun _ h => ⟨h, rfl⟩) hf
  refine .step rfl (hchange.bind ?_)
  rintro ⟨a, store⟩ _ ⟨h, rfl⟩
  exact .of_run rfl (hp a store h)

theorem commit_run (builder : Builder) (node : Node) :
    Triple (commit node) builder
      (fun position later => position = builder.size ∧ builder.size ≤ maxEntry ∧
        later = { builder with store := builder.store.withNode node })
      fun fault later => later = builder ∧ Exceeds fault ∧ maxEntry < builder.size := by
  rcases builder.store.push_cases node with ⟨h, hpush⟩ | ⟨h, hpush⟩
  · refine onStore_run (fun position store hs => ?_) fun e he => ?_
    · cases hpush.symm.trans hs
      exact ⟨rfl, h, rfl⟩
    · cases hpush.symm.trans he
  · refine onStore_run (fun position store hs => ?_) fun e he => ?_
    · cases hpush.symm.trans hs
    · cases hpush.symm.trans he
      exact ⟨rfl, ⟨_, rfl⟩, h⟩

theorem keep_run (builder : Builder) (value : Bytes) :
    Triple (keep value) builder
      (fun span later => span = builder.store.nextSpan value ∧
        builder.store.values.size + value.length ≤ maxEntry ∧
        later = { builder with store := builder.store.withValue value })
      fun fault later => later = builder ∧ Exceeds fault ∧
        maxEntry < builder.store.values.size + value.length := by
  rcases builder.store.addValue_cases value with ⟨h, hadd⟩ | ⟨h, hadd⟩
  · refine onStore_run (fun span store hs => ?_) fun e he => ?_
    · cases hadd.symm.trans hs
      exact ⟨rfl, h, rfl⟩
    · cases hadd.symm.trans he
  · refine onStore_run (fun span store hs => ?_) fun e he => ?_
    · cases hadd.symm.trans hs
    · cases hadd.symm.trans he
      exact ⟨rfl, ⟨_, rfl⟩, h⟩

-- ---------------------------------------------------------------------------
-- What a call needs
-- ---------------------------------------------------------------------------

/-- The values of the nodes that a call adds; an element has none, and its attributes follow. -/
def added (builder : Builder) : Call → List Bytes
  | .startElement _ attributes => [] :: attributes.map (·.value)
  | .text content raw =>
    if dropsText builder.chop raw builder.stack.toList content then [] else [content]
  | .startDocument value | .comment value | .instruction value => [value]
  | .endDocument | .endElement _ | .declareNamespace _ _ => []

/-- The depth, the last position and the end of the values fit, if nodes with these values are
added. -/
structure Room (builder : Builder) (values : List Bytes) : Prop where
  depth : builder.stack.size ≤ maxEntry
  nodes : builder.size + (values.length - 1) ≤ maxEntry
  values : builder.store.values.size + lengths values ≤ maxEntry

theorem Room.length_le {value : Bytes} (h : builder.Room values) (hv : value ∈ values) :
    value.length ≤ maxEntry := by
  obtain ⟨before, after, rfl⟩ := List.append_of_mem hv
  have hvalues := h.values
  rw [lengths_append, lengths_cons] at hvalues
  omega

/-- The tables are no longer than is stored. -/
structure Sized (builder : Builder) : Prop where
  nodes : builder.size ≤ maxEntry + 1
  values : builder.store.values.size ≤ maxEntry

/-- A builder after nodes with these values have been added. -/
structure Adds (builder : Builder) (values : List Bytes) (later : Builder) : Prop where
  nodes : later.size = builder.size + values.length
  values : later.store.values.size = builder.store.values.size + lengths values
  sized : builder.Sized → later.Sized

/-- A node is added, after its value; both have fitted. -/
theorem Adds.one {value : Bytes} (hn : later.size = builder.size + 1)
    (hv : later.store.values.size = builder.store.values.size + value.length)
    (hnodes : builder.size ≤ maxEntry)
    (hvalues : builder.store.values.size + value.length ≤ maxEntry) : builder.Adds [value] later :=
  ⟨hn, hv, fun _ => ⟨hn ▸ Nat.succ_le_succ hnodes, hv ▸ hvalues⟩⟩

theorem Adds.element (node : Node) (hnodes : builder.size ≤ maxEntry) :
    builder.Adds [[]] { builder with store := builder.store.withNode node } :=
  have hn := builder.store.size_withNode node
  ⟨hn, rfl, fun hs => ⟨Nat.le_trans hn.le (Nat.succ_le_succ hnodes), hs.values⟩⟩

theorem Adds.cons {mid : Builder} {value : Bytes} (h : builder.Adds [value] mid)
    (h' : mid.Adds values later) : builder.Adds (value :: values) later where
  nodes := by
    have hmid : mid.size = builder.size + 1 := h.nodes
    rw [h'.nodes, hmid, List.length_cons]
    omega
  values := by
    rw [h'.values, h.values, lengths_cons, lengths_cons, lengths_nil]
    omega
  sized hs := h'.sized (h.sized hs)

/-- A builder whose tables are as long as before. -/
structure Still (builder later : Builder) : Prop where
  nodes : later.size = builder.size
  values : later.store.values.size = builder.store.values.size

theorem Still.trans {mid : Builder} (h : builder.Still mid) (h' : mid.Still later) :
    builder.Still later :=
  ⟨h'.nodes.trans h.nodes, h'.values.trans h.values⟩

theorem Still.nothing (h : builder.Still later) : builder.Adds [] later :=
  ⟨h.nodes, h.values, fun hs => ⟨h.nodes ▸ hs.nodes, h.values ▸ hs.values⟩⟩

theorem Still.adds {mid : Builder} (h : builder.Still mid) (h' : mid.Adds values later) :
    builder.Adds values later where
  nodes := h.nodes ▸ h'.nodes
  values := h.values ▸ h'.values
  sized hs := h'.sized ⟨h.nodes ▸ hs.nodes, h.values ▸ hs.values⟩

theorem Adds.still {mid : Builder} (h : builder.Adds values mid) (h' : mid.Still later) :
    builder.Adds values later where
  nodes := h'.nodes.trans h.nodes
  values := h'.values.trans h.values
  sized hs := ⟨h'.nodes ▸ (h.sized hs).nodes, h'.values ▸ (h.sized hs).values⟩

-- ---------------------------------------------------------------------------
-- Calls
-- ---------------------------------------------------------------------------

theorem bindPending_still (builder : Builder) (depth : Nat) :
    Triple (bindPending depth) builder (fun _ later => builder.Still later) fun _ _ => False :=
  .of_run rfl ⟨rfl, rfl⟩

theorem intern_still (builder : Builder) (name : Bytes) :
    Triple (intern name) builder (fun _ later => builder.Still later) fun _ _ => False :=
  .of_run rfl ⟨rfl, rfl⟩

theorem recordNamespaces_still (builder : Builder) (position depth : Nat) :
    Triple (recordNamespaces position depth) builder (fun _ later => builder.Still later)
      fun _ _ => False := by
  obtain ⟨namespaces, hn⟩ := Store.foldl_declareNamespace builder.store position
    (builder.scope.declaredAt depth)
  refine .of_run rfl ?_
  simp only [hn]
  exact ⟨rfl, rfl⟩

theorem parent_fits (builder : Builder) :
    Triple parent builder (fun _ later => later = builder) fun fault _ => ¬ Exceeds fault := by
  refine .step rfl ?_
  cases builder.started with
  | false => exact .throw (by rintro ⟨_, ⟨⟩⟩)
  | true =>
    cases builder.finished with
    | true => exact .throw (by rintro ⟨_, ⟨⟩⟩)
    | false =>
      cases builder.stack.back? with
      | none => exact .throw (by rintro ⟨_, ⟨⟩⟩)
      | some p => exact .pure rfl

theorem resolve_fits (builder : Builder) (name : Bytes) (isAttribute : Bool) :
    Triple (resolve name isAttribute) builder (fun _ later => later = builder)
      fun fault _ => ¬ Exceeds fault := by
  refine .step rfl ?_
  split
  · split
    · exact .pure rfl
    · exact .throw (by rintro ⟨_, ⟨⟩⟩)
  · exact .pure rfl

theorem leaf_adds (builder : Builder) (content : Span → Content) (value : Bytes) :
    Triple (leaf content value) builder (fun _ later => builder.Adds [value] later)
      fun fault _ => Exceeds fault → ¬ builder.Room [value] := by
  unfold leaf
  refine (parent_fits builder).bind_mono (fun _ _ hf he => absurd he hf) ?_
  rintro parent builder rfl
  refine .step rfl ((keep_run builder value).bind_mono ?_ ?_)
  · rintro _ _ ⟨-, -, hfull⟩ - hroom
    exact Nat.not_le_of_gt hfull hroom.values
  rintro span _ ⟨-, hvalues, rfl⟩
  refine (measure_run _ _ _).bind_mono ?_ ?_
  · rintro _ _ ⟨-, -, hfull⟩ - hroom
    exact Nat.not_le_of_gt hfull hroom.depth
  rintro level _ ⟨-, rfl, -⟩
  refine (commit_run _ _).bind_mono ?_ ?_
  · rintro _ _ ⟨-, -, hfull⟩ - hroom
    exact Nat.not_le_of_gt hfull hroom.nodes
  rintro position _ ⟨-, hnodes, rfl⟩
  exact .step rfl (.pure (.one (Store.size_withNode ..) (Store.size_values_withValue ..)
    hnodes hvalues))

theorem addAttribute_adds (builder : Builder) (element depth : Nat) (att : Attribute) :
    Triple (addAttribute element depth att) builder
      (fun _ later => builder.Adds [att.value] later)
      fun fault _ => Exceeds fault → maxEntry < builder.size ∨
        maxEntry < builder.store.values.size + att.value.length := by
  unfold addAttribute
  refine (resolve_fits builder att.name true).bind_mono (fun _ _ hf he => absurd he hf) ?_
  rintro uri builder rfl
  refine (intern_still builder att.name).bind_safe ?_
  rintro name builder1 h1
  refine (keep_run builder1 att.value).bind_mono ?_ ?_
  · rintro _ _ ⟨-, -, hfull⟩ -
    exact .inr (h1.values ▸ hfull)
  rintro span _ ⟨-, hvalues, rfl⟩
  refine (commit_run _ _).bind_mono ?_ ?_
  · rintro _ _ ⟨-, -, hfull⟩ -
    exact .inl (h1.nodes ▸ hfull)
  rintro position _ ⟨-, hnodes, rfl⟩
  exact .step rfl (.of_run rfl (h1.adds (.one (Store.size_withNode ..)
    (Store.size_values_withValue ..) hnodes hvalues)))

theorem addAttributes_adds (builder : Builder) (element depth : Nat)
    (attributes : List Attribute) :
    Triple (attributes.forM (addAttribute element depth)) builder
      (fun _ later => builder.Adds (attributes.map (·.value)) later)
      fun fault _ => Exceeds fault → maxEntry + 1 < builder.size + attributes.length ∨
        maxEntry < builder.store.values.size + lengths (attributes.map (·.value)) := by
  induction attributes generalizing builder with
  | nil => exact .of_run rfl (Still.nothing ⟨rfl, rfl⟩)
  | cons att rest ih =>
    simp only [List.map_cons, List.length_cons, lengths_cons]
    refine (addAttribute_adds builder element depth att).bind_mono ?_ ?_
    · intro _ _ hf he
      have := hf he
      omega
    · intro _ mid hmid
      refine (ih mid).mono (fun _ _ hlater => hmid.cons hlater) fun _ _ hf he => ?_
      have hfull := hf he
      have hnodes : mid.size = builder.size + 1 := hmid.nodes
      have hvalues : mid.store.values.size = builder.store.values.size + att.value.length :=
        hmid.values
      omega

/-- An element is refused as too large only where there is no room for it. -/
theorem startElement_adds [Segmenter] (builder : Builder) (name : Bytes)
    (attributes : List Attribute) :
    Triple (take (.startElement name attributes)) builder
      (fun _ later => builder.Adds ([] :: attributes.map (·.value)) later ∧
        builder.stack.size ≤ maxEntry)
      fun fault _ => Exceeds fault → ¬ builder.Room ([] :: attributes.map (·.value)) := by
  have hnodes (hroom : builder.Room ([] :: attributes.map (·.value))) :
      builder.size + attributes.length ≤ maxEntry := by
    simpa using hroom.nodes
  unfold take startElement
  refine (parent_fits builder).bind_mono (fun _ _ hf he => absurd he hf) ?_
  rintro parent builder rfl
  refine .step rfl ((bindPending_still builder _).bind_safe ?_)
  rintro _ builder1 h1
  refine (resolve_fits builder1 name false).bind_mono (fun _ _ hf he => absurd he hf) ?_
  rintro uri builder1 rfl
  refine (intern_still builder1 name).bind_safe ?_
  rintro id builder2 h2
  have h2 := h1.trans h2
  refine (measure_run builder2 _ _).bind_mono ?_ ?_
  · rintro _ _ ⟨-, -, hfull⟩ - hroom
    exact Nat.not_le_of_gt hfull hroom.depth
  rintro level builder2 ⟨-, rfl, hdepth⟩
  refine (measure_run builder2 _ _).bind_mono ?_ ?_
  · rintro _ _ ⟨-, -, hfull⟩ - hroom
    have := hnodes hroom
    omega
  rintro count builder2 ⟨-, rfl, -⟩
  refine (commit_run builder2 _).bind_mono ?_ ?_
  · rintro _ _ ⟨-, -, hfull⟩ - hroom
    have := hnodes hroom
    have := h2.nodes
    omega
  rintro position _ ⟨-, hpushed, rfl⟩
  refine .step rfl ((recordNamespaces_still _ _ _).bind_safe ?_)
  rintro _ builder4 h4
  have helement : builder.Adds [[]] builder4 :=
    (h2.adds (.element _ hpushed)).still ⟨h4.nodes, h4.values⟩
  refine (addAttributes_adds builder4 _ _ attributes).bind_mono ?_ ?_
  · intro _ _ hf he hroom
    have hfull := hf he
    have hn := hnodes hroom
    have hv := hroom.values
    have hsize : builder4.size = builder.size + 1 := helement.nodes
    have hvalues : builder4.store.values.size = builder.store.values.size := helement.values
    rw [lengths_cons, List.length_nil] at hv
    omega
  rintro _ builder5 h5
  exact .step rfl (.of_run rfl ⟨(helement.cons h5).still ⟨rfl, rfl⟩, hdepth⟩)

theorem startDocument_adds (builder : Builder) (name : Bytes) :
    Triple (startDocument name) builder (fun _ later => builder.Adds [name] later)
      fun fault _ => Exceeds fault → ¬ builder.Room [name] := by
  refine .step rfl ?_
  cases builder.started with
  | true => exact .throw (by rintro ⟨_, ⟨⟩⟩)
  | false =>
    refine .step rfl ((keep_run _ name).bind_mono ?_ ?_)
    · rintro _ _ ⟨-, -, hfull⟩ - hroom
      exact Nat.not_le_of_gt hfull hroom.values
    rintro span _ ⟨-, hvalues, rfl⟩
    refine (commit_run _ _).bind_mono ?_ ?_
    · rintro _ _ ⟨-, -, hfull⟩ - hroom
      exact Nat.not_le_of_gt hfull hroom.nodes
    rintro position _ ⟨-, hnodes, rfl⟩
    exact .of_run rfl (.one (Store.size_withNode ..) (Store.size_values_withValue ..)
      hnodes hvalues)

theorem startDocument_exceeds [Segmenter] {name : Bytes} (hs : builder.started = false)
    (hn : maxEntry < builder.store.values.size + name.length) :
    take (.startDocument name) builder =
      .error (.exceeded .values) { builder with started := true } := by
  have hadd : builder.store.addValue name = .error (.exceeded .values) := by
    rcases builder.store.addValue_cases name with ⟨h, -⟩ | ⟨-, hadd⟩
    · exact absurd hn (Nat.not_lt_of_le h)
    · exact hadd
  have hkeep : keep name { builder with started := true } =
      .error (.exceeded .values) { builder with started := true } := by
    unfold keep onStore
    rw [run_get_bind]
    simp only [hadd]
    rfl
  change startDocument name builder = _
  unfold startDocument
  rw [run_get_bind, hs]
  exact (run_bind rfl).trans (run_bind_error hkeep)

theorem size_close (store : Store) (position size : Nat) :
    (store.close position size).size = store.size := Array.size_modify

theorem endDocument_adds (builder : Builder) :
    Triple endDocument builder (fun _ later => builder.Adds [] later)
      fun fault _ => Exceeds fault → ¬ builder.Room [] := by
  refine (parent_fits builder).bind_mono (fun _ _ hf he => absurd he hf) ?_
  rintro position builder rfl
  refine .step rfl ?_
  dsimp only
  split
  · exact .throw (by rintro ⟨_, ⟨⟩⟩)
  · split
    · exact .throw (by rintro ⟨_, ⟨⟩⟩)
    · refine (measure_run builder _ _).bind_mono ?_ ?_
      · rintro _ _ ⟨-, -, hfull⟩ - hroom
        exact Nat.not_le_of_gt hfull hroom.nodes
      rintro size builder ⟨-, rfl, -⟩
      exact .of_run rfl (Still.nothing ⟨size_close .., rfl⟩)

theorem endElement_adds (builder : Builder) (name : Bytes) :
    Triple (endElement name) builder (fun _ later => builder.Adds [] later)
      fun fault _ => Exceeds fault → ¬ builder.Room [] := by
  refine (parent_fits builder).bind_mono (fun _ _ hf he => absurd he hf) ?_
  rintro position builder rfl
  refine .step rfl ?_
  dsimp only
  split
  · exact .throw (by rintro ⟨_, ⟨⟩⟩)
  · split
    · exact .throw (by rintro ⟨_, ⟨⟩⟩)
    · refine (measure_run builder _ _).bind_mono ?_ ?_
      · rintro _ _ ⟨-, -, hfull⟩ - hroom
        exact Nat.not_le_of_gt hfull hroom.nodes
      rintro size builder ⟨-, rfl, -⟩
      exact .of_run rfl (Still.nothing ⟨size_close .., rfl⟩)

theorem text_adds [Segmenter] (builder : Builder) (content : Bytes) (raw : Bool) :
    Triple (text content raw) builder
      (fun _ later => builder.Adds (builder.added (.text content raw)) later)
      fun fault _ => Exceeds fault → ¬ builder.Room (builder.added (.text content raw)) := by
  have hadded : builder.added (.text content raw) =
      if content.isEmpty || content.all isSpace &&
        (builder.chop && !raw || builder.stack.size == 1) then [] else [content] := rfl
  rw [hadded]
  unfold text
  cases content.isEmpty with
  | true => exact .pure (Still.nothing ⟨rfl, rfl⟩)
  | false =>
    refine .step rfl ?_
    cases content.all isSpace && (builder.chop && !raw || builder.stack.size == 1) with
    | true =>
      refine (parent_fits builder).bind_mono (fun _ _ hf he => absurd he hf) ?_
      rintro position builder rfl
      exact .pure (Still.nothing ⟨rfl, rfl⟩)
    | false =>
      exact (leaf_adds builder .text content).bind fun _ _ h => .of_run rfl (h.still ⟨rfl, rfl⟩)

theorem declareNamespace_adds (builder : Builder) (qualifier uri : Bytes) :
    Triple (declareNamespace qualifier uri) builder (fun _ later => builder.Adds [] later)
      fun fault _ => Exceeds fault → ¬ builder.Room [] := by
  refine (parent_fits builder).bind_mono (fun _ _ hf he => absurd he hf) ?_
  rintro position builder rfl
  refine (intern_still builder qualifier).bind_safe ?_
  rintro _ builder1 h1
  refine (intern_still builder1 uri).bind_safe ?_
  rintro _ builder2 h2
  exact .of_run rfl ((h1.trans h2).nothing.still ⟨rfl, rfl⟩)

/-- A call that is taken adds its nodes, and one is refused as too large only where there is no
room for them. -/
theorem take_adds [Segmenter] (builder : Builder) (call : Call) :
    Triple (take call) builder (fun _ later => builder.Adds (builder.added call) later)
      fun fault _ => Exceeds fault → ¬ builder.Room (builder.added call) := by
  cases call with
  | startDocument name => exact startDocument_adds builder name
  | endDocument => exact endDocument_adds builder
  | startElement name attributes =>
    exact (startElement_adds builder name attributes).mono (fun _ _ h => h.1) fun _ _ hf => hf
  | endElement name => exact endElement_adds builder name
  | text content raw => exact text_adds builder content raw
  | comment content =>
    exact (leaf_adds builder .comment content).bind fun _ _ h => .of_run rfl (h.still ⟨rfl, rfl⟩)
  | instruction content =>
    exact (leaf_adds builder .instruction content).bind fun _ _ h =>
      .of_run rfl (h.still ⟨rfl, rfl⟩)
  | declareNamespace qualifier uri => exact declareNamespace_adds builder qualifier uri

theorem room_of_adds {attributes : List Attribute} (hs : builder.Sized)
    (h : builder.Adds ([] :: attributes.map (·.value)) later ∧ builder.stack.size ≤ maxEntry) :
    builder.Room ([] :: attributes.map (·.value)) := by
  obtain ⟨hadds, hdepth⟩ := h
  have hnodes := (hadds.sized hs).nodes
  have hvalues := (hadds.sized hs).values
  rw [hadds.nodes, List.length_cons] at hnodes
  rw [hadds.values] at hvalues
  exact ⟨hdepth, by rw [List.length_cons]; omega, hvalues⟩

theorem sized_ofOptions (options : IndexOptions) (chop : Bool) (metadata : Metadata) :
    Sized { ofOptions options with chop, metadata } := by
  unfold ofOptions
  generalize Scope.initial .empty = initial
  exact ⟨Nat.zero_le _, Nat.zero_le _⟩

theorem sized_run [Segmenter] {calls : List Call} (h : builder.Sized)
    (hr : calls.forM take builder = .ok () later) : later.Sized := by
  have hkeeps : Keeps Sized (calls.forM take) :=
    .forM fun call builder hs => (take_adds builder call).mono (fun _ _ ha => ha.sized hs)
      fun _ _ _ => trivial
  exact (hkeeps builder h).run_ok hr

end Builder

end XmlStore
