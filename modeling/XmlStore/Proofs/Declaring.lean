import XmlStore.Proofs.Room

/-!
# Declarations in order

The declarations of namespaces are recorded for one element after another. A table in such an order
is bisected to find where the declarations of a position begin, and they end where another position
comes. No call puts the table out of order, not even one that is refused on the way.
-/

namespace XmlStore

-- ---------------------------------------------------------------------------
-- Bisection
-- ---------------------------------------------------------------------------

section
variable {α : Type} {passes : α → Bool} {table : Array α} {low high p : Nat}

/-- Items pass up to one place, and none does from another one on. -/
structure Parts (passes : α → Bool) (table : Array α) (low high : Nat) : Prop where
  le : low ≤ high
  size : high ≤ table.size
  before : ∀ {i : Nat} {item : α}, table[i]? = some item → i < low → passes item = true
  after : ∀ {i : Nat} {item : α}, table[i]? = some item → high ≤ i → passes item = false

/-- What comes before an item that passes passes too. -/
def Falls (passes : α → Bool) (table : Array α) : Prop :=
  ∀ {i j : Nat} {item other : α}, table[i]? = some item → table[j]? = some other → i ≤ j →
    passes other = true → passes item = true

theorem Parts.partitionIn (h : Parts passes table low high) (hf : Falls passes table) :
    Parts passes table (partitionIn passes table low high)
      (partitionIn passes table low high) := by
  fun_induction XmlStore.partitionIn passes table low high with
  | case1 low high hlt mid hpasses ih =>
    have hsize := h.size
    obtain ⟨item, hmid, hitem⟩ := (Option.any_eq_true ..).mp hpasses
    refine ih ⟨by omega, hsize, fun hother hi => ?_, h.after⟩
    exact hf hother hmid (Nat.le_of_lt_succ hi) hitem
  | case2 low high hlt mid hpasses ih =>
    have hsize := h.size
    have hin : mid < table.size := by omega
    have hmid : table[mid]? = some table[mid] := Array.getElem?_eq_getElem hin
    refine ih ⟨by omega, by omega, h.before, fun hother hi => ?_⟩
    rw [hmid, Option.any_some] at hpasses
    exact Bool.eq_false_iff.mpr fun hother' => hpasses (hf hmid hother hi hother')
  | case3 low high hlt =>
    obtain rfl : low = high := by have := h.le; omega
    exact h

theorem parts_partitionPoint (hf : Falls passes table) :
    Parts passes table (partitionPoint passes table) (partitionPoint passes table) := by
  refine Parts.partitionIn ⟨Nat.zero_le _, Nat.le_refl _, fun _ hi => ?_, fun hitem hi => ?_⟩ hf
  · exact absurd hi (Nat.not_lt_zero _)
  · exact absurd (Array.getElem?_eq_some_iff.mp hitem).1 (Nat.not_lt_of_le hi)

theorem Parts.filter_take (h : Parts passes table p p) {keeps : α → Bool}
    (hk : ∀ item, passes item = true → keeps item = false) :
    table.toList.filter keeps = (table.toList.drop p).filter keeps := by
  have hnone : (table.toList.take p).filter keeps = [] := by
    refine List.filter_eq_nil_iff.mpr fun item hm => ?_
    obtain ⟨i, hi⟩ := List.mem_iff_getElem?.mp hm
    rw [List.getElem?_take] at hi
    split at hi
    next hlt =>
      rw [Array.getElem?_toList] at hi
      exact Bool.eq_false_iff.mp (hk item (h.before hi hlt))
    next => cases hi
  conv_lhs => rw [← List.take_append_drop p table.toList, List.filter_append, hnone]
  rfl

end

-- ---------------------------------------------------------------------------
-- The table of declarations
-- ---------------------------------------------------------------------------

namespace Store

/-- The declarations are recorded in the order of positions, for nodes that are there. -/
structure Ordered (store : Store) : Prop where
  ascends : store.namespaces.toList.Pairwise fun a b => a.position ≤ b.position
  below : ∀ ns ∈ store.namespaces.toList, ns.position < store.size

variable {store later : Store}

theorem takeWhile_position {declared : List NamespaceDeclaration} {p : Nat}
    (h : declared.Pairwise fun a b => a.position ≤ b.position)
    (hp : ∀ ns ∈ declared, p ≤ ns.position) :
    (declared.takeWhile fun ns => ns.position == p) =
      declared.filter fun ns => ns.position == p := by
  induction declared with
  | nil => rfl
  | cons ns rest ih =>
    obtain ⟨hfirst, hrest⟩ := List.pairwise_cons.mp h
    by_cases hns : ns.position = p
    · rw [List.takeWhile_cons_of_pos (by simp [hns]), List.filter_cons_of_pos (by simp [hns]),
        ih hrest fun other hm => hp other (List.mem_cons_of_mem ns hm)]
    · have hlt : p < ns.position := Nat.lt_of_le_of_ne (hp ns List.mem_cons_self) (Ne.symm hns)
      rw [List.takeWhile_cons_of_neg (by simp [hns]), eq_comm, List.filter_eq_nil_iff]
      intro other hm
      have hle : ns.position ≤ other.position := by
        rcases List.mem_cons.mp hm with rfl | hm
        · exact Nat.le_refl _
        · exact hfirst other hm
      simp only [beq_iff_eq]
      omega

/-- In a table in order the declarations of a position are found. -/
theorem Ordered.namespacesOf_eq (h : store.Ordered) (p : Nat) :
    store.namespacesOf p = (store.namespaces.toList.filter fun ns => ns.position == p).map
      fun ns => (store.names.get ns.qualifier, store.names.get ns.uri) := by
  have hfalls : Falls (fun ns => decide (ns.position < p)) store.namespaces := by
    intro i j ns other hi hj hij hother
    rw [← Array.getElem?_toList] at hi hj
    rcases Nat.eq_or_lt_of_le hij with rfl | hlt
    · cases hi.symm.trans hj
      exact hother
    · have hle := List.pairwise_iff_getElem.mp h.ascends
      obtain ⟨hi', rfl⟩ := List.getElem?_eq_some_iff.mp hi
      obtain ⟨hj', rfl⟩ := List.getElem?_eq_some_iff.mp hj
      have := hle i j hi' hj' hlt
      simp only [decide_eq_true_eq] at hother ⊢
      omega
  have hparts := parts_partitionPoint hfalls
  have hafter : ∀ ns ∈ store.namespaces.toList.drop
      (partitionPoint (fun ns => decide (ns.position < p)) store.namespaces), p ≤ ns.position := by
    intro ns hm
    obtain ⟨i, hi⟩ := List.mem_iff_getElem?.mp hm
    rw [List.getElem?_drop, Array.getElem?_toList] at hi
    have := hparts.after hi (Nat.le_add_right ..)
    simpa using this
  unfold namespacesOf
  dsimp only
  rw [takeWhile_position (h.ascends.sublist (List.drop_sublist ..)) hafter, ← hparts.filter_take]
  intro ns hns
  simp only [decide_eq_true_eq] at hns
  simp only [beq_eq_false_iff_ne]
  omega

theorem Ordered.grow (h : store.Ordered) (hn : later.namespaces = store.namespaces)
    (hs : store.size ≤ later.size) : later.Ordered where
  ascends := hn ▸ h.ascends
  below ns hm := Nat.lt_of_lt_of_le (h.below ns (hn ▸ hm)) hs

theorem Ordered.withNode (h : store.Ordered) (node : Node) : (store.withNode node).Ordered :=
  h.grow rfl (Nat.le.intro (size_withNode store node).symm)

theorem Ordered.declareAll (h : store.Ordered) {p : Nat} (hp : store.size = p + 1)
    (declared : List (Nat × Nat)) :
    (declared.foldl (fun store ns => store.declareNamespace p ns.1 ns.2) store).Ordered := by
  induction declared generalizing store with
  | nil => exact h
  | cons ns rest ih =>
    refine ih ⟨?_, ?_⟩ hp
    · simp only [declareNamespace, Array.toList_push, List.pairwise_append, List.pairwise_singleton,
        List.mem_singleton, forall_eq, true_and]
      refine ⟨h.ascends, fun other hm => ?_⟩
      have := h.below other hm
      omega
    · intro other hm
      simp only [declareNamespace, Array.toList_push, List.mem_append, List.mem_singleton] at hm
      rcases hm with hm | rfl
      · exact h.below other hm
      · show p < store.size
        omega

end Store

namespace Builder

variable {builder later : Builder}

/-- The declarations of a builder are in order. -/
def Recorded (builder : Builder) : Prop := builder.store.Ordered

theorem Recorded.still (h : builder.Recorded) (hs : later.store = builder.store) :
    later.Recorded := by
  rw [Recorded, hs]
  exact h

theorem recorded_parent : Maintains Recorded parent := by
  refine .read fun builder _ => ?_
  dsimp only
  split
  · exact .throw_bind _
  · split
    · exact .throw_bind _
    · split
      · exact .throw _
      · exact .pure _

theorem recorded_resolve (name : Bytes) (isAttribute : Bool) :
    Maintains Recorded (resolve name isAttribute) := by
  refine .read fun builder _ => ?_
  split
  · split
    · exact .pure _
    · exact .throw _
  · exact .pure _

theorem recorded_intern (name : Bytes) : Maintains Recorded (intern name) :=
  fun _ h => .of_run rfl (h.grow rfl (Nat.le_refl _))

theorem recorded_reach (depth : Nat) : Maintains Recorded (reach depth) :=
  .modify fun _ h => h.still rfl

theorem recorded_measure (n : Nat) (counted : Counted) : Maintains Recorded (measure n counted) :=
  fun builder h => (measure_run builder n counted).mono (fun _ _ hp => hp.2.1 ▸ h)
    fun _ _ hf => hf.1 ▸ h

theorem recorded_keep (value : Bytes) : Maintains Recorded (keep value) :=
  fun builder h => (keep_run builder value).mono
    (fun _ _ hp => hp.2.2 ▸ h.grow rfl (Nat.le_refl _)) fun _ _ hf => hf.1 ▸ h

theorem recorded_commit (node : Node) : Maintains Recorded (commit node) :=
  fun builder h => (commit_run builder node).mono
    (fun _ _ hp => hp.2.2 ▸ Store.Ordered.withNode h node) fun _ _ hf => hf.1 ▸ h

theorem recorded_leaf (content : Span → Content) (value : Bytes) :
    Maintains Recorded (leaf content value) :=
  recorded_parent.bind fun _ => .read fun _ _ => (recorded_keep value).bind fun _ =>
    (recorded_measure _ _).bind fun _ => (recorded_commit _).bind fun _ =>
      (recorded_reach _).bind fun _ => .pure _

theorem recorded_addAttribute (element depth : Nat) (att : Attribute) :
    Maintains Recorded (addAttribute element depth att) :=
  (recorded_resolve _ _).bind fun _ => (recorded_intern _).bind fun _ =>
    (recorded_keep _).bind fun _ => (recorded_commit _).bind fun _ =>
      .bind (.modify fun _ h => h.still rfl) fun _ => recorded_reach _

theorem recorded_addAttributes (element depth : Nat) (attributes : List Attribute) :
    Maintains Recorded (attributes.forM (addAttribute element depth)) :=
  .forM fun att => recorded_addAttribute element depth att

theorem recorded_startElement (name : Bytes) (attributes : List Attribute) :
    Maintains Recorded (startElement name attributes) := by
  refine recorded_parent.bind fun _ => .read fun _ _ => .bind (.modify fun _ h => h.still rfl)
    fun _ => (recorded_resolve _ _).bind fun _ => (recorded_intern _).bind fun _ =>
      (recorded_measure _ _).bind fun _ => (recorded_measure _ _).bind fun _ => ?_
  intro builder h
  -- The declarations are recorded for the position that the element has just been given.
  refine (commit_run builder _).bind_mono (fun _ _ hf => hf.1 ▸ h) ?_
  rintro position _ ⟨rfl, -, rfl⟩
  refine .step rfl (.step rfl (.bind (recorded_addAttributes _ _ attributes _ ?_) ?_))
  · exact (Store.Ordered.withNode h _).declareAll (Store.size_withNode ..) _
  · exact fun _ later hlater => .step rfl (recorded_reach _ _ (hlater.still rfl))

theorem recorded_close (h : builder.Recorded) (position size : Nat)
    (hs : later.store = builder.store.close position size) : later.Recorded := by
  rw [Recorded, hs]
  exact h.grow rfl (size_close ..).ge

theorem recorded_endDocument : Maintains Recorded endDocument := by
  refine recorded_parent.bind fun _ => .read fun builder h => ?_
  dsimp only
  split
  · exact .throw_bind _
  · split
    · exact .throw_bind _
    · exact (recorded_measure _ _).bind fun size _ _ => .of_run rfl (recorded_close h 0 size rfl)

theorem recorded_endElement (name : Bytes) : Maintains Recorded (endElement name) := by
  refine recorded_parent.bind fun position => .read fun builder h => ?_
  dsimp only
  split
  · exact .throw_bind _
  · split
    · exact .throw_bind _
    · exact (recorded_measure _ _).bind fun size _ _ =>
        .of_run rfl (recorded_close h position (size - position) rfl)

theorem recorded_startDocument (name : Bytes) : Maintains Recorded (startDocument name) := by
  refine .read fun builder _ => ?_
  split
  · exact .throw_bind _
  · exact .bind (.modify fun _ h => h.still rfl) fun _ => (recorded_keep name).bind fun _ =>
      (recorded_commit _).bind fun _ => .modify fun _ h => h.still rfl

theorem recorded_text (content : Bytes) (raw : Bool) : Maintains Recorded (text content raw) := by
  unfold text
  split
  · exact .pure _
  refine .read fun builder _ => ?_
  split
  · exact recorded_parent.bind fun _ => .pure _
  · exact (recorded_leaf _ _).bind fun _ => .modify fun _ h => h.still rfl

theorem recorded_other (kind : NodeKind) (content : Span → Content) (value : Bytes) :
    Maintains Recorded (other kind content value) :=
  (recorded_leaf content value).bind fun _ => .modify fun _ h => h.still rfl

theorem recorded_declareNamespace (qualifier uri : Bytes) :
    Maintains Recorded (declareNamespace qualifier uri) :=
  recorded_parent.bind fun _ => (recorded_intern _).bind fun _ => (recorded_intern _).bind fun _ =>
    .modify fun _ h => h.still rfl

theorem recorded_take (call : Call) : Maintains Recorded (take call) := by
  cases call with
  | startDocument name => exact recorded_startDocument name
  | endDocument => exact recorded_endDocument
  | startElement name attributes => exact recorded_startElement name attributes
  | endElement name => exact recorded_endElement name
  | text content raw => exact recorded_text content raw
  | comment content => exact recorded_other .comment .comment content
  | instruction content => exact recorded_other .instruction .instruction content
  | declareNamespace qualifier uri => exact recorded_declareNamespace qualifier uri

theorem recorded_ofOptions (options : IndexOptions) (chop : Bool) (metadata : Metadata) :
    Recorded { ofOptions options with chop, metadata } :=
  ⟨by simp [ofOptions], by simp [ofOptions]⟩

theorem Recorded.run (h : builder.Recorded) {calls : List Call}
    (hr : calls.forM take builder = .ok () later) : later.Recorded :=
  (Maintains.forM recorded_take _ h).run_ok hr

end Builder

end XmlStore
