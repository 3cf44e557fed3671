import Mathlib.Data.Finset.Card
import XmlStore.Proofs.Finished
import XmlStore.Proofs.Phases

/-!
# What an index of values finds

The text nodes of a document are indexed by value, and so are its attributes. An index of values
has each of these nodes under its value, up to a length, and counts the others. So a look-up finds
what a scan of the node table finds.
-/

namespace XmlStore

namespace ValueIndex

variable {index : ValueIndex} {values : List (Nat × Bytes)} {value : Bytes} {p : Nat}

def positionsOf (index : ValueIndex) (value : Bytes) : List Nat :=
  (index.entries.lookup value).getD []

/-- An index of these values, each with the position of its node. -/
structure Lists (index : ValueIndex) (values : List (Nat × Bytes)) : Prop where
  keyed : index.entries.Keyed
  keys : ∀ value, value ∈ index.entries.map (·.1) ↔
    (∃ p, (p, value) ∈ values) ∧ value.length ≤ index.maxLength
  positions : ∀ value p, p ∈ index.positionsOf value ↔
    (p, value) ∈ values ∧ value.length ≤ index.maxLength
  skipped : index.skipped = values.countP fun entry => index.maxLength < entry.2.length

theorem lists_empty (maxLength : Nat) : Lists { maxLength } [] where
  keyed := List.nodup_nil
  keys := by simp
  positions := by simp [positionsOf]
  skipped := rfl

@[simp] theorem maxLength_add (index : ValueIndex) (value : Bytes) (p : Nat) :
    (index.add value p).maxLength = index.maxLength := by
  unfold add
  split <;> rfl

theorem Lists.add (h : index.Lists values) (value : Bytes) (p : Nat) :
    (index.add value p).Lists (values ++ [(p, value)]) := by
  unfold ValueIndex.add covers
  by_cases hc : value.length ≤ index.maxLength
  · rw [if_pos (decide_eq_true hc)]
    refine ⟨h.keyed.update, fun other => ?_, fun other q => ?_, ?_⟩
    · rw [Table.mem_keys_update, h.keys]
      simp only [List.mem_append, List.mem_singleton, Prod.mk.injEq, exists_or]
      by_cases ho : other = value
      · simp [ho, hc]
      · simp [ho]
    · unfold positionsOf
      rw [Table.lookup_update]
      have hold := h.positions other q
      unfold positionsOf at hold
      by_cases ho : other = value
      · subst ho
        simp only [if_pos, Option.getD_some, List.mem_cons, hold, List.mem_append,
          Prod.mk.injEq, and_true]
        tauto
      · simp [ho, hold]
    · rw [List.countP_append, ← h.skipped]
      simp [hc]
  · rw [if_neg (by simpa using hc)]
    refine ⟨h.keyed, fun other => ?_, fun other q => ?_, ?_⟩
    · rw [h.keys]
      simp only [List.mem_append, List.mem_singleton, Prod.mk.injEq, exists_or]
      by_cases ho : other = value
      · simp [ho, hc]
      · simp [ho]
    · refine (h.positions other q).trans ?_
      by_cases ho : other = value
      · simp [ho, hc]
      · simp [ho]
    · rw [List.countP_append, h.skipped]
      simp [Nat.lt_of_not_le hc]

theorem Lists.lookup (h : index.Lists values) (hc : value.length ≤ index.maxLength) :
    (index.lookup value).Pairwise (· < ·) ∧ ∀ p, p ∈ index.lookup value ↔ (p, value) ∈ values := by
  constructor
  · exact (orders_lt.pairwise_ascending _).imp of_decide_eq_true
  · intro p
    refine orders_lt.mem_ascending.trans ((h.positions value p).trans ?_)
    exact and_iff_left hc

theorem Lists.size (h : index.Lists values) :
    index.size =
      ((values.map (·.2)).filter (·.length ≤ index.maxLength)).toFinset.card := by
  have hkeys : index.size = (index.entries.map (·.1)).toFinset.card := by
    rw [List.toFinset_card_of_nodup h.keyed, List.length_map]
    rfl
  rw [hkeys]
  refine congrArg Finset.card (Finset.ext fun value => ?_)
  rw [List.mem_toFinset, h.keys]
  simp

end ValueIndex

-- ---------------------------------------------------------------------------
-- The values of a table
-- ---------------------------------------------------------------------------

namespace NodeTable

variable {table : NodeTable} {row : Row} {kind : NodeKind} {p : Nat}

/-- The position of a node and its value, if it is of this kind. -/
def valueOf (table : NodeTable) (kind : NodeKind) (p : Nat) : Option (Nat × Bytes) :=
  table[p]?.bind fun row => if row.item.kind = kind then some (p, row.item.value) else none

/-- The positions and values of the nodes of a kind, in order. -/
def valuesOf (table : NodeTable) (kind : NodeKind) : List (Nat × Bytes) :=
  (List.range table.length).filterMap (table.valueOf kind)

theorem valuesOf_push (table : NodeTable) (row : Row) (kind : NodeKind) :
    (table ++ [row]).valuesOf kind = table.valuesOf kind ++
      if row.item.kind = kind then [(table.length, row.item.value)] else [] := by
  have hold : (List.range table.length).filterMap ((table ++ [row]).valueOf kind) =
      table.valuesOf kind := by
    refine List.filterMap_congr fun p hp => ?_
    rw [valueOf, List.getElem?_append_left (List.mem_range.mp hp), valueOf]
  rw [valuesOf, List.length_append, List.length_singleton, List.range_succ,
    List.filterMap_append, hold]
  by_cases hk : row.item.kind = kind <;> simp [valueOf, hk]

theorem valuesOf_close (table : NodeTable) (p : Nat) (kind : NodeKind) :
    (table.close p).valuesOf kind = table.valuesOf kind := by
  unfold valuesOf
  rw [length_close]
  refine List.filterMap_congr fun q _ => ?_
  unfold valueOf
  rw [getElem?_close]
  cases table[q]? with
  | none => rfl
  | some row =>
    simp only [Option.map_some, Option.bind_some]
    split <;> rfl

end NodeTable

namespace Store

/-- The positions of the nodes of a kind, in order. -/
def positionsOf (store : Store) (kind : NodeKind) : List Nat :=
  (List.range store.size).filter fun p => store.kind? p == some kind

theorem valuesOf_table (store : Store) (kind : NodeKind) :
    store.table.valuesOf kind =
      (store.positionsOf kind).map fun p => (p, store.value p) := by
  rw [positionsOf, ← List.filterMap_eq_filter, List.map_filterMap, NodeTable.valuesOf,
    length_table]
  refine List.filterMap_congr fun p hp => ?_
  rw [List.mem_range, ← length_table] at hp
  obtain ⟨row, hrow⟩ : ∃ row, store.table[p]? = some row := ⟨_, List.getElem?_eq_getElem hp⟩
  rw [NodeTable.valueOf, hrow, Option.bind_some, Option.guard, kind?_eq hrow]
  by_cases hk : row.item.kind = kind
  · simp [hk, value_eq hrow]
  · simp [hk]

end Store

-- ---------------------------------------------------------------------------
-- Indexes of values follow the table
-- ---------------------------------------------------------------------------

/-- One of the indexes has the values of the nodes of a kind. -/
structure Indexes.Values (get : Indexes → Option ValueIndex) (kind : NodeKind) : Prop where
  document : kind ≠ .document
  note : ∀ (indexes : Indexes) (position : Nat) (item : Item),
    get (indexes.note position item) =
      if item.kind = kind then (get indexes).map (·.add item.value position) else get indexes
  leave : ∀ indexes : Indexes, get indexes.leaveElement = get indexes

theorem Indexes.texts_values : Values (·.texts) .text where
  document := by decide
  note := by rintro indexes position (_ | _ | _ | _ | _ | _) <;> rfl
  leave := fun _ => rfl

theorem Indexes.attributes_values : Values (·.attributes) .attr where
  document := by decide
  note := by rintro indexes position (_ | _ | _ | _ | _ | _) <;> rfl
  leave := fun _ => rfl

namespace Noted

variable {options : IndexOptions} {table : NodeTable} {path : List Nat} {indexes : Indexes}
  {height : Nat} {get : Indexes → Option ValueIndex} {kind : NodeKind}

/-- One more node is in an index of values if it is of the kind of that index. -/
theorem lists_push (hv : Indexes.Values get kind) {index : ValueIndex}
    (hindex : get indexes = some index) (hlists : index.Lists (table.valuesOf kind)) (row : Row) :
    ∃ later, get (indexes.note table.length row.item) = some later ∧
      later.maxLength = index.maxLength ∧ later.Lists ((table ++ [row]).valuesOf kind) := by
  rw [hv.note, hindex, NodeTable.valuesOf_push]
  by_cases hk : row.item.kind = kind
  · rw [if_pos hk, if_pos hk]
    exact ⟨_, rfl, index.maxLength_add _ _, hlists.add _ _⟩
  · rw [if_neg hk, if_neg hk, List.append_nil]
    exact ⟨index, rfl, rfl, hlists⟩

theorem lists (hv : Indexes.Values get kind) (h : Noted options table path indexes height)
    (hfirst : get (.ofOptions options) = some { maxLength := options.maxValueLength }) :
    ∃ index, get indexes = some index ∧ index.maxLength = options.maxValueLength ∧
      index.Lists (table.valuesOf kind) := by
  induction h with
  | document name =>
    refine ⟨_, hfirst, rfl, ?_⟩
    have hnone : NodeTable.valuesOf [{ parent := none, depth := 0, item := .document name }] kind =
        [] := by
      rw [← List.nil_append [_], NodeTable.valuesOf_push]
      exact if_neg (Ne.symm hv.document)
    rw [hnone]
    exact ValueIndex.lists_empty _
  | leaf _ _ _ _ _ ih | enter _ _ _ _ _ ih =>
    obtain ⟨index, hindex, hmax, hlists⟩ := ih
    obtain ⟨later, hlater, hsame, hlists'⟩ := lists_push hv hindex hlists _
    exact ⟨later, hlater, hsame.trans hmax, hlists'⟩
  | leave _ ih =>
    rw [hv.leave, NodeTable.valuesOf_close]
    exact ih
  | finish _ ih =>
    rw [NodeTable.valuesOf_close]
    exact ih

end Noted

-- ---------------------------------------------------------------------------
-- Finished documents
-- ---------------------------------------------------------------------------

/-- Look-ups in an index of the values of a kind find what a scan of the store finds. -/
structure Store.FoundBy (store : Store) (kind : NodeKind) (maxLength : Nat) (missing : IndexKind)
    (index : Option ValueIndex) (lookup : Bytes → Except QueryFault (List Nat)) : Prop where
  tooLong : ∀ value, maxLength < value.length → lookup value = .error (.missingIndex missing)
  found : ∀ value, value.length ≤ maxLength →
    lookup value = .ok ((store.positionsOf kind).filter fun p => store.value p == value)
  /-- As many values as are different and not too long, and the nodes whose value is too long. -/
  counts : ∃ kept, index = some kept ∧
    kept.size =
      (((store.positionsOf kind).map store.value).filter (·.length ≤ maxLength)).toFinset.card ∧
    kept.skipped =
      ((store.positionsOf kind).filter fun p => maxLength < (store.value p).length).length

theorem Database.valueLookup_found {db : Database} {kind : NodeKind} {recorded : Bool}
    {kept : Option ValueIndex} {maxLength : Nat} (missing : IndexKind)
    (hfresh : db.metadata.stale = false) (hrecorded : recorded = true)
    (hkept : ∃ index, kept = some index ∧ index.maxLength = maxLength ∧
      index.Lists (db.store.table.valuesOf kind)) :
    db.store.FoundBy kind maxLength missing kept (db.valueLookup missing recorded kept) := by
  obtain ⟨index, rfl, rfl, hlists⟩ := hkept
  have hanswer : ∀ value, db.valueLookup missing recorded (some index) value =
      if value.length ≤ index.maxLength then .ok (index.lookup value)
      else .error (.missingIndex missing) := by
    intro value
    unfold valueLookup index?
    rw [hfresh, hrecorded]
    by_cases hc : value.length ≤ index.maxLength
    · simp [ValueIndex.covers, hc, Option.filter, bind, Except.bind, pure, Except.pure]
    · simp [ValueIndex.covers, hc, Option.filter, bind, Except.bind]
  rw [Store.valuesOf_table] at hlists
  refine ⟨fun value hlong => ?_, fun value hc => ?_, index, rfl, ?_, ?_⟩
  · rw [hanswer, if_neg (Nat.not_le_of_lt hlong)]
  · obtain ⟨hsorted, hmem⟩ := hlists.lookup hc
    rw [hanswer, if_pos hc]
    refine congrArg Except.ok (hsorted.eq_of_mem_iff ?_ fun p => ?_)
    · exact (List.pairwise_lt_range.filter _).filter _
    · rw [hmem]
      simp
  · rw [hlists.size, List.map_map]
    rfl
  · rw [hlists.skipped, List.countP_map, List.countP_eq_length_filter]
    rfl

namespace Builder

variable {options : IndexOptions} {chop : Bool} {metadata : Metadata} {calls : List Call}
  {builder : Builder} {db : Database}

/-- In a document that is finished without a refused call, look-ups by value in the indexes that
are kept find exactly the nodes of the store. -/
theorem finish_finds_values
    (hr : calls.forM take { ofOptions options with chop, metadata } = .ok () builder)
    (hf : builder.finish = .ok db) :
    (options.texts = true → db.store.FoundBy .text options.maxValueLength .text db.indexes.texts
      db.textLookup) ∧
    (options.attributes = true → db.store.FoundBy .attr options.maxValueLength .attr
      db.indexes.attributes db.attributeLookup) := by
  obtain ⟨h, -⟩ := finish_published hr hf
  constructor
  · intro hkept
    refine Database.valueLookup_found .text h.fresh (h.texts.trans hkept)
      (h.noted.lists Indexes.texts_values ?_)
    simp [Indexes.ofOptions, hkept]
  · intro hkept
    refine Database.valueLookup_found .attr h.fresh (h.attributes.trans hkept)
      (h.noted.lists Indexes.attributes_values ?_)
    simp [Indexes.ofOptions, hkept]

/-- The text of one element, and its attribute. -/
theorem oneElement_finds_values :
    ∃ builder db,
      (.startDocument (ascii "d") :: (oneElement ++ [.endDocument])).forM take
        { ofOptions {} with chop := true, metadata := {} } = .ok () builder ∧
      builder.finish = .ok db ∧
      db.store.FoundBy .text 256 .text db.indexes.texts db.textLookup ∧
      db.store.FoundBy .attr 256 .attr db.indexes.attributes db.attributeLookup := by
  obtain ⟨builder, db, hr, hf, -⟩ :=
    (ofOptions_fresh {} true {}).finish_shows (ascii "d") oneElement_nested oneElement_fits
  obtain ⟨htexts, hattributes⟩ := finish_finds_values hr hf
  exact ⟨builder, db, hr, hf, htexts rfl, hattributes rfl⟩

end Builder

end XmlStore
