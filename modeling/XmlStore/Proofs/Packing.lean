import Mathlib.Data.List.DropRight
import XmlStore.Proofs.Access
import XmlStore.Tree.Packed

/-!
# Attributes in one buffer

However attributes are added and the buffer is reset, packed attributes show as the list of those
added since the last reset. Names and values lie end to end and leave no byte of the buffer over,
so that none of them is out of range.
-/

namespace XmlStore

-- ---------------------------------------------------------------------------
-- Spans end to end
-- ---------------------------------------------------------------------------

namespace Span

/-- The spans lie end to end, the first from one place of a buffer and the last up to another. -/
def Tile : List Span → Nat → Nat → Prop
  | [], first, last => first = last
  | span :: rest, first, last => span.start = first ∧ Tile rest span.stop last

instance decidableTile : (spans : List Span) → (first last : Nat) →
    Decidable (Tile spans first last)
  | [], first, last => inferInstanceAs (Decidable (first = last))
  | span :: rest, first, last =>
    have := decidableTile rest span.stop last
    inferInstanceAs (Decidable (span.start = first ∧ Tile rest span.stop last))

variable {span : Span} {spans more : List Span} {first last : Nat} {buffer : Bytes}

@[simp] theorem tile_nil : Tile [] first last ↔ first = last := .rfl

@[simp] theorem tile_cons :
    Tile (span :: spans) first last ↔ span.start = first ∧ Tile spans span.stop last := .rfl

theorem tile_append : Tile (spans ++ more) first last ↔
    ∃ middle, Tile spans first middle ∧ Tile more middle last := by
  induction spans generalizing first with
  | nil => simp
  | cons span rest ih => simp [ih, and_assoc]

theorem start_le_stop (span : Span) : span.start ≤ span.stop := Nat.le_add_right _ _

theorem Tile.le (h : Tile spans first last) : first ≤ last := by
  induction spans generalizing first with
  | nil => exact h.le
  | cons span rest ih =>
    obtain ⟨rfl, hrest⟩ := h
    exact span.start_le_stop.trans (ih hrest)

theorem Tile.stop_le (h : Tile spans first last) (hm : span ∈ spans) : span.stop ≤ last := by
  obtain ⟨front, rest, rfl⟩ := List.append_of_mem hm
  obtain ⟨middle, -, -, hrest⟩ := tile_append.mp h
  exact hrest.le

/-- Spans up to the end of a buffer read all of it from where they begin, each byte once. -/
theorem Tile.flatMap_read (h : Tile spans first buffer.length) :
    spans.flatMap (·.read buffer) = buffer.drop first := by
  induction spans generalizing first with
  | nil => simp [tile_nil.mp h]
  | cons span rest ih =>
    obtain ⟨rfl, hrest⟩ := h
    rw [List.flatMap_cons, ih hrest, read, stop, ← List.drop_drop]
    exact List.take_append_drop _ _

theorem slice_eq (h : span.stop ≤ buffer.length) :
    slice buffer span.start span.stop = .ok (span.read buffer) := by
  have hin : span.start ≤ span.stop ∧ span.stop ≤ buffer.length := ⟨span.start_le_stop, h⟩
  rw [slice, if_pos hin, read, List.drop_take, stop, Nat.add_sub_cancel_left]

end Span

namespace PackedAttributes

variable {packed : PackedAttributes} {added : List Attribute}

-- ---------------------------------------------------------------------------
-- Reading within the buffer
-- ---------------------------------------------------------------------------

/-- The spans of all names and values, in the order in which they were added. -/
def spans (packed : PackedAttributes) : List Span :=
  packed.entries.flatMap fun entry => [entry.1, entry.2]

/-- The attribute at a pair of spans. It stops if one of them is not within the buffer. -/
def entryWithin (packed : PackedAttributes) (spans : Span × Span) : Checked Attribute := do
  let name ← slice packed.buffer spans.1.start spans.1.stop
  let value ← slice packed.buffer spans.2.start spans.2.stop
  return ⟨name, value⟩

def getWithin (packed : PackedAttributes) (i : Nat) : Checked (Option Attribute) :=
  match packed.entries[i]? with
  | some spans => some <$> packed.entryWithin spans
  | none => return none

def toListWithin (packed : PackedAttributes) : Checked (List Attribute) :=
  packed.entries.mapM packed.entryWithin

/-- An iterator over packed attributes. -/
structure Walk where
  packed : PackedAttributes
  /-- The entries that are still to come. -/
  ahead : List (Span × Span)

def walk (packed : PackedAttributes) : Walk := ⟨packed, packed.entries⟩

/-- The next attribute. A walk that is at its end stays there. -/
def Walk.next (walk : Walk) : Checked (Option Attribute × Walk) :=
  match walk.ahead with
  | [] => return (none, walk)
  | spans :: ahead => do
    let att ← walk.packed.entryWithin spans
    return (some att, { walk with ahead })

/-- The answers to so many calls for the next attribute. -/
def Walk.answers : (calls : Nat) → Walk → Checked (List (Option Attribute))
  | 0, _ => return []
  | calls + 1, walk => do
    let (answer, walk) ← walk.next
    let answers ← walk.answers calls
    return answer :: answers

-- ---------------------------------------------------------------------------
-- Updates
-- ---------------------------------------------------------------------------

inductive Update where
  | add (att : Attribute)
  | reset
  deriving DecidableEq, Repr

def Update.added? : Update → Option Attribute
  | .add att => some att
  | .reset => none

/-- The attributes that updates have added since the last reset. -/
def addedSinceReset (updates : List Update) : List Attribute :=
  (updates.rtakeWhile fun update => update.added?.isSome).filterMap Update.added?

def update (packed : PackedAttributes) : Update → PackedAttributes
  | .add att => packed.add att
  | .reset => packed.reset

def updateAll (packed : PackedAttributes) (updates : List Update) : PackedAttributes :=
  updates.foldl update packed

theorem updateAll_concat (packed : PackedAttributes) (updates : List Update) (last : Update) :
    packed.updateAll (updates ++ [last]) = (packed.updateAll updates).update last :=
  List.foldl_concat _ _ _ _

theorem updateAll_refill (packed : PackedAttributes) (updates : List Update)
    (attributes : List Attribute) :
    packed.updateAll (updates ++ .reset :: attributes.map .add) =
      (packed.updateAll updates).refill attributes := by
  rw [updateAll, List.foldl_append]
  exact List.foldl_map

@[simp] theorem addedSinceReset_nil : addedSinceReset [] = [] := rfl

@[simp] theorem addedSinceReset_add (updates : List Update) (att : Attribute) :
    addedSinceReset (updates ++ [.add att]) = addedSinceReset updates ++ [att] := by
  simp [addedSinceReset, Update.added?]

@[simp] theorem addedSinceReset_reset (updates : List Update) :
    addedSinceReset (updates ++ [.reset]) = [] := by
  simp [addedSinceReset, Update.added?]

theorem addedSinceReset_refill (updates : List Update) (attributes : List Attribute) :
    addedSinceReset (updates ++ .reset :: attributes.map .add) = attributes := by
  induction attributes using List.reverseRecOn with
  | nil => simp
  | append_singleton attributes att ih =>
    have hadd := addedSinceReset_add (updates ++ .reset :: attributes.map .add) att
    simpa [ih] using hadd

-- ---------------------------------------------------------------------------
-- Readings that stay in range
-- ---------------------------------------------------------------------------

theorem size_eq (packed : PackedAttributes) : packed.size = packed.toList.length := by
  simp [size, toList]

theorem isEmpty_eq (packed : PackedAttributes) : packed.isEmpty = packed.toList.isEmpty := by
  simp [isEmpty, toList]

theorem get?_eq (packed : PackedAttributes) (i : Nat) : packed.get? i = packed.toList[i]? := by
  simp [get?, toList]

/-- No span goes beyond the buffer. -/
def Within (packed : PackedAttributes) : Prop :=
  ∀ span ∈ packed.spans, span.stop ≤ packed.buffer.length

namespace Within

variable {spans : Span × Span}

theorem entry (h : packed.Within) (hm : spans ∈ packed.entries) :
    spans.1.stop ≤ packed.buffer.length ∧ spans.2.stop ≤ packed.buffer.length := by
  constructor
  · exact h _ (List.mem_flatMap_of_mem hm (by simp))
  · exact h _ (List.mem_flatMap_of_mem hm (by simp))

theorem entryWithin_eq (h : packed.Within) (hm : spans ∈ packed.entries) :
    packed.entryWithin spans = .ok (packed.entry spans) := by
  obtain ⟨hname, hvalue⟩ := h.entry hm
  simp only [entryWithin, Span.slice_eq hname, Span.slice_eq hvalue, Checked.ok_bind]
  rfl

theorem getWithin_eq (h : packed.Within) (i : Nat) :
    packed.getWithin i = .ok (packed.get? i) := by
  unfold getWithin get?
  cases hi : packed.entries[i]? with
  | none => rfl
  | some spans =>
    simp only [h.entryWithin_eq (List.mem_of_getElem? hi)]
    rfl

theorem mapM_entryWithin (h : packed.Within) {entries : List (Span × Span)}
    (hs : entries ⊆ packed.entries) :
    entries.mapM packed.entryWithin = .ok (entries.map packed.entry) := by
  induction entries with
  | nil => rfl
  | cons spans rest ih =>
    obtain ⟨hm, hrest⟩ := List.cons_subset.mp hs
    simp only [List.mapM_cons, h.entryWithin_eq hm, ih hrest, Checked.ok_bind]
    rfl

theorem toListWithin_eq (h : packed.Within) : packed.toListWithin = .ok packed.toList :=
  h.mapM_entryWithin (List.Subset.refl _)

theorem next_cons (h : packed.Within) (hm : spans ∈ packed.entries)
    (ahead : List (Span × Span)) :
    (⟨packed, spans :: ahead⟩ : Walk).next =
      .ok (some (packed.entry spans), ⟨packed, ahead⟩) := by
  simp only [Walk.next, h.entryWithin_eq hm, Checked.ok_bind]
  rfl

/-- A walk answers with the entries ahead of it, and then with nothing. -/
theorem answers_ahead (h : packed.Within) {ahead : List (Span × Span)}
    (hs : ahead ⊆ packed.entries) (calls : Nat) :
    (⟨packed, ahead⟩ : Walk).answers calls =
      .ok ((List.range calls).map fun i => ahead[i]?.map packed.entry) := by
  induction calls generalizing ahead with
  | zero => rfl
  | succ calls ih =>
    rw [List.range_succ_eq_map]
    cases ahead with
    | nil =>
      have hnext : (⟨packed, []⟩ : Walk).next = .ok (none, ⟨packed, []⟩) := rfl
      simp only [Walk.answers, hnext, ih hs, Checked.ok_bind]
      simp [pure, Except.pure, Function.comp_def]
    | cons spans rest =>
      obtain ⟨hm, hrest⟩ := List.cons_subset.mp hs
      simp only [Walk.answers, h.next_cons hm, ih hrest, Checked.ok_bind]
      simp [pure, Except.pure, Function.comp_def]

theorem answers_eq (h : packed.Within) (calls : Nat) :
    packed.walk.answers calls = .ok ((List.range calls).map packed.get?) :=
  h.answers_ahead (List.Subset.refl _) calls

end Within

-- ---------------------------------------------------------------------------
-- Updates one after the other
-- ---------------------------------------------------------------------------

/-- These attributes are packed end to end, and nothing else is in the buffer. -/
structure Packs (packed : PackedAttributes) (added : List Attribute) : Prop where
  tile : Span.Tile packed.spans 0 packed.buffer.length
  toList : packed.toList = added

theorem Packs.within (h : packed.Packs added) : packed.Within := fun _ => h.tile.stop_le

theorem packs_reset (packed : PackedAttributes) : packed.reset.Packs [] := ⟨rfl, rfl⟩

theorem Packs.add (h : packed.Packs added) (att : Attribute) :
    (packed.add att).Packs (added ++ [att]) where
  tile := by
    have hspans : (packed.add att).spans = packed.spans ++
        [.appended packed.buffer att.name, .appended (packed.buffer ++ att.name) att.value] := by
      simp [spans, PackedAttributes.add]
    rw [hspans, Span.tile_append]
    refine ⟨_, h.tile, ?_⟩
    simp [Span.appended, Span.stop, PackedAttributes.add, Nat.add_assoc]
  toList := by
    -- the buffer grows at its end, so what was packed before is read as before
    have hold : ∀ spans ∈ packed.entries, (packed.add att).entry spans = packed.entry spans := by
      intro spans hm
      obtain ⟨hname, hvalue⟩ := h.within.entry hm
      simp [entry, PackedAttributes.add, Span.read_append hname, Span.read_append hvalue]
    have hname : (Span.appended packed.buffer att.name).stop ≤
        (packed.buffer ++ att.name).length := by
      simp [Span.appended, Span.stop]
    have hnew : (packed.add att).entry (.appended packed.buffer att.name,
        .appended (packed.buffer ++ att.name) att.value) = att := by
      simp only [entry, PackedAttributes.add, Span.read_append hname, Span.read_appended]
    calc (packed.add att).toList
      _ = packed.entries.map (packed.add att).entry ++ [(packed.add att).entry _] :=
        List.map_append
      _ = packed.toList ++ [att] := by rw [List.map_congr_left hold, hnew, PackedAttributes.toList]
      _ = added ++ [att] := by rw [h.toList]

theorem packs_updateAll (updates : List Update) :
    (empty.updateAll updates).Packs (addedSinceReset updates) := by
  -- on the last update: it adds to what the others leave, or takes all of it away
  induction updates using List.reverseRecOn with
  | nil => exact packs_reset empty
  | append_singleton updates last ih =>
    rw [updateAll_concat]
    cases last with
    | add att =>
      rw [addedSinceReset_add]
      exact ih.add att
    | reset =>
      rw [addedSinceReset_reset]
      exact packs_reset (empty.updateAll updates)

theorem Packs.buffer_eq (h : packed.Packs added) :
    packed.buffer = added.flatMap fun att => att.name ++ att.value := by
  calc packed.buffer
    _ = packed.spans.flatMap (·.read packed.buffer) := h.tile.flatMap_read.symm
    _ = packed.toList.flatMap fun att => att.name ++ att.value := by
      simp [spans, PackedAttributes.toList, entry, List.flatMap_assoc, List.flatMap_map]
    _ = _ := by rw [h.toList]

theorem refill_eq (packed : PackedAttributes) (attributes : List Attribute) :
    packed.refill attributes = ofList attributes := rfl

theorem packs_ofList (attributes : List Attribute) : (ofList attributes).Packs attributes := by
  have h := packs_updateAll ([] ++ .reset :: attributes.map .add)
  rwa [addedSinceReset_refill, updateAll_refill, refill_eq] at h

theorem toList_ofList (attributes : List Attribute) : (ofList attributes).toList = attributes :=
  (packs_ofList attributes).toList

-- ---------------------------------------------------------------------------
-- What can be seen
-- ---------------------------------------------------------------------------

/-- What can be seen of packed attributes that are a list: each reading, those that check their
range among them, and the places in the buffer. -/
structure IsList (packed : PackedAttributes) (added : List Attribute) : Prop where
  toList : packed.toList = added
  get? : ∀ i, packed.get? i = added[i]?
  size : packed.size = added.length
  isEmpty : packed.isEmpty = added.isEmpty
  toListWithin : packed.toListWithin = .ok added
  getWithin : ∀ i, packed.getWithin i = .ok added[i]?
  answers : ∀ calls, packed.walk.answers calls = .ok ((List.range calls).map (added[·]?))
  within : ∀ span ∈ packed.spans, span.stop ≤ packed.buffer.length
  tile : Span.Tile packed.spans 0 packed.buffer.length
  buffer : packed.buffer = added.flatMap fun att => att.name ++ att.value

/-- However attributes are added and the buffer is reset, those added since the last reset are
there, in order and with duplicates. -/
theorem updateAll_isList (updates : List Update) :
    (empty.updateAll updates).IsList (addedSinceReset updates) := by
  have h := packs_updateAll updates
  have hget : ∀ i, (empty.updateAll updates).get? i = (addedSinceReset updates)[i]? :=
    fun i => by rw [get?_eq, h.toList]
  exact {
    toList := h.toList
    get? := hget
    size := by rw [size_eq, h.toList]
    isEmpty := by rw [isEmpty_eq, h.toList]
    toListWithin := by rw [h.within.toListWithin_eq, h.toList]
    getWithin := fun i => by rw [h.within.getWithin_eq, hget]
    answers := fun calls => by rw [h.within.answers_eq, funext hget]
    within := h.within
    tile := h.tile
    buffer := h.buffer_eq }

example :
    let packed := empty.updateAll [.add ⟨ascii "id", ascii "1"⟩, .reset, .add ⟨ascii "b", []⟩,
      .add ⟨[], ascii "v"⟩, .add ⟨ascii "b", []⟩]
    packed.toList = [⟨ascii "b", []⟩, ⟨[], ascii "v"⟩, ⟨ascii "b", []⟩] ∧
      packed.getWithin 3 = .ok none ∧ Span.Tile packed.spans 0 3 := by
  decide +kernel

end PackedAttributes

end XmlStore
