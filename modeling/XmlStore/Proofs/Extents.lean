import Mathlib.Data.Set.Card
import Mathlib.Order.Interval.Finset.Nat
import XmlStore.Octets

/-!
# Tables in document order

A table lists the nodes of a tree in document order, each with its parent, its depth and its size.
While the tree grows, the nodes on the path to the place where it grows are open: they reach to the
end of the table, whatever their size says. `Layout` is what holds of such a table at any time. When
no node is open, sizes are the extents of subtrees, and the jumps over them find all children.
-/

namespace XmlStore

/-- What a node is, with its name and its value. -/
inductive Item where
  | document (name : Bytes)
  | element (name : Bytes) (attributes : Nat)
  | attr (name value : Bytes)
  | text (value : Bytes)
  | comment (value : Bytes)
  | instruction (value : Bytes)
  deriving DecidableEq, Repr

def Item.isAttr : Item → Bool
  | .attr .. => true
  | _ => false

def Item.attributeCount : Item → Nat
  | .element _ attributes => attributes
  | _ => 0

structure Row where
  parent : Option Nat
  depth : Nat
  size : Nat := 1
  /-- The namespace URI; empty if there is none. -/
  uri : Bytes := []
  item : Item
  deriving DecidableEq, Repr

abbrev NodeTable := List Row

namespace NodeTable

/-- Where a node ends; an open one has not ended. -/
def extent (table : NodeTable) (path : List Nat) (p : Nat) : Nat :=
  if p ∈ path then table.length
  else
    match table[p]? with
    | some row => p + row.size
    | none => p + 1

/-- The open nodes, innermost first, each below the next and at the depth that its place tells. -/
inductive Path (table : NodeTable) : List Nat → Prop
  | nil : Path table []
  | cons {p : Nat} {rest : List Nat} {row : Row} (hrow : table[p]? = some row)
    (hparent : row.parent = rest.head?) (hdepth : row.depth = rest.length)
    (habove : ∀ q ∈ rest, q < p) (h : Path table rest) : Path table (p :: rest)

structure Layout (table : NodeTable) (path : List Nat) : Prop where
  chain : Path table path
  bounds : ∀ {p : Nat} {row : Row}, table[p]? = some row →
    p < table.extent path p ∧ table.extent path p ≤ table.length
  root : ∀ {p : Nat} {row : Row}, table[p]? = some row → row.parent = none →
    p = 0 ∧ row.depth = 0
  parent : ∀ {p q : Nat} {row : Row}, table[q]? = some row → row.parent = some p →
    p < q ∧ table.extent path q ≤ table.extent path p ∧
      ∃ above, table[p]? = some above ∧ row.depth = above.depth + 1
  within : ∀ {p q : Nat} {row : Row}, table[q]? = some row → p < q →
    q < table.extent path p → ∃ r, row.parent = some r ∧ p ≤ r

variable {table : NodeTable} {path : List Nat} {p q : Nat} {row row' : Row}

theorem extent_open (h : p ∈ path) : table.extent path p = table.length := if_pos h

theorem extent_closed (h : p ∉ path) (hrow : table[p]? = some row) :
    table.extent path p = p + row.size := by
  rw [extent, if_neg h, hrow]

-- ---------------------------------------------------------------------------
-- Paths
-- ---------------------------------------------------------------------------

theorem Path.lt (h : Path table path) (hp : p ∈ path) : p < table.length := by
  induction h with
  | nil => cases hp
  | cons hrow _ _ _ _ ih =>
    rcases List.mem_cons.mp hp with rfl | hp
    · exact (List.getElem?_eq_some_iff.mp hrow).1
    · exact ih hp

/-- No more nodes are open than stand up to the innermost one. -/
theorem Path.length_le (h : Path table path) {n : Nat} (hn : ∀ p ∈ path, p < n) :
    path.length ≤ n := by
  induction h generalizing n with
  | nil => exact Nat.zero_le n
  | @cons p rest row _ _ _ habove _ ih =>
    exact Nat.lt_of_le_of_lt (ih habove) (hn p List.mem_cons_self)

theorem Path.append (h : Path table path) (more : List Row) : Path (table ++ more) path := by
  induction h with
  | nil => exact .nil
  | cons hrow hparent hdepth habove _ ih =>
    refine .cons ?_ hparent hdepth habove ih
    exact (List.getElem?_append_left (List.getElem?_eq_some_iff.mp hrow).1).trans hrow

theorem Path.parent_mem (h : Path table path) (hq : q ∈ path) (hrow : table[q]? = some row)
    (hp : row.parent = some p) : p ∈ path := by
  induction h with
  | nil => cases hq
  | cons hrow' hparent _ _ _ ih =>
    rcases List.mem_cons.mp hq with rfl | hq
    · obtain rfl := Option.some.inj (hrow.symm.trans hrow')
      exact List.mem_cons_of_mem _ (List.mem_of_head? (hparent.symm.trans hp))
    · exact List.mem_cons_of_mem _ (ih hq)

-- ---------------------------------------------------------------------------
-- Growing
-- ---------------------------------------------------------------------------

section
variable {rest : List Nat} {path : List Nat}

theorem getElem?_push_cases (h : (table ++ [row])[q]? = some row') :
    q < table.length ∧ table[q]? = some row' ∨ q = table.length ∧ row = row' := by
  have hlt := (List.getElem?_eq_some_iff.mp h).1
  rw [List.length_append, List.length_singleton] at hlt
  rcases Nat.lt_succ_iff_lt_or_eq.mp hlt with hq | rfl
  · rw [List.getElem?_append_left hq] at h
    exact .inl ⟨hq, h⟩
  · rw [List.getElem?_concat_length] at h
    exact .inr ⟨rfl, Option.some.inj h⟩

theorem extent_push (hpath : path = p :: rest ∨ path = table.length :: p :: rest)
    (hq : q < table.length) :
    (table ++ [row]).extent path q =
      if q ∈ p :: rest then table.length + 1 else table.extent (p :: rest) q := by
  have hmem : q ∈ path ↔ q ∈ p :: rest := by
    rcases hpath with rfl | rfl
    · rfl
    · rw [List.mem_cons]
      exact or_iff_right (Nat.ne_of_lt hq)
  unfold extent
  simp only [hmem, List.getElem?_append_left hq, List.length_append, List.length_singleton]
  split
  · rfl
  · rfl

theorem extent_pushed (hsize : row.size = 1) :
    (table ++ [row]).extent path table.length = table.length + 1 := by
  unfold extent
  rw [List.getElem?_concat_length, List.length_append, List.length_singleton]
  split
  · rfl
  · exact congrArg _ hsize

/-- A new node below the innermost open one, which may be left open itself. -/
theorem Layout.push (h : Layout table (p :: rest)) (hparent : row.parent = some p)
    (hdepth : row.depth = rest.length + 1) (hsize : row.size = 1)
    (hpath : path = p :: rest ∨ path = table.length :: p :: rest) :
    Layout (table ++ [row]) path := by
  have hopen : ∀ q ∈ p :: rest, q < table.length := fun q hq => h.chain.lt hq
  obtain ⟨above, habove, hlast, hdepths⟩ : ∃ above, table[p]? = some above ∧
      (∀ q ∈ rest, q < p) ∧ above.depth = rest.length := by
    cases h.chain with
    | cons hrow _ hdepth habove _ => exact ⟨_, hrow, habove, hdepth⟩
  refine ⟨?_, ?_, ?_, ?_, ?_⟩
  · rcases hpath with rfl | rfl
    · exact h.chain.append _
    · exact .cons List.getElem?_concat_length hparent hdepth hopen (h.chain.append _)
  · intro q row' hrow
    rw [List.length_append, List.length_singleton]
    rcases getElem?_push_cases hrow with ⟨hq, hrow⟩ | ⟨rfl, -⟩
    · rw [extent_push hpath hq]
      obtain ⟨hlt, hle⟩ := h.bounds hrow
      split <;> omega
    · rw [extent_pushed hsize]
      omega
  · intro q row' hrow hroot
    rcases getElem?_push_cases hrow with ⟨-, hrow⟩ | ⟨-, rfl⟩
    · exact h.root hrow hroot
    · cases hparent.symm.trans hroot
  · intro r q row' hrow hr
    rcases getElem?_push_cases hrow with ⟨hq, hrow⟩ | ⟨rfl, rfl⟩
    · obtain ⟨hlt, hle, parent, hparent, hdepth⟩ := h.parent hrow hr
      refine ⟨hlt, ?_, parent, ?_, hdepth⟩
      · rw [extent_push hpath hq, extent_push hpath (Nat.lt_trans hlt hq)]
        obtain ⟨-, hbound⟩ := h.bounds hparent
        by_cases hqo : q ∈ p :: rest
        · rw [if_pos hqo, if_pos (h.chain.parent_mem hqo hrow hr)]
        · rw [if_neg hqo]
          split <;> omega
      · exact (List.getElem?_append_left (Nat.lt_trans hlt hq)).trans hparent
    · obtain rfl := Option.some.inj (hparent.symm.trans hr)
      have hp := hopen p List.mem_cons_self
      refine ⟨hp, ?_, above, (List.getElem?_append_left hp).trans habove, by omega⟩
      rw [extent_pushed hsize, extent_push hpath hp, if_pos List.mem_cons_self]
  · intro r q row' hrow hrq hq'
    rcases getElem?_push_cases hrow with ⟨hq, hrow⟩ | ⟨rfl, rfl⟩
    · refine h.within hrow hrq ?_
      rw [extent_push hpath (Nat.lt_trans hrq hq)] at hq'
      split at hq'
      next hr => exact hq.trans_eq (extent_open hr).symm
      next => exact hq'
    · rw [extent_push hpath hrq] at hq'
      refine ⟨p, hparent, ?_⟩
      split at hq'
      next hr =>
        rcases List.mem_cons.mp hr with rfl | hr
        · exact Nat.le_refl _
        · exact Nat.le_of_lt (hlast r hr)
      next hr =>
        have := (h.bounds (List.getElem?_eq_getElem hrq)).2
        omega

end

/-- The first open node with its size. -/
def close (table : NodeTable) (p : Nat) : NodeTable :=
  table.modify p fun row => { row with size := table.length - p }

@[simp] theorem length_close (table : NodeTable) (p : Nat) :
    (table.close p).length = table.length :=
  List.length_modify _ _ _

theorem getElem?_close (table : NodeTable) (p q : Nat) :
    (table.close p)[q]? =
      table[q]?.map fun row => if p = q then { row with size := table.length - p } else row := by
  rw [close, List.getElem?_modify]
  cases table[q]? with
  | none => rfl
  | some row =>
    by_cases h : p = q
    · simp [h]
    · simp [h]

/-- Closing a node changes its size only. -/
theorem of_getElem?_close (h : (table.close p)[q]? = some row') :
    ∃ row, table[q]? = some row ∧ row'.parent = row.parent ∧ row'.depth = row.depth ∧
      row'.item = row.item := by
  rw [getElem?_close, Option.map_eq_some_iff] at h
  obtain ⟨row, hrow, rfl⟩ := h
  refine ⟨row, hrow, ?_⟩
  split <;> exact ⟨rfl, rfl, rfl⟩

theorem exists_getElem?_close (h : table[q]? = some row) :
    ∃ row', (table.close p)[q]? = some row' ∧ row'.parent = row.parent ∧
      row'.depth = row.depth ∧ row'.item = row.item := by
  rw [getElem?_close, h]
  refine ⟨_, rfl, ?_⟩
  split <;> exact ⟨rfl, rfl, rfl⟩

theorem Path.close (h : Path table path) (p : Nat) : Path (table.close p) path := by
  induction h with
  | nil => exact .nil
  | cons hrow hparent hdepth habove _ ih =>
    obtain ⟨row', hrow', hparent', hdepth', -⟩ := exists_getElem?_close (p := p) hrow
    exact .cons hrow' (hparent'.trans hparent) (hdepth'.trans hdepth) habove ih

theorem extent_close {rest : List Nat} (hq : q < table.length) :
    (table.close p).extent rest q = table.extent (p :: rest) q := by
  have hrow : table[q]? = some table[q] := List.getElem?_eq_getElem hq
  by_cases hrest : q ∈ rest
  · rw [extent_open hrest, extent_open (List.mem_cons_of_mem p hrest), length_close]
  · rw [extent_closed hrest ((getElem?_close table p q).trans (congrArg _ hrow))]
    by_cases hpq : p = q
    · subst hpq
      simp only [extent_open List.mem_cons_self, ↓reduceIte]
      exact Nat.add_sub_cancel' (Nat.le_of_lt hq)
    · have hmem : q ∉ p :: rest := by simp [Ne.symm hpq, hrest]
      simp only [extent_closed hmem hrow, hpq, ↓reduceIte]

theorem Layout.close {rest : List Nat} (h : Layout table (p :: rest)) :
    Layout (table.close p) rest := by
  have hlt : ∀ {q row'}, (table.close p)[q]? = some row' → q < table.length := fun hq =>
    length_close table p ▸ (List.getElem?_eq_some_iff.mp hq).1
  refine ⟨?_, ?_, ?_, ?_, ?_⟩
  · cases h.chain with
    | cons _ _ _ _ hrest => exact hrest.close p
  · intro q row' hrow
    rw [extent_close (hlt hrow), length_close]
    obtain ⟨row, hrow, -⟩ := of_getElem?_close hrow
    exact h.bounds hrow
  · intro q row' hrow hroot
    obtain ⟨row, hrow, hparent, hdepth, -⟩ := of_getElem?_close hrow
    rw [hdepth]
    exact h.root hrow (hparent.symm.trans hroot)
  · intro r q row' hrow hr
    have hq := hlt hrow
    obtain ⟨row, hrow, hparent, hdepth, -⟩ := of_getElem?_close hrow
    obtain ⟨hrq, hle, above, habove, hdepth'⟩ := h.parent hrow (hparent.symm.trans hr)
    obtain ⟨above', habove', -, hd, -⟩ := exists_getElem?_close (p := p) habove
    rw [extent_close hq, extent_close (Nat.lt_trans hrq hq), hdepth, hdepth', ← hd]
    exact ⟨hrq, hle, above', habove', rfl⟩
  · intro r q row' hrow hrq hq'
    have hq := hlt hrow
    rw [extent_close (Nat.lt_trans hrq hq)] at hq'
    obtain ⟨row, hrow, hparent, -⟩ := of_getElem?_close hrow
    rw [hparent]
    exact h.within hrow hrq hq'

-- ---------------------------------------------------------------------------
-- Subtrees
-- ---------------------------------------------------------------------------

def parent? (table : NodeTable) (q : Nat) : Option Nat := table[q]?.bind (·.parent)

/-- The nodes below a node, its attributes and those of other nodes below it included. -/
inductive Below (table : NodeTable) (p : Nat) : Nat → Prop
  | child {q : Nat} (h : table.parent? q = some p) : Below table p q
  | deeper {q r : Nat} (h : table.parent? q = some r) (hr : Below table p r) : Below table p q

theorem of_parent? (h : table.parent? q = some p) :
    ∃ row, table[q]? = some row ∧ row.parent = some p := Option.bind_eq_some_iff.mp h

theorem Layout.below_extent (h : Layout table path) (hb : Below table p q) :
    p < q ∧ q < table.extent path q ∧ table.extent path q ≤ table.extent path p := by
  induction hb with
  | child hp =>
    obtain ⟨row, hrow, hp⟩ := of_parent? hp
    obtain ⟨hlt, hle, -⟩ := h.parent hrow hp
    exact ⟨hlt, (h.bounds hrow).1, hle⟩
  | deeper hp _ ih =>
    obtain ⟨row, hrow, hp⟩ := of_parent? hp
    obtain ⟨hlt, hle, -⟩ := h.parent hrow hp
    exact ⟨Nat.lt_trans ih.1 hlt, (h.bounds hrow).1, Nat.le_trans hle ih.2.2⟩

theorem Layout.below_iff (h : Layout table path) (hp : p < table.length) :
    Below table p q ↔ p < q ∧ q < table.extent path p := by
  constructor
  · intro hb
    obtain ⟨hlt, hq, hle⟩ := h.below_extent hb
    exact ⟨hlt, Nat.lt_of_lt_of_le hq hle⟩
  · rintro ⟨hlt, hq⟩
    induction q using Nat.strongRecOn with
    | ind q ih =>
      have hlen : q < table.length :=
        Nat.lt_of_lt_of_le hq (h.bounds (List.getElem?_eq_getElem hp)).2
      have hrow := List.getElem?_eq_getElem hlen
      obtain ⟨r, hr, hpr⟩ := h.within hrow hlt hq
      have hr' : table.parent? q = some r := Option.bind_eq_some_iff.mpr ⟨_, hrow, hr⟩
      rcases Nat.eq_or_lt_of_le hpr with rfl | hpr
      · exact .child hr'
      · have hrq := (h.parent hrow hr).1
        exact .deeper hr' (ih r hrq hpr (Nat.lt_trans hrq hq))

theorem Layout.size_eq (h : Layout table []) (hrow : table[p]? = some row) :
    row.size = 1 + {q | Below table p q}.ncard := by
  have hp := (List.getElem?_eq_some_iff.mp hrow).1
  have hset : {q | Below table p q} = ↑(Finset.Ioo p (p + row.size)) := by
    ext q
    rw [Finset.mem_coe, Finset.mem_Ioo, ← extent_closed List.not_mem_nil hrow]
    exact h.below_iff hp
  have hpos := (h.bounds hrow).1
  rw [extent_closed List.not_mem_nil hrow] at hpos
  rw [hset, Set.ncard_coe_finset, Nat.card_Ioo]
  omega

-- ---------------------------------------------------------------------------
-- Attributes
-- ---------------------------------------------------------------------------

/-- The attributes of an element, and nothing else, stand right after it. -/
structure Attributed (table : NodeTable) (path : List Nat) : Prop where
  own : ∀ {p q : Nat} {row : Row}, table[p]? = some row → p < q →
    q ≤ p + row.item.attributeCount →
    ∃ att, table[q]? = some att ∧ att.parent = some p ∧ att.item.isAttr
  only : ∀ {p q : Nat} {row att : Row}, table[p]? = some row → table[q]? = some att →
    att.parent = some p → (att.item.isAttr ↔ q ≤ p + row.item.attributeCount)
  above : ∀ {p q : Nat} {row att : Row}, table[p]? = some row → table[q]? = some att →
    att.parent = some p → row.item.isAttr = false
  chain : ∀ {p : Nat} {row : Row}, p ∈ path → table[p]? = some row → row.item.isAttr = false

theorem Attributed.count_lt (h : Attributed table path) (hrow : table[p]? = some row) :
    p + row.item.attributeCount < table.length := by
  have hp := (List.getElem?_eq_some_iff.mp hrow).1
  rcases Nat.eq_zero_or_pos row.item.attributeCount with h0 | h0
  · omega
  · obtain ⟨att, hatt, -⟩ := h.own hrow (Nat.lt_add_of_pos_right h0) (Nat.le_refl _)
    exact (List.getElem?_eq_some_iff.mp hatt).1

theorem getElem?_block_cases {atts : List Row} (h : (table ++ row :: atts)[q]? = some row') :
    q < table.length ∧ table[q]? = some row' ∨ q = table.length ∧ row = row' ∨
      ∃ i, q = table.length + 1 + i ∧ atts[i]? = some row' := by
  rcases Nat.lt_trichotomy q table.length with hq | rfl | hq
  · rw [List.getElem?_append_left hq] at h
    exact .inl ⟨hq, h⟩
  · rw [List.getElem?_append_right (Nat.le_refl _), Nat.sub_self] at h
    exact .inr (.inl ⟨rfl, Option.some.inj h⟩)
  · obtain ⟨i, rfl⟩ := Nat.exists_eq_add_of_lt hq
    rw [List.getElem?_append_right (Nat.le_of_lt hq),
      show table.length + i + 1 - table.length = i + 1 by omega, List.getElem?_cons_succ] at h
    exact .inr (.inr ⟨i, by omega, h⟩)

section
variable {rest : List Nat} {atts : List Row}

theorem getElem?_block_left (hq : q < table.length) :
    (table ++ row :: atts)[q]? = table[q]? := List.getElem?_append_left hq

theorem getElem?_block_self : (table ++ row :: atts)[table.length]? = some row := by
  rw [List.getElem?_append_right (Nat.le_refl _), Nat.sub_self]
  rfl

theorem getElem?_block_right (i : Nat) :
    (table ++ row :: atts)[table.length + 1 + i]? = atts[i]? := by
  rw [List.getElem?_append_right (by omega),
    show table.length + 1 + i - table.length = i + 1 by omega, List.getElem?_cons_succ]

/-- A node with its attributes below the innermost open one. -/
theorem Attributed.push (h : Attributed table (p :: rest)) (hl : Layout table (p :: rest))
    (hparent : row.parent = some p) (hattr : row.item.isAttr = false)
    (hcount : row.item.attributeCount = atts.length)
    (hatts : ∀ att ∈ atts, att.parent = some table.length ∧ att.item.isAttr = true ∧
      att.item.attributeCount = 0)
    (hpath : path = p :: rest ∨ path = table.length :: p :: rest) :
    Attributed (table ++ row :: atts) path := by
  have hopen : ∀ q ∈ p :: rest, q < table.length := fun q hq => hl.chain.lt hq
  refine ⟨?_, ?_, ?_, ?_⟩
  · intro r q row' hrow hrq hq
    rcases getElem?_block_cases hrow with ⟨-, hrow⟩ | ⟨rfl, rfl⟩ | ⟨i, rfl, hi⟩
    · obtain ⟨att, hatt, hp, ha⟩ := h.own hrow hrq hq
      refine ⟨att, ?_, hp, ha⟩
      rw [getElem?_block_left (List.getElem?_eq_some_iff.mp hatt).1, hatt]
    · obtain ⟨i, rfl⟩ := Nat.exists_eq_add_of_lt hrq
      have hi : i < atts.length := by omega
      obtain ⟨hp, ha, -⟩ := hatts _ (List.getElem_mem hi)
      refine ⟨atts[i], ?_, hp, ha⟩
      rw [show table.length + i + 1 = table.length + 1 + i by omega, getElem?_block_right]
      exact List.getElem?_eq_getElem hi
    · have := (hatts _ (List.mem_of_getElem? hi)).2.2
      omega
  · intro r q row' att hrow hatt hp
    rcases getElem?_block_cases hatt with ⟨hq, hatt⟩ | ⟨rfl, rfl⟩ | ⟨i, rfl, hi⟩
    · have hrq := (hl.parent hatt hp).1
      rw [getElem?_block_left (Nat.lt_trans hrq hq)] at hrow
      exact h.only hrow hatt hp
    · obtain rfl := Option.some.inj (hparent.symm.trans hp)
      rw [getElem?_block_left (hopen p List.mem_cons_self)] at hrow
      have := h.count_lt hrow
      rw [hattr]
      simp only [Bool.false_eq_true, false_iff]
      omega
    · obtain ⟨hp', ha, -⟩ := hatts _ (List.mem_of_getElem? hi)
      obtain rfl := Option.some.inj (hp'.symm.trans hp)
      rw [getElem?_block_self] at hrow
      obtain rfl := Option.some.inj hrow
      have := (List.getElem?_eq_some_iff.mp hi).1
      simp only [ha, true_iff]
      omega
  · intro r q row' att hrow hatt hp
    rcases getElem?_block_cases hatt with ⟨hq, hatt⟩ | ⟨rfl, rfl⟩ | ⟨i, rfl, hi⟩
    · have hrq := (hl.parent hatt hp).1
      rw [getElem?_block_left (Nat.lt_trans hrq hq)] at hrow
      exact h.above hrow hatt hp
    · obtain rfl := Option.some.inj (hparent.symm.trans hp)
      rw [getElem?_block_left (hopen p List.mem_cons_self)] at hrow
      exact h.chain List.mem_cons_self hrow
    · obtain rfl := Option.some.inj ((hatts _ (List.mem_of_getElem? hi)).1.symm.trans hp)
      rw [getElem?_block_self] at hrow
      exact Option.some.inj hrow ▸ hattr
  · intro r row' hr hrow
    have hcases : r = table.length ∨ r ∈ p :: rest := by
      rcases hpath with rfl | rfl
      · exact .inr hr
      · exact List.mem_cons.mp hr
    rcases hcases with rfl | hr
    · rw [getElem?_block_self] at hrow
      exact Option.some.inj hrow ▸ hattr
    · rw [getElem?_block_left (hopen r hr)] at hrow
      exact h.chain hr hrow

end

theorem Attributed.close {rest : List Nat} (h : Attributed table (p :: rest)) :
    Attributed (table.close p) rest := by
  refine ⟨?_, ?_, ?_, ?_⟩
  · intro r q row' hrow hrq hq
    obtain ⟨row, hrow, -, -, hitem⟩ := of_getElem?_close hrow
    obtain ⟨att, hatt, hp, ha⟩ := h.own hrow hrq (hitem ▸ hq)
    obtain ⟨att', hatt', hp', -, hitem'⟩ := exists_getElem?_close (p := p) hatt
    exact ⟨att', hatt', hp'.trans hp, hitem' ▸ ha⟩
  · intro r q row' att' hrow hatt hp
    obtain ⟨row, hrow, -, -, hitem⟩ := of_getElem?_close hrow
    obtain ⟨att, hatt, hp', -, hitem'⟩ := of_getElem?_close hatt
    rw [hitem, hitem']
    exact h.only hrow hatt (hp'.symm.trans hp)
  · intro r q row' att' hrow hatt hp
    obtain ⟨row, hrow, -, -, hitem⟩ := of_getElem?_close hrow
    obtain ⟨att, hatt, hp', -⟩ := of_getElem?_close hatt
    rw [hitem]
    exact h.above hrow hatt (hp'.symm.trans hp)
  · intro r row' hr hrow
    obtain ⟨row, hrow, -, -, hitem⟩ := of_getElem?_close hrow
    rw [hitem]
    exact h.chain (List.mem_cons_of_mem p hr) hrow

theorem Layout.append_attributes {rest : List Nat} {atts : List Row}
    (h : Layout table (p :: rest))
    (hatts : ∀ att ∈ atts,
      att.parent = some p ∧ att.depth = rest.length + 1 ∧ att.size = 1) :
    Layout (table ++ atts) (p :: rest) := by
  induction atts generalizing table with
  | nil => rwa [List.append_nil]
  | cons att atts ih =>
    obtain ⟨hparent, hdepth, hsize⟩ := hatts att List.mem_cons_self
    rw [List.append_cons]
    exact ih (h.push hparent hdepth hsize (.inl rfl)) fun a ha =>
      hatts a (List.mem_cons_of_mem att ha)

-- ---------------------------------------------------------------------------
-- Children
-- ---------------------------------------------------------------------------

/-- From `next` up to `stop` there are only nodes at or below children of a node. -/
def Boundary (table : NodeTable) (p next stop : Nat) : Prop :=
  ∀ {q r : Nat}, next ≤ q → q < stop → table.parent? q = some r → r = p ∨ next ≤ r

/-- At a boundary stands a child, and its end is a boundary again. -/
theorem Layout.child_at (h : Layout table []) (hrow : table[p]? = some row) {next : Nat}
    (hp : p < next) (hn : next < p + row.size) (hb : Boundary table p next (p + row.size)) :
    ∃ child, table[next]? = some child ∧ child.parent = some p ∧ 0 < child.size ∧
      next + child.size ≤ p + row.size ∧
      (∀ q, next < q → q < next + child.size → table.parent? q ≠ some p) ∧
      Boundary table p (next + child.size) (p + row.size) := by
  have hend := (h.bounds hrow).2
  rw [extent_closed List.not_mem_nil hrow] at hend
  have hlen : next < table.length := Nat.lt_of_lt_of_le hn hend
  have hchild := List.getElem?_eq_getElem hlen
  obtain ⟨r, hr, hpr⟩ := h.within hchild hp
    (by rw [extent_closed List.not_mem_nil hrow]; exact hn)
  obtain ⟨hlt, hle, -⟩ := h.parent hchild hr
  have hparent : table.parent? next = some r := Option.bind_eq_some_iff.mpr ⟨_, hchild, hr⟩
  obtain rfl : r = p := by
    rcases hb (Nat.le_refl _) hn hparent with hrp | hle
    · exact hrp
    · omega
  have hbounds := (h.bounds hchild).1
  rw [extent_closed List.not_mem_nil hchild] at hle hbounds
  rw [extent_closed List.not_mem_nil hrow] at hle
  refine ⟨table[next], hchild, hr, by omega, hle, ?_, ?_⟩
  · intro q hq hq' hqp
    obtain ⟨row', hrow', hp'⟩ := of_parent? hqp
    obtain ⟨s, hs, hle'⟩ := h.within hrow' hq
      (by rw [extent_closed List.not_mem_nil hchild]; exact hq')
    obtain rfl := Option.some.inj (hp'.symm.trans hs)
    omega
  · intro q s hq hq' hqs
    rcases hb (by omega) hq' hqs with hs | hs
    · exact .inl hs
    · refine .inr (Nat.le_of_not_lt fun hlt' => ?_)
      -- A node below the child lies before its end.
      have hbelow : Below table next q := by
        rcases Nat.eq_or_lt_of_le hs with rfl | hs
        · exact .child hqs
        · refine .deeper hqs ((h.below_iff hlen).mpr ⟨hs, ?_⟩)
          rw [extent_closed List.not_mem_nil hchild]
          exact hlt'
      have := ((h.below_iff hlen).mp hbelow).2
      rw [extent_closed List.not_mem_nil hchild] at this
      omega

/-- The positions behind the attributes of a node are a boundary. -/
theorem Attributed.boundary (h : Attributed table []) (hl : Layout table [])
    (hrow : table[p]? = some row) :
    Boundary table p (p + 1 + row.item.attributeCount) (p + row.size) := by
  intro q r hq hq' hqr
  obtain ⟨row', hrow', hr⟩ := of_parent? hqr
  obtain ⟨s, hs, hps⟩ := hl.within hrow' (p := p) (by omega)
    (by rw [extent_closed List.not_mem_nil hrow]; exact hq')
  obtain rfl := Option.some.inj (hr.symm.trans hs)
  rcases Nat.eq_or_lt_of_le hps with rfl | hps
  · exact .inl rfl
  · refine .inr (Nat.le_of_not_lt fun hlt => ?_)
    -- An attribute has no nodes below it.
    obtain ⟨att, hatt, -, ha⟩ := h.own hrow hps (by omega)
    rw [h.above hatt hrow' hr] at ha
    cases ha

end NodeTable

end XmlStore
