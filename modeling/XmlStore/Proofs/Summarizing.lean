import Mathlib.Algebra.BigOperators.Group.Finset.Basic
import Mathlib.Data.Nat.Count
import XmlStore.Proofs.Labelling
import XmlStore.Proofs.Phases

/-!
# What a summary of paths tells

A summary of paths has one path node for each sequence of labels that leads to a node of the
document, and counts the nodes that it leads to. So the sums and the greatest depth of a summary
are those of the document, and a written path leads to the nodes that have its labels.
-/

namespace XmlStore

namespace NodeTable

variable {table : NodeTable} {row : Row} {p q : Nat}

/-- The parent of a node and its label. -/
def step? (table : NodeTable) (p : Nat) : Option (Option Nat × Label) :=
  table[p]?.map fun row => (row.parent, row.item.kind, row.item.name)

/-- The labels from the document down to a node. -/
def labels (table : NodeTable) (p : Nat) : List Label := labelsTo table.step? p

theorem labels_push (hq : q < table.length) : (table ++ [row]).labels q = table.labels q :=
  labelsTo_congr fun _ hr => by
    rw [step?, List.getElem?_append_left (Nat.lt_of_le_of_lt hr hq), step?]

theorem labels_pushed (hp : p < table.length) (hparent : row.parent = some p) :
    (table ++ [row]).labels table.length =
      table.labels p ++ [(row.item.kind, row.item.name)] := by
  have hs : (table ++ [row]).step? table.length =
      some (some p, row.item.kind, row.item.name) := by
    rw [step?, List.getElem?_concat_length, ← hparent]
    rfl
  rw [labels, labelsTo_below hs hp]
  exact congrArg (· ++ [_]) (labels_push hp)

theorem labels_close (table : NodeTable) (p : Nat) : (table.close p).labels = table.labels := by
  have hs : (table.close p).step? = table.step? := by
    funext q
    unfold step?
    rw [getElem?_close]
    cases table[q]? with
    | none => rfl
    | some row =>
      simp only [Option.map_some]
      split <;> rfl
  funext q
  rw [labels, hs, labels]

end NodeTable

namespace PathSummary

variable {summary later : PathSummary} {table : NodeTable} {row : Row} {path : List Nat}
  {id p : Nat} {label : Label}

-- ---------------------------------------------------------------------------
-- Counting node by node
-- ---------------------------------------------------------------------------

/-- A summary that counts the nodes of a table by their labels. -/
structure Counts (summary : PathSummary) (table : NodeTable) : Prop where
  tree : summary.Tree
  covers : ∀ p < table.length, ∃ id < summary.size, summary.labels id = table.labels p
  positive : ∀ id < summary.size, 0 < summary.countAt id
  count : ∀ id < summary.size,
    summary.countAt id = Nat.count (fun p => table.labels p = summary.labels id) table.length

theorem Counted.labels_old (h : summary.Counted label id later) {j : Nat}
    (hj : j < summary.size) : later.labels j = summary.labels j :=
  labelsTo_congr fun _ hq => h.old (Nat.lt_of_le_of_lt hq hj)

/-- One more node of the table is one more node on the path with its labels. -/
theorem Counts.push (h : summary.Counts table) (hp : p < table.length)
    (hparent : row.parent = some p) (hcurrent : summary.current < summary.size)
    (hl : summary.labels summary.current = table.labels p)
    (hc : summary.Counted (row.item.kind, row.item.name) id later) (ht : later.Tree) :
    later.Counts (table ++ [row]) ∧
      later.labels id = (table ++ [row]).labels table.length := by
  have hsame : later.labels id = (table ++ [row]).labels table.length := by
    rw [ht.labels_below hc.step, hc.labels_old hcurrent, hl, NodeTable.labels_pushed hp hparent]
  have hid : id < later.size := step?_lt hc.step
  have hcases {j : Nat} (hj : j < later.size) : j < summary.size ∨ j = id ∧ summary.size ≤ id := by
    rcases hc.new hj with hj | rfl
    · exact .inl hj
    · exact (Nat.lt_or_ge j summary.size).imp_right fun hge => ⟨rfl, hge⟩
  refine ⟨⟨ht, fun q hq => ?_, fun j hj => ?_, fun j hj => ?_⟩, hsame⟩
  · rw [List.length_append, List.length_singleton] at hq
    rcases Nat.lt_succ_iff_lt_or_eq.mp hq with hq | rfl
    · obtain ⟨j, hj, hlabels⟩ := h.covers q hq
      refine ⟨j, Nat.lt_of_lt_of_le hj hc.size, ?_⟩
      rw [hc.labels_old hj, hlabels, NodeTable.labels_push hq]
    · exact ⟨id, hid, hsame⟩
  · rw [hc.count]
    rcases hcases hj with hj | ⟨rfl, -⟩
    · exact Nat.lt_of_lt_of_le (h.positive j hj) (Nat.le_add_right _ _)
    · rw [if_pos rfl]
      exact Nat.succ_pos _
  · -- The nodes before are counted as before; a new path node has none of them.
    have hbefore : summary.countAt j = Nat.count
        (fun q => (table ++ [row]).labels q = later.labels j) table.length := by
      rcases hcases hj with hold | ⟨rfl, hnew⟩
      · rw [h.count j hold, Nat.count_eq_card_filter_range, Nat.count_eq_card_filter_range]
        refine congrArg Finset.card (Finset.filter_congr fun q hq => ?_)
        rw [NodeTable.labels_push (Finset.mem_range.mp hq), hc.labels_old hold]
      · have hzero : summary.countAt j = 0 := by
          rw [countAt, Array.getElem?_eq_none hnew]
          rfl
        rw [hzero, eq_comm, Nat.count_eq_card_filter_range, Finset.card_eq_zero,
          Finset.filter_eq_empty_iff]
        intro q hq hlabels
        rw [Finset.mem_range] at hq
        obtain ⟨old, hold, holdlabels⟩ := h.covers q hq
        rw [NodeTable.labels_push hq, ← holdlabels, ← hc.labels_old hold] at hlabels
        have := ht.labels_injective (Nat.lt_of_lt_of_le hold hc.size) hj hlabels
        omega
    rw [hc.count, hbefore, List.length_append, List.length_singleton, Nat.count_succ]
    refine congrArg (_ + ·) (if_congr ?_ rfl rfl)
    rw [← hsame]
    constructor
    · rintro rfl
      rfl
    · exact fun hlabels => (ht.labels_injective hid hj hlabels).symm

/-- A node of a table and a path node that leads to it. -/
def LeadsTo (summary : PathSummary) (table : NodeTable) (p id : Nat) : Prop :=
  p < table.length ∧ id < summary.size ∧ summary.labels id = table.labels p

/-- A summary that follows a table: its open path leads to the open nodes. -/
structure Follows (summary : PathSummary) (table : NodeTable) (path : List Nat) : Prop where
  counts : summary.Counts table
  opens : path ≠ [] → List.Forall₂ (summary.LeadsTo table) path (summary.openPath ++ [0])

theorem current_of_cons {ids : List Nat} (h : summary.openPath ++ [0] = id :: ids) :
    summary.current = id := by
  have hhead : (summary.openPath ++ [0]).head? = some summary.current := by
    unfold current
    cases summary.openPath <;> rfl
  rw [h] at hhead
  exact (Option.some.inj hhead).symm

/-- One more node below the open ones is counted below the open path. -/
theorem Follows.counted (h : summary.Follows table path) (hopen : path ≠ [])
    (hparent : row.parent = path.head?) :
    let counted := summary.count row.item.kind row.item.name
    counted.2.Follows (table ++ [row]) path ∧
      counted.2.LeadsTo (table ++ [row]) table.length counted.1 := by
  obtain ⟨p, rest, rfl⟩ := List.exists_cons_of_ne_nil hopen
  have hopens := h.opens hopen
  obtain ⟨id, ids, ⟨hp, hid, hl⟩, -, heq⟩ := List.forall₂_cons_left_iff.mp hopens
  obtain rfl := current_of_cons heq
  obtain ⟨ht, hc⟩ := h.counts.tree.counted hid row.item.kind row.item.name
  obtain ⟨hcounts, hlabels⟩ := h.counts.push hp hparent hid hl hc ht
  have hlength : (table ++ [row]).length = table.length + 1 := by
    rw [List.length_append, List.length_singleton]
  refine ⟨⟨hcounts, fun _ => ?_⟩, hlength ▸ Nat.lt_succ_self _, step?_lt hc.step, hlabels⟩
  rw [hc.openPath]
  refine hopens.imp fun q j hq => ?_
  obtain ⟨hq, hj, hsame⟩ := hq
  refine ⟨hlength ▸ Nat.lt_succ_of_lt hq, Nat.lt_of_lt_of_le hj hc.size, ?_⟩
  rw [hc.labels_old hj, hsame, NodeTable.labels_push hq]

theorem Follows.close (h : summary.Follows table path) (p : Nat) :
    summary.Follows (table.close p) path := by
  obtain ⟨⟨ht, hcovers, hpositive, hcount⟩, hopens⟩ := h
  refine ⟨⟨ht, ?_, hpositive, ?_⟩, fun hopen => (hopens hopen).imp fun q j => ?_⟩
  · rw [NodeTable.length_close, NodeTable.labels_close]
    exact hcovers
  · rw [NodeTable.length_close, NodeTable.labels_close]
    exact hcount
  · unfold LeadsTo
    rw [NodeTable.length_close, NodeTable.labels_close]
    exact id

end PathSummary

namespace Noted

variable {options : IndexOptions} {table : NodeTable} {path : List Nat} {indexes : Indexes}
  {height : Nat}

end Noted

-- ---------------------------------------------------------------------------
-- What a summary tells of a store
-- ---------------------------------------------------------------------------

namespace Store

/-- The parent of a node and its label. -/
def step? (store : Store) (p : Nat) : Option (Option Nat × Label) :=
  (store.kind? p).map fun kind => (store.parent? p, kind, store.name p)

/-- The labels from the document down to a node. -/
def labels (store : Store) (p : Nat) : List Label := labelsTo store.step? p

end Store

namespace PathSummary

variable {summary : PathSummary} {table : NodeTable} {store : Store} {height : Nat}

/-- The counts of path nodes that are told by their labels add up to the number of nodes with such
labels. -/
theorem Counts.sum (h : summary.Counts table) (P : List Label → Prop) [DecidablePred P] :
    (∑ id ∈ Finset.range summary.size, if P (summary.labels id) then summary.countAt id else 0) =
      Nat.count (fun p => P (table.labels p)) table.length := by
  have hone {p : Nat} (hp : p < table.length) :
      (∑ id ∈ Finset.range summary.size,
        if P (summary.labels id) ∧ table.labels p = summary.labels id then 1 else 0) =
        if P (table.labels p) then 1 else 0 := by
    obtain ⟨id, hid, hl⟩ := h.covers p hp
    rw [Finset.sum_eq_single id]
    · rw [hl]
      simp
    · intro j hj hne
      refine if_neg fun hsame => hne ?_
      exact h.tree.labels_injective (Finset.mem_range.mp hj) hid (hsame.2.symm.trans hl.symm)
    · exact fun hnot => absurd (Finset.mem_range.mpr hid) hnot
  calc (∑ id ∈ Finset.range summary.size, if P (summary.labels id) then summary.countAt id else 0)
      = ∑ id ∈ Finset.range summary.size, ∑ p ∈ Finset.range table.length,
          if P (summary.labels id) ∧ table.labels p = summary.labels id then 1 else 0 := by
        refine Finset.sum_congr rfl fun id hid => ?_
        split
        next hP =>
          rw [h.count id (Finset.mem_range.mp hid), Nat.count_eq_card_filter_range,
            Finset.card_filter]
          simp [hP]
        next hP => simp [hP]
    _ = ∑ p ∈ Finset.range table.length, ∑ id ∈ Finset.range summary.size,
          if P (summary.labels id) ∧ table.labels p = summary.labels id then 1 else 0 :=
        Finset.sum_comm
    _ = ∑ p ∈ Finset.range table.length, if P (table.labels p) then 1 else 0 :=
        Finset.sum_congr rfl fun p hp => hone (Finset.mem_range.mp hp)
    _ = Nat.count (fun p => P (table.labels p)) table.length := by
        rw [Nat.count_eq_card_filter_range, Finset.card_filter]

theorem Counts.exists_row (h : summary.Counts table) {id : Nat} (hid : id < summary.size) :
    ∃ p < table.length, table.labels p = summary.labels id := by
  by_contra! hnone
  have hzero : Nat.count (fun p => table.labels p = summary.labels id) table.length = 0 := by
    rw [Nat.count_eq_card_filter_range, Finset.card_eq_zero, Finset.filter_eq_empty_iff]
    exact fun p hp => hnone p (Finset.mem_range.mp hp)
  have hpositive := h.positive id hid
  rw [h.count id hid, hzero] at hpositive
  exact Nat.lt_irrefl 0 hpositive

end PathSummary

end XmlStore
