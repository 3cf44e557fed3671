import Mathlib.Data.List.Induction
import XmlStore.Index.Paths

/-!
# Trees of labels

A node is told by its kind and name and by those of the nodes above it. A summary of paths is a
tree in which no two siblings have the same label, so that each sequence of labels leads to at most
one of its nodes. Counting a node below the open path keeps it one.
-/

namespace XmlStore

/-- The kind of a node and its name, which is empty for what has none. -/
abbrev Label := NodeKind × Bytes

/-- The labels from the top of a tree down to a node, where the parent of each node comes before
it. -/
def labelsTo (step? : Nat → Option (Option Nat × Label)) (p : Nat) : List Label :=
  match step? p with
  | none => []
  | some (none, label) => [label]
  | some (some q, label) => if q < p then labelsTo step? q ++ [label] else [label]
termination_by p

section
variable {step? : Nat → Option (Option Nat × Label)} {p q : Nat} {label : Label}

theorem labelsTo_top (h : step? p = some (none, label)) : labelsTo step? p = [label] := by
  rw [labelsTo, h]

theorem labelsTo_below (h : step? p = some (some q, label)) (hq : q < p) :
    labelsTo step? p = labelsTo step? q ++ [label] := by
  rw [labelsTo, h]
  exact if_pos hq

theorem labelsTo_congr {other? : Nat → Option (Option Nat × Label)}
    (h : ∀ q ≤ p, other? q = step? q) : labelsTo other? p = labelsTo step? p := by
  induction p using Nat.strongRecOn with
  | ind p ih =>
    unfold labelsTo
    rw [h p (Nat.le_refl p)]
    split
    · rfl
    · rfl
    next q label _ =>
      split
      next hq => rw [ih q hq fun r hr => h r (Nat.le_trans hr (Nat.le_of_lt hq))]
      next => rfl

end

namespace PathSummary

/-- The parent of a path node and its label. -/
def step? (summary : PathSummary) (id : Nat) : Option (Option Nat × Label) :=
  summary.nodes[id]?.map fun node => (node.parent, node.kind, node.name)

/-- The labels from the document down to a path node. -/
def labels (summary : PathSummary) (id : Nat) : List Label := labelsTo summary.step? id

def countAt (summary : PathSummary) (id : Nat) : Nat :=
  (summary.nodes[id]?.map (·.count)).getD 0

/-- The path nodes right below a path node, in order. -/
def childrenOf (summary : PathSummary) (id : Nat) : List Nat :=
  (List.range summary.size).filter fun child => (summary.step? child).bind (·.1) == some id

def depthAt (summary : PathSummary) (id : Nat) : Nat :=
  (summary.nodes[id]?.map (·.depth)).getD 0

/-- The depth of what has this parent. -/
def depthBelow (summary : PathSummary) (parent : Option Nat) : Nat :=
  (parent.map fun id => summary.depthAt id + 1).getD 0

/-- The parents, children and depths of a summary are those of one tree, in which no siblings have
the same label. -/
structure Tree (summary : PathSummary) : Prop where
  root : summary.step? 0 = some (none, .document, [])
  top : ∀ {id : Nat} {label : Label}, summary.step? id = some (none, label) → id = 0
  up : ∀ {id parent : Nat} {label : Label},
    summary.step? id = some (some parent, label) → parent < id
  siblings : ∀ {id id' : Nat} {step : Option Nat × Label},
    summary.step? id = some step → summary.step? id' = some step → id = id'
  children : ∀ {id : Nat} {node : PathNode}, summary.nodes[id]? = some node →
    node.children = summary.childrenOf id
  depth : ∀ {id : Nat} {node : PathNode}, summary.nodes[id]? = some node →
    node.depth = summary.depthBelow node.parent

variable {summary : PathSummary} {id parent : Nat} {kind : NodeKind} {name : Bytes} {label : Label}

theorem step?_lt {step : Option Nat × Label} (h : summary.step? id = some step) :
    id < summary.size := by
  obtain ⟨node, hn, -⟩ := Option.map_eq_some_iff.mp h
  exact (Array.getElem?_eq_some_iff.mp hn).1

theorem exists_step? (h : id < summary.size) : ∃ step, summary.step? id = some step :=
  ⟨_, congrArg (Option.map _) (Array.getElem?_eq_getElem h)⟩

theorem mem_childrenOf {child : Nat} :
    child ∈ summary.childrenOf id ↔ ∃ label, summary.step? child = some (some id, label) := by
  rw [childrenOf, List.mem_filter, List.mem_range, beq_iff_eq]
  constructor
  · rintro ⟨-, hs⟩
    obtain ⟨⟨parent, label⟩, hstep, rfl⟩ := Option.bind_eq_some_iff.mp hs
    exact ⟨label, hstep⟩
  · rintro ⟨label, hs⟩
    exact ⟨step?_lt hs, by rw [hs]; rfl⟩

/-- A path node has this label. -/
def hasLabel (summary : PathSummary) (kind : NodeKind) (name : Bytes) (id : Nat) : Bool :=
  summary.nodes[id]?.any fun node => node.kind == kind && node.name == name

theorem hasLabel_iff :
    summary.hasLabel kind name id ↔ ∃ above, summary.step? id = some (above, kind, name) := by
  unfold hasLabel step?
  cases summary.nodes[id]? with
  | none => simp
  | some node => simp

theorem child?_eq : summary.child? parent kind name =
    summary.nodes[parent]?.bind fun node => node.children.find? (summary.hasLabel kind name) := rfl

namespace Tree

theorem child?_eq_some_iff (h : summary.Tree) :
    summary.child? parent kind name = some id ↔
      summary.step? id = some (some parent, kind, name) := by
  rw [child?_eq]
  constructor
  · intro hc
    obtain ⟨node, hn, hfind⟩ := Option.bind_eq_some_iff.mp hc
    obtain ⟨above, hstep⟩ := hasLabel_iff.mp (List.find?_some hfind)
    have hmem := List.mem_of_find?_eq_some hfind
    rw [h.children hn, mem_childrenOf] at hmem
    obtain ⟨label, hbelow⟩ := hmem
    rw [hbelow] at hstep ⊢
    cases hstep
    rfl
  · intro hstep
    obtain ⟨node, hn⟩ : ∃ node, summary.nodes[parent]? = some node :=
      ⟨_, Array.getElem?_eq_getElem (Nat.lt_trans (h.up hstep) (step?_lt hstep))⟩
    rw [hn, Option.bind_some, h.children hn]
    cases hfind : (summary.childrenOf parent).find? (summary.hasLabel kind name) with
    | none =>
      rw [List.find?_eq_none] at hfind
      exact absurd (hasLabel_iff.mpr ⟨_, hstep⟩) (hfind id (mem_childrenOf.mpr ⟨_, hstep⟩))
    | some found =>
      obtain ⟨above, hfound⟩ := hasLabel_iff.mp (List.find?_some hfind)
      obtain ⟨label, hbelow⟩ := mem_childrenOf.mp (List.mem_of_find?_eq_some hfind)
      rw [hbelow] at hfound
      cases hfound
      rw [h.siblings hbelow hstep]

-- ---------------------------------------------------------------------------
-- Nodes and their labels
-- ---------------------------------------------------------------------------

theorem labels_root (h : summary.Tree) : summary.labels 0 = [(.document, [])] :=
  labelsTo_top h.root

theorem labels_below (h : summary.Tree)
    (hs : summary.step? id = some (some parent, label)) :
    summary.labels id = summary.labels parent ++ [label] :=
  labelsTo_below hs (h.up hs)

/-- A path node is the document, or has one more label than its parent. -/
theorem labels_cases (h : summary.Tree) (hid : id < summary.size) :
    id = 0 ∨ ∃ parent label, summary.step? id = some (some parent, label) ∧
      parent < id ∧ summary.labels id = summary.labels parent ++ [label] := by
  obtain ⟨⟨above, label⟩, hs⟩ := exists_step? hid
  cases above with
  | none => exact .inl (h.top hs)
  | some parent => exact .inr ⟨parent, label, hs, h.up hs, h.labels_below hs⟩

theorem labels_ne_nil (h : summary.Tree) (hid : id < summary.size) : summary.labels id ≠ [] := by
  rcases h.labels_cases hid with rfl | ⟨parent, label, -, -, hl⟩
  · rw [h.labels_root]
    exact List.cons_ne_nil _ _
  · rw [hl]
    exact List.concat_ne_nil _ _

theorem labels_injective (h : summary.Tree) {id' : Nat} (hid : id < summary.size)
    (hid' : id' < summary.size) (hl : summary.labels id = summary.labels id') : id = id' := by
  induction id using Nat.strongRecOn generalizing id' with
  | ind id ih =>
    -- Of two nodes with the same labels both are the document, or both are below others.
    have hbelow : ∀ {id parent : Nat} {label : Label}, parent < summary.size →
        summary.labels id = summary.labels parent ++ [label] →
          summary.labels 0 ≠ summary.labels id := by
      intro id parent label hparent hid h0
      rw [h.labels_root, hid] at h0
      have hlength := congrArg List.length h0
      have := List.length_pos_iff.mpr (h.labels_ne_nil hparent)
      simp only [List.length_append, List.length_cons, List.length_nil] at hlength
      omega
    rcases h.labels_cases hid with rfl | ⟨parent, label, hs, hlt, hp⟩
    · rcases h.labels_cases hid' with rfl | ⟨parent', label', -, hlt', hp'⟩
      · rfl
      · exact absurd hl (hbelow (Nat.lt_trans hlt' hid') hp')
    · rcases h.labels_cases hid' with rfl | ⟨parent', label', hs', hlt', hp'⟩
      · exact absurd hl.symm (hbelow (Nat.lt_trans hlt hid) hp)
      · rw [hp, hp'] at hl
        obtain ⟨hparents, hlabels⟩ := List.append_inj' hl rfl
        cases hlabels
        obtain rfl := ih parent hlt (Nat.lt_trans hlt hid) (Nat.lt_trans hlt' hid') hparents
        exact h.siblings hs hs'

end Tree

-- ---------------------------------------------------------------------------
-- Counting
-- ---------------------------------------------------------------------------

/-- One more node below the open path has been counted on the path node `id`. -/
structure Counted (summary : PathSummary) (label : Label) (id : Nat) (later : PathSummary) :
    Prop where
  openPath : later.openPath = summary.openPath
  step : later.step? id = some (some summary.current, label)
  size : summary.size ≤ later.size
  old : ∀ {j : Nat}, j < summary.size → later.step? j = summary.step? j
  new : ∀ {j : Nat}, j < later.size → j < summary.size ∨ j = id
  count : ∀ j, later.countAt j = summary.countAt j + if j = id then 1 else 0

/-- One more node on a path that has been met. -/
def recount (summary : PathSummary) (id : Nat) : PathSummary :=
  { summary with
    nodes := summary.nodes.modify id fun node => { node with count := node.count + 1 } }

/-- One node on a new path below the open one. -/
def extend (summary : PathSummary) (kind : NodeKind) (name : Bytes) : PathSummary :=
  let depth := summary.depthAt summary.current + 1
  let nodes := summary.nodes.modify summary.current fun node =>
    { node with children := node.children ++ [summary.nodes.size] }
  { summary with
    nodes := nodes.push { name, kind, parent := some summary.current, count := 1, depth } }

theorem count_eq (summary : PathSummary) (kind : NodeKind) (name : Bytes) :
    summary.count kind name =
      match summary.child? summary.current kind name with
      | some id => (id, summary.recount id)
      | none => (summary.size, summary.extend kind name) := rfl

theorem getElem?_recount (summary : PathSummary) (id j : Nat) :
    (summary.recount id).nodes[j]? = summary.nodes[j]?.map fun node : PathNode =>
      { node with count := node.count + if j = id then 1 else 0 } := by
  simp only [recount, Array.getElem?_modify]
  by_cases hj : id = j
  · simp [hj]
  · simp [hj, Ne.symm hj]

theorem Tree.recounted (h : summary.Tree)
    (hs : summary.step? id = some (some summary.current, label)) :
    (summary.recount id).Tree ∧ summary.Counted label id (summary.recount id) := by
  have hstep : (summary.recount id).step? = summary.step? := by
    funext j
    unfold step?
    rw [getElem?_recount]
    cases summary.nodes[j]? <;> rfl
  have hsize : (summary.recount id).size = summary.size := Array.size_modify
  have hchildren : (summary.recount id).childrenOf = summary.childrenOf := by
    unfold childrenOf
    rw [hstep, hsize]
  have hdepth : (summary.recount id).depthBelow = summary.depthBelow := by
    have hat : (summary.recount id).depthAt = summary.depthAt := by
      funext j
      unfold depthAt
      rw [getElem?_recount]
      cases summary.nodes[j]? <;> rfl
    unfold depthBelow
    rw [hat]
  have hnode {j : Nat} {node : PathNode} (hn : (summary.recount id).nodes[j]? = some node) :
      ∃ old, summary.nodes[j]? = some old ∧ node.parent = old.parent ∧
        node.children = old.children ∧ node.depth = old.depth := by
    rw [getElem?_recount, Option.map_eq_some_iff] at hn
    obtain ⟨old, hold, rfl⟩ := hn
    exact ⟨old, hold, rfl, rfl, rfl⟩
  constructor
  · refine ⟨?_, ?_, ?_, ?_, fun hn => ?_, fun hn => ?_⟩
    · rw [hstep]
      exact h.root
    · rw [hstep]
      exact h.top
    · rw [hstep]
      exact h.up
    · rw [hstep]
      exact h.siblings
    · obtain ⟨old, hold, -, hsame, -⟩ := hnode hn
      rw [hchildren, hsame, h.children hold]
    · obtain ⟨old, hold, hparent, -, hsame⟩ := hnode hn
      rw [hdepth, hsame, hparent, h.depth hold]
  · refine ⟨rfl, hstep ▸ hs, Nat.le_of_eq hsize.symm, fun _ => by rw [hstep],
      fun hj => .inl (hsize ▸ hj), fun j => ?_⟩
    unfold countAt
    rw [getElem?_recount]
    cases hn : summary.nodes[j]? with
    | some node => rfl
    | none =>
      have hne : j ≠ id := by
        rintro rfl
        rw [step?, hn] at hs
        cases hs
      rw [if_neg hne]
      rfl

theorem getElem?_extend (summary : PathSummary) (kind : NodeKind) (name : Bytes) (j : Nat) :
    (summary.extend kind name).nodes[j]? =
      if j = summary.size then
        some { name, kind, parent := some summary.current, count := 1
               depth := summary.depthAt summary.current + 1 }
      else summary.nodes[j]?.map fun node : PathNode =>
        { node with children := node.children ++
            if j = summary.current then [summary.size] else [] } := by
  have hpush : (summary.extend kind name).nodes[j]? =
      if j = summary.size then
        some { name, kind, parent := some summary.current, count := 1
               depth := summary.depthAt summary.current + 1 }
      else (summary.nodes.modify summary.current fun node =>
        { node with children := node.children ++ [summary.size] })[j]? := by
    simp only [extend, Array.getElem?_push, Array.size_modify, size]
    rfl
  rw [hpush, Array.getElem?_modify]
  by_cases hj : j = summary.size
  · rw [if_pos hj, if_pos hj]
  · rw [if_neg hj, if_neg hj]
    by_cases hc : summary.current = j
    · simp [hc]
    · simp [hc, Ne.symm hc]

theorem Tree.extended (h : summary.Tree) (hc : summary.current < summary.size)
    (hnew : ∀ id, summary.step? id ≠ some (some summary.current, kind, name)) :
    (summary.extend kind name).Tree ∧
      summary.Counted (kind, name) summary.size (summary.extend kind name) := by
  have hsize : (summary.extend kind name).size = summary.size + 1 := by
    simp [extend, size]
  have hself : (summary.extend kind name).step? summary.size =
      some (some summary.current, kind, name) := by
    rw [step?, getElem?_extend, if_pos rfl]
    rfl
  have hold {j : Nat} (hj : j < summary.size) :
      (summary.extend kind name).step? j = summary.step? j := by
    unfold step?
    rw [getElem?_extend, if_neg (Nat.ne_of_lt hj)]
    cases summary.nodes[j]? <;> rfl
  have hcases {j : Nat} {step : Option Nat × Label}
      (hs : (summary.extend kind name).step? j = some step) :
      j < summary.size ∧ summary.step? j = some step ∨
        j = summary.size ∧ step = (some summary.current, kind, name) := by
    have hlt := step?_lt hs
    rw [hsize] at hlt
    rcases Nat.lt_succ_iff_lt_or_eq.mp hlt with hlt | rfl
    · exact .inl ⟨hlt, hold hlt ▸ hs⟩
    · rw [hself] at hs
      exact .inr ⟨rfl, (Option.some.inj hs).symm⟩
  have hchildren (j : Nat) : (summary.extend kind name).childrenOf j =
      summary.childrenOf j ++ if j = summary.current then [summary.size] else [] := by
    unfold childrenOf
    rw [hsize, List.range_succ, List.filter_append]
    refine congrArg₂ (· ++ ·) (List.filter_congr fun child hm => ?_) ?_
    · rw [hold (List.mem_range.mp hm)]
    · by_cases hj : j = summary.current
      · simp [hself, hj]
      · simp [hself, hj, Ne.symm hj]
  have hdepth {j : Nat} (hj : j < summary.size) :
      (summary.extend kind name).depthAt j = summary.depthAt j := by
    unfold depthAt
    rw [getElem?_extend, if_neg (Nat.ne_of_lt hj)]
    cases summary.nodes[j]? <;> rfl
  have hnone : (summary.childrenOf summary.size) = [] := by
    refine List.eq_nil_iff_forall_not_mem.mpr fun child hm => ?_
    obtain ⟨label, hs⟩ := mem_childrenOf.mp hm
    exact absurd (h.up hs) (Nat.lt_asymm (step?_lt hs))
  constructor
  · refine ⟨?_, fun hs => ?_, fun hs => ?_, fun hs hs' => ?_, fun {j node} hn => ?_,
      fun {j node} hn => ?_⟩
    · rw [hold (step?_lt h.root)]
      exact h.root
    · rcases hcases hs with ⟨-, hs⟩ | ⟨-, he⟩
      · exact h.top hs
      · cases he
    · rcases hcases hs with ⟨-, hs⟩ | ⟨rfl, he⟩
      · exact h.up hs
      · cases he
        exact hc
    · rcases hcases hs with ⟨-, hs⟩ | ⟨rfl, he⟩ <;> rcases hcases hs' with ⟨-, hs'⟩ | ⟨rfl, he'⟩
      · exact h.siblings hs hs'
      · rw [he'] at hs
        exact absurd hs (hnew _)
      · rw [he] at hs'
        exact absurd hs' (hnew _)
      · rfl
    · rw [getElem?_extend] at hn
      rw [hchildren]
      split at hn
      next hj =>
        cases hn
        rw [hj, hnone, if_neg (Nat.ne_of_gt hc)]
        rfl
      next =>
        obtain ⟨old, hold, rfl⟩ := Option.map_eq_some_iff.mp hn
        rw [h.children hold]
    · rw [getElem?_extend] at hn
      split at hn
      next =>
        cases hn
        exact congrArg (· + 1) (hdepth hc).symm
      next hj =>
        obtain ⟨old, hold, rfl⟩ := Option.map_eq_some_iff.mp hn
        refine (h.depth hold).trans ?_
        cases hparent : old.parent with
        | none => rfl
        | some parent =>
          have hs : summary.step? j = some (some parent, old.kind, old.name) := by
            rw [step?, hold, ← hparent]
            rfl
          simp [depthBelow, hdepth (Nat.lt_trans (h.up hs) (step?_lt hs))]
  · refine ⟨rfl, hself, hsize ▸ Nat.le_succ _, hold, fun hj => ?_, fun j => ?_⟩
    · rw [hsize] at hj
      exact Nat.lt_succ_iff_lt_or_eq.mp hj
    · unfold countAt
      rw [getElem?_extend]
      by_cases hj : j = summary.size
      · have hfresh : summary.nodes[j]? = none := Array.getElem?_eq_none (Nat.le_of_eq hj.symm)
        rw [if_pos hj, if_pos hj, hfresh]
        rfl
      · rw [if_neg hj, if_neg hj]
        cases summary.nodes[j]? <;> rfl

/-- Counting a node keeps the tree, and counts the node on the one path node with its labels. -/
theorem Tree.counted (h : summary.Tree) (hc : summary.current < summary.size) (kind : NodeKind)
    (name : Bytes) :
    (summary.count kind name).2.Tree ∧
      summary.Counted (kind, name) (summary.count kind name).1 (summary.count kind name).2 := by
  rw [count_eq]
  cases hchild : summary.child? summary.current kind name with
  | some id => exact h.recounted (h.child?_eq_some_iff.mp hchild)
  | none =>
    refine h.extended hc fun id hs => ?_
    rw [h.child?_eq_some_iff.mpr hs] at hchild
    cases hchild

-- ---------------------------------------------------------------------------
-- Written paths
-- ---------------------------------------------------------------------------

/-- A label as a step of a written path. -/
def writeStep : Label → Bytes
  | (.text, _) => ascii "text()"
  | (.comment, _) => ascii "comment()"
  | (.instruction, _) => ascii "processing-instruction()"
  | (.attr, name) => 0x40 :: name
  | (.element, name) | (.document, name) => name

/-- A label that can be read back from the step that is written for it. -/
def Writable : Label → Prop
  | (.element, name) =>
    name ≠ [] ∧ 0x2F ∉ name ∧ name.head? ≠ some 0x40 ∧
      name ∉ [ascii "text()", ascii "comment()", ascii "processing-instruction()"]
  | (.attr, name) => 0x2F ∉ name
  | (.document, _) => False
  | (.text, name) | (.comment, name) | (.instruction, name) => name = []

theorem Writable.step (h : Writable label) : writeStep label ≠ [] ∧ 0x2F ∉ writeStep label := by
  obtain ⟨kind, name⟩ := label
  cases kind with
  | document => exact h.elim
  | element => exact ⟨h.1, h.2.1⟩
  | attr =>
    refine ⟨List.cons_ne_nil _ _, ?_⟩
    have hname : 0x2F ∉ name := h
    simpa [writeStep] using hname
  | text =>
    show ascii "text()" ≠ [] ∧ 0x2F ∉ ascii "text()"
    decide
  | comment =>
    show ascii "comment()" ≠ [] ∧ 0x2F ∉ ascii "comment()"
    decide
  | instruction =>
    show ascii "processing-instruction()" ≠ [] ∧ 0x2F ∉ ascii "processing-instruction()"
    decide

end PathSummary

end XmlStore
