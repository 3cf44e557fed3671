import Mathlib.Data.List.Forall2
import XmlStore.Proofs.Cursors
import XmlStore.Proofs.Triples

/-!
# Joining cursors

A join hands out, in order, each node on which all of its cursors have a hit. What is still to come
from a cursor are the groups of its postings. No round passes over a node that all cursors have,
and every round that leaves the cursors apart takes a posting.
-/

namespace XmlStore

-- ---------------------------------------------------------------------------
-- Moving a cursor
-- ---------------------------------------------------------------------------

namespace Joined

/-- The hit that the cursor stands on, and those that are still to come. -/
def left (joined : Joined) : List Hit := joined.head.toList ++ Cursor.groups joined.cursor.rest

@[simp] theorem left_none (cursor : Cursor) :
    left { cursor } = Cursor.groups cursor.rest := rfl

theorem left_of_head {joined : Joined} {hit : Hit} (hh : joined.head = some hit) :
    joined.left = hit :: Cursor.groups joined.cursor.rest := by
  simp [left, hh]

structure Ready (store : Store) (joined : Joined) : Prop where
  texts : joined.cursor.Texts store
  sorted : joined.left.Pairwise (·.node < ·.node)

/-- The cursor has been moved to the first hit at the target or behind it. -/
structure Reaches (target : Nat) (joined : Joined) (hit : Hit) (later : Joined) : Prop where
  head : later.head = some hit
  le : target ≤ hit.node
  rest : later.cursor.rest <:+ joined.cursor.rest
  suffix : later.left <:+ joined.left
  kept : ∀ h ∈ joined.left, target ≤ h.node → hit.node ≤ h.node ∧ h ∈ later.left
  moved : later = joined ∨ later.cursor.remaining < joined.cursor.remaining

variable {store : Store} {target fuel : Nat} {joined later : Joined} {hit : Hit}

theorem Reaches.ready (h : Reaches target joined hit later) (hr : joined.Ready store) :
    later.Ready store where
  texts posting hp := hr.texts posting (h.rest.subset hp)
  sorted := hr.sorted.sublist h.suffix.sublist

theorem Ready.clear (h : joined.Ready store) : Ready store { joined with head := none } where
  texts := h.texts
  sorted := h.sorted.sublist (List.sublist_append_right ..)

theorem Ready.lt_of_head (h : joined.Ready store) (hh : joined.head = some hit) :
    ∀ other ∈ Cursor.groups joined.cursor.rest, hit.node < other.node :=
  (List.pairwise_cons.mp (left_of_head hh ▸ h.sorted)).1

theorem Reaches.remaining_le (h : Reaches target joined hit later) :
    later.cursor.remaining ≤ joined.cursor.remaining := h.rest.length_le

theorem reaches_self (hr : joined.Ready store) (hh : joined.head = some hit)
    (ht : target ≤ hit.node) : Reaches target joined hit joined where
  head := hh
  le := ht
  rest := List.suffix_rfl
  suffix := List.suffix_rfl
  kept h hm _ := by
    refine ⟨?_, hm⟩
    rcases List.mem_cons.mp (left_of_head hh ▸ hm) with rfl | hm
    · exact Nat.le_refl _
    · exact (hr.lt_of_head hh h hm).le
  moved := .inl rfl

/-- Hits before the target may be skipped first. -/
theorem Reaches.skip {moved : Joined} (h : Reaches target moved hit later) {skipped : List Hit}
    (hleft : joined.left = skipped ++ moved.left) (hskipped : ∀ h ∈ skipped, h.node < target)
    (hrest : moved.cursor.rest <:+ joined.cursor.rest)
    (hless : moved.cursor.remaining < joined.cursor.remaining) :
    Reaches target joined hit later where
  head := h.head
  le := h.le
  rest := h.rest.trans hrest
  suffix := h.suffix.trans (hleft ▸ List.suffix_append ..)
  kept other hm hle := by
    rcases List.mem_append.mp (hleft ▸ hm) with hm | hm
    · exact absurd (hskipped other hm) (Nat.not_lt.mpr hle)
    · exact h.kept other hm hle
  moved := .inr (Nat.lt_of_le_of_lt h.remaining_le hless)

theorem advance_spec (target : Nat) (hr : joined.Ready store)
    (hf : joined.cursor.remaining < fuel) :
    Triple (advance store target fuel) joined
      (fun found later =>
        match found with
        | none => ∀ h ∈ joined.left, h.node < target
        | some hit => Reaches target joined hit later)
      fun _ _ => False := by
  -- A step that does not come to an end takes a posting, so that the fuel is enough.
  induction fuel generalizing joined with
  | zero => omega
  | succ fuel ih =>
    unfold Triple advance
    cases hfilter : joined.head.filter (fun hit => target ≤ hit.node) with
    | some hit =>
      simp only [Option.filter_eq_some_iff, decide_eq_true_eq] at hfilter
      exact reaches_self hr hfilter.1 hfilter.2
    | none =>
      simp only [Option.filter_eq_none_iff, decide_eq_true_eq, Nat.not_le] at hfilter
      cases hgroups : Cursor.groups joined.cursor.rest with
      | nil =>
        simp only [Cursor.next_nil hgroups, left, hgroups, List.append_nil, Option.mem_toList]
        exact hfilter
      | cons hit hits =>
        obtain ⟨later, hnext, hlater, hrest, hless⟩ := Cursor.next_cons hr.texts hgroups
        let moved : Joined := { cursor := later, head := some hit }
        have hleft : joined.left = joined.head.toList ++ moved.left := by
          simp [left, moved, hlater, hgroups]
        have hskipped : ∀ h ∈ joined.head.toList, h.node < target := by simpa using hfilter
        have hready : moved.Ready store :=
          ⟨fun posting hp => hr.texts posting (hrest.subset hp),
            hr.sorted.sublist (hleft ▸ List.sublist_append_right ..)⟩
        simp only [hnext]
        refine (ih hready (by simp only [moved]; omega)).mono ?_ fun _ _ h => h
        rintro (_ | found) later hfound
        · intro h hm
          rcases List.mem_append.mp (hleft ▸ hm) with hm | hm
          · exact hskipped h hm
          · exact hfound h hm
        · exact hfound.skip hleft hskipped hrest hless

end Joined

-- ---------------------------------------------------------------------------
-- Rounds
-- ---------------------------------------------------------------------------

namespace Join

/-- Each cursor has one of these hits left, all on one node. -/
def Agree (members : List Joined) (node : Nat) (hits : List Hit) : Prop :=
  List.Forall₂ (fun joined hit => hit ∈ joined.left ∧ hit.node = node) members hits

/-- A round that comes to its end. -/
inductive Rounds : Bool → Nat → List Joined → Round → List Joined → Prop
  | nil {isFirst : Bool} {target : Nat} : Rounds isFirst target [] { target, aligned := true } []
  | cons {isFirst : Bool} {target : Nat} {joined later : Joined} {hit : Hit}
      {rest laters : List Joined} {others : Round} (hreach : joined.Reaches target hit later)
      (hrest : Rounds false hit.node rest others laters) :
      Rounds isFirst target (joined :: rest)
        { others with aligned := others.aligned && (isFirst || !decide (target < hit.node)) }
        (later :: laters)

variable {store : Store} {isFirst : Bool} {target node : Nat} {members laters : List Joined}
  {result : Round} {hits : List Hit}

theorem round_spec (isFirst : Bool) (target : Nat) (hr : ∀ joined ∈ members, joined.Ready store) :
    Triple (round store isFirst target) members
      (fun found laters =>
        match found with
        | none => ∀ node hits, target ≤ node → ¬ Agree members node hits
        | some result => Rounds isFirst target members result laters)
      fun _ _ => False := by
  -- The target of the other cursors is the node to which the first one has come.
  induction members generalizing isFirst target with
  | nil => exact .of_run rfl .nil
  | cons joined rest ih =>
    obtain ⟨found, later, hj, hadvance⟩ :=
      (Joined.advance_spec target (hr joined List.mem_cons_self)
        (Nat.lt_succ_self _)).succeeds fun _ _ h => h
    cases found with
    | none =>
      have hrun : round store isFirst target (joined :: rest) = .ok none (later :: rest) := by
        simp only [round, hj]
      refine .of_run hrun ?_
      -- This cursor has nothing from the target on, so that no node there is one of all cursors.
      rintro node hits hle (_ | ⟨⟨hm, rfl⟩, -⟩)
      exact absurd (hadvance _ hm) (Nat.not_lt.mpr hle)
    | some hit =>
      have htarget : (if target < hit.node then hit.node else target) = hit.node := by
        have := hadvance.le
        split <;> omega
      obtain ⟨found, laters, hround, hothers⟩ :=
        (ih false hit.node fun joined hm => hr joined (List.mem_cons_of_mem _ hm)).succeeds
          fun _ _ h => h
      cases found with
      | none =>
        have hrun : round store isFirst target (joined :: rest) = .ok none (later :: laters) := by
          simp only [round, hj, htarget, hround]
        refine .of_run hrun ?_
        rintro node hits hle (_ | ⟨⟨hm, rfl⟩, hrest⟩)
        exact hothers _ _ (hadvance.kept _ hm hle).1 hrest
      | some others =>
        have hrun : round store isFirst target (joined :: rest) =
            .ok (some { others with
              aligned := others.aligned && (isFirst || !decide (target < hit.node)) })
              (later :: laters) := by
          simp only [round, hj, htarget, hround]
        exact .of_run hrun (.cons hadvance hothers)

namespace Rounds

theorem le (h : Rounds isFirst target members result laters) : target ≤ result.target := by
  induction h with
  | nil => exact Nat.le_refl _
  | cons hreach hrest ih => exact Nat.le_trans hreach.le ih

theorem ready (h : Rounds isFirst target members result laters)
    (hr : ∀ joined ∈ members, joined.Ready store) : ∀ later ∈ laters, later.Ready store := by
  induction h with
  | nil => exact hr
  | cons hreach hrest ih =>
    simp only [List.mem_cons, forall_eq_or_imp] at hr ⊢
    exact ⟨hreach.ready hr.1, ih hr.2⟩

/-- No round passes over a node that all cursors have. -/
theorem agree (h : Rounds isFirst target members result laters) (ha : Agree members node hits)
    (hn : target ≤ node) : result.target ≤ node ∧ Agree laters node hits := by
  induction h generalizing hits with
  | nil => exact ⟨hn, ha⟩
  | cons hreach hrest ih =>
    obtain _ | ⟨⟨hm, rfl⟩, ha⟩ := ha
    obtain ⟨hle, hkept⟩ := hreach.kept _ hm hn
    obtain ⟨hle, ha⟩ := ih ha hle
    exact ⟨hle, .cons ⟨hkept, rfl⟩ ha⟩

theorem agree_of_later (h : Rounds isFirst target members result laters)
    (ha : Agree laters node hits) : Agree members node hits := by
  induction h generalizing hits with
  | nil => exact ha
  | cons hreach hrest ih =>
    obtain _ | ⟨⟨hm, rfl⟩, ha⟩ := ha
    exact .cons ⟨hreach.suffix.subset hm, rfl⟩ (ih ha)

theorem heads (h : Rounds isFirst target members result laters) :
    ∀ later ∈ laters, ∃ hit, later.head = some hit ∧ hit.node ≤ result.target := by
  induction h with
  | nil => simp
  | cons hreach hrest ih =>
    simp only [List.mem_cons, forall_eq_or_imp]
    exact ⟨⟨_, hreach.head, hrest.le⟩, ih⟩

/-- After an aligned round all cursors stand on one node. -/
theorem aligned (h : Rounds isFirst target members result laters) (ha : result.aligned) :
    (isFirst = false → result.target = target) ∧
      ∀ later ∈ laters, ∃ hit, later.head = some hit ∧ hit.node = result.target := by
  induction h with
  | nil => simp
  | @cons isFirst target joined later hit rest laters others hreach hrest ih =>
    simp only [Bool.and_eq_true, Bool.or_eq_true, Bool.not_eq_true', decide_eq_false_iff_not] at ha
    obtain ⟨hsame, hlaters⟩ := ih ha.1
    have hle := hreach.le
    simp only [List.mem_cons, forall_eq_or_imp, forall_const] at hsame ⊢
    refine ⟨fun hf => ?_, ⟨hit, hreach.head, hsame.symm⟩, hlaters⟩
    simp only [hf, Bool.false_eq_true, false_or] at ha
    omega

theorem remaining_le (h : Rounds isFirst target members result laters) (done : Bool) :
    remaining ⟨laters, done⟩ ≤ remaining ⟨members, done⟩ := by
  induction h with
  | nil => exact Nat.le_refl _
  | cons hreach hrest ih => exact Nat.add_le_add hreach.remaining_le ih

/-- A round that leaves the cursors apart takes a posting. -/
theorem remaining_lt (h : Rounds isFirst target members result laters) (done : Bool)
    (ha : result.aligned = false)
    (hm : ∀ joined ∈ members, ∀ hit, joined.head = some hit → hit.node ≤ target) :
    remaining ⟨laters, done⟩ < remaining ⟨members, done⟩ := by
  induction h with
  | nil => cases ha
  | @cons isFirst target joined later hit rest laters others hreach hrest ih =>
    simp only [List.mem_cons, forall_eq_or_imp] at hm
    cases hothers : others.aligned with
    | false =>
      have := ih hothers fun joined hj hit hh => Nat.le_trans (hm.2 joined hj hit hh) hreach.le
      exact Nat.add_lt_add_of_le_of_lt hreach.remaining_le this
    | true =>
      simp only [hothers, Bool.true_and, Bool.or_eq_false_iff, Bool.not_eq_false',
        decide_eq_true_eq] at ha
      rcases hreach.moved with rfl | hless
      · have := hm.1 hit hreach.head
        omega
      · exact Nat.add_lt_add_of_lt_of_le hless (hrest.remaining_le done)

theorem starts (h : Rounds isFirst target members result laters) (done : Bool)
    (hne : members ≠ []) (hm : ∀ joined ∈ members, joined.head = none) :
    remaining ⟨laters, done⟩ < remaining ⟨members, done⟩ := by
  cases h with
  | nil => exact absurd rfl hne
  | cons hreach hrest =>
    rcases hreach.moved with rfl | hless
    · have := (hm _ List.mem_cons_self).symm.trans hreach.head
      cases this
    · exact Nat.add_lt_add_of_lt_of_le hless (hrest.remaining_le done)

end Rounds

/-- The cursors have been moved to the first node from the target on that all of them have. -/
structure Aligned (target : Nat) (members : List Joined) (node : Nat) (laters : List Joined) :
    Prop where
  heads : ∀ later ∈ laters, ∃ hit, later.head = some hit ∧ hit.node = node
  agree : ∀ {n hits}, Agree members n hits → target ≤ n → node ≤ n ∧ Agree laters n hits
  agree_of_later : ∀ {n hits}, Agree laters n hits → Agree members n hits
  ready : ∀ {store}, (∀ joined ∈ members, joined.Ready store) → ∀ later ∈ laters, later.Ready store
  remaining_le : ∀ done, remaining ⟨laters, done⟩ ≤ remaining ⟨members, done⟩

theorem Rounds.stop (h : Rounds isFirst target members result laters) (ha : result.aligned) :
    Aligned target members result.target laters where
  heads := (h.aligned ha).2
  agree := h.agree
  agree_of_later := h.agree_of_later
  ready := h.ready
  remaining_le := h.remaining_le

theorem Rounds.again {between : List Joined} (h : Rounds isFirst target members result between)
    (ha : Aligned result.target between node laters) : Aligned target members node laters where
  heads := ha.heads
  agree hm hn := by
    obtain ⟨hle, hb⟩ := h.agree hm hn
    exact ha.agree hb hle
  agree_of_later hl := h.agree_of_later (ha.agree_of_later hl)
  ready hr := ha.ready (h.ready hr)
  remaining_le done := Nat.le_trans (ha.remaining_le done) (h.remaining_le done)

theorem align_spec {fuel : Nat} (done : Bool) (hr : ∀ joined ∈ members, joined.Ready store)
    (hm : ∀ joined ∈ members, ∀ hit, joined.head = some hit → hit.node ≤ target)
    (hf : remaining ⟨members, done⟩ < fuel) :
    Triple (align store target fuel) members
      (fun found laters =>
        match found with
        | none => ∀ node hits, target ≤ node → ¬ Agree members node hits
        | some node => Aligned target members node laters ∧
            (members ≠ [] → (∀ joined ∈ members, joined.head = none) →
              remaining ⟨laters, done⟩ < remaining ⟨members, done⟩))
      fun _ _ => False := by
  -- No cursor stands behind the target, so that a round that goes beyond it has moved a cursor.
  induction fuel generalizing target members with
  | zero => omega
  | succ fuel ih =>
    obtain ⟨found, between, hround, hrounds⟩ :=
      (round_spec true target hr).succeeds fun _ _ h => h
    cases found with
    | none => exact .of_run (by simp only [align, hround]; rfl) hrounds
    | some result =>
      have hstarts := fun hne hnone => Rounds.starts hrounds done hne hnone
      cases ha : result.aligned with
      | true =>
        have hrun : align store target (fuel + 1) members = .ok (some result.target) between := by
          simp only [align, hround, ha, if_pos]
        exact .of_run hrun ⟨hrounds.stop ha, hstarts⟩
      | false =>
        have hheads : ∀ joined ∈ between, ∀ hit, joined.head = some hit →
            hit.node ≤ result.target := by
          intro joined hj hit hh
          obtain ⟨other, ho, hle⟩ := hrounds.heads joined hj
          cases hh.symm.trans ho
          exact hle
        have hless := hrounds.remaining_lt done ha hm
        obtain ⟨found, laters, halign, hagain⟩ :=
          (ih (hrounds.ready hr) hheads (by omega)).succeeds fun _ _ h => h
        have hrun : align store target (fuel + 1) members = .ok found laters := by
          simp only [align, hround, ha, halign, Bool.false_eq_true, if_false]
        refine .of_run hrun ?_
        cases found with
        | none =>
          intro node hits hle hagree
          obtain ⟨hle, hbetween⟩ := hrounds.agree hagree hle
          exact hagain node hits hle hbetween
        | some node =>
          refine ⟨hrounds.again hagain.1, fun hne hnone => ?_⟩
          exact Nat.lt_of_le_of_lt (hagain.1.remaining_le done) (hstarts hne hnone)

-- ---------------------------------------------------------------------------
-- The hits of a join
-- ---------------------------------------------------------------------------

section
variable (hh : ∀ later ∈ laters, ∃ hit, later.head = some hit ∧ hit.node = node)
include hh

/-- The only hits on the node on which all cursors stand are those on which they stand. -/
theorem agree_heads (hr : ∀ later ∈ laters, later.Ready store) :
    Agree laters node hits ↔ hits = laters.filterMap (·.head) := by
  induction laters generalizing hits with
  | nil => simp [Agree]
  | cons later laters ih =>
    simp only [List.mem_cons, forall_eq_or_imp] at hr hh
    obtain ⟨⟨hit, hhead, rfl⟩, hh⟩ := hh
    have hfirst : ∀ h, h ∈ later.left ∧ h.node = hit.node ↔ h = hit := by
      intro h
      rw [Joined.left_of_head hhead, List.mem_cons]
      constructor
      · rintro ⟨rfl | hm, hn⟩
        · rfl
        · exact absurd hn (hr.1.lt_of_head hhead h hm).ne'
      · rintro rfl
        exact ⟨.inl rfl, rfl⟩
    simp only [Agree, List.forall₂_cons_left_iff, hfirst, List.filterMap_cons, hhead]
    constructor
    · rintro ⟨h, rest, rfl, hrest, rfl⟩
      rw [(ih hh hr.2).mp hrest]
    · rintro rfl
      exact ⟨hit, _, rfl, (ih hh hr.2).mpr rfl, rfl⟩

/-- What else the cursors have in common they still have when these hits are gone. -/
theorem agree_clear {other : Nat} (hn : other ≠ node) :
    Agree (laters.map fun joined => { joined with head := none }) other hits ↔
      Agree laters other hits := by
  induction laters generalizing hits with
  | nil => simp [Agree]
  | cons later laters ih =>
    simp only [List.mem_cons, forall_eq_or_imp] at hh
    obtain ⟨⟨hit, hhead, rfl⟩, hh⟩ := hh
    have hfirst : ∀ h, h ∈ later.left ∧ h.node = other ↔
        h ∈ Cursor.groups later.cursor.rest ∧ h.node = other := by
      intro h
      rw [Joined.left_of_head hhead, List.mem_cons]
      constructor
      · rintro ⟨rfl | hm, hnode⟩
        · exact absurd hnode.symm hn
        · exact ⟨hm, hnode⟩
      · exact fun ⟨hm, hnode⟩ => ⟨.inr hm, hnode⟩
    have hrest := fun rest => @ih rest hh
    simp only [Agree] at hrest
    simp only [Agree, List.map_cons, List.forall₂_cons_left_iff, hfirst, hrest, Joined.left_none]

theorem lt_of_agree_clear (hr : ∀ later ∈ laters, later.Ready store) {other : Nat}
    (hne : laters ≠ [])
    (ha : Agree (laters.map fun joined => { joined with head := none }) other hits) :
    node < other := by
  cases laters with
  | nil => exact absurd rfl hne
  | cons later laters =>
    obtain _ | ⟨⟨hm, rfl⟩, -⟩ := ha
    obtain ⟨hit, hhead, rfl⟩ := hh later List.mem_cons_self
    exact (hr later List.mem_cons_self).lt_of_head hhead _ hm

end

/-- A join between two results. -/
structure Fresh (store : Store) (join : Join) : Prop where
  going : join.done = false
  nonempty : join.members ≠ []
  ready : ∀ joined ∈ join.members, joined.Ready store
  heads : ∀ joined ∈ join.members, joined.head = none

/-- The next hit is made of the hits on the first node that all cursors have, and everything else
that they have in common is behind it. -/
theorem next_spec {join : Join} (h : join.Fresh store) :
    Triple (next store) join
      (fun found later =>
        match found with
        | none => ∀ node hits, ¬ Agree join.members node hits
        | some hit => later.Fresh store ∧ later.remaining < join.remaining ∧
            (∀ node hits, Agree later.members node hits → hit.node < node) ∧
            ∃ hits, hit = merge hit.node hits ∧ ∀ node others, Agree join.members node others ↔
              (node = hit.node ∧ others = hits) ∨ Agree later.members node others)
      fun _ _ => False := by
  obtain ⟨members, done⟩ := join
  cases h.going
  have hheads : ∀ joined ∈ members, ∀ hit, joined.head = some hit → hit.node ≤ 0 := by
    intro joined hm hit hh
    cases (h.heads joined hm).symm.trans hh
  obtain ⟨found, laters, halign, hspec⟩ :=
    (align_spec false h.ready hheads (Nat.lt_add_of_pos_right Nat.two_pos)).succeeds
      fun _ _ h => h
  cases found with
  | none =>
    have hrun : next store ⟨members, false⟩ = .ok none ⟨laters, true⟩ := by
      simp [next, halign]
    exact .of_run hrun fun node hits => hspec node hits (Nat.zero_le _)
  | some node =>
    have hrun : next store ⟨members, false⟩ =
        .ok (some (merge node (laters.filterMap (·.head))))
          ⟨laters.map fun joined => { joined with head := none }, false⟩ := by
      simp [next, halign]
    obtain ⟨haligned, hless⟩ := hspec
    have hready := haligned.ready h.ready
    -- No cursors would agree on every node, and so would those that the join began with.
    have hne : laters ≠ [] := by
      rintro rfl
      cases members with
      | nil => exact h.nonempty rfl
      | cons joined rest => cases haligned.agree_of_later (n := node) .nil
    refine .of_run hrun ⟨⟨rfl, ?_, ?_, ?_⟩, ?_, ?_, laters.filterMap (·.head), rfl, ?_⟩
    · simpa using hne
    · simp only [List.mem_map, forall_exists_index, and_imp, forall_apply_eq_imp_iff₂]
      exact fun joined hm => (hready joined hm).clear
    · simp
    · simpa [remaining, List.foldr_map] using hless h.nonempty h.heads
    · exact fun other hits => lt_of_agree_clear haligned.heads hready hne
    · intro other hits
      have hmembers : Agree members other hits ↔ Agree laters other hits :=
        ⟨fun ha => (haligned.agree ha (Nat.zero_le _)).2, haligned.agree_of_later⟩
      rw [hmembers]
      -- On their node the cursors agree only until the hits there are gone.
      by_cases hn : other = node
      · subst hn
        have hnone : ¬ Agree (laters.map fun joined => { joined with head := none }) other hits :=
          fun ha => Nat.lt_irrefl _ (lt_of_agree_clear haligned.heads hready hne ha)
        rw [agree_heads haligned.heads hready]
        simp [merge, hnone]
      · simp [merge, hn, agree_clear haligned.heads hn]

theorem take_tokens {join : Join} (h : join.Fresh store) {fuel : Nat}
    (hf : join.remaining < fuel) :
    ∃ found, (Hits.tokens join).take store fuel = .ok found ∧
      found.Pairwise (·.node < ·.node) ∧
      ∀ hit, hit ∈ found ↔
        ∃ hits, Agree join.members hit.node hits ∧ hit = merge hit.node hits := by
  induction fuel generalizing join with
  | zero => omega
  | succ fuel ih =>
    obtain ⟨reached, later, hnext, hspec⟩ := (next_spec h).succeeds fun _ _ h => h
    cases reached with
    | none =>
      refine ⟨[], by simp [Hits.take, Hits.next, hnext], .nil, fun hit => ?_⟩
      simp [hspec]
    | some hit =>
      obtain ⟨hlater, hless, habove, hits, hhit, hagree⟩ := hspec
      obtain ⟨found, htake, hpairwise, hmem⟩ := ih hlater (by omega)
      refine ⟨hit :: found, ?_, ?_, ?_⟩
      · simp [Hits.take, Hits.next, hnext, htake, Except.map]
      · refine .cons (fun other hm => ?_) hpairwise
        obtain ⟨others, ha, -⟩ := (hmem other).mp hm
        exact habove _ _ ha
      · intro other
        simp only [List.mem_cons, hmem, hagree, or_and_right, exists_or]
        refine or_congr ⟨?_, ?_⟩ Iff.rfl
        · rintro rfl
          exact ⟨hits, ⟨rfl, rfl⟩, hhit⟩
        · rintro ⟨_, ⟨hnode, rfl⟩, hother⟩
          rw [hother, hnode, ← hhit]

end Join

end XmlStore
