import Mathlib.Data.List.TakeWhile
import XmlStore.Search.Expression

/-!
# What a cursor hands out

A cursor over the postings of a token hands out one hit for each node that has any, made of all
postings there.
-/

namespace XmlStore

namespace Cursor

/-- The hit that postings of one node make. -/
def hitOf (node : Nat) (postings : List Posting) : Hit :=
  { node, positions := postings.map (·.position), score := postings.length }

/-- The hits that postings make, one for each run of postings of the same node. -/
def groups : List Posting → List Hit
  | [] => []
  | first :: rest =>
    hitOf first.node (first :: rest.takeWhile (·.node == first.node)) ::
      groups (rest.dropWhile (·.node == first.node))
termination_by postings => postings.length
decreasing_by
  exact Nat.lt_succ_of_le (List.dropWhile_sublist _).length_le

/-- All postings are at text nodes. -/
def Texts (store : Store) (cursor : Cursor) : Prop :=
  ∀ posting ∈ cursor.rest, store.kind? posting.node = some .text

variable {store : Store} {cursor : Cursor}

theorem next_nil (h : groups cursor.rest = []) : cursor.next store = .ok none cursor := by
  unfold next
  cases hr : cursor.rest with
  | nil => rfl
  | cons first rest => simp [hr, groups] at h

theorem next_cons (ht : cursor.Texts store) {hit : Hit} {hits : List Hit}
    (h : groups cursor.rest = hit :: hits) :
    ∃ later, cursor.next store = .ok (some hit) later ∧ groups later.rest = hits ∧
      later.rest <:+ cursor.rest ∧ later.remaining < cursor.remaining := by
  obtain ⟨postings⟩ := cursor
  cases postings with
  | nil => simp [groups] at h
  | cons first rest =>
    have hkind : fault? store first = none := by
      simp [fault?, ht first List.mem_cons_self]
    have hdrop : rest.drop (rest.takeWhile (·.node == first.node)).length =
        rest.dropWhile (·.node == first.node) := by
      have happend := rest.takeWhile_append_dropWhile (p := (·.node == first.node))
      exact (congrArg (List.drop _) happend.symm).trans (List.drop_left ..)
    have hsuffix := List.dropWhile_suffix (l := rest) (·.node == first.node)
    rw [groups, List.cons.injEq] at h
    obtain ⟨rfl, rfl⟩ := h
    refine ⟨⟨rest.dropWhile (·.node == first.node)⟩, ?_, rfl, ?_, ?_⟩
    · simp [next, hkind, hitOf, hdrop]
    · exact hsuffix.trans (List.suffix_cons first rest)
    · exact Nat.lt_succ_of_le hsuffix.length_le

/-- Behind the postings of the first node all are of later nodes. -/
theorem lt_of_mem_dropWhile {first : Posting} {rest : List Posting}
    (hs : (first :: rest).Pairwise (Posting.before · ·)) {posting : Posting}
    (hm : posting ∈ rest.dropWhile (·.node == first.node)) : first.node < posting.node := by
  induction rest with
  | nil => cases hm
  | cons second rest ih =>
    simp only [List.pairwise_cons, List.mem_cons, forall_eq_or_imp, Posting.before_iff] at hs ih
    obtain ⟨⟨hfirst, hrest⟩, hsecond, hlater⟩ := hs
    by_cases hsame : second.node = first.node
    · rw [List.dropWhile_cons_of_pos (by simpa using hsame)] at hm
      exact ih ⟨hrest, hlater⟩ hm
    · rw [List.dropWhile_cons_of_neg (by simpa using hsame)] at hm
      rcases List.mem_cons.mp hm with rfl | hm
      · omega
      · have := hsecond posting hm
        omega

theorem take_token (ht : cursor.Texts store) {fuel : Nat} (hf : cursor.remaining < fuel) :
    (Hits.token cursor).take store fuel = .ok (groups cursor.rest) := by
  induction fuel generalizing cursor with
  | zero => omega
  | succ fuel ih =>
    cases hg : groups cursor.rest with
    | nil => simp [Hits.take, Hits.next, next_nil hg]
    | cons hit hits =>
      obtain ⟨later, hnext, hlater, hrest, hless⟩ := next_cons ht hg
      have htake := ih (fun posting hp => ht posting (hrest.subset hp)) (by omega)
      simp [Hits.take, Hits.next, hnext, htake, hlater, Except.map]

variable {first : Posting} {rest : List Posting}

theorem node_of_mem_takeWhile {node : Nat} {posting : Posting}
    (hm : posting ∈ rest.takeWhile (·.node == node)) : posting.node = node := by
  simpa using List.mem_takeWhile_imp hm

theorem filter_later (hs : (first :: rest).Pairwise (Posting.before · ·)) :
    (rest.dropWhile (·.node == first.node)).filter (·.node == first.node) = [] := by
  simp only [List.filter_eq_nil_iff, beq_iff_eq]
  exact fun posting hp => (lt_of_mem_dropWhile hs hp).ne'

theorem filter_same (hs : (first :: rest).Pairwise (Posting.before · ·)) :
    (first :: rest).filter (·.node == first.node) =
      first :: rest.takeWhile (·.node == first.node) := by
  have hrun : (rest.takeWhile (·.node == first.node)).filter (·.node == first.node) =
      rest.takeWhile (·.node == first.node) := by
    simp only [List.filter_eq_self, beq_iff_eq]
    exact fun posting hp => node_of_mem_takeWhile hp
  have happend := rest.takeWhile_append_dropWhile (p := (·.node == first.node))
  have hfilter := congrArg (List.filter fun p : Posting => p.node == first.node) happend
  rw [List.filter_append, hrun, filter_later hs, List.append_nil] at hfilter
  simp [hfilter]

theorem filter_other {node : Nat} (hn : node ≠ first.node) :
    (first :: rest).filter (·.node == node) =
      (rest.dropWhile (·.node == first.node)).filter (·.node == node) := by
  have hrun : (rest.takeWhile (·.node == first.node)).filter (·.node == node) = [] := by
    simp only [List.filter_eq_nil_iff, beq_iff_eq]
    exact fun posting hp hnode => hn (hnode.symm.trans (node_of_mem_takeWhile hp))
  have happend := rest.takeWhile_append_dropWhile (p := (·.node == first.node))
  have hfilter := congrArg (List.filter fun p : Posting => p.node == node) happend
  rw [List.filter_append, hrun, List.nil_append] at hfilter
  simp [hfilter, hn.symm]

theorem mem_groups {postings : List Posting} (hs : postings.Pairwise (Posting.before · ·))
    {hit : Hit} : hit ∈ groups postings ↔ postings.filter (·.node == hit.node) ≠ [] ∧
      hit = hitOf hit.node (postings.filter (·.node == hit.node)) := by
  fun_induction groups postings with
  | case1 => simp
  | case2 first rest ih =>
    have ih := ih ((List.pairwise_cons.mp hs).2.sublist (List.dropWhile_sublist _))
    rw [List.mem_cons, ih]
    by_cases hn : hit.node = first.node
    · simp [hn, filter_later hs, filter_same hs]
    · have hfirst : hit ≠ hitOf first.node (first :: rest.takeWhile (·.node == first.node)) :=
        fun h => hn (congrArg Hit.node h)
      simp [hfirst, filter_other hn]

theorem pairwise_groups {postings : List Posting} (hs : postings.Pairwise (Posting.before · ·)) :
    (groups postings).Pairwise (·.node < ·.node) := by
  fun_induction groups postings with
  | case1 => exact .nil
  | case2 first rest ih =>
    have hlater := (List.pairwise_cons.mp hs).2.sublist
      (List.dropWhile_sublist (·.node == first.node))
    refine .cons (fun hit hm => ?_) (ih hlater)
    obtain ⟨posting, hp⟩ := List.exists_mem_of_ne_nil _ ((mem_groups hlater).mp hm).1
    obtain ⟨hp, hnode⟩ := List.mem_filter.mp hp
    exact beq_iff_eq.mp hnode ▸ lt_of_mem_dropWhile hs hp

end Cursor

end XmlStore
