import XmlStore.Index.Words
import XmlStore.Proofs.Ascending
import XmlStore.Proofs.Distance

/-!
# What a word index finds

An index of texts has each occurrence of each token under the token, and nothing else. So what is
found under a token, and under the tokens near it, are its occurrences in the texts in order.
-/

namespace XmlStore

theorem Posting.orders_before : Orders Posting.before where
  irrefl := by simp [before_iff]
  trans := by
    intro a b c
    simp only [before_iff]
    omega
  connected := by
    rintro ⟨node, position⟩ ⟨node', position'⟩
    simp only [before_iff, Posting.mk.injEq]
    omega

/-- A token of a text is a match of a query. -/
def Token.fits (fuzzy : Bool) (query token : Token) : Bool :=
  query == token || fuzzy && EditDistance.distance query token ≤ query.defaultErrors

theorem Token.fits_tolerant {query token : Token} :
    query.fits true token ↔ EditDistance.distance query token ≤ query.defaultErrors := by
  simp only [Token.fits, Bool.or_eq_true, Bool.true_and, beq_iff_eq, decide_eq_true_eq]
  constructor
  · rintro (rfl | h)
    · simp [EditDistance.distance_self]
    · exact h
  · exact .inr

namespace WordIndex

def placesOf (index : WordIndex) (token : Token) : List Posting :=
  (index.entries.lookup token).getD []

theorem foldl_addOccurrence {entries : Table Token (List Posting)} (h : entries.Keyed)
    (found : List (Token × Posting)) :
    Table.Keyed (found.foldl addOccurrence entries) ∧ ∀ token posting,
      posting ∈ ((found.foldl addOccurrence entries).lookup token).getD [] ↔
        posting ∈ (entries.lookup token).getD [] ∨ (token, posting) ∈ found := by
  induction found generalizing entries with
  | nil => exact ⟨h, by simp⟩
  | cons occurrence rest ih =>
    obtain ⟨hkeyed, hmem⟩ := @ih (addOccurrence entries occurrence) h.update
    refine ⟨hkeyed, fun token posting => (hmem token posting).trans ?_⟩
    rw [addOccurrence, Table.lookup_update]
    obtain ⟨key, place⟩ := occurrence
    by_cases ht : token = key
    · subst ht
      simp only [if_pos, Option.getD_some, List.mem_cons, Prod.mk.injEq, true_and]
      tauto
    · simp [ht]

variable [Segmenter]

/-- An index of these texts, each with its node. -/
structure Lists (index : WordIndex) (texts : List (Nat × Bytes)) : Prop where
  keyed : index.entries.Keyed
  places : ∀ token posting, posting ∈ index.placesOf token ↔
    ∃ text, (posting.node, text) ∈ texts ∧
      (Token.ofBytes text)[posting.position]? = some token

theorem lists_empty (fuzzy : Bool) : Lists { fuzzy } [] where
  keyed := List.nodup_nil
  places := by simp [placesOf]

theorem mem_occurrences {node : Nat} {text : Bytes} {token : Token} {posting : Posting} :
    (token, posting) ∈ occurrences node text ↔
      posting.node = node ∧ (Token.ofBytes text)[posting.position]? = some token := by
  obtain ⟨node', position⟩ := posting
  constructor
  · intro h
    obtain ⟨occurrence, hm, he⟩ := List.mem_map.mp h
    cases he
    exact ⟨rfl, List.mem_zipIdx_iff_getElem?.mp hm⟩
  · rintro ⟨rfl, h⟩
    exact List.mem_map.mpr ⟨(token, position), List.mk_mem_zipIdx_iff_getElem?.mpr h, rfl⟩

theorem Lists.add {index : WordIndex} {texts : List (Nat × Bytes)} (h : index.Lists texts)
    (node : Nat) (text : Bytes) : (index.add node text).Lists (texts ++ [(node, text)]) := by
  obtain ⟨hkeyed, hmem⟩ := foldl_addOccurrence h.keyed (occurrences node text)
  refine ⟨hkeyed, fun token posting => (hmem token posting).trans ?_⟩
  have hplaces := h.places token posting
  unfold placesOf at hplaces
  rw [hplaces, mem_occurrences]
  simp only [List.mem_append, List.mem_singleton, Prod.mk.injEq, or_and_right, exists_or]
  refine or_congr Iff.rfl ⟨?_, ?_⟩
  · rintro ⟨hn, hp⟩
    exact ⟨text, ⟨hn, rfl⟩, hp⟩
  · rintro ⟨_, ⟨hn, rfl⟩, hp⟩
    exact ⟨hn, hp⟩

variable {index : WordIndex} {texts : List (Nat × Bytes)}

theorem Lists.mem_entry (h : index.Lists texts) {token : Token} {posting : Posting} :
    (∃ entry ∈ index.entries, entry.1 = token ∧ posting ∈ entry.2) ↔
      posting ∈ index.placesOf token := by
  unfold placesOf
  constructor
  · rintro ⟨entry, hentry, rfl, hm⟩
    rw [h.keyed.lookup_of_mem hentry]
    exact hm
  · intro hm
    cases hl : index.entries.lookup token with
    | none => simp [hl] at hm
    | some places =>
      rw [hl] at hm
      exact ⟨(token, places), Table.mem_of_lookup hl, rfl, hm⟩

/-- These are the places, in order, of the matches of a query in the texts. -/
structure Finds (texts : List (Nat × Bytes)) (fuzzy : Bool) (query : Token)
    (found : List Posting) : Prop where
  sorted : found.Pairwise (Posting.before · ·)
  mem : ∀ posting, posting ∈ found ↔ ∃ text token, (posting.node, text) ∈ texts ∧
    (Token.ofBytes text)[posting.position]? = some token ∧ query.fits fuzzy token

theorem Lists.finds_postings (h : index.Lists texts) (query : Token) :
    Finds texts false query (index.postings query) where
  sorted := Posting.orders_before.pairwise_ascending _
  mem := by
    intro posting
    refine Posting.orders_before.mem_ascending.trans ((h.places query posting).trans ?_)
    simp [Token.fits]

/-- A tolerant lookup finds, in order and each once, the occurrences of the tokens within the edit
distance. -/
theorem Lists.fuzzyPostings_near (h : index.Lists texts) (hf : index.fuzzy = true) (query : Token)
    (errors : Nat) :
    ∃ found, index.fuzzyPostings? query errors = some found ∧
      found.Pairwise (Posting.before · ·) ∧
      ∀ posting, posting ∈ found ↔ ∃ text token, (posting.node, text) ∈ texts ∧
        (Token.ofBytes text)[posting.position]? = some token ∧
          EditDistance.distance query token ≤ errors := by
  refine ⟨_, if_pos hf, Posting.orders_before.pairwise_ascending _, fun posting => ?_⟩
  have hnear : ∀ token : Token,
      (EditDistance.lengthsWithin errors query token &&
        EditDistance.within errors query token) = true ↔
          EditDistance.distance query token ≤ errors := by
    intro token
    rw [← EditDistance.within_iff, Bool.and_eq_true]
    exact and_iff_right_of_imp EditDistance.lengthsWithin_of_within
  refine Posting.orders_before.mem_ascending.trans ?_
  simp only [List.mem_flatMap, List.mem_filter, hnear]
  constructor
  · rintro ⟨entry, ⟨hentry, hmatch⟩, hm⟩
    obtain ⟨text, ht, hp⟩ := (h.places _ posting).mp (h.mem_entry.mp ⟨entry, hentry, rfl, hm⟩)
    exact ⟨text, entry.1, ht, hp, hmatch⟩
  · rintro ⟨text, token, ht, hp, hmatch⟩
    obtain ⟨entry, hentry, rfl, hm⟩ := h.mem_entry.mpr ((h.places token posting).mpr ⟨text, ht, hp⟩)
    exact ⟨entry, ⟨hentry, hmatch⟩, hm⟩

theorem Lists.finds_fuzzyPostings (h : index.Lists texts) (hf : index.fuzzy = true)
    (query : Token) :
    ∃ found, index.fuzzyPostings? query query.defaultErrors = some found ∧
      Finds texts true query found := by
  obtain ⟨found, hfound, hsorted, hmem⟩ := h.fuzzyPostings_near hf query query.defaultErrors
  exact ⟨found, hfound, hsorted, by simpa only [Token.fits_tolerant] using hmem⟩

end WordIndex

end XmlStore
