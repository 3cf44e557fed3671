import XmlStore.Database
import XmlStore.Index.Recall
import XmlStore.Proofs.Occurrences

/-!
# Lookups with a memory

What is remembered of a lookup is what the index answers, so that a lookup has the same answer
whatever was looked up before it: the occurrences of the tokens within the distance, in order.
-/

namespace XmlStore

namespace WordIndex

variable {μ : Type} [Memory μ] {index : WordIndex} {memory : μ}

/-- Every remembered answer is the answer of the index. -/
def Confirms (index : WordIndex) (memory : μ) : Prop :=
  ∀ lookup found, (Memory.get lookup memory).1 = some found →
    index.fuzzyPostings? lookup.token lookup.errors = some found

theorem confirms_empty (index : WordIndex) : index.Confirms (Memory.empty : μ) := by
  intro lookup found h
  rw [Memory.get_empty] at h
  cases h

theorem Confirms.get (h : index.Confirms memory) (lookup : Lookup) :
    index.Confirms (Memory.get lookup memory).2 :=
  fun other found hf => h other found (Memory.get_get hf)

theorem Confirms.put (h : index.Confirms memory) {lookup : Lookup} {found : List Posting}
    (hf : index.fuzzyPostings? lookup.token lookup.errors = some found) :
    index.Confirms (Memory.put lookup found memory) := by
  intro other answer hother
  rcases Memory.get_put hother with ⟨rfl, rfl⟩ | hold
  · exact hf
  · exact h other answer hold

/-- A lookup answers as the index does, and what is remembered stays confirmed. -/
theorem Confirms.lookUp (h : index.Confirms memory) (lookup : Lookup) :
    (index.lookUp lookup memory).1 = index.fuzzyPostings? lookup.token lookup.errors ∧
      index.Confirms (index.lookUp lookup memory).2 := by
  unfold WordIndex.lookUp
  split
  next hfuzzy =>
    have hkept := h.get lookup
    have hanswer := h lookup
    generalize Memory.get lookup memory = result at hkept hanswer
    obtain ⟨remembered, later⟩ := result
    cases remembered with
    | some found => exact ⟨(hanswer found rfl).symm, hkept⟩
    | none =>
      cases hfound : index.fuzzyPostings? lookup.token lookup.errors with
      | none => exact ⟨rfl, hkept⟩
      | some found => exact ⟨rfl, hkept.put hfound⟩
  next hexact => exact ⟨(if_neg hexact).symm, h⟩

theorem confirms_recallAfter (index : WordIndex) (lookups : List Lookup) :
    index.Confirms (index.recallAfter lookups : μ) :=
  List.foldlRecOn lookups _ (motive := index.Confirms) (confirms_empty index)
    fun _ h lookup _ => (h.lookUp lookup).2

/-- However much is looked up, no more than the latest answers are remembered. -/
theorem length_recallAfter_le (index : WordIndex) (lookups : List Lookup) :
    (index.recallAfter lookups : Recall).length ≤ Recall.capacity := by
  have hput (table : Recall) (lookup : Lookup) (found : List Posting) :
      (table.remember lookup found).length ≤ Recall.capacity :=
    List.length_take_le ..
  have hget {table : Recall} (h : table.length ≤ Recall.capacity) (lookup : Lookup) :
      (Recall.get lookup table).2.length ≤ Recall.capacity := by
    unfold Recall.get
    split
    · exact hput ..
    · exact h
  refine List.foldlRecOn lookups _ (motive := fun table : Recall => table.length ≤ _)
    (Nat.zero_le _) fun table h lookup _ => ?_
  have hkept := hget h lookup
  change (Memory.get lookup table).2.length ≤ _ at hkept
  unfold WordIndex.lookUp
  split
  · generalize Memory.get lookup table = result at hkept
    obtain ⟨_ | _, later⟩ := result
    · dsimp only
      split
      · exact hput ..
      · exact hkept
    · exact hkept
  · exact h

variable [Segmenter]

/-- The index of these texts, each with its node. -/
def ofTexts (fuzzy : Bool) (texts : List (Nat × Bytes)) : WordIndex :=
  texts.foldl (fun index text => index.add text.1 text.2) { fuzzy }

theorem Lists.addAll {texts : List (Nat × Bytes)} (h : index.Lists texts)
    (more : List (Nat × Bytes)) :
    (more.foldl (fun index text => index.add text.1 text.2) index).Lists (texts ++ more) := by
  induction more generalizing index texts with
  | nil => simpa using h
  | cons text rest ih => simpa using ih (h.add text.1 text.2)

theorem lists_ofTexts (fuzzy : Bool) (texts : List (Nat × Bytes)) :
    (ofTexts fuzzy texts).Lists texts := by
  simpa [ofTexts] using (lists_empty fuzzy).addAll texts

@[simp] theorem fuzzy_ofTexts (fuzzy : Bool) (texts : List (Nat × Bytes)) :
    (ofTexts fuzzy texts).fuzzy = fuzzy :=
  List.foldlRecOn texts _ (motive := fun index : WordIndex => index.fuzzy = fuzzy) rfl
    fun _ h _ _ => h

variable (μ) in
/-- Whatever was looked up before, a lookup in the index of some texts gives the occurrences of the
tokens of the texts within the edit distance: all of them, nothing else, in order and each once. -/
theorem lookUp_ofTexts (texts : List (Nat × Bytes)) (earlier : List Lookup) (token : Token)
    (errors : Option Nat) :
    let index := ofTexts true texts
    ∃ found,
      (index.lookUp (.ofToken token errors) (index.recallAfter earlier : μ)).1 = some found ∧
      found.Pairwise (Posting.before · ·) ∧
      ∀ posting, posting ∈ found ↔ ∃ text near, (posting.node, text) ∈ texts ∧
        (Token.ofBytes text)[posting.position]? = some near ∧
          EditDistance.distance token near ≤ errors.getD token.defaultErrors := by
  intro index
  rw [((confirms_recallAfter index earlier).lookUp _).1]
  exact (lists_ofTexts true texts).fuzzyPostings_near (fuzzy_ofTexts true texts) token _

end WordIndex

/-- The places that a tolerant search reads are the answer to a lookup with a memory, whatever has
been looked up before. -/
theorem Database.postings_recalled (μ : Type) [Memory μ] {db : Database} {index : WordIndex}
    (h : db.wordIndex true = .ok index) (earlier : List Lookup) (token : Token) :
    db.postings token true =
      match (index.lookUp (.ofToken token none) (index.recallAfter earlier : μ)).1 with
      | some found => .ok found
      | none => .error (.missingIndex .fuzzyFullText) := by
  rw [((WordIndex.confirms_recallAfter index earlier).lookUp _).1, Database.postings, h]
  rfl

end XmlStore
