import XmlStore.Proofs.Indexing
import XmlStore.Proofs.Joining

/-!
# Searching finds what is there

A search for words through the index finds what a look at every text node finds: the text nodes
that have a match for each word, with the positions of all matches.
-/

namespace XmlStore

/-- The positions of the matches of a query. -/
def Token.positions (fuzzy : Bool) (tokens : List Token) (query : Token) : List Nat :=
  (List.range tokens.length).filter fun p => tokens[p]?.any (query.fits fuzzy)

namespace Database

variable [Segmenter]

/-- A text with a match for each query is a hit. -/
def scanText (fuzzy : Bool) (queries : List Token) (node : Nat) (text : Bytes) : Option Hit :=
  let tokens := Token.ofBytes text
  if queries.all fun query => tokens.any (query.fits fuzzy) then
    some {
      node
      positions := (List.range tokens.length).filter fun p =>
        queries.any fun query => tokens[p]?.any (query.fits fuzzy)
      score := (queries.map fun query => ((query.positions fuzzy tokens).length : Int)).sum }
  else none

/-- What a look at every text node finds. -/
def scan (db : Database) (text : List Char) (fuzzy : Bool) : List Hit :=
  let queries := distinctTokens text
  if queries.isEmpty then []
  else db.store.texts.filterMap fun entry => scanText fuzzy queries entry.1 entry.2

end Database

variable {texts : List (Nat × Bytes)} {fuzzy : Bool} {query : Token} {found : List Posting}
  {tokens : List Token} {node : Nat} {text : Bytes}

-- ---------------------------------------------------------------------------
-- One query
-- ---------------------------------------------------------------------------

namespace Token

theorem mem_positions {p : Nat} :
    p ∈ query.positions fuzzy tokens ↔
      ∃ token, tokens[p]? = some token ∧ query.fits fuzzy token := by
  simp only [positions, List.mem_filter, List.mem_range, Option.any_eq_true]
  constructor
  · exact fun h => h.2
  · rintro ⟨token, ht, hm⟩
    exact ⟨(List.getElem?_eq_some_iff.mp ht).1, token, ht, hm⟩

theorem pairwise_positions : (query.positions fuzzy tokens).Pairwise (· < ·) :=
  List.pairwise_lt_range.filter _

theorem positions_ne_nil :
    query.positions fuzzy tokens ≠ [] ↔ tokens.any (query.fits fuzzy) := by
  constructor
  · intro h
    obtain ⟨p, hp⟩ := List.exists_mem_of_ne_nil _ h
    obtain ⟨token, ht, hfit⟩ := mem_positions.mp hp
    exact List.any_eq_true.mpr ⟨token, List.mem_of_getElem? ht, hfit⟩
  · intro h
    obtain ⟨token, hm, hfit⟩ := List.any_eq_true.mp h
    obtain ⟨p, hp⟩ := List.mem_iff_getElem?.mp hm
    exact List.ne_nil_of_mem (mem_positions.mpr ⟨token, hp, hfit⟩)

end Token

/-- The positions of the postings on a node. -/
def positionsOn (node : Nat) (found : List Posting) : List Nat :=
  (found.filter (·.node == node)).map (·.position)

theorem pairwise_positionsOn (hs : found.Pairwise (Posting.before · ·)) :
    (positionsOn node found).Pairwise (· < ·) := by
  refine List.pairwise_map.mpr ((hs.filter _).imp_of_mem ?_)
  intro a b ha hb hab
  have ha := beq_iff_eq.mp (List.mem_filter.mp ha).2
  have hb := beq_iff_eq.mp (List.mem_filter.mp hb).2
  simpa [Posting.before_iff, ha, hb] using hab

theorem mem_positionsOn {p : Nat} : p ∈ positionsOn node found ↔ ⟨node, p⟩ ∈ found := by
  simp only [positionsOn, List.mem_map, List.mem_filter, beq_iff_eq]
  constructor
  · rintro ⟨posting, ⟨hm, rfl⟩, rfl⟩
    exact hm
  · exact fun hm => ⟨_, ⟨hm, rfl⟩, rfl⟩

theorem WordIndex.Finds.positionsOn_eq [Segmenter] (h : Finds texts fuzzy query found)
    (hsingle : ∀ other, (node, other) ∈ texts → other = text) (hm : (node, text) ∈ texts) :
    positionsOn node found = query.positions fuzzy (Token.ofBytes text) := by
  refine (pairwise_positionsOn h.sorted).eq_of_mem_iff Token.pairwise_positions fun p => ?_
  rw [mem_positionsOn, h.mem, Token.mem_positions]
  constructor
  · rintro ⟨other, token, ho, hp, hfit⟩
    obtain rfl := hsingle other ho
    exact ⟨token, hp, hfit⟩
  · rintro ⟨token, hp, hfit⟩
    exact ⟨text, token, hm, hp, hfit⟩

theorem WordIndex.Finds.exists_text [Segmenter] (h : Finds texts fuzzy query found)
    (hne : positionsOn node found ≠ []) : ∃ text, (node, text) ∈ texts := by
  obtain ⟨p, hp⟩ := List.exists_mem_of_ne_nil _ hne
  obtain ⟨text, token, ht, -⟩ := (h.mem _).mp (mem_positionsOn.mp hp)
  exact ⟨text, ht⟩

-- ---------------------------------------------------------------------------
-- Several queries
-- ---------------------------------------------------------------------------

/-- The hit on a node that the positions of several queries make together. -/
def together (node : Nat) (lists : List (List Nat)) : Hit :=
  { node
    positions := ascending (fun a b => a < b) lists.flatten
    score := (lists.map (·.length)).sum }

variable {queries : List Token} {founds : List (List Posting)}

theorem together_singleton {list : List Nat} (hs : list.Pairwise (· < ·)) :
    together node [list] = { node, positions := list, score := list.length } := by
  have hsorted := (orders_lt.pairwise_ascending list).imp (S := (· < ·)) (by simp)
  have hsame := hsorted.eq_of_mem_iff hs fun _ => orders_lt.mem_ascending
  simp [together, hsame]

theorem merge_hitsOf (node : Nat) (founds : List (List Posting)) :
    Join.merge node (founds.map fun found => Cursor.hitOf node (found.filter (·.node == node))) =
      together node (founds.map (positionsOn node)) := by
  unfold Join.merge together
  congr 1
  · rw [List.flatMap_map]
    rfl
  · induction founds with
    | nil => rfl
    | cons found rest ih =>
      simp only [List.map_cons, List.foldr_cons, List.sum_cons, ih]
      simp [positionsOn, Cursor.hitOf]

theorem scanText_eq [Segmenter] (fuzzy : Bool) (queries : List Token) (node : Nat)
    (text : Bytes) :
    Database.scanText fuzzy queries node text =
      let lists := queries.map fun query => query.positions fuzzy (Token.ofBytes text)
      if [] ∈ lists then none else some (together node lists) := by
  have hall : (queries.all fun query => (Token.ofBytes text).any (query.fits fuzzy)) = true ↔
      [] ∉ queries.map fun query => query.positions fuzzy (Token.ofBytes text) := by
    simp only [List.all_eq_true, ← Token.positions_ne_nil, List.mem_map, not_exists, not_and]
  have hpositions : ((List.range (Token.ofBytes text).length).filter fun p =>
      queries.any fun query => (Token.ofBytes text)[p]?.any (query.fits fuzzy)) =
        ascending (fun a b => a < b)
          (queries.map fun query => query.positions fuzzy (Token.ofBytes text)).flatten := by
    have hsorted := orders_lt.pairwise_ascending
      (queries.map fun query => query.positions fuzzy (Token.ofBytes text)).flatten
    refine (List.pairwise_lt_range.filter _).eq_of_mem_iff (hsorted.imp (by simp)) fun p => ?_
    simp only [orders_lt.mem_ascending, List.mem_flatten, List.mem_map, List.mem_filter,
      List.any_eq_true, exists_exists_and_eq_and, Token.positions]
    tauto
  unfold Database.scanText
  simp only [hall, hpositions, together, List.map_map, ite_not]
  rfl

/-- All cursors agree on a node if each has postings there, and then on all of these. -/
theorem agree_cursors (hs : ∀ found ∈ founds, found.Pairwise (Posting.before · ·))
    {hits : List Hit} :
    Join.Agree (founds.map fun found => { cursor := ⟨found⟩ }) node hits ↔
      [] ∉ founds.map (positionsOn node) ∧
        hits = founds.map fun found => Cursor.hitOf node (found.filter (·.node == node)) := by
  induction founds generalizing hits with
  | nil => simp [Join.Agree]
  | cons found rest ih =>
    simp only [List.mem_cons, forall_eq_or_imp] at hs
    have hfirst : ∀ hit, hit ∈ Cursor.groups found ∧ hit.node = node ↔
        positionsOn node found ≠ [] ∧
          hit = Cursor.hitOf node (found.filter (·.node == node)) := by
      intro hit
      rw [Cursor.mem_groups hs.1]
      constructor
      · rintro ⟨⟨hne, hhit⟩, rfl⟩
        exact ⟨by simpa [positionsOn] using hne, hhit⟩
      · rintro ⟨hne, rfl⟩
        exact ⟨⟨by simpa [positionsOn, Cursor.hitOf] using hne, rfl⟩, rfl⟩
    have hrest := fun hits => @ih hs.2 hits
    simp only [Join.Agree] at hrest
    simp only [Join.Agree, List.map_cons, List.forall₂_cons_left_iff, Joined.left_none, hfirst,
      hrest, List.mem_cons, not_or]
    constructor
    · rintro ⟨_, _, ⟨hne, rfl⟩, ⟨hall, rfl⟩, rfl⟩
      exact ⟨⟨hne.symm, hall⟩, rfl⟩
    · rintro ⟨⟨hne, hall⟩, rfl⟩
      exact ⟨_, _, ⟨Ne.symm hne, rfl⟩, ⟨hall, rfl⟩, rfl⟩

/-- What a search of these postings gives. -/
def Hits.Gives (store : Store) (hits : Hits) (founds : List (List Posting)) : Prop :=
  ∃ result, hits.toList store = .ok result ∧ result.Pairwise (·.node < ·.node) ∧
    ∀ hit, hit ∈ result ↔ [] ∉ founds.map (positionsOn hit.node) ∧
      hit = together hit.node (founds.map (positionsOn hit.node))

section
variable {store : Store}

theorem gives_token (hs : found.Pairwise (Posting.before · ·))
    (ht : Cursor.Texts store ⟨found⟩) : Hits.Gives store (.token ⟨found⟩) [found] := by
  refine ⟨_, Cursor.take_token ht (Nat.lt_succ_self _), Cursor.pairwise_groups hs, fun hit => ?_⟩
  rw [Cursor.mem_groups hs, List.map_singleton, together_singleton (pairwise_positionsOn hs)]
  simp [positionsOn, Cursor.hitOf, eq_comm (a := [])]

theorem gives_tokens (hne : founds ≠ [])
    (hs : ∀ found ∈ founds, found.Pairwise (Posting.before · ·))
    (ht : ∀ found ∈ founds, Cursor.Texts store ⟨found⟩) :
    Hits.Gives store (.tokens (.ofCursors (founds.map Cursor.mk))) founds := by
  have hfresh : (Join.ofCursors (founds.map Cursor.mk)).Fresh store := by
    constructor
    · simpa [Join.ofCursors] using hne
    · simpa [Join.ofCursors] using hne
    · simp only [Join.ofCursors, List.mem_map, forall_exists_index, and_imp,
        forall_apply_eq_imp_iff₂]
      exact fun found hm => ⟨ht found hm, Cursor.pairwise_groups (hs found hm)⟩
    · simp [Join.ofCursors]
  obtain ⟨result, htake, hpairwise, hmem⟩ := Join.take_tokens hfresh (Nat.lt_succ_self _)
  refine ⟨result, htake, hpairwise, fun hit => (hmem hit).trans ?_⟩
  simp only [Join.ofCursors, List.map_map, Function.comp_def, agree_cursors hs]
  constructor
  · rintro ⟨_, ⟨hall, rfl⟩, hhit⟩
    exact ⟨hall, hhit.trans (merge_hitsOf ..)⟩
  · rintro ⟨hall, hhit⟩
    exact ⟨_, ⟨hall, rfl⟩, hhit.trans (merge_hitsOf ..).symm⟩

end

-- ---------------------------------------------------------------------------
-- The search and the scan
-- ---------------------------------------------------------------------------

namespace Database

variable [Segmenter] {db : Database}

theorem node_of_scanText {hit : Hit} (h : scanText fuzzy queries node text = some hit) :
    hit.node = node := by
  simp only [scanText_eq, Option.ite_none_left_eq_some, Option.some.injEq] at h
  rw [← h.2, together]

theorem mem_scanned {hit : Hit} :
    hit ∈ texts.filterMap (fun entry => scanText fuzzy queries entry.1 entry.2) ↔
      ∃ text, (hit.node, text) ∈ texts ∧
        scanText fuzzy queries hit.node text = some hit := by
  simp only [List.mem_filterMap, Prod.exists]
  constructor
  · rintro ⟨node, text, hm, hscan⟩
    obtain rfl := node_of_scanText hscan
    exact ⟨text, hm, hscan⟩
  · rintro ⟨text, hm, hscan⟩
    exact ⟨_, text, hm, hscan⟩

theorem pairwise_scanned (ht : texts.Pairwise (·.1 < ·.1)) :
    (texts.filterMap fun entry => scanText fuzzy queries entry.1 entry.2).Pairwise
      (·.node < ·.node) := by
  refine ht.filterMap _ fun a b hab hit hhit other hother => ?_
  rw [node_of_scanText hhit, node_of_scanText hother]
  exact hab

theorem Answers.cursors (h : db.Answers fuzzy) (queries : List Token) :
    ∃ founds, List.Forall₂ (WordIndex.Finds db.store.texts fuzzy) queries founds ∧
      queries.mapM (fun token => do return (⟨← db.postings token fuzzy⟩ : Cursor)) =
        .ok (founds.map Cursor.mk) := by
  induction queries with
  | nil => exact ⟨[], .nil, rfl⟩
  | cons query rest ih =>
    obtain ⟨found, hfound, hfinds⟩ := h.postings query
    obtain ⟨founds, hrest, hmap⟩ := ih
    refine ⟨found :: founds, .cons hfinds hrest, ?_⟩
    simp only [List.mapM_cons, hfound, hmap]
    rfl

theorem scanned_of_gives {hits : Hits} (hne : queries ≠ [])
    (hfinds : List.Forall₂ (WordIndex.Finds db.store.texts fuzzy) queries founds)
    (hgives : hits.Gives db.store founds) :
    hits.toList db.store =
      .ok (db.store.texts.filterMap fun entry => scanText fuzzy queries entry.1 entry.2) := by
  obtain ⟨result, hresult, hpairwise, hmem⟩ := hgives
  have hsingle : ∀ {node text other}, (node, text) ∈ db.store.texts →
      (node, other) ∈ db.store.texts → other = text := fun ht ho =>
    (Store.mem_texts.mp ho).2.symm.trans (Store.mem_texts.mp ht).2
  have hlists : ∀ {node text}, (node, text) ∈ db.store.texts →
      founds.map (positionsOn node) =
        queries.map fun query => query.positions fuzzy (Token.ofBytes text) := by
    intro node text hm
    clear hmem hne
    induction hfinds with
    | nil => rfl
    | cons hfirst _ ih =>
      rw [List.map_cons, List.map_cons, ih,
        hfirst.positionsOn_eq (fun _ => hsingle hm) hm]
  -- This is where there has to be a query: without one every node would do.
  have hsome : ∀ {node}, [] ∉ founds.map (positionsOn node) →
      ∃ text, (node, text) ∈ db.store.texts := by
    intro node hall
    cases hfinds with
    | nil => exact absurd rfl hne
    | cons hfirst _ =>
      rw [List.map_cons, List.mem_cons, not_or] at hall
      exact hfirst.exists_text (Ne.symm hall.1)
  -- Both lists are in the order of their nodes, so that it is enough that they have the same hits.
  have hsame : result =
      db.store.texts.filterMap fun entry => scanText fuzzy queries entry.1 entry.2 := by
    refine eq_of_mem_iff_of_key Hit.node hpairwise (pairwise_scanned db.store.texts_pairwise)
      fun hit => ?_
    rw [hmem, mem_scanned]
    simp only [scanText_eq, Option.ite_none_left_eq_some, Option.some.injEq]
    constructor
    · rintro ⟨hall, hhit⟩
      obtain ⟨text, hm⟩ := hsome hall
      refine ⟨text, hm, ?_⟩
      rw [← hlists hm]
      exact ⟨hall, hhit.symm⟩
    · rintro ⟨text, hm, hall, hhit⟩
      rw [← hlists hm] at hall hhit
      exact ⟨hall, hhit.symm⟩
  rw [hresult, hsame]

theorem ready_of_finds
    (h : List.Forall₂ (WordIndex.Finds db.store.texts fuzzy) queries founds) :
    ∀ found ∈ founds, found.Pairwise (Posting.before · ·) ∧ Cursor.Texts db.store ⟨found⟩ := by
  induction h with
  | nil => simp
  | cons hfirst _ ih =>
    simp only [List.mem_cons, forall_eq_or_imp]
    refine ⟨⟨hfirst.sorted, fun posting hm => ?_⟩, ih⟩
    obtain ⟨text, token, ht, -⟩ := (hfirst.mem posting).mp hm
    exact (Store.mem_texts.mp ht).1

theorem Answers.search_eq (h : db.Answers fuzzy) (text : List Char) :
    db.search (.words text fuzzy) = .ok (db.scan text fuzzy) := by
  obtain ⟨founds, hfinds, hmap⟩ := h.cursors (distinctTokens text)
  have hready := ready_of_finds hfinds
  unfold search Expression.hits scan
  rw [hmap]
  generalize distinctTokens text = queries at hfinds
  -- Text without words finds nothing, one word needs no join.
  cases hfinds with
  | nil =>
    obtain ⟨index, hindex⟩ := h.index
    simp only [hindex]
    rfl
  | @cons query found queries founds hfirst hrest =>
    cases founds with
    | nil =>
      obtain ⟨hs, ht⟩ := hready found List.mem_cons_self
      exact scanned_of_gives (List.cons_ne_nil _ _) (.cons hfirst hrest) (gives_token hs ht)
    | cons second founds =>
      exact scanned_of_gives (List.cons_ne_nil _ _) (.cons hfirst hrest)
        (gives_tokens (List.cons_ne_nil _ _) (fun found hm => (hready found hm).1)
          fun found hm => (hready found hm).2)

end Database

-- ---------------------------------------------------------------------------
-- Exact searches
-- ---------------------------------------------------------------------------

theorem nodup_eraseDups {α : Type} [BEq α] [LawfulBEq α] :
    (as : List α) → as.eraseDups.Nodup
  | [] => List.nodup_nil
  | a :: as => by
    rw [List.eraseDups_cons, List.nodup_cons, List.mem_eraseDups]
    exact ⟨by simp, nodup_eraseDups _⟩
termination_by as => as.length
decreasing_by exact Nat.lt_succ_of_le (List.length_filter_le _ _)

theorem length_filter_or {α : Type} {a b : α → Bool} (hab : ∀ x, ¬ (a x ∧ b x)) (xs : List α) :
    (xs.filter fun x => a x || b x).length = (xs.filter a).length + (xs.filter b).length := by
  induction xs with
  | nil => rfl
  | cons x xs ih =>
    have := hab x
    simp only [List.filter_cons]
    cases ha : a x <;> cases hb : b x <;> simp_all <;> omega

/-- Different words have no exact match in common. -/
theorem sum_length_positions (hn : queries.Nodup) (tokens : List Token) :
    (queries.map fun query => ((query.positions false tokens).length : Int)).sum =
      ((List.range tokens.length).filter fun p =>
        queries.any fun query => tokens[p]?.any (query.fits false)).length := by
  induction queries with
  | nil => simp
  | cons query queries ih =>
    rw [List.nodup_cons] at hn
    have hdisjoint : ∀ p : Nat, ¬ (tokens[p]?.any (query.fits false) ∧
        queries.any fun query => tokens[p]?.any (query.fits false)) := by
      simp only [List.any_eq_true, Option.any_eq_true, Token.fits, Bool.false_and, Bool.or_false,
        beq_iff_eq]
      rintro p ⟨⟨token, ht, rfl⟩, other, hm, _, hother, rfl⟩
      rw [ht, Option.some.injEq] at hother
      exact hn.1 (hother ▸ hm)
    rw [List.map_cons, List.sum_cons, ih hn.2]
    simp only [List.any_cons, length_filter_or hdisjoint, Token.positions, Int.natCast_add]

namespace Database

variable {db : Database}

theorem scanText_spec [Segmenter] {hit : Hit} (hn : queries.Nodup)
    (h : scanText fuzzy queries node text = some hit) :
    hit.negated = false ∧ hit.positions.Pairwise (· < ·) ∧
      (fuzzy = false → hit.score = hit.positions.length) := by
  simp only [scanText, Option.ite_none_right_eq_some, Option.some.injEq] at h
  obtain ⟨-, rfl⟩ := h
  refine ⟨rfl, List.pairwise_lt_range.filter _, ?_⟩
  rintro rfl
  exact sum_length_positions hn _

/-- A search for words finds what the scan of all text nodes finds: the text nodes with a match for
each word, in order, with the positions of the matches in order. -/
theorem search_scans [Segmenter] {options : IndexOptions} {chop : Bool} {metadata : Metadata}
    {calls : List Call} {builder : Builder}
    (hrun : calls.forM Builder.take { Builder.ofOptions options with chop, metadata } =
      .ok () builder)
    (hfinish : builder.finish = .ok db) (hwords : options.words) (hfuzzy : fuzzy → options.fuzzy)
    (text : List Char) :
    db.search (.words text fuzzy) = .ok (db.scan text fuzzy) ∧
      (db.scan text fuzzy).Pairwise (·.node < ·.node) ∧
      ∀ hit ∈ db.scan text fuzzy, hit.negated = false ∧ hit.positions.Pairwise (· < ·) ∧
        (fuzzy = false → hit.score = hit.positions.length) := by
  have hanswers := (Builder.indexed_run hrun).answers hfinish hwords hfuzzy
  refine ⟨hanswers.search_eq text, ?_⟩
  unfold scan
  dsimp only
  split
  · simp
  · refine ⟨pairwise_scanned db.store.texts_pairwise, fun hit hm => ?_⟩
    obtain ⟨value, -, hscan⟩ := mem_scanned.mp hm
    exact scanText_spec (nodup_eraseDups _) hscan

def twoTexts : List Call :=
  [.startDocument (ascii "d"), .startElement (ascii "r") [],
    .text (ascii "Red fish, blue fish") false, .comment [], .text (ascii "blue") false,
    .endElement (ascii "r"), .endDocument]

theorem search_scans_two_texts :
    ∃ builder db,
      twoTexts.forM Builder.take
        { Builder.ofOptions { words := true, fuzzy := true } with chop := false, metadata := {} } =
          .ok () builder ∧
      builder.finish = .ok db ∧
      db.search (.words "FISK blue".toList true) =
        .ok [{ node := 2, positions := [1, 2, 3], score := 3 }] := by
  have hscan :
      (match twoTexts.forM Builder.take
          { Builder.ofOptions { words := true, fuzzy := true } with
            chop := false, metadata := {} } with
      | .ok () builder =>
        match builder.finish with
        | .ok db => decide (db.scan "FISK blue".toList true =
            [{ node := 2, positions := [1, 2, 3], score := 3 }])
        | .error _ => false
      | .error _ _ => false) = true := by
    decide +kernel
  split at hscan
  next builder hrun =>
    split at hscan
    next db hfinish =>
      have hfuzzy : true = true → ({ words := true, fuzzy := true } : IndexOptions).fuzzy = true :=
        fun _ => rfl
      have hsearch := (search_scans hrun hfinish rfl hfuzzy "FISK blue".toList).1
      rw [of_decide_eq_true hscan] at hsearch
      exact ⟨builder, db, hrun, hfinish, hsearch⟩
    next => cases hscan
  next => cases hscan

end Database

end XmlStore
