import Mathlib.Data.Set.Card
import Mathlib.Logic.Relation
import XmlStore.Proofs.Expanding

/-!
# When every reference can be replaced

The references met in a text are those written in it and those met in the texts declared for them,
each as often as it is met. A place tells one of them from the others: how many pieces stand before
it at each level. A text is expanded without a fault just when the places are few enough, none of
them lies too deep, and each holds a reference that stands for something. Entities that lead back to
themselves have places at every depth.
-/

namespace XmlStore.Entities

variable {entities : Entities} {pieces rest : List Piece} {path : List Nat}
  {name outer inner text bytes : Bytes} {levels expanded : Nat}

-- ---------------------------------------------------------------------------
-- Places
-- ---------------------------------------------------------------------------

/-- The reference at a place: among the pieces themselves, or inside the text that is declared for
the reference at the place above. -/
inductive Occurs (entities : Entities) : List Piece → (path : List Nat) → (name : Bytes) → Prop
  | here {name : Bytes} {rest : List Piece} : Occurs entities (.reference name :: rest) [0] name
  | inside {outer text name : Bytes} {rest : List Piece} {path : List Nat}
      (hd : entities.declaredText? outer = some text)
      (h : Occurs entities (Piece.ofText text) path name) :
      Occurs entities (.reference outer :: rest) (0 :: path) name
  | later {piece : Piece} {name : Bytes} {rest : List Piece} {i : Nat} {path : List Nat}
      (h : Occurs entities rest (i :: path) name) :
      Occurs entities (piece :: rest) ((i + 1) :: path) name

/-- Where references are met, however deep. -/
def places (entities : Entities) (pieces : List Piece) : Set (List Nat) :=
  {path | ∃ name, entities.Occurs pieces path name}

/-- Where references are met inside the text that is declared for one. -/
def placesInside (entities : Entities) (name : Bytes) : Set (List Nat) :=
  {path | ∃ text, entities.declaredText? name = some text ∧
    path ∈ entities.places (Piece.ofText text)}

/-- The same place when one more piece stands before. -/
def skip : List Nat → List Nat
  | [] => []
  | i :: path => (i + 1) :: path

theorem skip_injective : Function.Injective skip := by
  intro path path' h
  cases path <;> cases path' <;> simp_all [skip]

@[simp] theorem not_occurs_nil : ¬ entities.Occurs pieces [] name := nofun

@[simp] theorem places_nil : entities.places [] = ∅ :=
  Set.eq_empty_of_forall_notMem fun _ => nofun

theorem mem_skip_image : path ∈ skip '' entities.places rest ↔
    ∃ i tail, path = (i + 1) :: tail ∧ i :: tail ∈ entities.places rest := by
  constructor
  · rintro ⟨_ | ⟨i, tail⟩, ⟨name, h⟩, rfl⟩
    · exact absurd h not_occurs_nil
    · exact ⟨i, tail, rfl, name, h⟩
  · rintro ⟨i, tail, rfl, h⟩
    exact ⟨i :: tail, h, rfl⟩

theorem places_literal :
    entities.places (.literal bytes :: rest) = skip '' entities.places rest := by
  ext path
  rw [mem_skip_image]
  constructor
  · rintro ⟨name, ⟨⟩⟩
    next h => exact ⟨_, _, rfl, name, h⟩
  · rintro ⟨i, tail, rfl, name, h⟩
    exact ⟨name, h.later⟩

theorem places_reference :
    entities.places (.reference name :: rest) =
      insert [0] ((0 :: ·) '' entities.placesInside name) ∪ skip '' entities.places rest := by
  ext path
  simp only [Set.mem_union, Set.mem_insert_iff, mem_skip_image]
  constructor
  · rintro ⟨met, ⟨⟩ | ⟨hd, h⟩ | h⟩
    · exact .inl (.inl rfl)
    · exact .inl (.inr ⟨_, ⟨_, hd, met, h⟩, rfl⟩)
    · exact .inr ⟨_, _, rfl, met, h⟩
  · rintro ((rfl | ⟨path, ⟨text, hd, met, h⟩, rfl⟩) | ⟨i, tail, rfl, met, h⟩)
    · exact ⟨name, .here⟩
    · exact ⟨met, .inside hd h⟩
    · exact ⟨met, h.later⟩

theorem placesInside_of_declared (hd : entities.declaredText? name = some text) :
    entities.placesInside name = entities.places (Piece.ofText text) := by
  simp [placesInside, hd]

theorem placesInside_of_none (hd : entities.declaredText? name = none) :
    entities.placesInside name = ∅ := by
  simp [placesInside, hd]

@[simp] theorem encard_places_literal :
    (entities.places (.literal bytes :: rest)).encard = (entities.places rest).encard := by
  rw [places_literal, skip_injective.encard_image]

/-- A reference is met once itself, and once for each place inside it. -/
@[simp] theorem encard_places_reference :
    (entities.places (.reference name :: rest)).encard =
      (entities.placesInside name).encard + 1 + (entities.places rest).encard := by
  have hhere : [0] ∉ (0 :: ·) '' entities.placesInside name := by
    rintro ⟨path, ⟨text, -, met, h⟩, hpath⟩
    obtain rfl : path = [] := (List.cons.inj hpath).2
    exact not_occurs_nil h
  have hlater : Disjoint (insert [0] ((0 :: ·) '' entities.placesInside name))
      (skip '' entities.places rest) := by
    rw [Set.disjoint_right]
    intro path h
    obtain ⟨i, tail, rfl, -⟩ := mem_skip_image.mp h
    simp
  rw [places_reference, Set.encard_union_eq hlater, Set.encard_insert_of_notMem hhere,
    (List.cons_injective).encard_image, skip_injective.encard_image]

theorem exists_encard_of_reference {budget : ℕ}
    (h : (entities.places (.reference name :: rest)).encard ≤ budget) :
    ∃ inside later : ℕ, (entities.placesInside name).encard = inside ∧
      (entities.places rest).encard = later ∧ inside + 1 + later ≤ budget := by
  rw [encard_places_reference] at h
  generalize (entities.placesInside name).encard = inside at h
  generalize (entities.places rest).encard = later at h
  cases inside with
  | top => simp at h
  | coe inside =>
    cases later with
    | top => simp at h
    | coe later => exact ⟨inside, later, rfl, rfl, by exact_mod_cast h⟩

-- ---------------------------------------------------------------------------
-- References that stand for something
-- ---------------------------------------------------------------------------

/-- Wherever a reference is met it stands for something: for a fixed text, or for a declared one
that does not nest too deep. -/
def Grounded (entities : Entities) (levels : Nat) (pieces : List Piece) : Prop :=
  ∀ path name, entities.Occurs pieces path name →
    (fixedText? name).isSome ∨ (entities.declaredText? name).isSome ∧ path.length ≤ levels

theorem grounded_nil : entities.Grounded levels [] := nofun

theorem Grounded.tail {piece : Piece} (h : entities.Grounded levels (piece :: rest)) :
    entities.Grounded levels rest := by
  intro path name hocc
  cases path with
  | nil => exact absurd hocc not_occurs_nil
  | cons i path => simpa using h _ _ hocc.later

theorem grounded_literal :
    entities.Grounded levels (.literal bytes :: rest) ↔ entities.Grounded levels rest := by
  refine ⟨Grounded.tail, ?_⟩
  rintro h path name ⟨⟩
  next hocc => simpa using h _ _ hocc

theorem grounded_fixed (hf : fixedText? name = some text) :
    entities.Grounded levels (.reference name :: rest) ↔ entities.Grounded levels rest := by
  refine ⟨Grounded.tail, ?_⟩
  rintro h path name (⟨⟩ | ⟨hd, -⟩ | hocc)
  · simp [hf]
  · simp [fixedText?_eq_none hd] at hf
  · simpa using h _ _ hocc

theorem grounded_declared (hd : entities.declaredText? name = some text) :
    entities.Grounded (levels + 1) (.reference name :: rest) ↔
      entities.Grounded levels (Piece.ofText text) ∧ entities.Grounded (levels + 1) rest := by
  constructor
  · exact fun h => ⟨fun path name hocc => by simpa using h _ _ (.inside hd hocc), h.tail⟩
  · rintro ⟨hi, hr⟩ path name (⟨⟩ | ⟨hd', hocc⟩ | hocc)
    · simp [hd]
    · obtain rfl : text = _ := Option.some.inj (hd.symm.trans hd')
      simpa using hi _ _ hocc
    · simpa using hr _ _ hocc

/-- The pieces with every reference replaced, and those in the declared texts as well. -/
inductive Substituted (entities : Entities) : List Piece → (output : Bytes) → Prop
  | nil : Substituted entities [] []
  | literal {bytes output : Bytes} {rest : List Piece} (h : Substituted entities rest output) :
      Substituted entities (.literal bytes :: rest) (bytes ++ output)
  | fixed {name text output : Bytes} {rest : List Piece} (hf : fixedText? name = some text)
      (h : Substituted entities rest output) :
      Substituted entities (.reference name :: rest) (text ++ output)
  | declared {name text inner output : Bytes} {rest : List Piece}
      (hd : entities.declaredText? name = some text)
      (hi : Substituted entities (Piece.ofText text) inner)
      (h : Substituted entities rest output) :
      Substituted entities (.reference name :: rest) (inner ++ output)

theorem Substituted.unique {output output' : Bytes} (h : entities.Substituted pieces output)
    (h' : entities.Substituted pieces output') : output' = output := by
  induction h generalizing output' with
  | nil => cases h'; rfl
  | literal _ ih =>
    cases h' with
    | literal h => rw [ih h]
  | fixed hf _ ih =>
    cases h' with
    | fixed hf' h => rw [ih h, Option.some.inj (hf.symm.trans hf')]
    | declared hd => simp [fixedText?_eq_none hd] at hf
  | declared hd _ _ ihi ih =>
    cases h' with
    | fixed hf => simp [fixedText?_eq_none hd] at hf
    | declared hd' hi h =>
      obtain rfl := Option.some.inj (hd.symm.trans hd')
      rw [ihi hi, ih h]

-- ---------------------------------------------------------------------------
-- Chains of references
-- ---------------------------------------------------------------------------

/-- The text that is declared for one name refers to the other. -/
def Mentions (entities : Entities) (outer inner : Bytes) : Prop :=
  ∃ text, entities.declaredText? outer = some text ∧ .reference inner ∈ Piece.ofText text

namespace Occurs

theorem of_mem (h : .reference name ∈ pieces) : ∃ i, entities.Occurs pieces [i] name := by
  induction pieces with
  | nil => cases h
  | cons piece rest ih =>
    rcases List.mem_cons.mp h with rfl | h
    · exact ⟨0, .here⟩
    · obtain ⟨i, hi⟩ := ih h
      exact ⟨i + 1, hi.later⟩

theorem append {path' : List Nat} (h : entities.Occurs pieces path outer)
    (hd : entities.declaredText? outer = some text)
    (hi : entities.Occurs (Piece.ofText text) path' inner) :
    entities.Occurs pieces (path ++ path') inner := by
  induction h with
  | here => exact .inside hd hi
  | inside hd' _ ih => exact .inside hd' (ih hd)
  | later _ ih => exact .later (ih hd)

theorem of_mentions (h : entities.Occurs pieces path outer) (hm : entities.Mentions outer inner) :
    ∃ path', path'.length = path.length + 1 ∧ entities.Occurs pieces path' inner := by
  obtain ⟨text, hd, hmem⟩ := hm
  obtain ⟨i, hi⟩ : ∃ i, entities.Occurs (Piece.ofText text) [i] inner := of_mem hmem
  exact ⟨path ++ [i], by simp, h.append hd hi⟩

theorem of_transGen (h : entities.Occurs pieces path outer)
    (hm : Relation.TransGen entities.Mentions outer inner) :
    ∃ path', path.length < path'.length ∧ entities.Occurs pieces path' inner := by
  induction hm with
  | single hm =>
    obtain ⟨path', hlength, h'⟩ := h.of_mentions hm
    exact ⟨path', by simp [hlength], h'⟩
  | tail _ hm ih =>
    obtain ⟨path', hless, h'⟩ := ih
    obtain ⟨path'', hlength, h''⟩ := h'.of_mentions hm
    exact ⟨path'', by omega, h''⟩

/-- A name that leads back to itself is met at every depth. -/
theorem deep (h : entities.Occurs pieces path name)
    (hm : Relation.TransGen entities.Mentions name name) (depth : Nat) :
    ∃ path', depth < path'.length ∧ entities.Occurs pieces path' name := by
  induction depth with
  | zero =>
    obtain ⟨path', hless, h'⟩ := h.of_transGen hm
    exact ⟨path', Nat.zero_lt_of_lt hless, h'⟩
  | succ depth ih =>
    obtain ⟨path', hdepth, h'⟩ := ih
    obtain ⟨path'', hless, h''⟩ := h'.of_transGen hm
    exact ⟨path'', Nat.lt_of_le_of_lt hdepth hless, h''⟩

end Occurs

theorem isSome_declaredText?_of_transGen
    (hm : Relation.TransGen entities.Mentions outer inner) :
    (entities.declaredText? outer).isSome := by
  obtain ⟨middle, ⟨text, hd, -⟩, -⟩ := Relation.TransGen.head'_iff.mp hm
  simp [hd]

theorem Grounded.not_transGen (hg : entities.Grounded levels pieces)
    (h : entities.Occurs pieces path name) :
    ¬ Relation.TransGen entities.Mentions name name := by
  intro hm
  obtain ⟨path', hdeep, h'⟩ := h.deep hm levels
  obtain ⟨text, hd⟩ := Option.isSome_iff_exists.mp (isSome_declaredText?_of_transGen hm)
  rcases hg path' name h' with hf | ⟨-, hle⟩
  · simp [fixedText?_eq_none hd] at hf
  · exact absurd hle (Nat.not_le.mpr hdeep)

-- ---------------------------------------------------------------------------
-- Expansions without a fault
-- ---------------------------------------------------------------------------

theorem isKept_eq_false (hp : entities.passthrough = false) : entities.isKept name = false := by
  simp [isKept, hp]

theorem declaredText?_eq_none (hf : fixedText? name = some text) :
    entities.declaredText? name = none := by
  refine Option.eq_none_iff_forall_ne_some.mpr fun text' hd => ?_
  simp [fixedText?_eq_none hd] at hf

namespace Expands

variable {result : Expansion} {replaced : List Bytes}
  (h : entities.Expands levels pieces expanded result replaced)
include h

/-- Even an expansion that fails ends soon after the limit. -/
theorem le_limit_succ : result.expanded ≤ max expanded entities.limit + 1 := by
  induction h with
  | nil => exact Nat.le_succ_of_le (Nat.le_max_left _ _)
  | literal _ ih => exact ih
  | kept _ _ ih => exact ih
  | fixed _ hl _ _ ih =>
    dsimp only
    omega
  | declared _ hl _ hi hn _ ihi ih =>
    have := hi.le_limit hn
    dsimp only
    omega
  | failed _ hl _ _ _ ihi => omega
  | refused =>
    dsimp only
    omega

variable (hp : entities.passthrough = false)
include hp

section
variable (hn : result.fault = none)
include hn

theorem substituted : entities.Substituted pieces result.output := by
  induction h with
  | nil => exact .nil
  | literal _ ih => exact .literal (ih hn)
  | kept hk => simp [isKept_eq_false hp] at hk
  | fixed _ _ hf _ ih => exact .fixed hf (ih hn)
  | declared _ _ hd _ hni _ ihi ih => exact .declared hd (ihi hni) (ih hn)
  | failed _ _ _ _ hni => exact absurd hn hni
  | refused => cases hn

theorem grounded : entities.Grounded levels pieces := by
  induction h with
  | nil => exact grounded_nil
  | literal _ ih => exact grounded_literal.mpr (ih hn)
  | kept hk => simp [isKept_eq_false hp] at hk
  | fixed _ _ hf _ ih => exact (grounded_fixed hf).mpr (ih hn)
  | declared _ _ hd _ hni _ ihi ih => exact (grounded_declared hd).mpr ⟨ihi hni, ih hn⟩
  | failed _ _ _ _ hni => exact absurd hn hni
  | refused => cases hn

theorem expanded_eq :
    (result.expanded : ℕ∞) = expanded + (entities.places pieces).encard := by
  induction h with
  | nil => simp
  | literal _ ih => simpa using ih hn
  | kept hk => simp [isKept_eq_false hp] at hk
  | fixed _ _ hf _ ih =>
    have hrest := ih hn
    simp only [encard_places_reference, placesInside_of_none (declaredText?_eq_none hf)] at *
    push_cast at *
    rw [hrest]
    simp [add_assoc]
  | declared _ _ hd _ hni _ ihi ih =>
    have hinner := ihi hni
    have hrest := ih hn
    simp only [encard_places_reference, placesInside_of_declared hd] at *
    push_cast at *
    rw [hrest, hinner]
    ac_rfl
  | failed _ _ _ _ hni => exact absurd hn hni
  | refused => cases hn

end

/-- Nothing else can go wrong than a reference that stands for nothing, or too many of them. -/
theorem fault_eq_none (hg : entities.Grounded levels pieces)
    (hb : (entities.places pieces).encard ≤ (entities.limit - expanded : ℕ)) :
    result.fault = none := by
  induction h with
  | nil => rfl
  | literal _ ih => exact ih (grounded_literal.mp hg) (by simpa using hb)
  | kept hk => simp [isKept_eq_false hp] at hk
  | fixed _ hl hf _ ih =>
    obtain ⟨inside, later, -, hlater, hle⟩ := exists_encard_of_reference hb
    refine ih ((grounded_fixed hf).mp hg) ?_
    rw [hlater, Nat.cast_le]
    omega
  | declared _ hl hd hi hni _ _ ih =>
    obtain ⟨inside, later, hinside, hlater, hle⟩ := exists_encard_of_reference hb
    have hinner := hi.expanded_eq hp hni
    rw [← placesInside_of_declared hd, hinside] at hinner
    norm_cast at hinner
    refine ih ((grounded_declared hd).mp hg).2 ?_
    rw [hlater, Nat.cast_le]
    omega
  | failed _ hl hd hi hni ihi =>
    obtain ⟨inside, later, hinside, -, hle⟩ := exists_encard_of_reference hb
    refine absurd (ihi ((grounded_declared hd).mp hg).1 ?_) hni
    rw [← placesInside_of_declared hd, hinside, Nat.cast_le]
    omega
  | refused hk hw =>
    rcases hw with hl | ⟨hf, hd⟩
    · obtain ⟨inside, later, -, -, hle⟩ := exists_encard_of_reference hb
      omega
    · rcases hg _ _ .here with hsome | ⟨hsome, hle⟩
      · simp [hf] at hsome
      · rcases hd with rfl | hd
        · simp at hle
        · simp [hd] at hsome

end Expands

-- ---------------------------------------------------------------------------
-- Texts
-- ---------------------------------------------------------------------------

theorem grounded_iff : entities.Grounded levels pieces ↔
    (∀ path name, entities.Occurs pieces path name →
      (fixedText? name).isSome ∨ (entities.declaredText? name).isSome) ∧
    ∀ path name, entities.Occurs pieces path name → (entities.declaredText? name).isSome →
      path.length ≤ levels := by
  constructor
  · refine fun hg => ⟨fun path name h => (hg path name h).imp_right And.left, ?_⟩
    intro path name h hd
    obtain ⟨text, hd⟩ := Option.isSome_iff_exists.mp hd
    exact (hg path name h).elim (by simp [fixedText?_eq_none hd]) And.right
  · rintro ⟨hknown, hdepth⟩ path name h
    exact (hknown path name h).imp_right fun hd => ⟨hd, hdepth path name h hd⟩

/-- A text is expanded without a fault just when every reference that is met in it, or in the texts
declared for those that are met, has a fixed text or a declared one, no chain of declared texts is
longer than 64, and what is left of the limit suffices for all of them. Then nothing remains to be
replaced, and every reference met is counted once. A name that leads back to itself is a fault
wherever it is met; yet the count stops right after the limit. -/
theorem expandText_succeeds_iff (hp : entities.passthrough = false) (text : Bytes) :
    let pieces := Piece.ofText text
    let expansion := entities.expandText text
    (expansion.fault = none ↔
      (∀ path name, entities.Occurs pieces path name →
        (fixedText? name).isSome ∨ (entities.declaredText? name).isSome) ∧
      (∀ path name, entities.Occurs pieces path name → (entities.declaredText? name).isSome →
        path.length ≤ 64) ∧
      (entities.places pieces).encard ≤ (entities.limit - entities.expanded : ℕ)) ∧
    (expansion.fault = none →
      (∀ output, entities.Substituted pieces output ↔ output = expansion.output) ∧
      (expansion.expanded : ℕ∞) = entities.expanded + (entities.places pieces).encard) ∧
    (∀ path name, entities.Occurs pieces path name →
      Relation.TransGen entities.Mentions name name → expansion.fault ≠ none) ∧
    expansion.expanded ≤ max entities.expanded entities.limit + 1 := by
  intro pieces expansion
  have hexpands := ofPieces_derived entities maxNesting pieces entities.expanded
  change entities.Expands maxNesting pieces entities.expanded expansion _ at hexpands
  refine ⟨⟨fun hn => ?_, ?_⟩, fun hn => ⟨?_, hexpands.expanded_eq hp hn⟩, ?_,
    hexpands.le_limit_succ⟩
  · obtain ⟨hknown, hdepth⟩ := grounded_iff.mp (hexpands.grounded hp hn)
    refine ⟨hknown, hdepth, ?_⟩
    have hcount := hexpands.expanded_eq hp hn
    have hlimit := hexpands.le_limit hn
    generalize (entities.places pieces).encard = met at hcount ⊢
    cases met with
    | top => simp at hcount
    | coe met =>
      norm_cast at hcount ⊢
      omega
  · rintro ⟨hknown, hdepth, hbudget⟩
    exact hexpands.fault_eq_none hp (grounded_iff.mpr ⟨hknown, hdepth⟩) hbudget
  · intro output
    have houtput := hexpands.substituted hp hn
    exact ⟨houtput.unique, fun h => h ▸ houtput⟩
  · exact fun path name hocc hm hn => (hexpands.grounded hp hn).not_transGen hocc hm

/-- Two levels of declared texts with a predefined name in the outer one: three references. -/
theorem expandText_nested :
    let entities : Entities :=
      { limit := 3
        declared := [(ascii "name", ascii "Ac"), (ascii "full", ascii "&name;me &amp; co")] }
    let pieces := Piece.ofText (ascii "[&full;]")
    entities.passthrough = false ∧ (entities.places pieces).encard = 3 ∧
      entities.Substituted pieces (ascii "[Acme & co]") := by
  intro entities pieces
  have hexpansion : entities.expandText (ascii "[&full;]") =
      { output := ascii "[Acme & co]", expanded := 3 } := by
    decide +kernel
  have hp : entities.passthrough = false := rfl
  obtain ⟨-, hsuccess, -⟩ := expandText_succeeds_iff hp (ascii "[&full;]")
  simp only [hexpansion, forall_const] at hsuccess
  obtain ⟨houtput, hcount⟩ := hsuccess
  exact ⟨hp, by simpa [entities] using hcount.symm, (houtput _).mpr rfl⟩

/-- What is declared for a name with a fixed meaning is never looked up: it neither helps one that
is no number, nor harms a predefined one by leading back to it. -/
theorem declared_without_effect :
    let entities : Entities :=
      { limit := 5, declared := [(ascii "#q", ascii "x"), (ascii "lt", ascii "&lt;")] }
    (Piece.ofText (ascii "&#q;") = [.literal [], .reference (ascii "#q"), .literal []] ∧
      entities.lookup? (ascii "#q") = some (ascii "x") ∧
      Piece.ofText (ascii "x") = [.literal (ascii "x")] ∧
      (entities.expandText (ascii "&#q;")).fault = some (.invalidCharacter (ascii "#q"))) ∧
    entities.lookup? (ascii "lt") = some (ascii "&lt;") ∧
      Piece.ofText (ascii "&lt;") = [.literal [], .reference (ascii "lt"), .literal []] ∧
      entities.expandText (ascii "&lt;") = { output := ascii "<", expanded := 1 } := by
  decide +kernel

end XmlStore.Entities
