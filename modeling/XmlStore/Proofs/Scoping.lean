import Mathlib.Data.List.Find
import XmlStore.Proofs.Interning
import XmlStore.Proofs.Outline

/-!
# The scope of the open elements

The bindings of a scope are the declarations of the open elements, innermost first, without those
of `xml`. Finding the latest binding of a qualifier finds the innermost declaration.
-/

namespace XmlStore

/-- A binding with its qualifier and URI, and the depth of the element that declares it. -/
abbrev InScope := Bytes × Bytes × Nat

/-- The bindings of open elements, the latest first. -/
def boundBy : List Opened → List InScope
  | [] => [(ascii "xml", Scope.xmlUri, 0)]
  | element :: rest =>
    (element.declared.filter (·.1 != ascii "xml")).reverse.map
      (fun ns => (ns.1, ns.2, rest.length + 1)) ++ boundBy rest

theorem depth_of_mem_boundBy {opened : List Opened} {bound : InScope}
    (h : bound ∈ boundBy opened) : bound.2.2 ≤ opened.length := by
  induction opened with
  | nil =>
    obtain rfl := List.mem_singleton.mp h
    exact Nat.le_refl 0
  | cons element rest ih =>
    rcases List.mem_append.mp h with h | h
    · obtain ⟨ns, -, rfl⟩ := List.mem_map.mp h
      exact Nat.le_refl _
    · exact Nat.le_succ_of_le (ih h)

theorem find?_declared (declared : List (Bytes × Bytes)) (depth : Nat) (qualifier : Bytes) :
    (((declared.filter (·.1 != ascii "xml")).reverse.map fun ns => (ns.1, ns.2, depth)).find?
      (·.1 == qualifier)).map (·.2.1) =
      if qualifier = ascii "xml" then none
      else (declared.reverse.find? (·.1 == qualifier)).map (·.2) := by
  rw [← List.filter_reverse, List.find?_map, List.find?_filter, Option.map_map]
  split
  next hx =>
    subst hx
    rw [Option.map_eq_none_iff, List.find?_eq_none]
    simp
  next hx =>
    have hsame : ∀ ns ∈ declared.reverse,
        decide ((ns.1 != ascii "xml") = true ∧
          ((·.1 == qualifier) ∘ fun ns : Bytes × Bytes => (ns.1, ns.2, depth)) ns = true) =
            (ns.1 == qualifier) := by
      intro ns _
      by_cases hq : ns.1 = qualifier
      · simp [hq, hx]
      · simp [hq]
    rw [List.find?_congr hsame]
    rfl

theorem find?_boundBy (opened : List Opened) (qualifier : Bytes) :
    ((boundBy opened).find? (·.1 == qualifier)).map (·.2.1) =
      Scopes.lookup? (opened.map (·.declared)) qualifier := by
  unfold Scopes.lookup?
  induction opened with
  | nil =>
    by_cases hx : qualifier = ascii "xml"
    · simp [boundBy, hx]
    · simp [boundBy, hx, Ne.symm hx]
  | cons element rest ih =>
    rw [boundBy, List.find?_append, Option.map_or, find?_declared, ih, List.map_cons,
      List.findSome?_cons]
    by_cases hx : qualifier = ascii "xml"
    · simp only [hx, ↓reduceIte, Option.none_or]
    · simp only [hx, ↓reduceIte]
      cases (element.declared.reverse.find? (·.1 == qualifier)).map (·.2) <;> rfl

theorem dropWhile_boundBy (opened : List Opened) :
    (boundBy opened).dropWhile (fun b => decide (opened.length + 1 ≤ b.2.2 ∧ 0 < b.2.2)) =
      boundBy opened := by
  cases h : boundBy opened with
  | nil => rfl
  | cons bound rest =>
    have hdepth := depth_of_mem_boundBy (h ▸ List.mem_cons_self : bound ∈ boundBy opened)
    refine List.dropWhile_cons_of_neg ?_
    simp only [decide_eq_true_eq]
    omega

/-- A scope whose bindings are those of the open elements. -/
structure Scope.Shows (scope : Scope) (names : Names) (opened : List Opened) : Prop where
  xml : scope.xml < names.size ∧ names.get scope.xml = ascii "xml"
  numbers : ∀ b ∈ scope.bindings, b.qualifier < names.size ∧ b.uri < names.size
  bindings : scope.bindings.map (fun b => (names.get b.qualifier, names.get b.uri, b.depth)) =
    boundBy opened

namespace Scope.Shows

variable {scope : Scope} {names later : Names} {opened : List Opened}

theorem grow (h : scope.Shows names opened) (hg : later.Extends names) :
    scope.Shows later opened := by
  refine ⟨⟨Nat.lt_of_lt_of_le h.xml.1 hg.size, (hg.get h.xml.1).trans h.xml.2⟩, ?_, ?_⟩
  · intro b hb
    obtain ⟨hq, hu⟩ := h.numbers b hb
    exact ⟨Nat.lt_of_lt_of_le hq hg.size, Nat.lt_of_lt_of_le hu hg.size⟩
  · rw [← h.bindings]
    refine List.map_congr_left fun b hb => ?_
    obtain ⟨hq, hu⟩ := h.numbers b hb
    rw [hg.get hq, hg.get hu]

/-- A number resolves to the innermost declaration of its string. -/
theorem resolve? (h : scope.Shows names opened) (hn : names.Sound) {id : Nat}
    (hid : id < names.size) :
    (scope.resolve? id).map names.get =
      Scopes.lookup? (opened.map (·.declared)) (names.get id) := by
  have hsame : ∀ b ∈ scope.bindings,
      (b.qualifier == id) = (names.get b.qualifier == names.get id) := by
    intro b hb
    rw [Bool.eq_iff_iff, beq_iff_eq, beq_iff_eq]
    constructor
    · rintro rfl
      rfl
    · exact hn.injective (h.numbers b hb).1 hid
  rw [← find?_boundBy, ← h.bindings, List.find?_map, Scope.resolve?, List.find?_congr hsame,
    Option.map_map, Option.map_map]
  rfl

theorem resolve?_lt (h : scope.Shows names opened) {id uri : Nat}
    (hr : scope.resolve? id = some uri) : uri < names.size := by
  obtain ⟨b, hb, rfl⟩ := Option.map_eq_some_iff.mp hr
  exact (h.numbers b (List.mem_of_find?_eq_some hb)).2

theorem lookup?_eq_none (h : scope.Shows names opened) (hn : names.Sound) {qualifier : Bytes}
    (hf : names.find? qualifier = none) :
    Scopes.lookup? (opened.map (·.declared)) qualifier = none := by
  rw [← find?_boundBy, ← h.bindings, Option.map_eq_none_iff, List.find?_eq_none]
  intro bound hm he
  obtain ⟨b, hb, rfl⟩ := List.mem_map.mp hm
  obtain rfl := eq_of_beq he
  simp only at hf
  rw [hn.find?_get (h.numbers b hb).1] at hf
  cases hf

theorem foldl_declare (pending : List (Nat × Nat)) (scope : Scope) (depth : Nat) :
    pending.foldl (fun scope ns => scope.declare ns.1 ns.2 depth) scope =
      { scope with
        bindings := (pending.filter (·.1 != scope.xml)).reverse.map
          (fun ns => ⟨ns.1, ns.2, depth⟩) ++ scope.bindings } := by
  induction pending generalizing scope with
  | nil => rfl
  | cons ns rest ih =>
    rw [List.foldl_cons, ih]
    by_cases hx : ns.1 = scope.xml
    · simp [Scope.declare, Scope.binds, hx]
    · simp [Scope.declare, Scope.binds, hx]

theorem declareAll (h : scope.Shows names opened) (hn : names.Sound)
    {pending : List (Nat × Nat)} (hp : ∀ ns ∈ pending, ns.1 < names.size ∧ ns.2 < names.size)
    (name : Bytes) :
    (pending.foldl (fun scope ns => scope.declare ns.1 ns.2 (opened.length + 1)) scope).Shows names
      (⟨name, pending.map fun ns => (names.get ns.1, names.get ns.2)⟩ :: opened) := by
  have hsame : ∀ ns ∈ pending, (ns.1 != scope.xml) = (names.get ns.1 != ascii "xml") := by
    intro ns hm
    rw [← h.xml.2, Bool.eq_iff_iff, bne_iff_ne, bne_iff_ne]
    refine not_congr ⟨?_, hn.injective (hp ns hm).1 h.xml.1⟩
    intro he
    rw [he]
  rw [foldl_declare]
  refine ⟨h.xml, ?_, ?_⟩
  · intro b hb
    rcases List.mem_append.mp hb with hb | hb
    · obtain ⟨ns, hns, rfl⟩ := List.mem_map.mp hb
      exact hp ns (List.mem_filter.mp (List.mem_reverse.mp hns)).1
    · exact h.numbers b hb
  · rw [List.map_append, h.bindings, List.filter_congr hsame, boundBy, List.filter_map,
      ← List.map_reverse, List.map_map, List.map_map]
    rfl

theorem leave {element : Opened} (h : scope.Shows names (element :: opened)) :
    (scope.leave (opened.length + 1)).Shows names opened := by
  refine ⟨h.xml, ?_, ?_⟩
  · exact fun b hb => h.numbers b (List.dropWhile_subset _ hb)
  · have hb := h.bindings
    rw [boundBy] at hb
    have hown : ∀ bound ∈ (element.declared.filter (·.1 != ascii "xml")).reverse.map
        (fun ns => (ns.1, ns.2, opened.length + 1)),
        decide (opened.length + 1 ≤ bound.2.2 ∧ 0 < bound.2.2) = true := by
      intro bound hm
      obtain ⟨ns, -, rfl⟩ := List.mem_map.mp hm
      simp
    rw [← dropWhile_boundBy opened, ← List.dropWhile_append_of_pos hown, ← hb,
      List.dropWhile_map]
    rfl

end Scope.Shows

theorem Scope.initial_shows {names : Names} (h : names.Sound) :
    (initial names).1.Sound ∧ (initial names).2.Shows (initial names).1 [] := by
  obtain ⟨h1, -, hid, hget⟩ := h.intern (ascii "xml")
  obtain ⟨h2, hext, hid', hget'⟩ := h1.intern xmlUri
  have hid := Nat.lt_of_lt_of_le hid hext.size
  have hget := (hext.get ‹_›).trans hget
  refine ⟨h2, ⟨hid, hget⟩, ?_, ?_⟩
  · intro b hb
    obtain rfl := List.mem_singleton.mp hb
    exact ⟨hid, hid'⟩
  · simp only [initial, List.map_cons, List.map_nil, hget, hget']
    rfl

end XmlStore
