import Mathlib.Data.List.Sort
import XmlStore.Index.Ascending

/-!
# Ascending lists and tables

Under a strict total order a list of ascending elements is determined by its members. A table has
one value for each of its keys.
-/

namespace XmlStore

variable {α β : Type}

/-- A strict total order. -/
structure Orders (before : α → α → Bool) : Prop where
  irrefl : ∀ a, ¬ before a a
  trans : ∀ {a b c}, before a b → before b c → before a c
  connected : ∀ a b, before a b ∨ a = b ∨ before b a

theorem orders_lt : Orders fun a b : Nat => decide (a < b) where
  irrefl := by simp
  trans := by
    intro a b c
    simp only [decide_eq_true_eq]
    omega
  connected := by
    intro a b
    simp only [decide_eq_true_eq]
    omega

/-- Lists that ascend in a key and have the same members are the same. -/
theorem eq_of_mem_iff_of_key (key : α → Nat) {as bs : List α}
    (ha : as.Pairwise fun a b => key a < key b) (hb : bs.Pairwise fun a b => key a < key b)
    (hm : ∀ a, a ∈ as ↔ a ∈ bs) : as = bs := by
  have hirrefl : Std.Irrefl fun a b : α => key a < key b := ⟨fun _ => Nat.lt_irrefl _⟩
  have hantisymm : Std.Antisymm fun a b : α => key a < key b :=
    ⟨fun _ _ hab hba => absurd hba (Nat.lt_asymm hab)⟩
  exact ha.eq_of_mem_iff hb hm

namespace Orders

variable {before : α → α → Bool} {as bs : List α}

theorem asymm (h : Orders before) {a b : α} (hab : before a b) : ¬ before b a :=
  fun hba => h.irrefl a (h.trans hab hba)

theorem dropRepeated_spec (h : Orders before) (hs : as.Pairwise fun a b => ¬ before b a) :
    (dropRepeated before as).Pairwise (before · ·) ∧
      ∀ a, a ∈ dropRepeated before as ↔ a ∈ as := by
  fun_induction dropRepeated before as with
  | case1 => simp
  | case2 a => simp
  | case3 a b rest hab ih =>
    obtain ⟨hfirst, hrest⟩ := List.pairwise_cons.mp hs
    obtain ⟨hb, hrest'⟩ := List.pairwise_cons.mp hrest
    obtain ⟨hsorted, hmem⟩ := ih hrest
    refine ⟨List.pairwise_cons.mpr ⟨fun c hc => ?_, hsorted⟩, by simp [hmem]⟩
    rcases List.mem_cons.mp ((hmem c).mp hc) with rfl | hc
    · exact hab
    · rcases h.connected b c with hbc | rfl | hcb
      · exact h.trans hab hbc
      · exact hab
      · exact absurd hcb (hb c hc)
  | case4 a b rest hab ih =>
    obtain ⟨hfirst, hrest⟩ := List.pairwise_cons.mp hs
    obtain ⟨hsorted, hmem⟩ := ih hrest
    have hsame : a = b := by
      rcases h.connected a b with hlt | heq | hgt
      · exact absurd hlt hab
      · exact heq
      · exact absurd hgt (hfirst b List.mem_cons_self)
    exact ⟨hsorted, by simp [hmem, hsame]⟩

theorem ascending_spec (h : Orders before) (as : List α) :
    (ascending before as).Pairwise (before · ·) ∧
      ∀ a, a ∈ ascending before as ↔ a ∈ as := by
  have htrans : ∀ a b c : α,
      (!before b a) = true → (!before c b) = true → (!before c a) = true := by
    simp only [Bool.not_eq_true', ← Bool.not_eq_true]
    intro a b c hba hcb hca
    rcases h.connected b c with hbc | rfl | hcb'
    · exact hba (h.trans hbc hca)
    · exact hba hca
    · exact hcb hcb'
  have htotal : ∀ a b : α, (!before b a || !before a b) = true := by
    intro a b
    cases hab : before a b with
    | false => simp
    | true => simpa using h.asymm hab
  have hsorted := List.pairwise_mergeSort htrans htotal as
  obtain ⟨hpairwise, hmem⟩ := h.dropRepeated_spec (hsorted.imp (by simp))
  exact ⟨hpairwise, fun a => (hmem a).trans List.mem_mergeSort⟩

theorem pairwise_ascending (h : Orders before) (as : List α) :
    (ascending before as).Pairwise (before · ·) := (h.ascending_spec as).1

theorem mem_ascending (h : Orders before) {a : α} : a ∈ ascending before as ↔ a ∈ as :=
  (h.ascending_spec as).2 a

end Orders

namespace Table

variable [DecidableEq α] {table : Table α β} {key other : α} {initial : β} {change : β → β}

/-- No key comes twice. -/
def Keyed (table : Table α β) : Prop := (table.map (·.1)).Nodup

theorem mem_keys_update :
    other ∈ (table.update key initial change).map (·.1) ↔
      other = key ∨ other ∈ table.map (·.1) := by
  fun_induction update key initial change table with
  | case1 => simp
  | case2 => simp
  | case3 k value rest hk ih => simp [ih, or_left_comm]

theorem Keyed.update (h : table.Keyed) : (table.update key initial change).Keyed := by
  unfold Keyed at *
  fun_induction Table.update key initial change table with
  | case1 => simp
  | case2 => simpa using h
  | case3 k value rest hk ih =>
    rw [List.map_cons, List.nodup_cons] at h ⊢
    refine ⟨?_, ih h.2⟩
    rw [mem_keys_update]
    simp [hk, h.1]

variable [BEq α] [LawfulBEq α]

theorem lookup_cons_eq (entry : α × β) (rest : List (α × β)) :
    List.lookup other (entry :: rest) =
      if other = entry.1 then some entry.2 else List.lookup other rest := by
  rw [List.lookup_cons]
  by_cases h : other = entry.1
  · simp [h]
  · simp [h, beq_false_of_ne h]

theorem lookup_update :
    (table.update key initial change).lookup other =
      if other = key then some (change ((table.lookup key).getD initial))
      else table.lookup other := by
  fun_induction update key initial change table with
  | case1 => simp [lookup_cons_eq]
  | case2 value rest => by_cases h : other = key <;> simp [lookup_cons_eq, h]
  | case3 k value rest hk ih =>
    by_cases h : other = k
    · simp [lookup_cons_eq, h, hk]
    · simp [lookup_cons_eq, h, Ne.symm hk, ih]

theorem Keyed.lookup_of_mem (h : table.Keyed) {value : β} (hm : (key, value) ∈ table) :
    table.lookup key = some value := by
  induction table with
  | nil => cases hm
  | cons entry rest ih =>
    rw [Keyed, List.map_cons, List.nodup_cons] at h
    rw [lookup_cons_eq]
    rcases List.mem_cons.mp hm with rfl | hm
    · exact if_pos rfl
    · rw [if_neg]
      · exact ih h.2 hm
      · intro hkey
        exact h.1 (hkey ▸ List.mem_map_of_mem hm)

omit [DecidableEq α] in
theorem mem_of_lookup {value : β} (h : table.lookup key = some value) : (key, value) ∈ table := by
  obtain ⟨before, after, rfl, -⟩ := List.lookup_eq_some_iff.mp h
  simp

end Table

end XmlStore
