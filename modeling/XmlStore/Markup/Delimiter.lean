import XmlStore.Octets

/-!
# Ends of markup

Where a tag or a declaration ends: at the first `>` outside quoted text, and, for a document type
declaration, outside its internal subset and the comments there as well. An end that has been
found does not move when more bytes follow.
-/

namespace XmlStore

/-- What stands before and after the first `>` outside quotes. The bytes begin inside the quoted
text that `quote` opened, if it is given. -/
def cutUnquoted? (quote : Option UInt8) : Bytes → Option (Bytes × Bytes)
  | [] => none
  | b :: rest =>
    let continueWith (quote : Option UInt8) :=
      (cutUnquoted? quote rest).map fun found => (b :: found.1, found.2)
    match quote with
    | some q => continueWith (if b == q then none else some q)
    | none =>
      if b == 0x3E then some ([], rest)
      else continueWith (if isQuote b then some b else none)

/-- What stands before and after the `>` that ends a document type declaration. The bytes begin
`depth` brackets deep, and inside the quoted text that `quote` opened, if it is given. A closing
bracket too many changes nothing. -/
def cutDoctype? (depth : Nat) (quote : Option UInt8) (bs : Bytes) : Option (Bytes × Bytes) :=
  match bs with
  | [] => none
  | b :: rest =>
    let continueWith (depth : Nat) (quote : Option UInt8) :=
      (cutDoctype? depth quote rest).map fun found => (b :: found.1, found.2)
    match quote with
    | some q => continueWith depth (if b == q then none else some q)
    | none =>
      if isQuote b then continueWith depth (some b)
      else if b == 0x5B then continueWith (depth + 1) none
      else if b == 0x5D then continueWith (depth - 1) none
      else if b == 0x3C && (ascii "!--").isPrefixOf rest then
        match _h : cut? (ascii "-->") (rest.drop 3) with
        | none => none
        | some (text, after) =>
          (cutDoctype? depth none after).map fun found =>
            (ascii "<!--" ++ text ++ ascii "-->" ++ found.1, found.2)
      else if b == 0x3E && depth == 0 then some ([], rest)
      else continueWith depth none
termination_by bs.length
decreasing_by
  all_goals simp only [List.length_cons]
  all_goals try omega
  have hs := congrArg List.length (cut?_append _h)
  simp only [List.length_append, List.length_drop] at hs
  omega

theorem cons_eq_of_map_cons {b : UInt8} {rest before after : Bytes} {cut : Option (Bytes × Bytes)}
    (ih : ∀ {before after : Bytes}, cut = some (before, after) → rest = before ++ 0x3E :: after)
    (h : cut.map (fun found => (b :: found.1, found.2)) = some (before, after)) :
    b :: rest = before ++ 0x3E :: after := by
  obtain ⟨found, hf, he⟩ := Option.map_eq_some_iff.mp h
  obtain ⟨rfl, rfl⟩ := Prod.mk.inj he
  rw [ih hf, List.cons_append]

theorem cutUnquoted?_append {quote : Option UInt8} {bs before after : Bytes}
    (h : cutUnquoted? quote bs = some (before, after)) : bs = before ++ 0x3E :: after := by
  fun_induction cutUnquoted? quote bs generalizing before after with
  | case1 => simp at h
  | case2 => rename_i ih; exact cons_eq_of_map_cons (ih _) h
  | case3 b rest hb =>
    obtain ⟨rfl, rfl⟩ := Prod.mk.inj (Option.some.inj h)
    rw [eq_of_beq hb, List.nil_append]
  | case4 => rename_i ih; exact cons_eq_of_map_cons (ih _) h

theorem cutDoctype?_append {depth : Nat} {quote : Option UInt8} {bs before after : Bytes}
    (h : cutDoctype? depth quote bs = some (before, after)) : bs = before ++ 0x3E :: after := by
  fun_induction cutDoctype? depth quote bs generalizing before after with
  | case1 => simp at h
  | case2 => rename_i ih; exact cons_eq_of_map_cons (ih _ _) h
  | case3 => rename_i ih; exact cons_eq_of_map_cons (ih _ _) h
  | case4 => rename_i ih; exact cons_eq_of_map_cons (ih _ _) h
  | case5 => rename_i ih; exact cons_eq_of_map_cons (ih _ _) h
  | case6 => simp at h
  | case7 depth b rest _ _ _ hopen text tail hc _ ih =>
    obtain ⟨found, hf, he⟩ := Option.map_eq_some_iff.mp h
    obtain ⟨rfl, rfl⟩ := Prod.mk.inj he
    rw [Bool.and_eq_true] at hopen
    obtain ⟨more, hmore⟩ := List.isPrefixOf_iff_prefix.mp hopen.2
    have hdrop : rest.drop 3 = more := by rw [← hmore]; rfl
    have htail := cut?_append hc
    rw [hdrop, ih hf] at htail
    rw [eq_of_beq hopen.1, ← hmore, htail]
    simp [ascii, show '<'.toUInt8 = 0x3C from rfl]
  | case8 _ _ _ _ _ _ _ hend =>
    rw [Bool.and_eq_true] at hend
    obtain ⟨rfl, rfl⟩ := Prod.mk.inj (Option.some.inj h)
    rw [eq_of_beq hend.1, List.nil_append]
  | case9 => rename_i ih; exact cons_eq_of_map_cons (ih _ _) h

end XmlStore
