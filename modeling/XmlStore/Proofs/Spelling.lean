import XmlStore.Proofs.Triples
import XmlStore.Text.Run

/-!
# Chunks that spell a text

Chunks spell a text if those of one encoding that follow each other make up whole code points
together. A run takes exactly these chunks without a fault and without holding anything back.
-/

namespace XmlStore

-- ---------------------------------------------------------------------------
-- UTF-8
-- ---------------------------------------------------------------------------

namespace Utf8

variable {lead : UInt8} {following bs more : Bytes} {ranges : List (UInt8 × UInt8)}

theorem Head.follow_append {seen : Nat} (h : follow seen ranges bs ≠ .truncated) :
    follow seen ranges (bs ++ more) = follow seen ranges bs := by
  fun_induction follow seen ranges bs with
  | case1 => rfl
  | case2 => exact absurd rfl h
  | case3 seen range ranges b rest hb ih =>
    rw [List.cons_append, follow, if_pos hb]
    exact ih h
  | case4 seen range ranges b rest hb =>
    rw [List.cons_append, follow, if_neg hb]

theorem Head.follow_scalar {seen trailing : Nat} (h : follow seen ranges bs = .scalar trailing) :
    trailing = seen + ranges.length ∧ ranges.length ≤ bs.length := by
  fun_induction follow seen ranges bs with
  | case1 =>
    cases h
    exact ⟨rfl, Nat.zero_le _⟩
  | case2 => cases h
  | case3 seen range ranges b rest hb ih =>
    obtain ⟨rfl, hle⟩ := ih h
    rw [List.length_cons, List.length_cons]
    omega
  | case4 => cases h

theorem Head.follow_truncated {seen : Nat} (h : follow seen ranges bs = .truncated) :
    bs.length < ranges.length := by
  fun_induction follow seen ranges bs with
  | case1 => cases h
  | case2 => exact Nat.succ_pos _
  | case3 seen range ranges b rest hb ih => exact Nat.succ_lt_succ (ih h)
  | case4 => cases h

theorem head_append (h : head lead bs ≠ .truncated) : head lead (bs ++ more) = head lead bs := by
  unfold head at h ⊢
  cases hr : trailingRanges lead with
  | none => rfl
  | some ranges =>
    rw [hr] at h
    exact Head.follow_append h

theorem announcedLength_eq (h : trailingRanges lead = some ranges) :
    announcedLength lead = ranges.length + 1 := by
  unfold trailingRanges at h
  unfold announcedLength
  repeat' split at h
  all_goals cases h
  all_goals grind

theorem scalar_trailing {trailing : Nat} (h : head lead bs = .scalar trailing) :
    announcedLength lead = trailing + 1 ∧ trailing ≤ bs.length := by
  unfold head at h
  cases hr : trailingRanges lead with
  | none =>
    rw [hr] at h
    cases h
  | some ranges =>
    rw [hr] at h
    obtain ⟨rfl, hle⟩ := Head.follow_scalar h
    rw [announcedLength_eq hr, Nat.zero_add]
    exact ⟨rfl, hle⟩

theorem truncated_lt (h : head lead bs = .truncated) : bs.length + 1 < announcedLength lead := by
  unfold head at h
  cases hr : trailingRanges lead with
  | none =>
    rw [hr] at h
    cases h
  | some ranges =>
    rw [hr] at h
    rw [announcedLength_eq hr]
    exact Nat.succ_lt_succ (Head.follow_truncated h)

theorem head_take {trailing : Nat} (h : head lead bs = .scalar trailing) :
    head lead (bs.take trailing) = .scalar trailing := by
  obtain ⟨hlength, hle⟩ := scalar_trailing h
  have hne : head lead (bs.take trailing) ≠ .truncated := by
    intro ht
    have hlt := truncated_lt ht
    rw [List.length_take_of_le hle, hlength] at hlt
    exact Nat.lt_irrefl _ hlt
  have happ : head lead (bs.take trailing ++ bs.drop trailing) = _ := head_append hne
  rw [List.take_append_drop, h] at happ
  exact happ.symm

theorem isValid_nil : isValid [] = true := by simp [isValid, split]

theorem isValid_cons_iff : isValid (lead :: bs) = true ↔
    ∃ trailing, head lead bs = .scalar trailing ∧ isValid (bs.drop trailing) = true := by
  unfold isValid
  rw [split]
  cases head lead bs with
  | scalar trailing => simp
  | illFormed trailing => simp
  | truncated => simp

/-- A well-formed string begins with the sequence that its lead byte announces. -/
theorem isValid_first (h : isValid (lead :: bs) = true) :
    ∃ n, announcedLength lead = n + 1 ∧ n ≤ bs.length ∧ isValid (lead :: bs.take n) = true ∧
      isValid (bs.drop n) = true := by
  obtain ⟨n, hhead, hrest⟩ := isValid_cons_iff.mp h
  obtain ⟨hlength, hle⟩ := scalar_trailing hhead
  refine ⟨n, hlength, hle, isValid_cons_iff.mpr ⟨n, head_take hhead, ?_⟩, hrest⟩
  rw [List.drop_take, Nat.sub_self, List.take_zero]
  exact isValid_nil

/-- What begins with a well-formed string is judged by what follows. -/
theorem isValid_append (h : isValid bs = true) : isValid (bs ++ more) = isValid more := by
  induction hn : bs.length using Nat.strongRecOn generalizing bs with
  | ind n ih =>
    cases bs with
    | nil => rfl
    | cons lead rest =>
      obtain ⟨trailing, hhead, hrest⟩ := isValid_cons_iff.mp h
      have hle := (scalar_trailing hhead).2
      have hgrown : head lead (rest ++ more) = .scalar trailing := by
        rw [head_append (by rw [hhead]; exact Head.noConfusion), hhead]
      have ih := ih (rest.drop trailing).length
        (by rw [← hn, List.length_drop, List.length_cons]; omega) hrest rfl
      rw [← ih, ← List.drop_append_of_le_length hle, List.cons_append, Bool.eq_iff_iff,
        isValid_cons_iff, hgrown]
      simp

theorem isValid_split (bs : Bytes) : isValid (split bs).1 = true := by
  fun_induction split bs with
  | case1 => exact isValid_nil
  | case2 lead rest trailing hhead remaining ih =>
    have htake := head_take hhead
    have hlength := List.length_take_of_le (scalar_trailing hhead).2
    rw [List.cons_append, isValid_cons_iff]
    refine ⟨trailing, ?_, ?_⟩
    · rw [head_append (by rw [htake]; exact Head.noConfusion), htake]
    · rw [List.drop_left' hlength]
      exact ih
  | case3 => exact isValid_nil

theorem head_split_ne {lead : UInt8} (h : (split bs).2 = lead :: following) (trailing : Nat) :
    head lead following ≠ .scalar trailing := by
  fun_induction split bs with
  | case1 => cases h
  | case2 lead' rest trailing' _ remaining ih => exact ih h
  | case3 lead' rest hno =>
    cases h
    exact hno trailing

/-- A cut through a well-formed string leaves a sequence that is cut off, or none. -/
theorem split_of_isValid_append (h : isValid (bs ++ more) = true) :
    isValid ((split bs).2 ++ more) = true ∧
      ∀ {lead following}, (split bs).2 = lead :: following → head lead following = .truncated := by
  rw [← split_append bs, List.append_assoc, isValid_append (isValid_split bs)] at h
  refine ⟨h, fun {lead following} hs => ?_⟩
  rw [hs, List.cons_append, isValid_cons_iff] at h
  obtain ⟨trailing, hhead, -⟩ := h
  cases hf : head lead following with
  | truncated => rfl
  | scalar n => exact absurd hf (head_split_ne hs n)
  | illFormed n =>
    rw [head_append (by rw [hf]; exact Head.noConfusion), hf] at hhead
    cases hhead

end Utf8

-- ---------------------------------------------------------------------------
-- UTF-16
-- ---------------------------------------------------------------------------

namespace Utf16

variable {units more : Units} {chars : List Char}

theorem decode_cons {u : UInt16} (hu : isHighSurrogate u = false) (hl : isLowSurrogate u = false)
    (units : Units) :
    decode (u :: units) = (Char.ofNat u.toNat :: (decode units).1, (decode units).2) := by
  cases units with
  | nil => simp [decode, hu, hl]
  | cons v rest => simp [decode, hu, hl]

theorem decode_append (h : decode units = (chars, none)) :
    decode (units ++ more) = (chars ++ (decode more).1, (decode more).2) := by
  fun_induction decode units generalizing chars with
  | case1 =>
    cases h
    rfl
  | case2 u hu => cases h
  | case3 u hu =>
    cases h
    rw [Bool.or_eq_true, not_or, Bool.not_eq_true, Bool.not_eq_true] at hu
    exact decode_cons hu.1 hu.2 more
  | case4 u v rest hu hv remaining =>
    rename_i ih
    obtain ⟨rfl, hr⟩ := Prod.mk.inj h
    rw [List.cons_append, List.cons_append, decode, if_pos hu, if_pos hv,
      ih (Prod.ext rfl hr)]
    rfl
  | case5 u v rest hu hv => cases h
  | case6 u v rest hu hv => cases h
  | case7 u v rest hu hv remaining =>
    rename_i ih
    obtain ⟨rfl, hr⟩ := Prod.mk.inj h
    rw [Bool.not_eq_true] at hu hv
    rw [List.cons_append, decode_cons hu hv, ih (Prod.ext rfl hr)]
    rfl

theorem isLowSurrogate_eq_false {u : UInt16} (h : isHighSurrogate u = true) :
    isLowSurrogate u = false := by
  unfold isHighSurrogate at h
  unfold isLowSurrogate
  grind

/-- No pair of surrogates is cut between the two. -/
def Apart (units more : Units) : Prop :=
  ∀ {u v : UInt16}, units.getLast? = some u → isHighSurrogate u → more.head? = some v →
    isLowSurrogate v = false

theorem Apart.tail {u v : UInt16} (h : Apart (u :: v :: units) more) : Apart (v :: units) more :=
  fun hl => h (List.getLast?_cons_cons.trans hl)

theorem decode_of_append (ha : Apart units more) (h : decode (units ++ more) = (chars, none)) :
    ∃ before after, decode units = (before, none) ∧ decode more = (after, none) ∧
      chars = before ++ after := by
  fun_induction decode units generalizing chars with
  | case1 => exact ⟨[], chars, rfl, h, rfl⟩
  | case2 u hu =>
    exfalso
    cases more with
    | nil => simp [decode, hu] at h
    | cons v rest =>
      by_cases hh : isHighSurrogate u = true
      · simp [decode, hh, ha rfl hh rfl] at h
      · simp_all [decode]
  | case3 u hu =>
    rw [Bool.or_eq_true, not_or, Bool.not_eq_true, Bool.not_eq_true] at hu
    rw [List.singleton_append, decode_cons hu.1 hu.2] at h
    obtain ⟨rfl, hr⟩ := Prod.mk.inj h
    exact ⟨_, _, rfl, Prod.ext rfl hr, rfl⟩
  | case4 u v rest hu hv remaining =>
    rename_i ih
    have ha' : Apart rest more := by
      intro u' v' hl
      refine ha ?_
      rw [List.getLast?_cons_cons, List.getLast?_cons, hl]
      rfl
    rw [List.cons_append, List.cons_append, decode, if_pos hu, if_pos hv] at h
    obtain ⟨rfl, hr⟩ := Prod.mk.inj h
    obtain ⟨before, after, hb, hm, he⟩ := ih ha' (Prod.ext rfl hr)
    refine ⟨pair u v :: before, after, ?_, hm, congrArg _ he⟩
    show (pair u v :: (decode rest).1, (decode rest).2) = _
    rw [hb]
  | case5 u v rest hu hv => simp [decode, hu, hv] at h
  | case6 u v rest hu hv => simp [decode, hu, hv] at h
  | case7 u v rest hu hv remaining =>
    rename_i ih
    rw [Bool.not_eq_true] at hu hv
    rw [List.cons_append, decode_cons hu hv] at h
    obtain ⟨rfl, hr⟩ := Prod.mk.inj h
    obtain ⟨before, after, hb, hm, he⟩ := ih ha.tail (Prod.ext rfl hr)
    refine ⟨Char.ofNat u.toNat :: before, after, ?_, hm, congrArg _ he⟩
    show (Char.ofNat u.toNat :: (decode (v :: rest)).1, (decode (v :: rest)).2) = _
    rw [hb]

end Utf16

-- ---------------------------------------------------------------------------
-- Chunks in groups
-- ---------------------------------------------------------------------------

theorem Utf8.encode_append (before after : List Char) :
    encode (before ++ after) = encode before ++ encode after :=
  List.flatMap_append

namespace Chunk

/-- Groups of chunks of one encoding, each of which makes up whole code points. -/
inductive Groups : List Chunk → Bytes → Prop
  | nil : Groups [] []
  | utf8 {pieces : List Bytes} {rest : List Chunk} {text : Bytes}
    (h : Utf8.isValid pieces.flatten = true) (hr : Groups rest text) :
    Groups (pieces.map .utf8 ++ rest) (pieces.flatten ++ text)
  | utf16 {pieces : List Utf16.Units} {chars : List Char} {rest : List Chunk} {text : Bytes}
    (h : Utf16.decode pieces.flatten = (chars, none)) (hr : Groups rest text) :
    Groups (pieces.map .utf16 ++ rest) (Utf8.encode chars ++ text)

/-- Chunks that make up a text. A chunk of no code units of UTF-16 is none. -/
def Spell (chunks : List Chunk) (text : Bytes) : Prop :=
  Groups (chunks.filter (· ≠ .utf16 [])) text

theorem Groups.append {chunks more : List Chunk} {text after : Bytes} (h : Groups chunks text)
    (hm : Groups more after) : Groups (chunks ++ more) (text ++ after) := by
  induction h with
  | nil => exact hm
  | utf8 h _ ih =>
    rw [List.append_assoc, List.append_assoc]
    exact .utf8 h ih
  | utf16 h _ ih =>
    rw [List.append_assoc, List.append_assoc]
    exact .utf16 h ih

theorem Groups.append_utf8 {chunks : List Chunk} {text : Bytes} {pieces : List Bytes}
    (hg : Groups chunks text) (h : Utf8.isValid pieces.flatten = true) :
    Groups (chunks ++ pieces.map .utf8) (text ++ pieces.flatten) := by
  have := hg.append (.utf8 h .nil)
  rwa [List.append_nil, List.append_nil] at this

theorem Groups.append_utf16 {chunks : List Chunk} {text : Bytes} {pieces : List Utf16.Units}
    {chars : List Char} (hg : Groups chunks text)
    (h : Utf16.decode pieces.flatten = (chars, none)) :
    Groups (chunks ++ pieces.map .utf16) (text ++ Utf8.encode chars) := by
  have := hg.append (.utf16 h .nil)
  rwa [List.append_nil, List.append_nil] at this

end Chunk

-- ---------------------------------------------------------------------------
-- What a run has read
-- ---------------------------------------------------------------------------

namespace TextRun

open Chunk (Groups)

/-- Chunks that a run has taken: closed groups, and the one that goes on with what is held
back. -/
inductive Reads : List Chunk → TextRun → Prop
  | whole {chunks : List Chunk} {run : TextRun} (h : Groups chunks run.text)
    (hh : run.held = .nothing) : Reads chunks run
  | bytes {closed : List Chunk} {text : Bytes} {pieces : List Bytes} {front : Bytes} {lead : UInt8}
    {following : Bytes} {run : TextRun} (h : Groups closed text)
    (hp : pieces.flatten = front ++ lead :: following) (hv : Utf8.isValid front = true)
    (ht : run.text = text ++ front) (hh : run.held = .bytes lead following) :
    Reads (closed ++ pieces.map .utf8) run
  | surrogate {closed : List Chunk} {text : Bytes} {pieces : List Utf16.Units}
    {front : Utf16.Units} {chars : List Char} {high : UInt16} {run : TextRun}
    (h : Groups closed text) (hp : pieces.flatten = front ++ [high])
    (hd : Utf16.decode front = (chars, none)) (ht : run.text = text ++ Utf8.encode chars)
    (hh : run.held = .surrogate high) : Reads (closed ++ pieces.map .utf16) run

variable {run run' : TextRun} {closed chunks : List Chunk} {text : Bytes}

theorem eq_empty (h : run.isEmpty = true) : run = {} := by
  cases run with
  | mk reversed held =>
    obtain ⟨hreversed, hheld⟩ := Bool.and_eq_true_iff.mp h
    obtain rfl : reversed = [] := List.isEmpty_iff.mp hreversed
    obtain rfl : held = .nothing := eq_of_beq hheld
    rfl

theorem appendUtf8_reads {pieces : List Bytes} {front chunk : Bytes} (hg : Groups closed text)
    (hv : Utf8.isValid front = true) (ht : run.text = text ++ front)
    (hp : pieces.flatten = front ++ chunk) (hr : run.appendUtf8 chunk = .ok () run') :
    Reads (closed ++ pieces.map .utf8) run' := by
  unfold appendUtf8 at hr
  have hsplit := Utf8.split_append chunk
  have hvalid : Utf8.isValid (front ++ (Utf8.split chunk).1) = true := by
    rw [Utf8.isValid_append hv, Utf8.isValid_split]
  simp only at hr
  split at hr
  next hs =>
    cases hr
    rw [hs, List.append_nil] at hsplit
    have hflat : pieces.flatten = front ++ (Utf8.split chunk).1 := by rw [hp, hsplit]
    refine .whole ?_ rfl
    rw [text_extend, ht, List.append_assoc, ← hflat]
    exact hg.append_utf8 (hflat ▸ hvalid)
  next lead following hs =>
    split at hr
    · cases hr
      refine .bytes hg ?_ hvalid ?_ rfl
      · rw [hp, List.append_assoc, ← hs, hsplit]
      · rw [text_extend, ht, List.append_assoc]
    · cases hr

theorem splitSurrogate_cases (units : Utf16.Units) :
    (∃ front high, units = front ++ [high] ∧ Utf16.isHighSurrogate high = true ∧
      splitSurrogate units = (front, .surrogate high)) ∨
      splitSurrogate units = (units, .nothing) ∧
        ∀ last, units.getLast? = some last → Utf16.isHighSurrogate last = false := by
  unfold splitSurrogate
  cases hl : units.getLast? with
  | none => exact .inr ⟨rfl, by simp⟩
  | some last =>
    by_cases hh : Utf16.isHighSurrogate last = true
    · obtain ⟨front, rfl⟩ := List.getLast?_eq_some_iff.mp hl
      refine .inl ⟨front, last, rfl, hh, ?_⟩
      simp only [hh, ↓reduceIte, List.dropLast_concat]
    · refine .inr ⟨if_neg hh, fun _ he => ?_⟩
      cases he
      exact Bool.not_eq_true _ ▸ hh

theorem appendUtf16_reads {pieces : List Utf16.Units} {front pending units : Utf16.Units}
    {chars : List Char} (hg : Groups closed text) (hd : Utf16.decode front = (chars, none))
    (ht : run.text = text ++ Utf8.encode chars)
    (hp : pieces.flatten = front ++ (pending ++ units))
    (hr : run.appendUtf16 pending units = .ok () run') :
    Reads (closed ++ pieces.map .utf16) run' := by
  unfold appendUtf16 at hr
  simp only at hr
  split at hr
  · cases hr
  next hnone =>
    cases hr
    have hdecode : Utf16.decode (front ++ (pending ++ (splitSurrogate units).1)) =
        (chars ++ (Utf16.decode (pending ++ (splitSurrogate units).1)).1, none) := by
      rw [Utf16.decode_append hd, hnone]
    rcases splitSurrogate_cases units with ⟨before, high, rfl, -, hs⟩ | ⟨hs, -⟩
    · rw [hs] at hdecode ⊢
      refine .surrogate hg ?_ hdecode ?_ rfl
      · rw [hp]
        simp only [List.append_assoc]
      · rw [text_extend, ht, Utf8.encode_append, List.append_assoc]
    · rw [hs] at hdecode ⊢
      refine .whole ?_ rfl
      rw [text_extend, ht, List.append_assoc, ← Utf8.encode_append]
      exact hg.append_utf16 (hp ▸ hdecode)

theorem Reads.push (h : Reads chunks run) {chunk : Chunk} (hne : chunk ≠ .utf16 [])
    (hr : TextRun.push chunk run = .ok () run') : Reads (chunks ++ [chunk]) run' := by
  cases chunk with
  | utf8 bytes =>
    simp only [TextRun.push, pushUtf8] at hr
    cases h with
    | whole hg hh =>
      rw [hh] at hr
      have hp : [bytes].flatten = [] ++ bytes := List.append_nil _
      exact appendUtf8_reads hg Utf8.isValid_nil (List.append_nil _).symm hp hr
    | @bytes closed text pieces front lead following _ hg hp hv ht hh =>
      rw [hh] at hr
      simp only at hr
      have hmap : pieces.map Chunk.utf8 ++ [.utf8 bytes] = (pieces ++ [bytes]).map .utf8 := by
        rw [List.map_append]
        rfl
      rw [List.append_assoc, hmap]
      generalize Utf8.announcedLength lead - (following.length + 1) = missing at hr
      split at hr
      · cases hr
        refine .bytes hg ?_ hv ht rfl
        rw [List.flatten_concat, hp, List.append_assoc]
        rfl
      · split at hr
        next hs =>
          have hfront :
              Utf8.isValid (front ++ (lead :: following ++ bytes.take missing)) = true := by
            rw [Utf8.isValid_append hv, hs]
          refine appendUtf8_reads hg hfront ?_ ?_ hr
          · rw [text_extend, ht, List.append_assoc]
          · rw [List.flatten_concat, hp]
            simp
        · cases hr
    | surrogate hg hp hd ht hh =>
      rw [hh] at hr
      cases hr
  | utf16 units =>
    have hempty : units.isEmpty = false := by
      cases units with
      | nil => exact absurd rfl hne
      | cons _ _ => rfl
    simp only [TextRun.push, pushUtf16, hempty, Bool.false_eq_true, ↓reduceIte] at hr
    cases h with
    | whole hg hh =>
      rw [hh] at hr
      have hp : [units].flatten = [] ++ ([] ++ units) := List.append_nil _
      exact appendUtf16_reads hg rfl (List.append_nil _).symm hp hr
    | bytes hg hp hv ht hh =>
      rw [hh] at hr
      cases hr
    | @surrogate closed text pieces front chars high _ hg hp hd ht hh =>
      rw [hh] at hr
      have hmap : pieces.map Chunk.utf16 ++ [.utf16 units] = (pieces ++ [units]).map .utf16 := by
        rw [List.map_append]
        rfl
      rw [List.append_assoc, hmap]
      refine appendUtf16_reads hg hd ht ?_ hr
      rw [List.flatten_concat, hp, List.append_assoc]

theorem Reads.forM_push {more : List Chunk} (h : Reads chunks run)
    (hne : ∀ chunk ∈ more, chunk ≠ .utf16 []) (hr : more.forM TextRun.push run = .ok () run') :
    Reads (chunks ++ more) run' := by
  induction more generalizing chunks run with
  | nil =>
    cases hr
    rwa [List.append_nil]
  | cons chunk rest ih =>
    obtain ⟨next, hp, hrest⟩ := of_run_forM_cons hr
    rw [List.append_cons]
    refine ih (h.push (hne chunk List.mem_cons_self) hp) ?_ hrest
    exact fun other hm => hne other (List.mem_cons_of_mem chunk hm)

/-- A run that holds nothing back has read whole groups. -/
theorem Reads.groups (h : Reads chunks run) (hh : run.held = .nothing) :
    Groups chunks run.text := by
  cases h with
  | whole h _ => exact h
  | bytes _ _ _ _ hh' => cases hh.symm.trans hh'
  | surrogate _ _ _ _ hh' => cases hh.symm.trans hh'

-- ---------------------------------------------------------------------------
-- Groups are taken
-- ---------------------------------------------------------------------------

/-- The bytes that are held back, fewer than their lead byte announces. -/
def HoldsBytes : HeldBack → Bytes → Prop
  | .nothing, pending => pending = []
  | .bytes lead following, pending =>
    pending = lead :: following ∧ following.length + 1 < Utf8.announcedLength lead
  | .surrogate _, _ => False

theorem appendUtf8_of_isValid {chunk more : Bytes} (h : Utf8.isValid (chunk ++ more) = true)
    (run : TextRun) :
    ∃ run' pending, run.appendUtf8 chunk = .ok () run' ∧ HoldsBytes run'.held pending ∧
      Utf8.isValid (pending ++ more) = true ∧ run'.text ++ pending = run.text ++ chunk := by
  obtain ⟨hrest, hcut⟩ := Utf8.split_of_isValid_append h
  have hsplit := Utf8.split_append chunk
  unfold appendUtf8
  simp only
  cases hs : (Utf8.split chunk).2 with
  | nil =>
    rw [hs] at hrest hsplit
    refine ⟨_, [], rfl, rfl, hrest, ?_⟩
    rw [text_extend, List.append_assoc, hsplit]
  | cons lead following =>
    have ht := hcut hs
    rw [hs] at hrest hsplit
    simp only [ht]
    refine ⟨_, lead :: following, rfl, ⟨rfl, Utf8.truncated_lt ht⟩, hrest, ?_⟩
    rw [text_extend, List.append_assoc, hsplit]

theorem pushUtf8_of_isValid {pending chunk more : Bytes} (hh : HoldsBytes run.held pending)
    (h : Utf8.isValid (pending ++ (chunk ++ more)) = true) :
    ∃ run' pending', run.pushUtf8 chunk = .ok () run' ∧ HoldsBytes run'.held pending' ∧
      Utf8.isValid (pending' ++ more) = true ∧
      run'.text ++ pending' = run.text ++ (pending ++ chunk) := by
  unfold pushUtf8
  cases hheld : run.held with
  | nothing =>
    rw [hheld] at hh
    obtain rfl : pending = [] := hh
    rw [List.nil_append] at h ⊢
    exact appendUtf8_of_isValid h run
  | surrogate high =>
    rw [hheld] at hh
    exact hh.elim
  | bytes lead following =>
    rw [hheld] at hh
    obtain ⟨rfl, hlt⟩ := hh
    simp only
    by_cases hshort : chunk.length < Utf8.announcedLength lead - (following.length + 1)
    · rw [if_pos hshort]
      refine ⟨_, lead :: (following ++ chunk), rfl, ⟨rfl, ?_⟩, ?_, rfl⟩
      · rw [List.length_append]
        omega
      · rwa [List.cons_append, List.append_assoc]
    · rw [if_neg hshort]
      rw [List.cons_append] at h
      obtain ⟨n, hn, -, hfirst, hrest⟩ := Utf8.isValid_first h
      obtain ⟨missing, rfl⟩ : ∃ missing, n = following.length + missing :=
        Nat.exists_eq_add_of_le (by omega)
      have hle : missing ≤ chunk.length := by omega
      rw [List.take_length_add_append, List.take_append_of_le_length hle] at hfirst
      rw [List.drop_length_add_append, List.drop_append_of_le_length hle] at hrest
      have hmissing : Utf8.announcedLength lead - (following.length + 1) = missing := by omega
      rw [hmissing, List.cons_append, if_pos hfirst]
      obtain ⟨run', pending', hrun, hh', hv, htext⟩ := appendUtf8_of_isValid hrest
        (run.extend (lead :: (following ++ chunk.take missing)) .nothing)
      refine ⟨run', pending', hrun, hh', hv, ?_⟩
      rw [htext, text_extend]
      simp

theorem forM_push_utf8 {pieces : List Bytes} {pending : Bytes} (hh : HoldsBytes run.held pending)
    (h : Utf8.isValid (pending ++ pieces.flatten) = true) :
    ∃ run', (pieces.map Chunk.utf8).forM TextRun.push run = .ok () run' ∧
      run'.held = .nothing ∧ run'.text = run.text ++ (pending ++ pieces.flatten) := by
  induction pieces generalizing run pending with
  | nil =>
    refine ⟨run, rfl, ?_⟩
    rw [List.flatten_nil, List.append_nil] at h ⊢
    cases hheld : run.held with
    | nothing =>
      rw [hheld] at hh
      obtain rfl : pending = [] := hh
      exact ⟨rfl, (List.append_nil _).symm⟩
    | surrogate high =>
      rw [hheld] at hh
      exact hh.elim
    | bytes lead following =>
      rw [hheld] at hh
      obtain ⟨rfl, hlt⟩ := hh
      obtain ⟨n, hn, hle, -⟩ := Utf8.isValid_first h
      omega
  | cons piece rest ih =>
    obtain ⟨next, pending', hpush, hh', hv, htext⟩ := pushUtf8_of_isValid hh h
    have hpush : TextRun.push (.utf8 piece) run = .ok () next := hpush
    obtain ⟨run', hrun, hheld, htext'⟩ := ih hh' hv
    refine ⟨run', (run_forM_cons hpush).trans hrun, hheld, ?_⟩
    rw [htext', ← List.append_assoc, htext, List.flatten_cons]
    simp only [List.append_assoc]

/-- The code units that are held back, a high surrogate or none. -/
def HoldsUnits : HeldBack → Utf16.Units → Prop
  | .nothing, pending => pending = []
  | .surrogate high, pending => pending = [high] ∧ Utf16.isHighSurrogate high = true
  | .bytes _ _, _ => False

theorem appendUtf16_of_decode {pending units more : Utf16.Units} {chars : List Char}
    (hne : units ≠ []) (h : Utf16.decode (pending ++ (units ++ more)) = (chars, none))
    (run : TextRun) :
    ∃ run' pending' before after, run.appendUtf16 pending units = .ok () run' ∧
      HoldsUnits run'.held pending' ∧ Utf16.decode (pending' ++ more) = (after, none) ∧
      run'.text = run.text ++ Utf8.encode before ∧ chars = before ++ after := by
  unfold appendUtf16
  simp only
  rcases splitSurrogate_cases units with ⟨front, high, rfl, hhigh, hs⟩ | ⟨hs, hlast⟩
  · rw [List.append_assoc, ← List.append_assoc] at h
    have hapart : Utf16.Apart (pending ++ front) ([high] ++ more) := by
      intro u v _ _ hv
      obtain rfl := Option.some.inj hv
      exact Utf16.isLowSurrogate_eq_false hhigh
    obtain ⟨before, after, hb, ha, hchars⟩ := Utf16.decode_of_append hapart h
    rw [hs, hb]
    exact ⟨_, [high], before, after, rfl, ⟨rfl, hhigh⟩, ha, text_extend .., hchars⟩
  · rw [← List.append_assoc] at h
    have hapart : Utf16.Apart (pending ++ units) more := by
      intro u v hu hhigh _
      cases hl : units.getLast? with
      | none => exact absurd (List.getLast?_eq_none_iff.mp hl) hne
      | some last =>
        rw [List.getLast?_append, hl] at hu
        obtain rfl := Option.some.inj hu
        rw [hlast last hl] at hhigh
        cases hhigh
    obtain ⟨before, after, hb, ha, hchars⟩ := Utf16.decode_of_append hapart h
    rw [hs, hb]
    exact ⟨_, [], before, after, rfl, rfl, ha, text_extend .., hchars⟩

theorem pushUtf16_of_decode {pending units more : Utf16.Units} {chars : List Char}
    (hh : HoldsUnits run.held pending)
    (h : Utf16.decode (pending ++ (units ++ more)) = (chars, none)) :
    ∃ run' pending' before after, run.pushUtf16 units = .ok () run' ∧
      HoldsUnits run'.held pending' ∧ Utf16.decode (pending' ++ more) = (after, none) ∧
      run'.text = run.text ++ Utf8.encode before ∧ chars = before ++ after := by
  unfold pushUtf16
  by_cases hne : units = []
  · subst hne
    exact ⟨run, pending, [], chars, rfl, hh, h, (List.append_nil _).symm, rfl⟩
  · rw [if_neg (by rwa [List.isEmpty_iff])]
    cases hheld : run.held with
    | nothing =>
      rw [hheld] at hh
      obtain rfl : pending = [] := hh
      exact appendUtf16_of_decode hne h run
    | surrogate high =>
      rw [hheld] at hh
      obtain ⟨rfl, -⟩ := hh
      exact appendUtf16_of_decode hne h run
    | bytes lead following =>
      rw [hheld] at hh
      exact hh.elim

theorem forM_push_utf16 {pieces : List Utf16.Units} {pending : Utf16.Units} {chars : List Char}
    (hh : HoldsUnits run.held pending)
    (h : Utf16.decode (pending ++ pieces.flatten) = (chars, none)) :
    ∃ run', (pieces.map Chunk.utf16).forM TextRun.push run = .ok () run' ∧
      run'.held = .nothing ∧ run'.text = run.text ++ Utf8.encode chars := by
  induction pieces generalizing run pending chars with
  | nil =>
    refine ⟨run, rfl, ?_⟩
    rw [List.flatten_nil, List.append_nil] at h
    cases hheld : run.held with
    | nothing =>
      rw [hheld] at hh
      obtain rfl : pending = [] := hh
      cases h
      exact ⟨rfl, (List.append_nil _).symm⟩
    | surrogate high =>
      rw [hheld] at hh
      obtain ⟨rfl, hhigh⟩ := hh
      simp [Utf16.decode, hhigh] at h
    | bytes lead following =>
      rw [hheld] at hh
      exact hh.elim
  | cons piece rest ih =>
    obtain ⟨next, pending', before, after, hpush, hh', hd, htext, rfl⟩ :=
      pushUtf16_of_decode hh h
    have hpush : TextRun.push (.utf16 piece) run = .ok () next := hpush
    obtain ⟨run', hrun, hheld, htext'⟩ := ih hh' hd
    refine ⟨run', (run_forM_cons hpush).trans hrun, hheld, ?_⟩
    rw [htext', htext, List.append_assoc, Utf8.encode_append]

theorem forM_push_of_groups (h : Groups chunks text) (hh : run.held = .nothing) :
    ∃ run', chunks.forM TextRun.push run = .ok () run' ∧ run'.held = .nothing ∧
      run'.text = run.text ++ text := by
  induction h generalizing run with
  | nil => exact ⟨run, rfl, hh, (List.append_nil _).symm⟩
  | utf8 h _ ih =>
    have hnone : HoldsBytes run.held [] := by rw [hh]; rfl
    obtain ⟨next, hrun, hheld, htext⟩ := forM_push_utf8 hnone h
    obtain ⟨run', hrun', hheld', htext'⟩ := ih hheld
    refine ⟨run', (run_forM_append hrun).trans hrun', hheld', ?_⟩
    rw [htext', htext, List.nil_append, List.append_assoc]
  | utf16 h _ ih =>
    have hnone : HoldsUnits run.held [] := by rw [hh]; rfl
    obtain ⟨next, hrun, hheld, htext⟩ := forM_push_utf16 hnone h
    obtain ⟨run', hrun', hheld', htext'⟩ := ih hheld
    refine ⟨run', (run_forM_append hrun).trans hrun', hheld', ?_⟩
    rw [htext', htext, List.append_assoc]

/-- An empty chunk of UTF-16 does nothing, even inside a sequence of bytes. -/
theorem forM_push_filter (chunks : List Chunk) (run : TextRun) :
    (chunks.filter (· ≠ .utf16 [])).forM TextRun.push run = chunks.forM TextRun.push run := by
  induction chunks generalizing run with
  | nil => rfl
  | cons chunk rest ih =>
    by_cases hc : chunk = .utf16 []
    · have hpush : TextRun.push chunk run = .ok () run := by rw [hc]; rfl
      rw [List.filter_cons_of_neg (by simpa using hc)]
      exact (ih run).trans (run_forM_cons hpush).symm
    · rw [List.filter_cons_of_pos (by simpa using hc)]
      have hrest : (rest.filter (· ≠ .utf16 [])).forM TextRun.push = rest.forM TextRun.push :=
        funext ih
      exact congrArg (fun next => EStateM.bind (TextRun.push chunk) (fun _ => next) run) hrest

end TextRun

/-- Chunks spell a text if a run takes them and is left with this text and nothing else. -/
theorem Chunk.spell_iff {chunks : List Chunk} {text : Bytes} :
    Spell chunks text ↔
      ∃ run, chunks.forM TextRun.push {} = .ok () run ∧ run.held = .nothing ∧
        run.text = text := by
  rw [← TextRun.forM_push_filter]
  constructor
  · exact fun h => TextRun.forM_push_of_groups h rfl
  · rintro ⟨run, hrun, hheld, rfl⟩
    have hreads : TextRun.Reads [] {} := .whole .nil rfl
    have hne : ∀ chunk ∈ chunks.filter (· ≠ .utf16 []), chunk ≠ .utf16 [] := by simp
    exact (hreads.forM_push hne hrun).groups hheld

theorem Chunk.Spell.unique {chunks : List Chunk} {first second : Bytes}
    (h : Spell chunks first) (h' : Spell chunks second) : first = second := by
  obtain ⟨run, hrun, -, rfl⟩ := spell_iff.mp h
  obtain ⟨run', hrun', -, rfl⟩ := spell_iff.mp h'
  cases hrun.symm.trans hrun'
  rfl

end XmlStore
