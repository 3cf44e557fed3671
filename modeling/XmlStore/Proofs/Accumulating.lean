import XmlStore.Proofs.CodePoints

/-!
# Text in pieces

A run takes the pieces of a text if and only if the whole of them is a text, and makes the same of
them however they are cut. Whatever it is given, whole code points are all that it ever shows, and
what it holds back is the beginning of one more.
-/

namespace XmlStore

-- ---------------------------------------------------------------------------
-- Pieces of one encoding
-- ---------------------------------------------------------------------------

namespace Chunk

variable {chunks : List Chunk} {text : Bytes}

theorem Groups.of_utf8 (h : Groups chunks text) {pieces : List Bytes}
    (hc : chunks = pieces.map .utf8) : Utf8.isValid pieces.flatten ∧ text = pieces.flatten := by
  induction h generalizing pieces with
  | nil =>
    obtain rfl := List.map_eq_nil_iff.mp hc.symm
    exact ⟨Utf8.isValid_nil, rfl⟩
  | @utf8 front rest text hv _ ih =>
    obtain ⟨before, after, rfl, hbefore, rfl⟩ := List.map_eq_append_iff.mp hc.symm
    obtain rfl : before = front := (List.map_inj_right fun _ _ => Chunk.utf8.inj).mp hbefore
    obtain ⟨hvalid, rfl⟩ := ih rfl
    rw [List.flatten_append]
    exact ⟨(Utf8.isValid_append hv).trans hvalid, rfl⟩
  | @utf16 front chars rest text hd _ ih =>
    cases front with
    | nil =>
      cases hd
      exact ih hc
    | cons units more =>
      cases pieces with
      | nil => cases hc
      | cons piece others => cases (List.cons.inj hc).1

theorem spell_utf8_iff {pieces : List Bytes} :
    Spell (pieces.map .utf8) text ↔ Utf8.isValid pieces.flatten ∧ text = pieces.flatten := by
  have hfilter : (pieces.map Chunk.utf8).filter (· ≠ .utf16 []) = pieces.map .utf8 := by simp
  unfold Spell
  rw [hfilter]
  constructor
  · exact fun h => h.of_utf8 rfl
  · rintro ⟨hv, rfl⟩
    simpa using Groups.utf8 hv .nil

theorem Groups.of_utf16 (h : Groups chunks text) {pieces : List Utf16.Units}
    (hc : chunks = pieces.map .utf16) :
    ∃ chars, Utf16.decode pieces.flatten = (chars, none) ∧ text = Utf8.encode chars := by
  induction h generalizing pieces with
  | nil =>
    obtain rfl := List.map_eq_nil_iff.mp hc.symm
    exact ⟨[], rfl, rfl⟩
  | @utf8 front rest text hv _ ih =>
    cases front with
    | nil => exact ih hc
    | cons bytes more =>
      cases pieces with
      | nil => cases hc
      | cons piece others => cases (List.cons.inj hc).1
  | @utf16 front chars rest text hd _ ih =>
    obtain ⟨before, after, rfl, hbefore, rfl⟩ := List.map_eq_append_iff.mp hc.symm
    obtain rfl : before = front := (List.map_inj_right fun _ _ => Chunk.utf16.inj).mp hbefore
    obtain ⟨more, hmore, rfl⟩ := ih rfl
    refine ⟨chars ++ more, ?_, (Utf8.encode_append chars more).symm⟩
    simp [Utf16.decode_append hd, hmore]

theorem spell_utf16_iff {pieces : List Utf16.Units} :
    Spell (pieces.map .utf16) text ↔
      ∃ chars, Utf16.encode chars = pieces.flatten ∧ text = Utf8.encode chars := by
  have hfilter : (pieces.map Chunk.utf16).filter (· ≠ .utf16 []) =
      (pieces.filter (· ≠ [])).map .utf16 := by
    simp [List.filter_map, Function.comp_def]
  have hflat : (pieces.filter (· ≠ [])).flatten = pieces.flatten := List.flatten_filter_ne_nil
  unfold Spell
  rw [hfilter]
  constructor
  · intro h
    obtain ⟨chars, hd, ht⟩ := h.of_utf16 rfl
    exact ⟨chars, hflat ▸ Utf16.encode_of_decode hd, ht⟩
  · rintro ⟨chars, he, rfl⟩
    have hd : Utf16.decode (pieces.filter (· ≠ [])).flatten = (chars, none) := by
      rw [hflat, ← he, Utf16.decode_encode]
    simpa using Groups.utf16 hd .nil

end Chunk

namespace TextRun

variable {run : TextRun} {chunks : List Chunk} {text : Bytes}

/-- A new run takes all of the chunks, waits for nothing after them, and has this text. -/
def Takes (chunks : List Chunk) (text : Bytes) : Prop :=
  ∃ run, chunks.forM push empty = .ok () run ∧ run.ensureComplete = .ok () ∧ run.text = text

theorem ensureComplete_eq_ok_iff : run.ensureComplete = .ok () ↔ run.held = .nothing := by
  unfold ensureComplete
  cases run.held <;> simp

theorem takes_iff_spell : Takes chunks text ↔ Chunk.Spell chunks text := by
  simp only [Takes, ensureComplete_eq_ok_iff, Chunk.spell_iff]
  rfl

/-- The cuts between pieces make no difference: pieces are taken as the bytes or the code units
that they make up together, which have to be well formed. -/
theorem takes_pieces :
    (∀ (pieces : List Bytes) (text : Bytes), Takes (pieces.map .utf8) text ↔
      text = pieces.flatten ∧ ∃ chars, Utf8.encode chars = pieces.flatten) ∧
    ∀ pieces : List Utf16.Units,
      ((∃ text, Takes (pieces.map .utf16) text) ↔ ∀ i, ¬ Utf16.UnpairedAt pieces.flatten i) ∧
      ∀ text,
        (Takes (pieces.map .utf16) text ↔
          ∃ chars, Utf16.encode chars = pieces.flatten ∧ text = Utf8.encode chars) ∧
        ∀ order : ByteOrder, Takes (pieces.map .utf16) text ↔
          Encoding.toUtf8 (order.mark ++ pieces.flatten.flatMap order.bytes) = .ok text := by
  have hutf16 (pieces : List Utf16.Units) (text : Bytes) : Takes (pieces.map .utf16) text ↔
      ∃ chars, Utf16.encode chars = pieces.flatten ∧ text = Utf8.encode chars :=
    takes_iff_spell.trans Chunk.spell_utf16_iff
  refine ⟨fun pieces text => ?_, fun pieces => ⟨?_, fun text => ⟨hutf16 pieces text, ?_⟩⟩⟩
  · rw [takes_iff_spell, Chunk.spell_utf8_iff, and_comm, Utf8.isValid_iff_encode]
    simp only [eq_comm]
  · simp only [hutf16, ← Utf16.decode_snd_eq_none_iff]
    constructor
    · rintro ⟨_, chars, he, rfl⟩
      rw [← he, Utf16.decode_encode]
    · intro h
      exact ⟨_, _, Utf16.encode_of_decode (Prod.ext rfl h), rfl⟩
  · intro order
    rw [hutf16, Encoding.toUtf8_marked_iff]

-- ---------------------------------------------------------------------------
-- What a run shows and what it holds back
-- ---------------------------------------------------------------------------

/-- The beginning of a sequence of bytes, half of a surrogate pair, or nothing. -/
inductive Beginning : HeldBack → Prop
  | nothing : Beginning .nothing
  | bytes {lead : UInt8} {following : Bytes} (hl : 0xC2 ≤ lead ∧ lead ≤ 0xF4)
    (hf : following.length + 1 < Utf8.announcedLength lead) : Beginning (.bytes lead following)
  | surrogate {high : UInt16} (h : Utf16.isHighSurrogate high) : Beginning (.surrogate high)

structure Whole (run : TextRun) : Prop where
  text : Utf8.isValid run.text
  held : Beginning run.held

/-- The text goes on, and is whole again. -/
structure GoesOn (run later : TextRun) : Prop where
  text : run.text <+: later.text
  whole : later.Whole

theorem Whole.goesOn (h : run.Whole) : run.GoesOn run := ⟨List.prefix_rfl, h⟩

theorem GoesOn.trans {later last : TextRun} (h : run.GoesOn later) (h' : later.GoesOn last) :
    run.GoesOn last := ⟨h.text.trans h'.text, h'.whole⟩

theorem Whole.extend (h : run.Whole) {more : Bytes} (hm : Utf8.isValid more) {held : HeldBack}
    (hh : Beginning held) : run.GoesOn (run.extend more held) where
  text := by simp
  whole := ⟨by rw [text_extend, Utf8.isValid_append h.text, hm], hh⟩

theorem beginning_of_truncated {lead : UInt8} {following : Bytes}
    (h : Utf8.head lead following = .truncated) : Beginning (.bytes lead following) := by
  refine .bytes ?_ (Utf8.truncated_lt h)
  have hlead : ∃ range ranges, Utf8.trailingRanges lead = some (range :: ranges) := by
    unfold Utf8.head at h
    split at h
    · cases h
    next ranges hr =>
      cases ranges with
      | nil => cases h
      | cons range ranges => exact ⟨range, ranges, hr⟩
  obtain ⟨range, ranges, hr⟩ := hlead
  unfold Utf8.trailingRanges at hr
  repeat' split at hr
  all_goals grind

theorem Whole.appendUtf8 (h : run.Whole) (chunk : Bytes) :
    Triple (TextRun.appendUtf8 chunk) run (fun _ => run.GoesOn) fun _ => run.GoesOn := by
  have hv := Utf8.isValid_split chunk
  unfold Triple TextRun.appendUtf8
  simp only
  cases (Utf8.split chunk).2 with
  | nil => exact h.extend hv .nothing
  | cons lead following =>
    simp only
    cases ht : Utf8.head lead following with
    | truncated => exact h.extend hv (beginning_of_truncated ht)
    | _ => exact h.extend hv .nothing

theorem Whole.pushUtf8 (h : run.Whole) (chunk : Bytes) :
    Triple (TextRun.pushUtf8 chunk) run (fun _ => run.GoesOn) fun _ => run.GoesOn := by
  have hheld := h.held
  unfold Triple TextRun.pushUtf8
  generalize hr : run.held = held at hheld
  cases hheld with
  | surrogate => exact h.goesOn
  | nothing => exact h.appendUtf8 chunk
  | @bytes lead following hl hf =>
    simp only
    generalize hm : Utf8.announcedLength lead - (following.length + 1) = missing
    by_cases hshort : chunk.length < missing
    · rw [if_pos hshort]
      have hheld : Beginning (.bytes lead (following ++ chunk)) := .bytes hl (by
        rw [List.length_append]
        omega)
      exact ⟨List.prefix_rfl, h.text, hheld⟩
    · rw [if_neg hshort]
      by_cases hv : Utf8.isValid (lead :: following ++ chunk.take missing) = true
      · rw [if_pos hv]
        have hgo := h.extend hv .nothing
        exact (hgo.whole.appendUtf8 (chunk.drop missing)).mono (fun _ _ => hgo.trans)
          fun _ _ => hgo.trans
      · rw [if_neg hv]
        exact h.goesOn

theorem Whole.appendUtf16 (h : run.Whole) (pending units : Utf16.Units) :
    Triple (TextRun.appendUtf16 pending units) run (fun _ => run.GoesOn) fun _ => run.GoesOn := by
  have hv := Utf8.isValid_encode (Utf16.decode (pending ++ (splitSurrogate units).1)).1
  have hheld : Beginning (splitSurrogate units).2 := by
    rcases splitSurrogate_cases units with ⟨front, high, -, hhigh, hs⟩ | ⟨hs, -⟩
    · rw [hs]
      exact .surrogate hhigh
    · rw [hs]
      exact .nothing
  unfold Triple TextRun.appendUtf16
  simp only
  cases (Utf16.decode (pending ++ (splitSurrogate units).1)).2 with
  | none => exact h.extend hv hheld
  | some unit => exact h.extend hv .nothing

theorem Whole.pushUtf16 (h : run.Whole) (units : Utf16.Units) :
    Triple (TextRun.pushUtf16 units) run (fun _ => run.GoesOn) fun _ => run.GoesOn := by
  unfold Triple TextRun.pushUtf16
  by_cases hempty : units.isEmpty = true
  · rw [if_pos hempty]
    exact h.goesOn
  · rw [if_neg hempty]
    cases run.held with
    | bytes => exact h.goesOn
    | surrogate high => exact h.appendUtf16 [high] units
    | nothing => exact h.appendUtf16 [] units

/-- Taken or refused, a chunk leaves whole code points, those from before in front. -/
theorem Whole.push (h : run.Whole) (chunk : Chunk) :
    Triple (TextRun.push chunk) run (fun _ => run.GoesOn) fun _ => run.GoesOn := by
  cases chunk with
  | utf8 bytes => exact h.pushUtf8 bytes
  | utf16 units => exact h.pushUtf16 units

inductive Action where
  | push (chunk : Chunk)
  | clear

/-- What becomes of a run, also if the action fails. -/
def after (run : TextRun) : Action → TextRun
  | .push chunk =>
    match TextRun.push chunk run with
    | .ok () run => run
    | .error _ run => run
  | .clear => empty

theorem Whole.after_push (h : run.Whole) (chunk : Chunk) :
    run.GoesOn (run.after (.push chunk)) := by
  have hpush := h.push chunk
  unfold Triple at hpush
  unfold after
  cases hr : TextRun.push chunk run with
  | ok => simpa [hr] using hpush
  | error => simpa [hr] using hpush

theorem whole_empty : Whole empty := ⟨Utf8.isValid_nil, .nothing⟩

theorem Whole.after (h : run.Whole) (action : Action) : (run.after action).Whole := by
  cases action with
  | push chunk => exact (h.after_push chunk).whole
  | clear => exact whole_empty

theorem whole_foldl (history : List Action) : (history.foldl TextRun.after empty).Whole :=
  List.foldlRecOn history _ (motive := Whole) whole_empty fun _ h action _ => h.after action

theorem Whole.foldl_push (h : run.Whole) (chunks : List Chunk) :
    run.GoesOn ((chunks.map .push).foldl TextRun.after run) := by
  induction chunks generalizing run with
  | nil => exact h.goesOn
  | cons chunk rest ih =>
    have hfirst := h.after_push chunk
    exact hfirst.trans (ih hfirst.whole)

theorem announcedLength_le (lead : UInt8) : Utf8.announcedLength lead ≤ 4 := by
  unfold Utf8.announcedLength
  repeat' split
  all_goals omega

/-- After any actions, refused ones included, a run shows whole code points, further chunks only
add to them, and what is held back is half of a surrogate pair or one to three bytes, fewer than
their lead byte announces; with all that a chunk can add to these, they are four at most. -/
theorem whole_after_all (history : List Action) :
    let run := history.foldl TextRun.after empty
    (∃ chars, run.text = Utf8.encode chars) ∧
    (∀ chunks : List Chunk, run.text <+: ((chunks.map .push).foldl TextRun.after run).text) ∧
    match run.held with
    | .nothing => True
    | .surrogate high => Utf16.isHighSurrogate high
    | .bytes lead following =>
      0xC2 ≤ lead ∧ lead ≤ 0xF4 ∧ (lead :: following).length ≤ 3 ∧
      (lead :: following).length < Utf8.announcedLength lead ∧
      ∀ chunk : Bytes, (lead :: following ++ chunk.take
        (Utf8.announcedLength lead - (lead :: following).length)).length ≤ 4 := by
  intro run
  have hwhole : run.Whole := whole_foldl history
  refine ⟨Utf8.isValid_iff_encode.mp hwhole.text, fun chunks => (hwhole.foldl_push chunks).text, ?_⟩
  have hheld := hwhole.held
  generalize run.held = held at hheld
  cases hheld with
  | nothing => trivial
  | surrogate h => exact h
  | @bytes lead following hl hf =>
    have hmax := announcedLength_le lead
    refine ⟨hl.1, hl.2, ?_, hf, fun chunk => ?_⟩
    · rw [List.length_cons]
      omega
    · simp only [List.cons_append, List.length_cons, List.length_append, List.length_take]
      omega

/-- A sequence that is refused stays held back. -/
example :
    (([.push (.utf8 [0x61, 0xE2]), .push (.utf8 [0x28, 0xA1])] : List Action).foldl
      TextRun.after empty).held = .bytes 0xE2 [] := by
  cbv

end TextRun

end XmlStore
