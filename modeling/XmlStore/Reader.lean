import XmlStore.Ingest

/-!
# Files that are read in short steps

A read may deliver less than there is room for, and it may be interrupted. A buffer is filled by
reading until it is full or nothing comes any more, so that how a file is read does not show.
-/

namespace XmlStore

/-- An open file. The answers say how the next reads turn out: one is interrupted, or it delivers
at most so many bytes after the first. Reads after them deliver what there is room for. There is
memory for a buffer of so many bytes. -/
structure Reader where
  rest : Bytes
  answers : List (Option Nat) := []
  memory : Nat := maxBuffer
  deriving DecidableEq, Repr

namespace Reader

def read (room : Nat) (reader : Reader) : Option Bytes × Reader :=
  match reader.answers with
  | [] => (some (reader.rest.take room), { reader with rest := reader.rest.drop room })
  | none :: answers => (none, { reader with answers })
  | some more :: answers =>
    let count := min (more + 1) room
    (some (reader.rest.take count), { reader with rest := reader.rest.drop count, answers })

variable {room : Nat} {reader next : Reader}

theorem read_none (h : reader.read room = (none, next)) :
    next.rest = reader.rest ∧ next.answers.length < reader.answers.length := by
  unfold read at h
  split at h
  · cases h
  · next answers ha =>
    cases h
    simp [ha]
  · cases h

theorem read_some {piece : Bytes} (h : reader.read room = (some piece, next)) :
    piece ++ next.rest = reader.rest ∧ piece.length ≤ room ∧
      (0 < room → piece = [] → reader.rest = []) ∧
      next.answers.length ≤ reader.answers.length := by
  unfold read at h
  split at h
  · cases h
    refine ⟨List.take_append_drop .., List.length_take_le .., ?_, Nat.le_refl _⟩
    simp +contextual [Nat.ne_of_gt]
  · cases h
  · next more answers ha =>
    cases h
    refine ⟨List.take_append_drop .., ?_, ?_, by simp [ha]⟩
    · exact Nat.le_trans (List.length_take_le ..) (Nat.min_le_right ..)
    · simp +contextual [Nat.ne_of_gt]

/-- Reads until the buffer is full or nothing comes. An interrupted read is repeated. -/
def fill (room : Nat) (reader : Reader) : Bytes × Reader :=
  if room = 0 then ([], reader)
  else
    match _hr : reader.read room with
    | (none, next) => next.fill room
    | (some [], next) => ([], next)
    | (some (b :: bs), next) =>
      let more := next.fill (room - (bs.length + 1))
      (b :: bs ++ more.1, more.2)
termination_by reader.answers.length + room
decreasing_by
  · have := (read_none _hr).2
    omega
  · obtain ⟨-, hle, -, ha⟩ := read_some _hr
    rw [List.length_cons] at hle
    omega

theorem fill_spec (room : Nat) (reader : Reader) :
    (reader.fill room).1 = reader.rest.take room ∧
      (reader.fill room).2.rest = reader.rest.drop room := by
  fun_induction fill room reader with
  | case1 => simp
  | case2 _ _ _ _ h ih => simpa [(read_none h).1] using ih
  | case3 room reader hroom next h =>
    obtain ⟨hsplit, -, hend, -⟩ := read_some h
    simp_all [Nat.pos_of_ne_zero hroom]
  | case4 room reader hroom b bs next h more ih =>
    obtain ⟨hsplit, hle, -, -⟩ := read_some h
    obtain ⟨htake, hdrop⟩ := ih
    rw [← hsplit, List.take_append, List.take_of_length_le hle, List.drop_append,
      List.drop_of_length_le hle]
    exact ⟨congrArg (b :: bs ++ ·) htake, hdrop⟩

def buffers (size : Nat) (reader : Reader) : List Bytes :=
  match _hf : reader.fill (max size 1) with
  | ([], _) => []
  | (b :: bs, next) => (b :: bs) :: next.buffers size
termination_by reader.rest.length
decreasing_by
  obtain ⟨hpiece, hrest⟩ := fill_spec (max size 1) reader
  rw [_hf] at hpiece hrest
  have hpiece := congrArg List.length hpiece
  have hrest : next.rest = _ := hrest
  simp only [hrest, List.length_cons, List.length_take, List.length_drop] at hpiece ⊢
  omega

theorem buffers_eq (size : Nat) (reader : Reader) :
    reader.buffers size = pieces size reader.rest := by
  fun_induction buffers size reader with
  | case1 reader next hf =>
    have hpiece := (fill_spec (max size 1) reader).1
    rw [hf] at hpiece
    have hempty : reader.rest = [] := by
      rcases List.take_eq_nil_iff.mp hpiece.symm with h0 | hnil
      · omega
      · exact hnil
    simp [hempty, pieces]
  | case2 reader b bs next hf ih =>
    obtain ⟨hpiece, hrest⟩ := fill_spec (max size 1) reader
    rw [hf, show max size 1 = size - 1 + 1 by omega] at hpiece hrest
    cases hbytes : reader.rest with
    | nil => simp [hbytes] at hpiece
    | cons c more =>
      rw [hbytes] at hpiece hrest
      have hpiece : b :: bs = _ := hpiece
      have hrest : next.rest = _ := hrest
      rw [ih, pieces, hpiece, hrest, List.drop_succ_cons]

end Reader

/-- Makes a database of an open file, which is named after its path. If its first buffer says that
it is UTF-16, the rest is read before any of it is converted. -/
def ingestReader (path : String) (reader : Reader) (reading : ReadOptions)
    (indexing : IndexOptions) : Except Error Database := do
  let room ← firstRoom reader.memory reading.chunkSize
  let head := reader.fill room
  let encoding := Encoding.detect head.1
  let ingestion := Ingestion.start (fileStem path) path reader.rest.length reading indexing
  match encoding with
  | .utf8 =>
    let first ← (Encoding.toUtf8 head.1).mapError .encoding
    ingestion.run encoding (first :: head.2.buffers reading.chunkSize)
  | .utf16 _ =>
    let utf8 ← (Encoding.toUtf8 (head.1 ++ head.2.rest)).mapError .encoding
    ingestion.run encoding (pieces reading.chunkSize utf8)

theorem firstRoom_of_le {memory chunkSize : Nat} (h : max chunkSize 4 ≤ min memory maxBuffer) :
    firstRoom memory chunkSize = .ok (max chunkSize 4) :=
  if_pos h

theorem ingestReader_oversized {path : String} {reader : Reader} {reading : ReadOptions}
    {indexing : IndexOptions} (h : ¬ max reading.chunkSize 4 ≤ min reader.memory maxBuffer) :
    ingestReader path reader reading indexing = .error .oversizedBuffer := by
  have hroom : firstRoom reader.memory reading.chunkSize = .error .oversizedBuffer := if_neg h
  rw [ingestReader, hroom]
  rfl

theorem ingestReader_eq {path : String} {reader : Reader} {reading : ReadOptions}
    {indexing : IndexOptions} (h : max reading.chunkSize 4 ≤ min reader.memory maxBuffer) :
    ingestReader path reader reading indexing =
      ingestFile path (some reader.rest) reading indexing := by
  obtain ⟨htake, hdrop⟩ := reader.fill_spec (max reading.chunkSize 4)
  have hmost : max reading.chunkSize 4 ≤ min maxBuffer maxBuffer := by omega
  have hok {α : Type} (a : α) : (Except.ok a).mapError Error.encoding = .ok a := rfl
  simp only [ingestReader, ingestFile, firstRoom_of_le h, firstRoom_of_le hmost, bind, Except.bind,
    htake, hdrop, Reader.buffers_eq, List.take_append_drop]
  cases he : Encoding.detect (reader.rest.take (max reading.chunkSize 4)) with
  | utf8 => simp only [Encoding.toUtf8, he, filePieces, hok]
  | utf16 order => rfl

end XmlStore
