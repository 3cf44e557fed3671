import XmlStore.Proofs.Recutting
import XmlStore.Reader

/-!
# Ways to ingest a document

A document in memory and the same document in a file make the same database, whatever the sizes of
the pieces in which they are read: all that differs is where the database says that it comes from.
-/

namespace XmlStore

-- ---------------------------------------------------------------------------
-- A builder does not look at the source
-- ---------------------------------------------------------------------------

def Metadata.withSource (source : String) (metadata : Metadata) : Metadata :=
  { metadata with source }

def Database.withSource (source : String) (db : Database) : Database :=
  { db with metadata := db.metadata.withSource source }

namespace Builder

def withSource (source : String) (builder : Builder) : Builder :=
  { builder with metadata := builder.metadata.withSource source }

variable {source : String}

theorem parent_commutes : Commutes (withSource source) parent := by
  refine .read (fun _ => rfl) fun builder => ?_
  dsimp only
  split
  · exact .throw_bind _
  · split
    · exact .throw_bind _
    · split
      · exact .throw _
      · exact .pure _

theorem onStore_commutes {α : Type} (change : Store → Except BuildFault (α × Store)) :
    Commutes (withSource source) (onStore change) :=
  .read (fun _ => rfl) fun _ => (Commutes.ofExcept _).bind fun _ =>
    .bind (.modify fun _ => rfl) fun _ => .pure _

theorem commit_commutes (node : Node) : Commutes (withSource source) (commit node) :=
  onStore_commutes _

theorem keep_commutes (value : Bytes) : Commutes (withSource source) (keep value) :=
  onStore_commutes _

theorem measure_commutes (n : Nat) (counted : Counted) :
    Commutes (withSource source) (measure n counted) :=
  .ofExcept _

theorem reach_commutes (depth : Nat) : Commutes (withSource source) (reach depth) :=
  .modify fun _ => rfl

theorem intern_commutes (name : Bytes) : Commutes (withSource source) (intern name) :=
  .read (fun _ => rfl) fun _ => .bind (.modify fun _ => rfl) fun _ => .pure _

theorem resolve_commutes (name : Bytes) (isAttribute : Bool) :
    Commutes (withSource source) (resolve name isAttribute) := by
  refine .read (fun _ => rfl) fun builder => ?_
  split
  · split
    · exact .pure _
    · exact .throw _
  · exact .pure _

theorem leaf_commutes (content : Span → Content) (value : Bytes) :
    Commutes (withSource source) (leaf content value) :=
  parent_commutes.bind fun _ => .read (fun _ => rfl) fun _ =>
    (keep_commutes value).bind fun _ => (measure_commutes _ _).bind fun _ =>
      (commit_commutes _).bind fun _ => (reach_commutes _).bind fun _ => .pure _

theorem startDocument_commutes (name : Bytes) :
    Commutes (withSource source) (startDocument name) := by
  refine .read (fun _ => rfl) fun builder => ?_
  split
  · exact .throw_bind _
  · refine .bind (.modify fun _ => rfl) fun _ => (keep_commutes name).bind fun _ =>
      (commit_commutes _).bind fun _ => .modify fun builder => ?_
    by_cases h : builder.metadata.name.isEmpty <;> simp [withSource, Metadata.withSource, h]

theorem endDocument_commutes : Commutes (withSource source) endDocument := by
  refine parent_commutes.bind fun _ => .get_bind fun builder => ?_
  dsimp only [withSource]
  split
  · rfl
  · split
    · rfl
    · exact (measure_commutes _ _).bind_run (fun _ _ => rfl) builder

theorem recordNamespaces_commutes (position depth : Nat) :
    Commutes (withSource source) (recordNamespaces position depth) :=
  .modify fun _ => rfl

theorem addAttribute_commutes (element depth : Nat) (att : Attribute) :
    Commutes (withSource source) (addAttribute element depth att) :=
  (resolve_commutes _ _).bind fun _ => (intern_commutes _).bind fun _ =>
    (keep_commutes _).bind fun _ => (commit_commutes _).bind fun _ =>
      .bind (.modify fun _ => rfl) fun _ => reach_commutes _

theorem startElement_commutes (name : Bytes) (attributes : List Attribute) :
    Commutes (withSource source) (startElement name attributes) :=
  parent_commutes.bind fun _ => .read (fun _ => rfl) fun _ =>
    .bind (.modify fun _ => rfl) fun _ => (resolve_commutes _ _).bind fun _ =>
      (intern_commutes _).bind fun _ => (measure_commutes _ _).bind fun _ =>
        (measure_commutes _ _).bind fun _ => (commit_commutes _).bind fun _ =>
          .bind (.modify fun _ => rfl) fun _ => (recordNamespaces_commutes _ _).bind fun _ =>
            .bind (.forM fun _ => addAttribute_commutes _ _ _) fun _ =>
              .bind (.modify fun _ => rfl) fun _ => reach_commutes _

theorem endElement_commutes (name : Bytes) : Commutes (withSource source) (endElement name) := by
  refine parent_commutes.bind fun position => .get_bind fun builder => ?_
  dsimp only [withSource]
  split
  · rfl
  · split
    · rfl
    · exact (measure_commutes _ _).bind_run (fun _ _ => rfl) builder

theorem text_commutes (content : Bytes) (raw : Bool) :
    Commutes (withSource source) (text content raw) := by
  unfold text
  split
  · exact .pure _
  · refine .read (fun _ => rfl) fun builder => ?_
    split
    · exact parent_commutes.bind fun _ => .pure _
    · exact (leaf_commutes _ _).bind fun _ => .modify fun _ => rfl

theorem other_commutes (kind : NodeKind) (content : Span → Content) (value : Bytes) :
    Commutes (withSource source) (other kind content value) :=
  (leaf_commutes _ _).bind fun _ => .modify fun _ => rfl

theorem declareNamespace_commutes (qualifier uri : Bytes) :
    Commutes (withSource source) (declareNamespace qualifier uri) :=
  parent_commutes.bind fun _ => (intern_commutes _).bind fun _ =>
    (intern_commutes _).bind fun _ => .modify fun _ => rfl

/-- What becomes of a call does not depend on the source. -/
theorem take_commutes (call : Call) : Commutes (withSource source) (take call) := by
  cases call with
  | startDocument name => exact startDocument_commutes name
  | endDocument => exact endDocument_commutes
  | startElement name attributes => exact startElement_commutes name attributes
  | endElement name => exact endElement_commutes name
  | text content raw => exact text_commutes content raw
  | comment content => exact other_commutes _ _ _
  | instruction content => exact other_commutes _ _ _
  | declareNamespace qualifier uri => exact declareNamespace_commutes qualifier uri

end Builder

-- ---------------------------------------------------------------------------
-- Runs on the same bytes
-- ---------------------------------------------------------------------------

namespace Ingestion

/-- The database that a builder makes, with the encoding that a document declares. -/
def publish (encoding : Encoding) (declared : Option String) (built : Builder) :
    Except Error Database :=
  let metadata := { built.metadata with encoding := declared.getD encoding.name }
  Builder.finish { built with metadata } |>.mapError .build

theorem publish_withSource (encoding : Encoding) (declared : Option String) (built : Builder)
    (source : String) :
    publish encoding declared (built.withSource source) =
      (publish encoding declared built).map (Database.withSource source) := by
  unfold publish Builder.finish Builder.withSource
  dsimp only
  split <;> rfl

theorem run_eq_ok_iff {ingestion : Ingestion} {encoding : Encoding} {pieces : List Bytes}
    {db : Database} :
    ingestion.run encoding pieces = .ok db ↔
      ∃ after, Session.run handle pieces ingestion = .ok () after ∧
        publish encoding after.parser.context.encoding after.receiver.receiver = .ok db := by
  have hrun : Session.run handle pieces ingestion =
      (feed pieces >>= fun _ => Session.finish handle) ingestion := rfl
  rw [hrun]
  unfold run
  cases hf : feed pieces ingestion with
  | error fault fed => simp [run_bind_error hf]
  | ok _ fed =>
    rw [run_bind hf]
    unfold finish
    cases hr : Session.finish handle fed with
    | error fault after => simp [hr]
    | ok _ after => simp [hr, publish]

variable {name : String} {inputSize size : Nat} {reading : ReadOptions} {indexing : IndexOptions}
  {encoding : Encoding} {p q : List Bytes}

/-- However a document is cut and wherever it comes from, it makes the same database. -/
theorem run_recut (h : p.flatten = q.flatten) {first : String} {db : Database}
    (hr : (start name first inputSize reading indexing).run encoding p = .ok db)
    (second : String) :
    (start name second inputSize { reading with chunkSize := size } indexing).run encoding q =
      .ok (db.withSource second) := by
  obtain ⟨after, hrun, hpublish⟩ := run_eq_ok_iff.mp hr
  obtain ⟨events, hevents, htaken⟩ := Session.run_ok_iff.mp hrun
  have hevents : (Parser.ofOptions reading).Recounts p events after.parser := hevents
  -- The parser tells the same document, with its texts perhaps in other pieces.
  obtain ⟨others, last, hothers, hseen, hencoding⟩ := hevents.recut h
  have hsource : ∀ call, Commutes (Builder.withSource second) (Builder.take call) :=
    Builder.take_commutes
  have hsteps := hevents.steps (Parser.ofOptions_at reading)
  have hsteps' := hothers.steps (Parser.ofOptions_at reading)
  obtain ⟨final, hfinal, hbuilt⟩ := Assembly.run_alike hsource hsteps hsteps' hseen htaken
  have hbuilder : builder name second inputSize { reading with chunkSize := size } indexing =
      (builder name first inputSize reading indexing).withSource second := by
    simp only [builder, Builder.withSource, Metadata.withSource]
  refine run_eq_ok_iff.mpr ⟨⟨last, final⟩, Session.run_ok_iff.mpr ⟨others, hothers, ?_⟩, ?_⟩
  · simp only [start, hbuilder]
    exact hfinal
  · simp only [hencoding, hbuilt, publish_withSource, hpublish]
    rfl

theorem toOption_run_recut (h : p.flatten = q.flatten) (source : String) :
    ((start name source inputSize { reading with chunkSize := size } indexing).run encoding
        q).toOption =
      ((start name "" inputSize reading indexing).run encoding p).toOption.map
        (Database.withSource source) := by
  cases hp : (start name "" inputSize reading indexing).run encoding p with
  | ok db => rw [run_recut h hp source]; rfl
  | error fault =>
    cases hq : (start name source inputSize { reading with chunkSize := size } indexing).run
        encoding q with
    | error fault => rfl
    -- Taken in the one way, the document would be taken in the other.
    | ok db =>
      have hback : (start name "" inputSize reading indexing).run encoding p = _ :=
        run_recut h.symm hq ""
      cases hp.symm.trans hback

end Ingestion

-- ---------------------------------------------------------------------------
-- Files and memory
-- ---------------------------------------------------------------------------

namespace Encoding

theorem detect_take {room : Nat} (h : 2 ≤ room) (bs : Bytes) :
    detect (bs.take room) = detect bs := by
  obtain ⟨k, rfl⟩ := Nat.exists_eq_add_of_le' h
  cases bs with
  | nil => rfl
  | cons a bs =>
    cases bs with
    | nil => rfl
    | cons b rest =>
      rw [List.take_succ_cons, List.take_succ_cons]
      unfold detect
      repeat' split
      all_goals simp_all

theorem dropMark_take {mark : Bytes} {room : Nat} (h : mark.length ≤ room) (bs : Bytes) :
    dropMark mark (bs.take room) ++ bs.drop room = dropMark mark bs := by
  have hmark : mark.isPrefixOf (bs.take room) = mark.isPrefixOf bs := by
    rw [Bool.eq_iff_iff, List.isPrefixOf_iff_prefix, List.isPrefixOf_iff_prefix,
      List.prefix_take_iff, and_iff_left h]
  unfold dropMark
  rw [hmark]
  split
  next hp =>
    have hle := (List.isPrefixOf_iff_prefix.mp (hmark.trans hp)).length_le
    rw [← List.drop_append_of_le_length hle, List.take_append_drop]
  next => exact List.take_append_drop room bs

end Encoding

theorem flatten_filePieces {room : Nat} (h : 4 ≤ room) (chunkSize : Nat) (content : Bytes) :
    (filePieces room chunkSize content).flatten =
      Encoding.dropMark Encoding.utf8Mark content := by
  rw [filePieces, List.flatten_cons, flatten_pieces]
  have hmark : Encoding.utf8Mark.length ≤ 4 := by decide
  exact Encoding.dropMark_take (Nat.le_trans hmark h) content

theorem ingest_recut (name : String) (input : Bytes) (reading : ReadOptions) (size : Nat)
    (indexing : IndexOptions) (source : String) :
    ((Encoding.toUtf8 input).mapError Error.encoding >>= fun utf8 =>
      (Ingestion.start name source input.length { reading with chunkSize := size } indexing).run
        (Encoding.detect input) (pieces size utf8)).toOption =
      (ingest name input reading indexing).toOption.map (Database.withSource source) := by
  unfold ingest
  cases Encoding.toUtf8 input with
  | error fault => rfl
  | ok utf8 =>
    exact Ingestion.toOption_run_recut (by rw [flatten_pieces, flatten_pieces]) source

/-- A file of which the first buffer can be had makes the database that its bytes make in memory,
but for the source. -/
theorem ingestFile_agrees {path : String} {content : Bytes} {reading : ReadOptions} {size : Nat}
    {indexing : IndexOptions} (h : max size 4 ≤ maxBuffer) :
    (ingestFile path (some content) { reading with chunkSize := size } indexing).toOption =
      (ingest (fileStem path) content reading indexing).toOption.map
        (Database.withSource path) := by
  have hdetect : Encoding.detect (content.take (max size 4)) = _ :=
    Encoding.detect_take (by omega) content
  have hroom : firstRoom maxBuffer size = .ok (max size 4) := firstRoom_of_le (by omega)
  simp only [ingestFile, hroom, bind, Except.bind, hdetect]
  -- Only UTF-8 is read piece by piece; for anything else the file is read as a whole.
  cases he : Encoding.detect content with
  | utf8 =>
    have hutf8 : Encoding.toUtf8 content = .ok (Encoding.dropMark Encoding.utf8Mark content) := by
      simp [Encoding.toUtf8, he]
    unfold ingest
    rw [hutf8, he]
    refine Ingestion.toOption_run_recut ?_ path
    rw [flatten_pieces, flatten_filePieces (Nat.le_max_right ..)]
  | utf16 order =>
    have h := ingest_recut (fileStem path) content reading size indexing path
    rwa [he] at h

/-- A file makes the database that its bytes make in memory, but for the source, however it is
read, unless there is no memory for its first buffer. In memory the size of the pieces never
shows. -/
theorem ingest_agrees (path : String) (reader : Reader) (reading : ReadOptions) (size : Nat)
    (indexing : IndexOptions) :
    (ingestReader path reader { reading with chunkSize := size } indexing).toOption =
        (if max size 4 ≤ min reader.memory maxBuffer then
          (ingest (fileStem path) reader.rest reading indexing).toOption.map
            (Database.withSource path)
        else none) ∧
      ∀ name, (ingest name reader.rest { reading with chunkSize := size } indexing).toOption =
        (ingest name reader.rest reading indexing).toOption := by
  constructor
  · split
    next hroom =>
      rw [ingestReader_eq hroom]
      exact ingestFile_agrees (by omega)
    next hroom =>
      rw [ingestReader_oversized hroom]
      rfl
  · intro name
    have hsame := ingest_recut name reader.rest reading reading.chunkSize indexing ""
    have hsize := ingest_recut name reader.rest reading size indexing ""
    exact hsize.trans hsame.symm

/-- No memory has room for a first buffer of one byte too many. -/
theorem oversized_file_fails :
    (ingest "a" (ascii "<a/>") {} .none).toBool = true ∧
      ∀ memory, ingestReader "a.xml" { rest := ascii "<a/>", memory }
        { chunkSize := maxBuffer + 1 } .none = .error .oversizedBuffer := by
  refine ⟨by decide +kernel, fun memory => ingestReader_oversized ?_⟩
  dsimp only
  omega

/-- A mark, and reads that are interrupted or stop inside it. -/
example :
    let reader : Reader :=
      { rest := Encoding.utf8Mark ++ ascii "<a>b</a>", answers := [none, some 0, none, some 1] }
    (ingestReader "d/a.xml" reader { chunkSize := 0 } {}).toOption.map
      (fun db => (db.metadata.source, db.metadata.nodes)) = some ("d/a.xml", 3) := by
  decide +kernel

end XmlStore
