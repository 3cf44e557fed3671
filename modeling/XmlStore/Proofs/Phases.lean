import XmlStore.Proofs.Accounts

/-!
# From the first call to the last

A builder waits for its document, goes on with the outline of it, or has ended it. Which calls it
takes, and to what phase they lead, is told by `Phase.Step` without looking into the builder. The
nodes of a phase have been noted one by one; what holds of all that can be noted holds of every
builder.
-/

namespace XmlStore

-- ---------------------------------------------------------------------------
-- Noting node by node
-- ---------------------------------------------------------------------------

def Item.isLeaf : Item → Bool
  | .document _ | .element .. => false
  | _ => true

/-- Indexes and a height in which the nodes of a table have been noted in order, each while the
nodes above it were open. -/
inductive Noted (options : IndexOptions) : NodeTable → List Nat → Indexes → Nat → Prop
  | document (name : Bytes) :
    Noted options [{ parent := none, depth := 0, item := .document name }] [0]
      (.ofOptions options) 0
  | leaf {table : NodeTable} {path : List Nat} {indexes : Indexes} {height : Nat} {row : Row}
    (h : Noted options table path indexes height) (hopen : path ≠ [])
    (hparent : row.parent = path.head?) (hdepth : row.depth = path.length)
    (hitem : row.item.isLeaf = true) :
    Noted options (table ++ [row]) path (indexes.note table.length row.item)
      (max height row.depth)
  | enter {table : NodeTable} {path : List Nat} {indexes : Indexes} {height : Nat} {row : Row}
    {name : Bytes} {count : Nat} (h : Noted options table path indexes height) (hopen : path ≠ [])
    (hparent : row.parent = path.head?) (hdepth : row.depth = path.length)
    (hitem : row.item = .element name count) :
    Noted options (table ++ [row]) (table.length :: path)
      (indexes.note table.length row.item) (max height row.depth)
  | leave {table : NodeTable} {p q : Nat} {rest : List Nat} {indexes : Indexes} {height : Nat}
    (h : Noted options table (p :: q :: rest) indexes height) :
    Noted options (table.close p) (q :: rest) indexes.leaveElement height
  | finish {table : NodeTable} {p : Nat} {indexes : Indexes} {height : Nat}
    (h : Noted options table [p] indexes height) : Noted options (table.close p) [] indexes height

/-- An account of the nodes that are noted. -/
structure Account.Of (options : IndexOptions) (table : NodeTable) (path : List Nat)
    (account : Account) : Prop where
  size : account.size = table.length
  noted : Noted options table path account.indexes account.height

namespace Account.Of

variable {options : IndexOptions} {table : NodeTable} {path : List Nat} {account : Account}
  {outline later : Outline}

theorem leaf (h : account.Of options table path) (hopen : path ≠ []) {row : Row}
    (hparent : row.parent = path.head?) (hdepth : row.depth = path.length)
    (hitem : row.item.isLeaf = true) :
    (account.note row).Of options (table ++ [row]) path := by
  refine ⟨?_, ?_⟩
  · rw [List.length_append, ← h.size]
    rfl
  · rw [note, h.size]
    exact .leaf h.noted hopen hparent hdepth hitem

theorem leaves (h : account.Of options table path) (hopen : path ≠ []) (rows : List Row)
    (hrows : ∀ row ∈ rows, row.parent = path.head? ∧ row.depth = path.length ∧
      row.item.isLeaf = true) :
    (account.noteAll rows).Of options (table ++ rows) path := by
  induction rows generalizing table account with
  | nil =>
    rw [List.append_nil]
    exact h
  | cons row rest ih =>
    obtain ⟨hparent, hdepth, hitem⟩ := hrows row List.mem_cons_self
    rw [List.append_cons]
    exact ih (h.leaf hopen hparent hdepth hitem) fun other hm =>
      hrows other (List.mem_cons_of_mem _ hm)

theorem enter (h : account.Of options outline.table outline.path) (hopen : outline.path ≠ [])
    (name : Bytes) (attributes : List Attribute) :
    (account.take outline (.startElement name attributes)).Of options
      (outline.enter name attributes).table (outline.enter name attributes).path := by
  have hfirst : ((account.declare outline.pending).note (outline.elementRow name attributes)).Of
      options (outline.table ++ [outline.elementRow name attributes])
      (outline.table.length :: outline.path) := by
    refine ⟨?_, ?_⟩
    · rw [List.length_append, ← h.size]
      rfl
    · rw [note, show (account.declare outline.pending).size = account.size from rfl, h.size]
      exact .enter h.noted hopen rfl rfl rfl
  have hall := hfirst.leaves (List.cons_ne_nil _ _) (attributes.map outline.attributeRow) (by
    rw [List.forall_mem_map]
    exact fun att _ => ⟨rfl, rfl, rfl⟩)
  rw [← List.append_cons] at hall
  exact hall

theorem take (h : account.Of options outline.table outline.path) (hw : outline.WellFormed)
    {call : Call} (ht : outline.take call = some later) :
    (account.take outline call).Of options later.table later.path := by
  have hopen : outline.path ≠ [] := by
    obtain ⟨p, rest, hpath⟩ := hw.exists_path
    rw [hpath]
    exact List.cons_ne_nil _ _
  cases call with
  | startDocument name => cases ht
  | endDocument => cases ht
  | startElement name attributes =>
    simp only [Outline.take] at ht
    split at ht
    · cases ht
      exact h.enter hopen name attributes
    · cases ht
  | endElement name =>
    simp only [Outline.take] at ht
    split at ht
    next element opened position path ho hp =>
      split at ht
      · cases ht
        -- The element stands below the document, so there is one more open node.
        have hlength := hw.opens.length
        rw [ho, hp] at hlength
        cases path with
        | nil => cases hlength
        | cons above rest =>
          have hnoted := h.noted
          rw [hp] at hnoted
          exact ⟨h.size.trans (NodeTable.length_close _ _).symm, .leave hnoted⟩
      · cases ht
    · cases ht
  | text content raw =>
    cases ht
    simp only [Account.take, Outline.added]
    split
    · exact h
    · exact h.leaf hopen rfl rfl rfl
  | comment content =>
    cases ht
    exact h.leaf hopen rfl rfl rfl
  | instruction content =>
    cases ht
    exact h.leaf hopen rfl rfl rfl
  | declareNamespace qualifier uri =>
    cases ht
    exact h

end Account.Of

-- ---------------------------------------------------------------------------
-- Phases
-- ---------------------------------------------------------------------------

/-- What has come of the calls so far. -/
inductive Phase where
  | unstarted
  | within (outline : Outline) (account : Account)
  | ended (outline : Outline) (account : Account)

/-- The account of a document that has been started. -/
def Account.start (options : IndexOptions) : Account :=
  { size := 1, indexes := .ofOptions options }

namespace Phase

/-- A call that is taken leads on. An empty text is taken at every phase. -/
inductive Step (options : IndexOptions) (chop : Bool) : Phase → Call → Phase → Prop
  | startDocument (name : Bytes) :
    Step options chop .unstarted (.startDocument name)
      (.within (.ofName chop name) (.start options))
  | goOn {outline later : Outline} {account : Account} {call : Call}
    (ht : outline.take call = some later) :
    Step options chop (.within outline account) call (.within later (account.take outline call))
  | endDocument {outline : Outline} {account : Account} (hopened : outline.opened = [])
    (hpending : outline.pending = []) :
    Step options chop (.within outline account) .endDocument (.ended outline account)
  | nothing {phase : Phase} (raw : Bool) : Step options chop phase (.text [] raw) phase

/-- Calls that are taken in order. -/
inductive Steps (options : IndexOptions) (chop : Bool) (first : Phase) :
    List Call → Phase → Prop
  | start : Steps options chop first [] first
  | next {calls : List Call} {call : Call} {phase later : Phase}
    (h : Steps options chop first calls phase) (hs : Step options chop phase call later) :
    Steps options chop first (calls ++ [call]) later

end Phase

namespace Builder

variable {options : IndexOptions} {chop : Bool} {builder later : Builder} {phase : Phase}

/-- A builder at a phase. -/
inductive At (options : IndexOptions) (chop : Bool) : Phase → Builder → Prop
  | unstarted {builder : Builder} (h : Fresh builder) (hchop : builder.chop = chop)
    (ha : builder.Accounts { size := 0, indexes := .ofOptions options }) :
    At options chop .unstarted builder
  | within {outline : Outline} {account : Account} {builder : Builder}
    (h : Builds outline builder) (hw : outline.WellFormed)
    (ho : account.Of options outline.table outline.path) (ha : builder.Accounts account) :
    At options chop (.within outline account) builder
  | ended {outline : Outline} {account : Account} {builder : Builder}
    (hstarted : builder.started = true) (hfinished : builder.finished = true)
    (hs : builder.store.Sound) (ht : builder.store.table = outline.table.close 0)
    (hw : outline.WellFormed) (hopened : outline.opened = [])
    (ho : account.Of options (outline.table.close 0) []) (ha : builder.Accounts account) :
    At options chop (.ended outline account) builder

theorem ofOptions_accounts (options : IndexOptions) (chop : Bool) (metadata : Metadata) :
    Accounts { size := 0, indexes := .ofOptions options }
      { ofOptions options with chop, metadata } := by
  have hnames := (ofOptions_fresh options chop metadata).names
  unfold ofOptions at hnames ⊢
  generalize Scope.initial .empty = initial at hnames ⊢
  exact ⟨rfl, rfl, rfl, hnames, by simp [Store.Numbered], rfl⟩

theorem ofOptions_at (options : IndexOptions) (chop : Bool) (metadata : Metadata) :
    At options chop .unstarted { ofOptions options with chop, metadata } :=
  .unstarted (ofOptions_fresh options chop metadata) rfl (ofOptions_accounts options chop metadata)

/-- Where no node is open only an empty text is taken, apart from the start of a document. -/
theorem take_closed {reason : BuildFault} (hp : parent builder = .error reason builder)
    {call : Call} (hc : ∀ name, call ≠ .startDocument name) (ht : ∀ raw, call ≠ .text [] raw) :
    Triple (take call) builder (fun _ _ => False) fun _ _ => True := by
  have hrefused {β : Type} (next : Nat → Action β) :
      Triple (parent >>= next) builder (fun _ _ => False) fun _ _ => True := by
    rw [Triple, run_bind_error hp]
    exact trivial
  have hleaf (content : Span → Content) (value : Bytes) :
      Triple (leaf content value) builder (fun _ _ => False) fun _ _ => True := hrefused _
  cases call with
  | startDocument name => exact absurd rfl (hc name)
  | endDocument => exact hrefused _
  | startElement name attributes => exact hrefused _
  | endElement name => exact hrefused _
  | comment content => exact (hleaf .comment content).bind fun _ _ h => h.elim
  | instruction content => exact (hleaf .instruction content).bind fun _ _ h => h.elim
  | declareNamespace qualifier uri => exact hrefused _
  | text content raw =>
    change Triple (text content raw) builder _ _
    unfold text
    split
    next he => exact absurd (congrArg (Call.text · raw) (List.isEmpty_iff.mp he)) (ht raw)
    next =>
      refine .step rfl ?_
      split
      · exact hrefused _
      · exact (hleaf .text content).bind fun _ _ h => h.elim

theorem take_empty (builder : Builder) (raw : Bool) :
    take (.text [] raw) builder = .ok () builder := rfl

theorem accounts_startDocument {account : Account} (h : builder.Accounts account) (name : Bytes) :
    Triple (startDocument name) builder
      (fun _ later => later.Accounts { account with size := account.size + 1 })
      fun _ _ => True := by
  unfold startDocument
  refine .step rfl ?_
  split
  · exact trivial
  · have hstarted : Accounts account { builder with started := true } := h.same rfl rfl rfl
    refine .step rfl ((accounts_keep name _ hstarted).bind fun span builder1 h1 => ?_)
    refine (accounts_commit h1 _).bind ?_
    rintro position builder2 ⟨-, h2⟩
    exact .of_run rfl (h2.same rfl rfl rfl)

/-- The end of the document is taken if no element is open and no declaration waits for one. -/
theorem endDocument_step (chop : Bool) {outline : Outline} {account : Account}
    (h : Builds outline builder) (hw : outline.WellFormed)
    (ho : account.Of options outline.table outline.path) (ha : builder.Accounts account) :
    Triple (take .endDocument) builder
      (fun _ later => outline.opened = [] ∧ outline.pending = [] ∧
        At options chop (.ended outline account) later)
      fun fault _ => ¬ (outline.opened = [] ∧ outline.pending = []) ∨ Exceeds fault := by
  obtain ⟨p, rest, hpath⟩ := hw.exists_path
  have hlength := hw.opens.length
  have hpending : builder.pending = [] ↔ outline.pending = [] := by
    rw [← h.pending, List.map_eq_nil_iff]
  unfold take endDocument
  refine .step (parent_run h (by rw [hpath]; rfl)) (.step rfl ?_)
  rw [h.stack_size, hlength]
  dsimp only
  split
  next hopen =>
    have hne : outline.opened ≠ [] := by
      intro ho
      rw [ho] at hopen
      exact absurd hopen (Nat.lt_irrefl 1)
    exact .inl fun hempty => hne hempty.1
  next hopen =>
    split
    next hwaits =>
      have hne : outline.pending ≠ [] := by
        intro hp
        rw [hpending.mpr hp] at hwaits
        cases hwaits
      exact .inl fun hempty => hne hempty.2
    next hwaits =>
      have hopened : outline.opened = [] := List.length_eq_zero_iff.mp (by omega)
      have hroot : outline.path = [0] := (hopened ▸ hw.opens).path_eq
      have hnoted := ho.noted
      rw [hroot] at hnoted
      refine (measure_run builder _ _).bind_mono (fun _ _ hf => .inr hf.2.1) ?_
      rintro size builder ⟨rfl, rfl, -⟩
      obtain ⟨hs, ht⟩ := h.sound.close 0
      refine .of_run rfl ⟨hopened, hpending.mp (by simpa using hwaits), .ended h.started rfl hs
        (ht.trans (congrArg (·.close 0) h.table)) hw hopened
        ⟨ho.size.trans (NodeTable.length_close _ _).symm, .finish hnoted⟩ ?_⟩
      exact ⟨(size_close ..).trans ha.size, ha.indexes, ha.height, ha.names, ha.numbered,
        ha.declared⟩

/-- One step of a builder is one step of its phase, unless what the call adds does not fit. -/
theorem take_step (h : At options chop phase builder) (call : Call) :
    Triple (take call) builder
      (fun _ later => ∃ next, phase.Step options chop call next ∧ At options chop next later)
      fun fault _ => (∀ next, ¬ phase.Step options chop call next) ∨ Exceeds fault := by
  -- An empty text changes nothing at any phase.
  by_cases hempty : ∃ raw, call = .text [] raw
  · obtain ⟨raw, rfl⟩ := hempty
    exact .of_run (take_empty builder raw) ⟨phase, .nothing raw, h⟩
  have hempty : ∀ raw, call ≠ .text [] raw := fun raw hc => hempty ⟨raw, hc⟩
  cases h with
  | unstarted h hchop ha =>
    by_cases hstart : ∃ name, call = .startDocument name
    · obtain ⟨name, rfl⟩ := hstart
      refine ((startDocument_spec h name).and (accounts_startDocument ha name)).mono ?_
        fun _ _ hf => .inr hf.1
      rintro _ later ⟨hb, hlater⟩
      rw [hchop] at hb
      exact ⟨_, .startDocument name, .within hb (Outline.ofName_wellFormed chop name)
        ⟨rfl, .document name⟩ hlater⟩
    · have hp : parent builder = .error .nodeBeforeStart builder := by
        unfold parent
        rw [run_get_bind, h.unstarted]
        rfl
      refine (take_closed hp (fun name hc => hstart ⟨name, hc⟩) hempty).mono
        (fun _ _ hf => hf.elim) fun _ _ _ => .inl ?_
      intro next hs
      cases hs with
      | startDocument name => exact hstart ⟨name, rfl⟩
      | nothing raw => exact hempty raw rfl
  | within h hw ho ha =>
    by_cases hend : call = .endDocument
    · subst hend
      refine (endDocument_step chop h hw ho ha).mono ?_ ?_
      · rintro _ _ ⟨hopened, hpending, hat⟩
        exact ⟨_, .endDocument hopened hpending, hat⟩
      · refine fun _ _ hf => hf.imp_left fun hrefused next hs => ?_
        cases hs with
        | goOn ht => cases ht
        | endDocument hopened hpending => exact hrefused ⟨hopened, hpending⟩
    · refine ((take_follows h hw hend).and (take_accounts h hw ha hend)).mono ?_ ?_
      · rintro _ later ⟨⟨outline', ht, hb⟩, hlater⟩
        exact ⟨_, .goOn ht, .within hb (hw.take ht) (ho.take hw ht) hlater⟩
      · refine fun _ _ hf => hf.1.imp_left fun hnone next hs => ?_
        cases hs with
        | goOn ht => cases hnone.symm.trans ht
        | endDocument => exact hend rfl
        | nothing raw => exact hempty raw rfl
  | ended hstarted hfinished =>
    by_cases hstart : ∃ name, call = .startDocument name
    · obtain ⟨name, rfl⟩ := hstart
      unfold take startDocument
      refine .step rfl ?_
      rw [hstarted]
      exact .inl fun next hs => by cases hs
    · have hp : parent builder = .error .nodeAfterEnd builder := by
        unfold parent
        rw [run_get_bind, hstarted, hfinished]
        rfl
      refine (take_closed hp (fun name hc => hstart ⟨name, hc⟩) hempty).mono
        (fun _ _ hf => hf.elim) fun _ _ _ => .inl ?_
      intro next hs
      cases hs with
      | nothing raw => exact hempty raw rfl

theorem run_steps (h : At options chop phase builder) {calls : List Call}
    (hr : calls.forM take builder = .ok () later) :
    ∃ next, phase.Steps options chop calls next ∧ At options chop next later := by
  induction calls using List.reverseRecOn generalizing later with
  | nil =>
    cases hr
    exact ⟨phase, .start, h⟩
  | append_singleton calls call ih =>
    obtain ⟨before, hbefore, hlast⟩ := of_run_forM_append hr
    obtain ⟨phase1, hsteps, hat⟩ := ih hbefore
    obtain ⟨_, hcall, hnil⟩ := of_run_forM_cons hlast
    cases hnil
    obtain ⟨next, hstep, hnext⟩ := (take_step hat call).run_ok hcall
    exact ⟨next, .next hsteps hstep, hnext⟩

end Builder

-- ---------------------------------------------------------------------------
-- Published databases
-- ---------------------------------------------------------------------------

/-- A database whose nodes have been noted in the indexes that these options ask for. -/
structure Database.Published (options : IndexOptions) (db : Database) : Prop where
  sound : db.store.Sound
  layout : db.store.table.Layout []
  noted : Noted options db.store.table [] db.indexes db.metadata.height
  fresh : db.metadata.stale = false
  paths : db.metadata.paths = options.paths
  texts : db.metadata.texts = options.texts
  attributes : db.metadata.attributes = options.attributes

namespace Builder

variable {options : IndexOptions} {chop : Bool} {builder : Builder} {phase : Phase} {db : Database}

/-- A builder that can finish has ended its document. What it records besides makes no
difference. -/
theorem At.published (h : At options chop phase builder) (ho : builder.options = options)
    {recorded : Metadata} (hf : finish { builder with metadata := recorded } = .ok db) :
    db.Published options ∧ db.store = builder.store ∧
      ∃ outline account, phase = .ended outline account := by
  unfold finish at hf
  split at hf
  case isFalse => cases hf
  next hfinished =>
    cases hf
    cases h with
    | unstarted h =>
      rw [h.unfinished] at hfinished
      cases hfinished
    | within h =>
      rw [h.unfinished] at hfinished
      cases hfinished
    | ended hstarted _ hs ht hw hopened hnoted ha =>
      have hroot := (hopened ▸ hw.opens).path_eq
      have hlayout := hw.layout
      rw [hroot] at hlayout
      refine ⟨⟨hs, ?_, ?_, rfl, ?_, ?_, ?_⟩, rfl, _, _, rfl⟩
      · rw [ht]
        exact hlayout.close
      · rw [ht, ha.indexes, ha.height]
        exact hnoted.noted
      · rw [← ho]
      · rw [← ho]
      · rw [← ho]

theorem finish_published {metadata recorded : Metadata} {calls : List Call}
    (hr : calls.forM take { ofOptions options with chop, metadata } = .ok () builder)
    (hf : finish { builder with metadata := recorded } = .ok db) :
    db.Published options ∧ ∃ outline account,
      Phase.unstarted.Steps options chop calls (.ended outline account) ∧
      At options chop (.ended outline account) builder ∧ db.store = builder.store := by
  obtain ⟨phase, hsteps, hat⟩ := run_steps (ofOptions_at options chop metadata) hr
  obtain ⟨hpublished, hstore, outline, account, rfl⟩ := hat.published (indexed_run hr).options hf
  exact ⟨hpublished, outline, account, hsteps, hat, hstore⟩

end Builder

end XmlStore
