import XmlStore.Proofs.Finished
import XmlStore.Proofs.Phases

/-!
# Namespaces are lexically scoped

Which namespaces are in scope is told by the calls alone: declarations wait for the next element,
last while it is open, and are hidden by inner ones. An element is taken if its prefixes are in
scope, its nodes resolve as the scope says, and it records what it declares.
-/

namespace XmlStore

-- ---------------------------------------------------------------------------
-- Scopes of calls
-- ---------------------------------------------------------------------------

namespace Scopes

/-- The declarations that wait are the first, then come those of the open elements. -/
def take (scopes : Scopes) : Call → Scopes
  | .startElement _ _ => [] :: scopes
  | .endElement _ => scopes.headD [] :: scopes.tail.tail
  | .declareNamespace qualifier uri => (scopes.headD [] ++ [(qualifier, uri)]) :: scopes.tail
  | .startDocument _ | .endDocument | .text _ _ | .comment _ | .instruction _ => scopes

/-- The scopes that calls leave for the next element. -/
def after (calls : List Call) : Scopes := calls.foldl take [[]]

theorem after_append (calls : List Call) (call : Call) :
    after (calls ++ [call]) = (after calls).take call := by
  simp [after]

end Scopes

theorem Outline.scopes_take {outline later : Outline} {call : Call}
    (ht : outline.take call = some later) : later.scopes = outline.scopes.take call := by
  cases call with
  | startDocument name => cases ht
  | endDocument => cases ht
  | startElement name attributes =>
    simp only [Outline.take] at ht
    split at ht
    · cases ht
      rfl
    · cases ht
  | endElement name =>
    simp only [Outline.take] at ht
    split at ht
    next element opened position path ho hp =>
      split at ht
      · cases ht
        simp [Outline.scopes, Scopes.take, ho]
      · cases ht
    · cases ht
  | text content raw =>
    cases ht
    split <;> rfl
  | comment content =>
    cases ht
    rfl
  | instruction content =>
    cases ht
    rfl
  | declareNamespace qualifier uri =>
    cases ht
    rfl

/-- The document has been started, and has not been ended. -/
def InDocument (calls : List Call) : Prop :=
  (∃ name, .startDocument name ∈ calls) ∧ .endDocument ∉ calls

namespace Phase

variable {options : IndexOptions} {chop : Bool} {phase later : Phase} {call : Call}
  {calls : List Call}

/-- What calls say about the phase that they lead to. -/
def ReachedBy (calls : List Call) : Phase → Prop
  | .unstarted =>
    (∀ name, .startDocument name ∉ calls) ∧ .endDocument ∉ calls ∧ Scopes.after calls = [[]]
  | .within outline _ => InDocument calls ∧ Scopes.after calls = outline.scopes
  | .ended _ _ => .endDocument ∈ calls

theorem Step.reachedBy (hs : Step options chop phase call later) (h : phase.ReachedBy calls) :
    later.ReachedBy (calls ++ [call]) := by
  cases hs with
  | startDocument name =>
    obtain ⟨-, hend, hscopes⟩ := h
    refine ⟨⟨⟨name, List.mem_append_right _ List.mem_cons_self⟩, by simpa using hend⟩, ?_⟩
    rw [Scopes.after_append, hscopes]
    rfl
  | @goOn outline later account call ht =>
    obtain ⟨⟨⟨name, hstart⟩, hend⟩, hscopes⟩ := h
    refine ⟨⟨⟨name, List.mem_append_left _ hstart⟩, ?_⟩, ?_⟩
    · rw [List.mem_append, List.mem_singleton]
      rintro (hm | rfl)
      · exact hend hm
      · cases ht
    · rw [Scopes.after_append, hscopes, Outline.scopes_take ht]
  | endDocument hopened hpending => exact List.mem_append_right _ List.mem_cons_self
  | nothing raw =>
    have hsame : Scopes.after (calls ++ [.text [] raw]) = Scopes.after calls :=
      Scopes.after_append calls _
    cases phase with
    | unstarted =>
      obtain ⟨hno, hend, hscopes⟩ := h
      exact ⟨by simpa using hno, by simpa using hend, hsame.trans hscopes⟩
    | within outline account =>
      obtain ⟨⟨⟨name, hstart⟩, hend⟩, hscopes⟩ := h
      refine ⟨⟨⟨name, List.mem_append_left _ hstart⟩, ?_⟩, hsame.trans hscopes⟩
      simpa using hend
    | ended outline account => exact List.mem_append_left _ h

theorem Steps.reachedBy (h : Steps options chop .unstarted calls phase) :
    phase.ReachedBy calls := by
  induction h with
  | start => exact ⟨by simp, by simp, rfl⟩
  | next _ hs ih => exact hs.reachedBy ih

end Phase

-- ---------------------------------------------------------------------------
-- Nodes and declarations stay
-- ---------------------------------------------------------------------------

/-- The namespaces that an element declares which a call starts. -/
def Outline.declares (outline : Outline) : Call → List (Bytes × Bytes)
  | .startElement _ _ => declaring outline.pending
  | _ => []

namespace Account

variable {account : Account} {outline : Outline}

theorem noteAll_size (account : Account) (rows : List Row) :
    (account.noteAll rows).size = account.size + rows.length := by
  induction rows generalizing account with
  | nil => rfl
  | cons row rest ih =>
    rw [List.length_cons, Nat.add_comm rest.length, ← Nat.add_assoc]
    exact ih (account.note row)

theorem noteAll_declared (account : Account) (rows : List Row) :
    (account.noteAll rows).declared = account.declared := by
  induction rows generalizing account with
  | nil => rfl
  | cons row rest ih => exact ih (account.note row)

theorem take_size (account : Account) (outline : Outline) (call : Call) :
    (account.take outline call).size = account.size + (outline.added call).length := by
  cases call with
  | endElement name => rfl
  | _ => exact noteAll_size _ _

theorem take_declared (account : Account) (outline : Outline) (call : Call) :
    (account.take outline call).declared =
      account.declared ++ (outline.declares call).map (account.size, ·) := by
  cases call with
  | startElement name attributes => exact noteAll_declared _ _
  | endElement name => exact (List.append_nil _).symm
  | _ => exact (noteAll_declared _ _).trans (List.append_nil _).symm

end Account

namespace Phase

variable {options : IndexOptions} {chop : Bool} {phase next later : Phase} {call : Call}
  {calls : List Call}

def table : Phase → NodeTable
  | .unstarted => []
  | .within outline _ => outline.table
  | .ended outline _ => outline.table.close 0

def account : Phase → Account
  | .unstarted => { size := 0, indexes := {} }
  | .within _ account | .ended _ account => account

/-- A phase with the nodes and declarations of another one, and maybe more of both. -/
structure Grows (later phase : Phase) : Prop where
  resolved : phase.table.resolved <+: later.table.resolved
  size : phase.account.size ≤ later.account.size
  declared : ∃ more, later.account.declared = phase.account.declared ++ more ∧
    ∀ ns ∈ more, phase.account.size ≤ ns.1 ∧ ns.1 < later.account.size

theorem Grows.refl (phase : Phase) : phase.Grows phase :=
  ⟨List.prefix_rfl, Nat.le_refl _, [], (List.append_nil _).symm, by simp⟩

theorem Grows.trans (h : later.Grows next) (h' : next.Grows phase) : later.Grows phase := by
  obtain ⟨more, hmore, hwithin⟩ := h'.declared
  obtain ⟨more', hmore', hwithin'⟩ := h.declared
  refine ⟨h'.resolved.trans h.resolved, Nat.le_trans h'.size h.size, more ++ more', ?_, ?_⟩
  · rw [hmore', hmore, List.append_assoc]
  · intro ns hm
    rcases List.mem_append.mp hm with hm | hm
    · exact ⟨(hwithin ns hm).1, Nat.lt_of_lt_of_le (hwithin ns hm).2 h.size⟩
    · exact ⟨Nat.le_trans h'.size (hwithin' ns hm).1, (hwithin' ns hm).2⟩

theorem Step.grows (hs : Step options chop phase call later) : later.Grows phase := by
  cases hs with
  | startDocument name => exact ⟨List.nil_prefix, Nat.zero_le _, [], rfl, by simp⟩
  | @goOn outline later account call ht =>
    refine ⟨⟨_, (Outline.take_resolved ht).symm⟩, ?_, _, account.take_declared outline call, ?_⟩
    · exact (account.take_size outline call).symm ▸ Nat.le_add_right _ _
    · intro ns hm
      obtain ⟨declared, hd, rfl⟩ := List.mem_map.mp hm
      refine ⟨Nat.le_refl _, ?_⟩
      -- Only an element declares anything, and it is a node itself.
      cases call with
      | startElement name attributes =>
        show account.size < (account.take outline (.startElement name attributes)).size
        rw [Account.take_size, Outline.added, List.length_cons]
        omega
      | _ => cases hd
  | endDocument hopened hpending =>
    refine ⟨?_, Nat.le_refl _, [], (List.append_nil _).symm, by simp⟩
    rw [table, table, NodeTable.resolved_close]
  | nothing raw => exact .refl phase

theorem Steps.grows (h : Steps options chop phase calls later) : later.Grows phase := by
  induction h with
  | start => exact .refl phase
  | next _ hs ih => exact hs.grows.trans ih

end Phase

-- ---------------------------------------------------------------------------
-- Elements resolve as their scopes say
-- ---------------------------------------------------------------------------

namespace Store

variable {store : Store} {p : Nat} {item : Item} {uri : Bytes}

/-- At a position there is an element with these attributes, resolved in these scopes, of which the
first is what the element itself declares. -/
structure Resolves (store : Store) (p : Nat) (name : Bytes) (attributes : List Attribute)
    (scopes : Scopes) : Prop where
  element : store.kind? p = some .element ∧ store.name p = name ∧
    scopes.uri? name false = some (store.uri p)
  atts : ∀ {i : Nat} {att : Attribute}, attributes[i]? = some att →
    store.kind? (p + 1 + i) = some .attr ∧ store.name (p + 1 + i) = att.name ∧
      scopes.uri? att.name true = some (store.uri (p + 1 + i))
  declares : store.namespacesOf p = declaring (scopes.headD [])

theorem Sound.of_resolved (hs : store.Sound) (h : store.table.resolved[p]? = some (item, uri)) :
    store.kind? p = some item.kind ∧ store.name p = item.name ∧ store.uri p = uri := by
  rw [NodeTable.resolved, List.getElem?_map, Option.map_eq_some_iff] at h
  obtain ⟨row, hrow, hsame⟩ := h
  cases hsame
  refine ⟨kind?_eq hrow, hs.name_eq hrow, ?_⟩
  obtain ⟨node, hn, rfl⟩ := of_getElem?_table hrow
  rw [Store.uri, hn]
  rfl

end Store

namespace Builder

variable {options : IndexOptions} {chop : Bool} {metadata : Metadata} {phase : Phase}
  {builder earlier later : Builder} {calls : List Call}

theorem At.store (h : At options chop phase builder) :
    builder.store.Sound ∧ builder.store.table = phase.table ∧
      builder.store.size = phase.account.size ∧
      builder.store.declarations = phase.account.declared := by
  cases h with
  | unstarted h hchop ha =>
    refine ⟨⟨h.names, fun node hm => ?_⟩, ?_, ha.size, ha.declared⟩
    · rw [h.nodes] at hm
      cases hm
    · rw [Store.table, h.nodes]
      rfl
  | within h hw ho ha => exact ⟨h.sound, h.table, ha.size, ha.declared⟩
  | ended _ _ hs ht _ _ _ ha => exact ⟨hs, ht, ha.size, ha.declared⟩

/-- An element is taken inside the document if its prefixes and those of its attributes are in
scope, and there is room for it. -/
theorem takes_startElement_iff (h : At options chop phase builder) (hs : builder.Sized)
    (hreached : phase.ReachedBy calls) (name : Bytes) (attributes : List Attribute) :
    (∃ next, take (.startElement name attributes) builder = .ok () next) ↔
      InDocument calls ∧ (Scopes.after calls).Bound name ∧
        (∀ att ∈ attributes, (Scopes.after calls).Bound att.name) ∧
        builder.Room (builder.added (.startElement name attributes)) := by
  have hbound (scopes : Scopes) : scopes.Bound name ∧ (∀ att ∈ attributes, scopes.Bound att.name) ↔
      (scopes.uri? name false).isSome ∧
        (attributes.all fun att => (scopes.uri? att.name true).isSome) = true := by
    simp only [List.all_eq_true, Scopes.uri?_isSome_iff]
  have hadds := startElement_adds builder name attributes
  constructor
  · rintro ⟨next, hr⟩
    obtain ⟨phase', hstep, -⟩ := (take_step h _).run_ok hr
    have hroom := room_of_adds hs (hadds.run_ok hr)
    cases hstep with
    | goOn ht =>
      obtain ⟨hin, hscopes⟩ := hreached
      refine ⟨hin, ?_⟩
      rw [hscopes, ← and_assoc, hbound]
      simp only [Outline.take] at ht
      split at ht
      next hall => exact ⟨hall, hroom⟩
      next => cases ht
  · rintro ⟨hin, hname, hatts, hroom⟩
    have hall := (hbound _).mp ⟨hname, hatts⟩
    have hstep : ∃ next, phase.Step options chop (.startElement name attributes) next := by
      cases phase with
      | unstarted =>
        obtain ⟨⟨doc, hstart⟩, -⟩ := hin
        exact absurd hstart (hreached.1 doc)
      | ended outline account => exact absurd hreached hin.2
      | within outline account =>
        rw [hreached.2] at hall
        exact ⟨_, .goOn (if_pos hall)⟩
    have hnext : Triple (take (.startElement name attributes)) builder (fun _ _ => True)
        fun _ _ => False := by
      refine ((take_step h _).and hadds).mono (fun _ _ _ => trivial) ?_
      rintro _ _ ⟨hnone | he, hfull⟩
      · exact hstep.elim hnone
      · exact hfull he hroom
    obtain ⟨⟨⟩, next, hr, -⟩ := hnext.succeeds fun _ _ => id
    exact ⟨next, hr⟩

/-- An element and its attributes are resolved when the element is taken. -/
theorem resolves_enter {outline : Outline} {account : Account}
    (h : At options chop (.within outline account) earlier)
    (hfirst : (Phase.within outline account).Grows .unstarted) {name : Bytes}
    {attributes : List Attribute}
    (hbound : (outline.scopes.uri? name false).isSome ∧
      (attributes.all fun att => (outline.scopes.uri? att.name true).isSome) = true)
    (hat : At options chop phase later) (hordered : later.Recorded)
    (hgrows : phase.Grows (.within (outline.enter name attributes)
      (account.take outline (.startElement name attributes)))) :
    later.store.Resolves earlier.size name attributes outline.scopes := by
  obtain ⟨-, htable0, hsize0, -⟩ := h.store
  obtain ⟨hsound, htable, -, hdeclared⟩ := hat.store
  have hlength : earlier.size = outline.table.length := by
    rw [Builder.size, ← Store.length_table, htable0]
    rfl
  have hrow {q : Nat} {row : Row} (hq : (outline.enter name attributes).table[q]? = some row) :
      later.store.kind? q = some row.item.kind ∧ later.store.name q = row.item.name ∧
        later.store.uri q = row.uri := by
    refine hsound.of_resolved ?_
    obtain ⟨more, hmore⟩ := hgrows.resolved
    have hold : (outline.enter name attributes).table.resolved[q]? = some (row.item, row.uri) := by
      rw [NodeTable.resolved, List.getElem?_map, hq]
      rfl
    rw [htable, ← hmore]
    exact (List.getElem?_append_left (List.getElem?_eq_some_iff.mp hold).1).trans hold
  have hsome {name : Bytes} {isAttribute : Bool}
      (hs : (outline.scopes.uri? name isAttribute).isSome) :
      outline.scopes.uri? name isAttribute =
        some ((outline.scopes.uri? name isAttribute).getD []) := by
    rw [← Option.some_get hs]
    rfl
  refine ⟨?_, fun {i att} hi => ?_, ?_⟩
  · obtain ⟨hk, hn, hu⟩ := hrow NodeTable.getElem?_block_self
    rw [hlength, hu]
    exact ⟨hk, hn, hsome hbound.1⟩
  · have hatt : (attributes.map outline.attributeRow)[i]? = some (outline.attributeRow att) := by
      rw [List.getElem?_map, hi]
      rfl
    obtain ⟨hk, hn, hu⟩ := hrow ((NodeTable.getElem?_block_right i).trans hatt)
    rw [hlength, hu]
    exact ⟨hk, hn, hsome (List.all_eq_true.mp hbound.2 att (List.mem_of_getElem? hi))⟩
  · obtain ⟨before, hbefore, hlt⟩ := hfirst.declared
    obtain ⟨after, hafter, hge⟩ := hgrows.declared
    have hsize : earlier.size = account.size := hsize0
    have hcount := account.take_size outline (.startElement name attributes)
    -- The declarations before belong to nodes before, and those after to nodes after.
    have hleft : account.declared.filter (·.1 == earlier.size) = [] := by
      refine List.filter_eq_nil_iff.mpr fun ns hm => ?_
      have hmem : ns ∈ before := by
        have hsame : account.declared = [] ++ before := hbefore
        rwa [hsame] at hm
      have hless : ns.1 < account.size := (hlt ns hmem).2
      simp only [beq_iff_eq]
      omega
    have hright : after.filter (·.1 == earlier.size) = [] := by
      refine List.filter_eq_nil_iff.mpr fun ns hm => ?_
      have hmore : (account.take outline (.startElement name attributes)).size ≤ ns.1 :=
        (hge ns hm).1
      rw [hcount, Outline.added, List.length_cons] at hmore
      simp only [beq_iff_eq]
      omega
    have hall : phase.account.declared = account.declared ++
        (declaring outline.pending).map (account.size, ·) ++ after :=
      hafter.trans (congrArg (· ++ after)
        (account.take_declared outline (.startElement name attributes)))
    rw [Store.Ordered.declarations_of hordered, hdeclared, hall, List.filter_append,
      List.filter_append, hleft, hright, List.nil_append, List.append_nil, hsize,
      List.filter_map, List.map_map]
    simp [Function.comp_def, Outline.scopes]

/-- What is declared for a position was declared for the element that starts there. -/
theorem declared_at {first : Builder} (hfirst : At options chop .unstarted first)
    (hordered : first.Recorded) (hr : calls.forM take first = .ok () builder) {p : Nat}
    (hp : builder.store.namespacesOf p ≠ []) :
    ∃ before name attributes after earlier,
      calls = before ++ .startElement name attributes :: after ∧
      before.forM take first = .ok () earlier ∧ earlier.size = p := by
  induction calls using List.reverseRecOn generalizing builder with
  | nil =>
    cases hr
    rw [Store.Ordered.declarations_of hordered, hfirst.store.2.2.2] at hp
    exact absurd rfl hp
  | append_singleton calls call ih =>
    obtain ⟨mid, hmid, hlast⟩ := of_run_forM_append hr
    obtain ⟨_, hcall, hnil⟩ := of_run_forM_cons hlast
    cases hnil
    by_cases hold : mid.store.namespacesOf p ≠ []
    · obtain ⟨before, name, attributes, after, earlier, rfl, hearlier, hsize⟩ := ih hmid hold
      exact ⟨before, name, attributes, after ++ [call], earlier, by simp, hearlier, hsize⟩
    -- The last call declares it, so it starts an element here.
    rw [not_not] at hold
    obtain ⟨phase, -, hat⟩ := run_steps hfirst hmid
    obtain ⟨phase1, hstep, hat1⟩ := (take_step hat call).run_ok hcall
    rw [Store.Ordered.declarations_of (hordered.run hmid), hat.store.2.2.2,
      List.map_eq_nil_iff] at hold
    rw [Store.Ordered.declarations_of (hordered.run hr), hat1.store.2.2.2] at hp
    cases hstep with
    | startDocument name => exact absurd rfl hp
    | endDocument => exact absurd (congrArg (List.map _) hold) hp
    | nothing raw => exact absurd (congrArg (List.map _) hold) hp
    | @goOn outline later account call ht =>
      have hdeclared : (account.declared.filter fun ns => ns.1 == p) = [] := hold
      have hnew : ((outline.declares call).map (account.size, ·)).filter (·.1 == p) ≠ [] := by
        intro hnone
        refine hp ?_
        show ((account.take outline call).declared.filter _).map _ = _
        rw [Account.take_declared, List.filter_append, hdeclared, hnone]
        rfl
      obtain ⟨ns, hns⟩ := List.exists_mem_of_ne_nil _ hnew
      obtain ⟨hmem, hposition⟩ := List.mem_filter.mp hns
      obtain ⟨declared, hd, rfl⟩ := List.mem_map.mp hmem
      cases call with
      | startElement name attributes =>
        refine ⟨calls, name, attributes, [], mid, rfl, hmid, ?_⟩
        exact hat.store.2.2.1.trans (beq_iff_eq.mp hposition)
      | _ => cases hd

/-- Namespaces follow the scopes of the calls: a next element is taken if its prefixes are in scope
and there is room for it, each element that was taken is resolved in the scopes before it and
declares what came for it, and nothing else declares anything. -/
theorem scopes_follow_calls
    (hr : calls.forM take { ofOptions options with chop, metadata } = .ok () builder) :
    (∀ name attributes, (∃ next, take (.startElement name attributes) builder = .ok () next) ↔
      InDocument calls ∧ (Scopes.after calls).Bound name ∧
        (∀ att ∈ attributes, (Scopes.after calls).Bound att.name) ∧
        builder.Room (builder.added (.startElement name attributes))) ∧
    (∀ before name attributes after,
      calls = before ++ .startElement name attributes :: after →
      ∃ earlier, before.forM take { ofOptions options with chop, metadata } = .ok () earlier ∧
        builder.store.Resolves earlier.size name attributes (Scopes.after before)) ∧
    (∀ p, builder.store.namespacesOf p ≠ [] →
      ∃ before name attributes after earlier,
        calls = before ++ .startElement name attributes :: after ∧
        before.forM take { ofOptions options with chop, metadata } = .ok () earlier ∧
        earlier.size = p) ∧
    ∀ db, builder.finish = .ok db → db.store = builder.store := by
  have hfirst := ofOptions_at options chop metadata
  have hordered := recorded_ofOptions options chop metadata
  have hsized := sized_run (sized_ofOptions options chop metadata) hr
  obtain ⟨phase, hsteps, hat⟩ := run_steps hfirst hr
  refine ⟨fun name attributes =>
    takes_startElement_iff hat hsized hsteps.reachedBy name attributes,
    ?_, fun p => declared_at hfirst hordered hr,
    fun db hf => (hat.published (indexed_run hr).options hf).2.1⟩
  rintro before name attributes after rfl
  obtain ⟨earlier, hbefore, hrest⟩ := of_run_forM_append hr
  obtain ⟨mid, hmid, hafter⟩ := of_run_forM_cons hrest
  obtain ⟨phase0, hsteps0, hat0⟩ := run_steps hfirst hbefore
  obtain ⟨phase1, hstep1, hat1⟩ := (take_step hat0 _).run_ok hmid
  obtain ⟨phase2, hsteps2, hat2⟩ := run_steps hat1 hafter
  refine ⟨earlier, hbefore, ?_⟩
  have hreached := hsteps0.reachedBy
  cases hstep1 with
  | @goOn outline later account call ht =>
    rw [hreached.2]
    simp only [Outline.take] at ht
    split at ht
    next hbound =>
      cases ht
      exact resolves_enter hat0 hsteps0.grows hbound hat2 (hordered.run hr) hsteps2.grows
    next => cases ht

/-- The element of one element, whose prefix is declared for it. -/
theorem oneElement_follows_scopes :
    ∃ builder earlier,
      (.startDocument (ascii "d") :: (oneElement ++ [.endDocument])).forM take
        { ofOptions {} with chop := true, metadata := {} } = .ok () builder ∧
      [.startDocument (ascii "d"), .declareNamespace (ascii "p") (ascii "u")].forM take
        { ofOptions {} with chop := true, metadata := {} } = .ok () earlier ∧
      builder.store.Resolves earlier.size (ascii "p:a") [⟨ascii "k", ascii "v"⟩]
        [[(ascii "p", ascii "u")]] := by
  obtain ⟨builder, db, hr, -⟩ :=
    (ofOptions_fresh {} true {}).finish_shows (ascii "d") oneElement_nested oneElement_fits
  obtain ⟨-, hresolves, -⟩ := scopes_follow_calls hr
  obtain ⟨earlier, hearlier, h⟩ := hresolves
    [.startDocument (ascii "d"), .declareNamespace (ascii "p") (ascii "u")] _ _ _ rfl
  exact ⟨builder, earlier, hr, hearlier, h⟩

theorem Fresh.starts {first : Builder} (h : Fresh first) {name : Bytes} (hfit : Fit [name]) :
    ∃ builder, [.startDocument name].forM take first = .ok () builder := by
  obtain ⟨⟨⟩, builder, hstarted, -⟩ := (h.startDocument_fits hfit).succeeds fun _ _ => id
  exact ⟨builder, run_forM_cons hstarted⟩

/-- Names without a prefix are in every scope. Still no element is taken before the document, and
none in it with an attribute value that does not fit. -/
theorem bound_elements_refused :
    (∃ builder, [].forM take { ofOptions {} with chop := false, metadata := {} } = .ok () builder ∧
      (Scopes.after []).Bound (ascii "a") ∧
      ¬ ∃ next, take (.startElement (ascii "a") []) builder = .ok () next) ∧
    ∃ builder,
      [.startDocument (ascii "d")].forM take
        { ofOptions {} with chop := false, metadata := {} } = .ok () builder ∧
      (Scopes.after [.startDocument (ascii "d")]).Bound (ascii "a") ∧
      (Scopes.after [.startDocument (ascii "d")]).Bound (ascii "k") ∧
      ¬ ∃ next,
        take (.startElement (ascii "a") [⟨ascii "k", longValue⟩]) builder = .ok () next := by
  have hfirst := ofOptions_at {} false {}
  have hsized := sized_ofOptions {} false {}
  have hbound (scopes : Scopes) (name : Bytes) (hn : (QName.ofBytes name).qualifier = none) :
      scopes.Bound name := fun qualifier hq => by cases hn.symm.trans hq
  constructor
  · have hreached : Phase.unstarted.ReachedBy [] := ⟨by simp, by simp, rfl⟩
    refine ⟨_, rfl, hbound _ _ rfl, fun htaken => ?_⟩
    obtain ⟨⟨⟨name, hstart⟩, -⟩, -⟩ :=
      (takes_startElement_iff hfirst hsized hreached (ascii "a") []).mp htaken
    cases hstart
  · have hfits : Fit [ascii "d"] := by constructor <;> decide
    obtain ⟨builder, hr⟩ := (ofOptions_fresh {} false {}).starts hfits
    obtain ⟨phase, hsteps, hat⟩ := run_steps hfirst hr
    refine ⟨builder, hr, hbound _ _ rfl, hbound _ _ rfl, fun htaken => ?_⟩
    obtain ⟨-, -, -, hroom⟩ := (takes_startElement_iff hat (sized_run hsized hr)
      hsteps.reachedBy (ascii "a") [⟨ascii "k", longValue⟩]).mp htaken
    exact Nat.not_le_of_gt lt_length_longValue (hroom.length_le (.tail _ (.head _)))

end Builder

end XmlStore
