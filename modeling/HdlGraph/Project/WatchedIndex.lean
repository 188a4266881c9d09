import HdlGraph.Project.Watch

/-!
This module contains the watch command at work: files change, the events about them are handled, the
index is updated. It compares the index with the files that exist in the end.
-/

namespace HdlGraph

open scoped List
open IndexedProject

structure Watched where
  project : PathBuf
  cwd : Location
  listedAs : Location → PathBuf
  located : ∀ location, (listedAs location).locate cwd = location
  under : ∀ location, project.Under (listedAs location)

inductive Notice where
  | event (kind : EventKind) (paths : List PathBuf)
  | error

-- The files that exist and the state of `cmd_watch`; `reads` are the reads for updates so far
structure WatchState (H : Type) where
  disk : Dict Location Text
  channel : List Notice
  pending : Pending
  ready : List PathBuf
  index : IndexedProject H
  reads : List FileRead

namespace Watched

variable (w : Watched)

def keyOf (location : Location) : Text := w.project.relTo (w.listedAs location)

def IsHdl (location : Location) : Prop := Cli.isSvFile (w.listedAs location) = true

instance (location : Location) : Decidable (w.IsHdl location) :=
  inferInstanceAs (Decidable (_ = true))

structure Names (path : PathBuf) (location : Location) : Prop where
  located : path.locate w.cwd = location
  extension : path.extension = (w.listedAs location).extension

def read (disk : Dict Location Text) (path : PathBuf) : FileRead :=
  ⟨w.project.relTo path, disk.get? (path.locate w.cwd)⟩

-- What the initial index goes over: every HDL file that exists, once
def Lists (disk : Dict Location Text) (files : List FileRead) : Prop :=
  (files.map FileRead.rel).Nodup ∧ ∀ file : FileRead, file ∈ files ↔
    ∃ location content, disk.get? location = some content ∧ w.IsHdl location
      ∧ file = ⟨w.keyOf location, some content⟩

end Watched

def Notice.Changes (notice : Notice) (path : PathBuf) : Prop :=
  match notice with
  | .event kind paths => kind.changes = true ∧ path ∈ paths
  | .error => False

-- Paths in events are absolute or below the project
def Notice.Under (project : PathBuf) : Notice → Prop
  | .event _ paths => ∀ path ∈ paths, project.Under path
  | .error => True

section

variable {H : Type} [DecidableEq H] (parse : Text → Option Cst → Cst)
  (computeFileHash : Text → H) (w : Watched)

def WatchState.start (disk : Dict Location Text) (files : List FileRead) : WatchState H where
  disk := disk
  channel := []
  pending := .empty
  ready := []
  index := indexProject parse computeFileHash files
  reads := []

-- One step of the world or of the loop; the world may change a file while the loop is at work
inductive WatchStep : WatchState H → WatchState H → Prop where
  -- A file that exists after its change is reported as created or modified
  | change (s : WatchState H) (location : Location) (content : Option Text) (notices : List Notice)
      (hunder : ∀ notice ∈ notices, notice.Under w.project)
      (hreported : content ≠ none → w.IsHdl location →
        ∃ notice ∈ notices, ∃ path, notice.Changes path ∧ w.Names path location) :
      WatchStep s { s with
        disk := match content with
          | some text => s.disk.insert location text
          | none => s.disk.remove location
        channel := s.channel ++ notices }
  | receive (s : WatchState H) (kind : EventKind) (stamped : List (PathBuf × Instant))
      (now : Instant)
      (rest : List Notice) (ready : List PathBuf)
      (hchannel : s.channel = .event kind (stamped.map Prod.fst) :: rest)
      (hidle : s.ready = [])
      (hready : ready ~ (HdlGraph.receive s.pending (.event kind stamped now)).2) :
      WatchStep s { s with
        channel := rest
        pending := (HdlGraph.receive s.pending (.event kind stamped now)).1
        ready }
  | receiveError (s : WatchState H) (rest : List Notice) (hchannel : s.channel = .error :: rest)
      (hidle : s.ready = []) :
      WatchStep s { s with channel := rest }
  | update (s : WatchState H) (path : PathBuf) (rest : List PathBuf)
      (hready : s.ready = path :: rest) :
      WatchStep s { s with
        ready := rest
        index := updateFile parse computeFileHash s.index (w.read s.disk path)
        reads := s.reads ++ [w.read s.disk path] }

def WatchState.Drained (s : WatchState H) : Prop := s.channel = [] ∧ s.pending.keys = []
    ∧ s.ready = []

structure Represents (s : WatchState H) : Prop where
  keys : ∀ rel, s.index.fileMap.containsKey rel = true
    ↔ ∃ location, s.disk.containsKey location = true ∧ w.IsHdl location ∧ w.keyOf location = rel
  nodes : ∀ node ∈ s.index.graph.allNodes, ∃ location content base,
    s.disk.get? location = some content ∧ w.IsHdl location
      ∧ s.index.fileMap.get? (w.keyOf location) = some base
      ∧ node.named s.index.extractor.symbols ∈ ((parsedOutline parse content).nodesAt base).map some
  reachable : ∀ rel base, s.index.fileMap.get? rel = some base →
    ∀ node ∈ s.index.graph.allNodes, Reaches s.index.graph.allEdges base node.id →
      node.id ∈ s.index.fileNodeIds.getD rel []

/-- Every file that was ever read, under the path it was read, is one that exists in the end. -/
def AllReadsExist (files : List FileRead) (s : WatchState H) : Prop :=
  ∀ file ∈ files ++ s.reads, file.content ≠ none →
    ∃ location, s.disk.containsKey location = true ∧ w.IsHdl location ∧ w.keyOf location = file.rel

variable {parse computeFileHash w}

/-! ## What every run keeps -/

namespace Watched

theorem eq_of_relTo_eq {path : PathBuf} {location : Location} (hunder : w.project.Under path)
    (h : w.project.relTo path = w.keyOf location)
    : path.locate w.cwd = location := by
  rw [PathBuf.relTo_injective hunder (w.under location) h, w.located]

theorem Names.isSvFile {path : PathBuf} {location : Location} (h : w.Names path location)
    (hhdl : w.IsHdl location)
    : Cli.isSvFile path = true := by
  rw [Cli.isSvFile_congr _ _ h.extension]
  exact hhdl

end Watched

variable (w) in
def WatchState.Noticed (s : WatchState H) (location : Location) : Prop :=
  ∃ path, w.Names path location
    ∧ ((∃ notice ∈ s.channel, notice.Changes path) ∨ s.pending.get? path ≠ none ∨ path ∈ s.ready)

variable (w) in
def ReadAs (contents : Dict Text Text) (location : Location) (content : Text) : Prop :=
  ∃ path, w.project.Under path ∧ path.locate w.cwd = location
    ∧ contents.get? (w.project.relTo path) = some content

variable (parse computeFileHash w) in
structure WatchInvariant (files : List FileRead) (s : WatchState H) : Prop where
  index : s.index
    = s.reads.foldl (updateFile parse computeFileHash) (indexProject parse computeFileHash files)
  channel : ∀ notice ∈ s.channel, notice.Under w.project
  pending : ∀ path, s.pending.get? path ≠ none → w.project.Under path
  ready : ∀ path ∈ s.ready, w.project.Under path
  current : ∀ location content, s.disk.get? location = some content → w.IsHdl location →
    s.Noticed w location ∨ ReadAs w (contentsOf (files ++ s.reads)) location content

namespace WatchInvariant

variable {files : List FileRead}

theorem start {disk : Dict Location Text} (hlists : w.Lists disk files)
    : WatchInvariant parse computeFileHash w files (.start parse computeFileHash disk files) where
  index := rfl
  channel := by simp [WatchState.start]
  pending := by simp [WatchState.start]
  ready := by simp [WatchState.start]
  current := by
    intro location content hget hhdl
    right
    have hmem :=
      (hlists.2 ⟨w.keyOf location, some content⟩).mpr ⟨location, content, hget, hhdl, rfl⟩
    refine ⟨w.listedAs location, w.under location, w.located location, ?_⟩
    rw [WatchState.start, List.append_nil]
    exact get?_contentsOf_of_mem hlists.1 hmem rfl

theorem change {s : WatchState H} (h : WatchInvariant parse computeFileHash w files s)
    {location : Location} {content : Option Text} {notices : List Notice}
    (hunder : ∀ notice ∈ notices, notice.Under w.project)
    (hreported : content ≠ none → w.IsHdl location →
      ∃ notice ∈ notices, ∃ path, notice.Changes path ∧ w.Names path location)
    : WatchInvariant parse computeFileHash w files { s with
        disk := match content with
          | some text => s.disk.insert location text
          | none => s.disk.remove location
        channel := s.channel ++ notices } where
  index := h.index
  channel := by
    intro notice hnotice
    cases List.mem_append.mp hnotice with
    | inl hnotice => exact h.channel notice hnotice
    | inr hnotice => exact hunder notice hnotice
  pending := h.pending
  ready := h.ready
  current := by
    intro other text hget hhdl
    by_cases hsame : other = location
    . subst hsame
      cases content with
      | none => simp at hget
      | some new =>
        obtain ⟨notice, hnotice, path, hchanges, hnames⟩ := hreported (by simp) hhdl
        exact Or.inl ⟨path, hnames, Or.inl ⟨notice, List.mem_append_right _ hnotice, hchanges⟩⟩
    . have hold : s.disk.get? other = some text := by
        cases content with
        | none => rwa [Dict.get?_remove, if_neg hsame] at hget
        | some new => rwa [Dict.get?_insert_of_ne _ _ hsame] at hget
      cases h.current other text hold hhdl with
      | inr hread => exact Or.inr hread
      | inl hnoticed =>
        obtain ⟨path, hnames, hwhere⟩ := hnoticed
        refine Or.inl ⟨path, hnames, ?_⟩
        rcases hwhere with ⟨notice, hnotice, hchanges⟩ | hwhere
        . exact Or.inl ⟨notice, List.mem_append_left _ hnotice, hchanges⟩
        . exact Or.inr hwhere

theorem receive {s : WatchState H} (h : WatchInvariant parse computeFileHash w files s)
    {kind : EventKind} {stamped : List (PathBuf × Instant)} {now : Instant} {rest : List Notice}
    {ready : List PathBuf} (hchannel : s.channel = .event kind (stamped.map Prod.fst) :: rest)
    (hidle : s.ready = [])
    (hready : ready ~ (HdlGraph.receive s.pending (.event kind stamped now)).2)
    : WatchInvariant parse computeFileHash w files { s with
        channel := rest
        pending := (HdlGraph.receive s.pending (.event kind stamped now)).1
        ready } := by
  have hunder : ∀ path, stampIn s.pending (.event kind stamped now) path ≠ none →
      w.project.Under path := by
    intro path hstamp
    rw [stampIn_ne_none_iff] at hstamp
    rcases hstamp with ⟨_, _, hpath⟩ | hpending
    . have hnotice : (Notice.event kind (stamped.map Prod.fst)).Under w.project :=
        h.channel _ (hchannel ▸ List.mem_cons_self)
      exact hnotice path hpath
    . exact h.pending path hpending
  exact {
    index := h.index
    channel := fun notice hnotice => h.channel notice (hchannel ▸ List.mem_cons_of_mem _ hnotice)
    pending := fun path hpath => hunder path (receive_cases.mpr (Or.inr hpath))
    ready := fun path hpath => hunder path (receive_cases.mpr (Or.inl (hready.mem_iff.mp hpath)))
    current := by
      intro location content hget hhdl
      cases h.current location content hget hhdl with
      | inr hread => exact Or.inr hread
      | inl hnoticed =>
        obtain ⟨path, hnames, hwhere⟩ := hnoticed
        refine Or.inl ⟨path, hnames, ?_⟩
        have hstays : stampIn s.pending (.event kind stamped now) path ≠ none →
            (HdlGraph.receive s.pending (.event kind stamped now)).1.get? path ≠ none
            ∨ path ∈ ready := by
          intro hstamp
          rw [hready.mem_iff, or_comm]
          exact receive_cases.mp hstamp
        rw [hchannel, hidle] at hwhere
        rcases hwhere with ⟨notice, hnotice, hchanges⟩ | hpending | hmem
        . cases List.mem_cons.mp hnotice with
          | inl heq =>
            subst heq
            exact Or.inr (hstays (stampIn_ne_none_iff.mpr
              (Or.inl ⟨hchanges.1, hnames.isSvFile hhdl, hchanges.2⟩)))
          | inr hnotice => exact Or.inl ⟨notice, hnotice, hchanges⟩
        . exact Or.inr (hstays (stampIn_ne_none_iff.mpr (Or.inr hpending)))
        . simp at hmem
  }

theorem update {s : WatchState H} (h : WatchInvariant parse computeFileHash w files s)
    {path : PathBuf} {rest : List PathBuf} (hready : s.ready = path :: rest)
    : WatchInvariant parse computeFileHash w files { s with
        ready := rest
        index := updateFile parse computeFileHash s.index (w.read s.disk path)
        reads := s.reads ++ [w.read s.disk path] } where
  index := by rw [List.foldl_append, List.foldl_cons, List.foldl_nil, ← h.index]
  channel := h.channel
  pending := h.pending
  ready := fun other hother => h.ready other (hready ▸ List.mem_cons_of_mem _ hother)
  current := by
    have hunder : w.project.Under path := h.ready path (hready ▸ List.mem_cons_self)
    have hcontents : contentsOf (files ++ (s.reads ++ [w.read s.disk path]))
        = readInto (contentsOf (files ++ s.reads)) (w.read s.disk path) := by
      rw [← List.append_assoc, contentsOf, List.foldl_append]
      rfl
    have hread : ∀ content, s.disk.get? (path.locate w.cwd) = some content →
        (readInto (contentsOf (files ++ s.reads)) (w.read s.disk path)).get? (w.project.relTo path)
        = some content := by
      intro content hget
      rw [readInto, Watched.read, hget]
      exact Dict.get?_insert_self _ _ _
    intro location content hget hhdl
    rw [hcontents]
    by_cases hsame : path.locate w.cwd = location
    . subst hsame
      exact Or.inr ⟨path, hunder, rfl, hread content hget⟩
    . cases h.current location content hget hhdl with
      | inr hold =>
        obtain ⟨other, hother, hlocated, hold⟩ := hold
        refine Or.inr ⟨other, hother, hlocated, ?_⟩
        rw [get?_readInto_of_ne, hold]
        intro heq
        have hpath := PathBuf.relTo_injective hother hunder heq
        exact hsame (hpath ▸ hlocated)
      | inl hnoticed =>
        obtain ⟨other, hnames, hwhere⟩ := hnoticed
        refine Or.inl ⟨other, hnames, ?_⟩
        rcases hwhere with hchannel | hpending | hmem
        . exact Or.inl hchannel
        . exact Or.inr (Or.inl hpending)
        . rw [hready, List.mem_cons] at hmem
          refine Or.inr (Or.inr (hmem.resolve_left ?_))
          intro heq
          exact hsame (heq ▸ hnames.located)

theorem step {s s' : WatchState H} (h : WatchInvariant parse computeFileHash w files s)
    (hstep : WatchStep parse computeFileHash w s s')
    : WatchInvariant parse computeFileHash w files s' := by
  cases hstep with
  | change location content notices hunder hreported => exact h.change hunder hreported
  | receive kind stamped now rest ready hchannel hidle hready =>
    exact h.receive hchannel hidle hready
  | receiveError rest hchannel hidle =>
    refine ⟨h.index,
      fun notice hnotice => h.channel notice (hchannel ▸ List.mem_cons_of_mem _ hnotice), h.pending,
      h.ready, ?_⟩
    intro location content hget hhdl
    cases h.current location content hget hhdl with
    | inr hread => exact Or.inr hread
    | inl hnoticed =>
      obtain ⟨path, hnames, hwhere⟩ := hnoticed
      refine Or.inl ⟨path, hnames, ?_⟩
      rw [hchannel] at hwhere
      rcases hwhere with ⟨notice, hnotice, hchanges⟩ | hwhere
      . cases List.mem_cons.mp hnotice with
        | inl heq =>
          subst heq
          exact False.elim hchanges
        | inr hnotice => exact Or.inl ⟨notice, hnotice, hchanges⟩
      . exact Or.inr hwhere
  | update path rest hready => exact h.update hready

theorem run {disk : Dict Location Text} (hlists : w.Lists disk files) {s : WatchState H}
    (hrun : Relation.ReflTransGen (WatchStep parse computeFileHash w)
      (.start parse computeFileHash disk files) s)
    : WatchInvariant parse computeFileHash w files s := by
  induction hrun with
  | refl => exact start hlists
  | tail _ hstep ih => exact ih.step hstep

end WatchInvariant

/-! ## Drained runs -/

theorem get?_contentsOf_ne_none {files : List FileRead} {file : FileRead} (hfile : file ∈ files)
    (hcontent : file.content ≠ none)
    : (contentsOf files).get? file.rel ≠ none := by
  induction files using List.reverseRecOn with
  | nil => simp at hfile
  | append_singleton files last ih =>
    rw [contentsOf, List.foldl_append, List.foldl_cons, List.foldl_nil]
    by_cases hrel : file.rel = last.rel
    . cases hlast : last.content with
      | some content => simp [readInto, hlast, hrel]
      | none =>
        have hmem : file ∈ files := by
          rw [List.mem_append, List.mem_singleton] at hfile
          refine hfile.resolve_right ?_
          intro heq
          exact hcontent (heq ▸ hlast)
        have hsame : readInto (files.foldl readInto .empty) last = files.foldl readInto .empty := by
          rw [readInto, hlast]
        rw [hsame]
        exact ih hmem
    . rw [get?_readInto_of_ne hrel]
      apply ih
      rw [List.mem_append, List.mem_singleton] at hfile
      refine hfile.resolve_right ?_
      intro heq
      exact hrel (congrArg FileRead.rel heq)

section

variable {files : List FileRead} {s : WatchState H} {l : Layout}

omit [DecidableEq H] in
theorem containsKey_fileMap_iff
    (hl : Holds (parsedOutline parse) computeFileHash s.index l (contentsOf (files ++ s.reads)))
    {rel : Text}
    : s.index.fileMap.containsKey rel = true ↔ (contentsOf (files ++ s.reads)).get? rel ≠ none := by
  rw [Dict.containsKey, hl.describes.fileMap, hl.contents]
  cases l.get? rel <;> simp

omit [DecidableEq H] in
theorem allReadsExist_of_represents
    (hl : Holds (parsedOutline parse) computeFileHash s.index l (contentsOf (files ++ s.reads)))
    (h : Represents parse w s)
    : AllReadsExist w files s := by
  intro file hfile hcontent
  exact (h.keys file.rel).mp
    ((containsKey_fileMap_iff hl).mpr (get?_contentsOf_ne_none hfile hcontent))

theorem get?_keyOf (h : WatchInvariant parse computeFileHash w files s) (hdrained : s.Drained)
    (hexist : AllReadsExist w files s) {location : Location} {content : Text}
    (hget : s.disk.get? location = some content) (hhdl : w.IsHdl location)
    : (contentsOf (files ++ s.reads)).get? (w.keyOf location) = some content := by
  obtain ⟨hchannel, hpending, hready⟩ := hdrained
  cases h.current location content hget hhdl with
  | inl hnoticed =>
    obtain ⟨path, _, hwhere⟩ := hnoticed
    rw [hchannel, hready] at hwhere
    rcases hwhere with ⟨notice, hnotice, _⟩ | hsome | hmem
    . simp at hnotice
    . obtain ⟨stamp, hstamp⟩ := Option.ne_none_iff_exists'.mp hsome
      have hkey := Dict.mem_keys_iff.mpr ⟨stamp, hstamp⟩
      simp [hpending] at hkey
    . simp at hmem
  | inr hread =>
    obtain ⟨path, hunder, hlocated, hcontent⟩ := hread
    obtain ⟨file, hfile, hrel, hsome⟩ := mem_of_get?_contentsOf_eq hcontent
    obtain ⟨location', _, _, hkey⟩ := hexist file hfile (by simp [hsome])
    have heq := Watched.eq_of_relTo_eq hunder (hrel.symm.trans hkey.symm)
    have hsame : location' = location := heq.symm.trans hlocated
    rw [← hsame, hkey, hrel, hcontent]

theorem represents_of_allReadsExist (h : WatchInvariant parse computeFileHash w files s)
    (hdrained : s.Drained)
    (hl : Holds (parsedOutline parse) computeFileHash s.index l (contentsOf (files ++ s.reads)))
    (hexist : AllReadsExist w files s)
    : Represents parse w s where
  keys := by
    intro rel
    rw [containsKey_fileMap_iff hl]
    constructor
    . intro hne
      obtain ⟨content, hget⟩ := Option.ne_none_iff_exists'.mp hne
      obtain ⟨file, hfile, hrel, hsome⟩ := mem_of_get?_contentsOf_eq hget
      rw [← hrel]
      exact hexist file hfile (by simp [hsome])
    . rintro ⟨location, hcontains, hhdl, rfl⟩
      obtain ⟨content, hget⟩ := Dict.containsKey_iff.mp hcontains
      rw [get?_keyOf h hdrained hexist hget hhdl]
      simp
  nodes := by
    intro node hnode
    have hnamed := hl.describes.nodes.mem_iff.mp (List.mem_map_of_mem hnode)
    obtain ⟨named, hmem, heq⟩ := List.mem_map.mp hnamed
    obtain ⟨⟨rel, p⟩, hentry, hmem⟩ := List.mem_flatMap.mp hmem
    have hp := Dict.mem_toList_iff.mp hentry
    have hcontent : (contentsOf (files ++ s.reads)).get? rel = some p.content := by
      rw [hl.contents, hp, Option.map_some]
    obtain ⟨file, hfile, hrel, hsome⟩ := mem_of_get?_contentsOf_eq hcontent
    obtain ⟨location, hcontains, hhdl, hkey⟩ := hexist file hfile (by simp [hsome])
    obtain ⟨content, hget⟩ := Dict.containsKey_iff.mp hcontains
    have hcurrent := get?_keyOf h hdrained hexist hget hhdl
    rw [hkey, hrel, hcontent, Option.some.injEq] at hcurrent
    refine ⟨location, content, p.base, hget, hhdl, ?_, ?_⟩
    . rw [hkey, hrel, hl.describes.fileMap, hp, Option.map_some]
    . rw [← heq, ← hcurrent]
      exact List.mem_map_of_mem hmem
  reachable := by
    intro rel base hbase node hnode hreach
    rw [hl.describes.fileMap] at hbase
    obtain ⟨p, hp, rfl⟩ := Option.map_eq_some_iff.mp hbase
    have howns := ((hl.describes.reaches_iff hp).mp hreach).1
    obtain ⟨named, hnamed, hid⟩ := List.mem_map.mp
      (hl.describes.map_id_allNodes.mem_iff.mp (List.mem_map_of_mem hnode))
    obtain ⟨⟨rel', p'⟩, hentry, hmem⟩ := List.mem_flatMap.mp hnamed
    have hp' := Dict.mem_toList_iff.mp hentry
    have hids : node.id ∈ p'.nodeIds (parsedOutline parse) := hid ▸ List.mem_map_of_mem hmem
    have hrel := hl.describes.apart.rel_eq hp' hp (p'.owns_of_mem_nodeIds _ hids) howns
    subst hrel
    rw [Dict.getD, hl.describes.fileNodeIds, hp', Option.map_some, Option.getD_some]
    exact hids

end

/--
After every run in which nothing is left to handle, the index represents the files that exist if and
only if every file that was ever read still exists.
-/
theorem represents_iff (hparse : ∀ text old, parse text old = parse text none)
    {disk : Dict Location Text} {files : List FileRead} (hlists : w.Lists disk files)
    {s : WatchState H}
    (hrun : Relation.ReflTransGen (WatchStep parse computeFileHash w)
      (.start parse computeFileHash disk files) s)
    (hdrained : s.Drained)
    (hhash : Set.InjOn computeFileHash {content | ∃ file ∈ files ++ s.reads,
      file.content = some content})
    : Represents parse w s ↔ AllReadsExist w files s := by
  have hinvariant := WatchInvariant.run hlists hrun
  have hflat : files ++ [s.reads].flatten = files ++ s.reads := by simp
  rw [← hflat] at hhash
  obtain ⟨l, hl⟩ := holds_indexAndUpdate hparse hlists.1 hhash
  rw [hflat] at hl
  change Holds _ _
    (s.reads.foldl (updateFile parse computeFileHash) (indexProject parse computeFileHash files)) _
    _ at hl
  rw [← hinvariant.index] at hl
  exact ⟨allReadsExist_of_represents hl, represents_of_allReadsExist hinvariant hdrained hl⟩

end

/-! ## A file that is deleted -/

def rootWatched : Watched where
  project := ⟨true, []⟩
  cwd := []
  listedAs location := PathBuf.child ⟨true, []⟩ location
  located location := by
    rw [PathBuf.locate_child]
    rfl
  under _ := Or.inl rfl

def topDisk : Dict Location Text := Dict.empty.insert [topSv] "package p; endpackage".toList

def topFiles : List FileRead := [⟨rootWatched.keyOf [topSv], some "package p; endpackage".toList⟩]

def deletedTop : WatchState Text where
  disk := topDisk.remove [topSv]
  channel := []
  pending := (receive .empty (.event .remove [(⟨true, [.normal topSv]⟩, 0)] 0)).1
  ready := []
  index := indexProject parsePackage id topFiles
  reads := []

theorem topFiles_listed : rootWatched.Lists topDisk topFiles := by
  refine ⟨by simp [topFiles], ?_⟩
  intro file
  simp only [topFiles, List.mem_singleton, topDisk, Dict.get?_insert]
  constructor
  . rintro rfl
    exact ⟨[topSv], _, if_pos rfl, by decide, rfl⟩
  . rintro ⟨location, content, hget, _, rfl⟩
    split at hget
    . next hlocation =>
      subst hlocation
      rw [← hget]
    . simp at hget

theorem deletedTop_run
    : Relation.ReflTransGen (WatchStep parsePackage id rootWatched)
        (.start parsePackage id topDisk topFiles) deletedTop := by
  have hdelete : WatchStep parsePackage id rootWatched
      (.start parsePackage id topDisk topFiles) _ :=
    .change _ [topSv] none [.event .remove [⟨true, [.normal topSv]⟩]]
      (by simp [Notice.Under, PathBuf.Under])
      (fun h => absurd rfl h)
  refine .tail (.single hdelete) ?_
  exact WatchStep.receive _ .remove [(⟨true, [.normal topSv]⟩, 0)] 0 [] [] rfl rfl (by decide)

theorem represents_iff_deletedTop
    : Represents parsePackage rootWatched deletedTop
        ↔ AllReadsExist rootWatched topFiles deletedTop :=
  represents_iff (fun _ _ => rfl) topFiles_listed deletedTop_run ⟨rfl, by decide, rfl⟩
    (Set.injOn_id _)

theorem not_represents_deletedTop
    : Relation.ReflTransGen (WatchStep parsePackage id rootWatched)
          (.start parsePackage id topDisk topFiles) deletedTop
        ∧ deletedTop.Drained ∧ ¬Represents parsePackage rootWatched deletedTop := by
  refine ⟨deletedTop_run, ⟨rfl, by decide, rfl⟩, ?_⟩
  intro h
  obtain ⟨l, hl⟩ := holds_indexProject parsePackage (id : Text → Text) topFiles_listed.1
  have hreads : AllReadsExist rootWatched topFiles deletedTop := allReadsExist_of_represents hl h
  obtain ⟨location, hcontains, _⟩ :=
    hreads ⟨rootWatched.keyOf [topSv], some "package p; endpackage".toList⟩
    List.mem_cons_self (by simp)
  obtain ⟨content, hget⟩ := Dict.containsKey_iff.mp hcontains
  simp only [deletedTop, topDisk, Dict.get?_remove, Dict.get?_insert, Dict.get?_empty] at hget
  split at hget
  . simp at hget
  . simp at hget

end HdlGraph
