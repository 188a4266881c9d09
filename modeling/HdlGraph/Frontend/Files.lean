import HdlGraph.Frontend.Instances
import HdlGraph.Frontend.Search
import HdlGraph.Project.Declared
import Mathlib.Data.Char
import Mathlib.Data.List.Flatten
import Mathlib.Data.List.Lex
import Mathlib.Data.List.Sort

/-!
This module contains the tables of files of both frontends. The command line counts the kinds of
nodes on two levels below a file, the tool server on the first one only.
-/

namespace HdlGraph

open scoped List
open Text

namespace FilesTable

inductive Column where
  | nodes
  | modules
  | classes
  | instances
  | signals
  deriving DecidableEq, Repr

def columnOf : NodeKind ν → Option Column
  | .module _ => some .modules
  | .class _ _ => some .classes
  | .moduleInstance _ _ => some .instances
  | .signalDecl _ _ => some .signals
  | _ => none

-- The counters of the source are 32 bits wide, here they are natural numbers
structure FileInfo where
  path : Text
  nodes : Nat
  modules : Nat
  classes : Nat
  instances : Nat
  signals : Nat
  deriving DecidableEq, Repr

def FileInfo.ofIncrements (path : Text) (increments : List Column) : FileInfo where
  path
  nodes := increments.count .nodes
  modules := increments.count .modules
  classes := increments.count .classes
  instances := increments.count .instances
  signals := increments.count .signals

def FileInfo.columns (f : FileInfo) : List Nat :=
  [f.nodes, f.modules, f.classes, f.instances, f.signals]

def rowText (cells : List Text) : Text :=
  "|".toList ++ cells.flatMap fun cell => " ".toList ++ cell ++ " |".toList

def FileInfo.row (f : FileInfo) : Text :=
  println (rowText (f.path :: f.columns.map fun n => (Nat.repr n).toList))

def totals (files : List FileInfo) : List Nat :=
  files.foldl (fun sums f => List.zipWith (· + ·) sums f.columns) [0, 0, 0, 0, 0]

def totalRow (files : List FileInfo) : Text :=
  println (rowText ("**Total**".toList :: (totals files).map fun n =>
    "**".toList ++ (Nat.repr n).toList ++ "**".toList))

def tableText (separator : Text) (files : List FileInfo) : Text :=
  println ("Indexed files (".toList ++ (Nat.repr files.length).toList ++ ")".toList) ++ println []
    ++ println "| File | Nodes | Modules | Classes | Instances | Signals |".toList
    ++ println separator ++ files.flatMap FileInfo.row ++ totalRow files

end FilesTable

open FilesTable

/-! ## The commands -/

namespace CmdFiles

variable (g : InMemoryGraph)

-- A child counts even where its node is missing
def increments (fid : NodeId) : List Column :=
  (g.getOutgoing fid).flatMap fun e =>
    if e.edgeType = .contains then
      .nodes :: match g.getNode e.target with
        | some child =>
          (columnOf child.kind).toList ++ (g.getOutgoing child.id).flatMap fun ie =>
            if ie.edgeType = .contains then
              .nodes :: ((g.getNode ie.target).bind (columnOf ·.kind)).toList else []
        | none => []
    else []

def info (entry : Text × NodeId) : FileInfo := .ofIncrements entry.1 (increments g entry.2)

def separator : Text := "|------|-------|---------|---------|-----------|---------|".toList

def cmdFiles (u : Unicode) (fuel : Nat) (pattern : Option Text) (fileMap : List (Text × NodeId))
    : Option Text := do
  let files ← fileMap.filterM fun entry => Cli.filesAccept u fuel pattern entry.1
  if files.isEmpty then
    return println "No indexed files found.".toList
  else
    return tableText separator (files.map (info g))

end CmdFiles

namespace FilesTool

variable (g : InMemoryGraph)

def increments (fid : NodeId) : List Column :=
  (g.getOutgoing fid).flatMap fun e =>
    if e.edgeType = .contains then
      match g.getNode e.target with
      | some child =>
        .nodes :: ((columnOf child.kind).toList ++ (g.getOutgoing e.target).flatMap fun ie =>
          if ie.edgeType = .contains then if (g.getNode ie.target).isSome then [.nodes]
            else [] else [])
      | none => []
    else []

def info (entry : Text × NodeId) : FileInfo := .ofIncrements entry.1 (increments g entry.2)

def separator : Text := "|------|-------|---------|---------|-----------|--------|".toList

def files (engine : Regex.Engine) (pattern : Option Text) (fileMap : List (Text × NodeId))
    : List FileInfo :=
  ((fileMap.filter fun entry => Mcp.filesAccept engine pattern entry.1).map (info g)).insertionSort
  fun f f' => f.path ≤ f'.path

def run (engine : Regex.Engine) (pattern : Option Text) (fileMap : List (Text × NodeId)) : Text :=
  let found := files g engine pattern fileMap
  if found.isEmpty then "No indexed files found.".toList
  else tableText separator found

end FilesTool

namespace FilesTable

/-! ## What the items of the files are -/

def counted (withKind : Bool) (kind : NodeKind ν) : List Column :=
  .nodes :: if withKind then (columnOf kind).toList else []

-- An item is counted as often as edges from the file enter it, and so is what it contains
def itemIncrements (kindsBelow : Bool) (item : TopItem) : List Column :=
  (List.replicate item.visits ()).flatMap fun _ =>
    counted true item.outline.label.kind
      ++ item.outline.children.flatMap fun o =>
        if o.label.edge = .contains then counted kindsBelow o.label.kind else []

def declared (kindsBelow : Bool) (path : Text) (outline : FileOutline) : FileInfo :=
  .ofIncrements path (outline.items.flatMap (itemIncrements kindsBelow))

/-- Both rows tell what the items of the file are. The tool has no instances and no signals. -/
structure Tells (path : Text) (outline : FileOutline) (cli tool : FileInfo) : Prop where
  cliCounts : cli = declared true path outline
  toolCounts : tool = declared false path outline
  nodes : tool.nodes = cli.nodes
  modules : tool.modules ≤ cli.modules
  classes : tool.classes ≤ cli.classes
  instances : tool.instances = 0
  signals : tool.signals = 0

theorem columnOf_of_resolve {symbols : SymbolTable} {kind : NodeKind InternedString}
    {named : NodeKind Text} (h : kind.resolve symbols = some named)
    : columnOf kind = columnOf named := by
  cases NodeKind.says_of_resolve h <;> rfl

theorem nodes_notMem_columnOf (kind : NodeKind ν) : Column.nodes ∉ (columnOf kind).toList := by
  cases kind <;> simp [columnOf]

theorem sublist_itemIncrements (item : TopItem)
    : (itemIncrements false item).Sublist (itemIncrements true item) := by
  unfold itemIncrements
  apply List.Sublist.flatMap_right
  intro _ _
  apply List.Sublist.append_left
  apply List.Sublist.flatMap_right
  intro o _
  split
  . exact (List.nil_sublist _).cons_cons _
  . exact .refl _

theorem count_nodes_itemIncrements (item : TopItem)
    : (itemIncrements false item).count .nodes = (itemIncrements true item).count .nodes := by
  have hcounted : ∀ kind : NodeKind Text,
      (counted false kind).count .nodes = (counted true kind).count .nodes := by
    intro kind
    rw [counted, counted, if_pos rfl, List.count_cons_self, List.count_cons_self,
      List.count_eq_zero_of_not_mem (nodes_notMem_columnOf kind)]
    rfl
  unfold itemIncrements
  rw [List.count_flatMap, List.count_flatMap]
  congr 2
  funext _
  rw [Function.comp_apply, Function.comp_apply, List.count_append, List.count_append,
    List.count_flatMap, List.count_flatMap]
  congr 3
  funext o
  rw [Function.comp_apply, Function.comp_apply]
  split
  . exact hcounted _
  . rfl

theorem notMem_itemIncrements {item : TopItem} (hregular : item.Regular) {column : Column}
    (hcolumn : column = .instances ∨ column = .signals)
    : column ∉ itemIncrements false item := by
  have hkind : column ∉ (columnOf item.outline.label.kind).toList := by
    cases item with
    | declared o =>
      have htop := hregular.declared o rfl
      change column ∉ (columnOf o.label.kind).toList
      cases hkind : o.label.kind <;> simp_all [NodeKind.IsTopLevel, columnOf]
    | «class» o =>
      have hclass := (hregular.classItem o rfl).1
      change column ∉ (columnOf o.label.kind).toList
      cases hkind : o.label.kind <;> simp_all [NodeKind.isClass, columnOf]
      rcases hcolumn with rfl | rfl <;> decide
    | module name pos items =>
      rcases hcolumn with rfl | rfl <;> simp [TopItem.outline, Rose.label, columnOf]
  unfold itemIncrements
  intro hmem
  obtain ⟨_, _, hmem⟩ := List.mem_flatMap.mp hmem
  rcases List.mem_append.mp hmem with hmem | hmem
  . rcases List.mem_cons.mp hmem with rfl | hmem
    . simp at hcolumn
    . exact hkind hmem
  . obtain ⟨o, _, hmem⟩ := List.mem_flatMap.mp hmem
    split at hmem
    . rw [List.mem_singleton.mp hmem] at hcolumn
      simp at hcolumn
    . contradiction

theorem tells_declared (path : Text) {outline : FileOutline}
    (hregular : ∀ item ∈ outline.items, item.Regular)
    : Tells path outline (declared true path outline) (declared false path outline) where
  cliCounts := rfl
  toolCounts := rfl
  nodes := by
    change List.count _ _ = List.count _ _
    rw [List.count_flatMap, List.count_flatMap]
    congr 2
    funext item
    exact count_nodes_itemIncrements item
  modules := (List.Sublist.flatMap_right _ fun item _ => sublist_itemIncrements item).count_le _
  classes := (List.Sublist.flatMap_right _ fun item _ => sublist_itemIncrements item).count_le _
  instances := by
    apply List.count_eq_zero_of_not_mem
    intro hmem
    obtain ⟨item, hitem, hmem⟩ := List.mem_flatMap.mp hmem
    exact notMem_itemIncrements (hregular item hitem) (.inl rfl) hmem
  signals := by
    apply List.count_eq_zero_of_not_mem
    intro hmem
    obtain ⟨item, hitem, hmem⟩ := List.mem_flatMap.mp hmem
    exact notMem_itemIncrements (hregular item hitem) (.inr rfl) hmem

theorem ofIncrements_perm {path : Text} {increments increments' : List Column}
    (hperm : increments ~ increments')
    : FileInfo.ofIncrements path increments = FileInfo.ofIncrements path increments' := by
  simp only [FileInfo.ofIncrements, hperm.count_eq]

/-! ## Loaded projects -/

section Loaded

open ProjectState

variable {parse : Text → Option Cst → Cst} {prepare : Text → Text → Text} {files : List FileRead}
variable {st : InMemoryGraph × GraphExtractor × Dict Text NodeId}
  (h : Loaded parse prepare files st)

include h

omit h in
variable (st) in
def visited (kindsBelow : Bool) (fid : NodeId) : List Column :=
  (st.1.getOutgoing fid).flatMap fun e =>
    if e.edgeType = .contains then
      match st.1.getNode e.target with
      | some node => counted true node.kind ++ (st.1.getOutgoing e.target).flatMap fun ce =>
          (st.1.getNode ce.target).elim [] fun child =>
            if ce.edgeType = .contains then counted kindsBelow child.kind else []
      | none => []
    else []

theorem exists_getNode_target {id : NodeId} {e : Edge} (he : e ∈ st.1.getOutgoing id)
    : ∃ node, st.1.getNode e.target = some node ∧ node.id = e.target := by
  obtain ⟨log, hlog⟩ := h.reachable.logs
  obtain ⟨node, hnode⟩ :=
    h.target_stored (hlog.perm_allEdges.mem_iff.mpr (hlog.mem_getOutgoing.mp he).1)
  exact ⟨node, hnode, (h.reachable.keyed.getNode_eq_some_iff.mp hnode).2⟩

theorem cmdIncrements_eq (fid : NodeId) : CmdFiles.increments st.1 fid = visited st true fid := by
  apply List.flatMap_congr
  intro e he
  obtain ⟨node, hnode, hid⟩ := exists_getNode_target h he
  simp only [hnode, hid, counted, if_true, List.cons_append]
  congr 3
  apply List.flatMap_congr
  intro ie hie
  obtain ⟨child, hchild, _⟩ := exists_getNode_target h hie
  simp only [hchild, Option.bind_some, Option.elim_some]

theorem toolIncrements_eq (fid : NodeId)
    : FilesTool.increments st.1 fid = visited st false fid := by
  apply List.flatMap_congr
  intro e he
  obtain ⟨node, hnode, _⟩ := exists_getNode_target h he
  simp only [hnode, counted, if_true, List.cons_append]
  congr 3
  apply List.flatMap_congr
  intro ie hie
  obtain ⟨child, hchild, _⟩ := exists_getNode_target h hie
  simp only [hchild, Option.isSome_some, if_true, Option.elim_some]
  rfl

theorem perm_visited {x : Nat × FileRead} {outline : FileOutline}
    (hx : x ∈ placed parse prepare files) (hout : outlineOf parse prepare x.2 = some outline)
    (kindsBelow : Bool)
    : visited st kindsBelow x.1 ~ outline.items.flatMap (itemIncrements kindsBelow) := by
  have hreads : ReadsTwoLevels st.2.1.symbols (fun _ _ node => counted true node.kind)
      (fun _ _ ce child => if ce.edgeType = .contains then counted kindsBelow child.kind else [])
      (fun _ _ node => counted true node.kind)
      (fun _ _ edge child => if edge = .contains then counted kindsBelow child.kind else []) := by
    have hkind : ∀ withKind node content, GraphNode.named st.2.1.symbols node = some content →
        counted withKind node.kind = counted withKind content.kind := by
      intro withKind node content hnamed
      rw [counted, counted, columnOf_of_resolve (GraphNode.resolve_of_named hnamed)]
    constructor
    . intro _ _ node content hnamed
      exact hkind true node content hnamed
    . intro _ _ _ ce child child' _ hnamed
      simp only [hkind kindsBelow child child' hnamed]
  refine (h.perm_seen_file hx hout hreads x.2.rel).trans (.of_eq ?_)
  have hitems := outline.map_snd_placedItems x.1
  rw [← hitems, List.flatMap_map]
  apply List.flatMap_congr
  intro y _
  have hchildren := congrArg
    (List.flatMap fun c : EdgeType × NodeKind Text =>
      if c.1 = .contains then counted kindsBelow c.2 else [])
    (y.2.map_snd_childrenAt y.1)
  rw [List.flatMap_map, List.flatMap_map] at hchildren
  rw [TopItem.seen, itemIncrements, hchildren]
  rfl

theorem tells_of_mem {path : Text} {fid : NodeId} (hentry : (path, fid) ∈ st.2.2.toList)
    : ∃ file ∈ files, file.rel = path ∧ ∃ outline, outlineOf parse prepare file = some outline
        ∧ Tells path outline (CmdFiles.info st.1 (path, fid))
          (FilesTool.info st.1 (path, fid)) := by
  obtain ⟨x, hlast, rfl⟩ := h.mem_fileMap_iff.mp hentry
  obtain ⟨hx, rfl, _⟩ := mem_of_lastUnder hlast
  obtain ⟨outline, hout⟩ := exists_outlineOf_of_last hlast
  have hfile : x.2 ∈ files := by
    have hmem := List.mem_map_of_mem (f := Prod.snd) hx
    rwa [placed, Blocks.map_snd_place] at hmem
  refine ⟨x.2, hfile, rfl, outline, hout, ?_⟩
  have htells := tells_declared x.2.rel (regular_of_outlineOf hout)
  have hcli : CmdFiles.info st.1 (x.2.rel, x.1) = declared true x.2.rel outline := by
    rw [CmdFiles.info, cmdIncrements_eq h]
    exact ofIncrements_perm (perm_visited h hx hout true)
  have htool : FilesTool.info st.1 (x.2.rel, x.1) = declared false x.2.rel outline := by
    rw [FilesTool.info, toolIncrements_eq h]
    exact ofIncrements_perm (perm_visited h hx hout false)
  rw [hcli, htool]
  exact htells

end Loaded

theorem totals_eq (files : List FileInfo)
    : totals files = [(files.map FileInfo.nodes).sum, (files.map FileInfo.modules).sum,
        (files.map FileInfo.classes).sum,
        (files.map FileInfo.instances).sum, (files.map FileInfo.signals).sum] := by
  have hfold : ∀ a b c d e : Nat,
      files.foldl (fun sums f => List.zipWith (· + ·) sums f.columns) [a, b, c, d, e]
      = [a + (files.map FileInfo.nodes).sum, b + (files.map FileInfo.modules).sum,
          c + (files.map FileInfo.classes).sum,
        d + (files.map FileInfo.instances).sum, e + (files.map FileInfo.signals).sum] := by
    induction files with
    | nil => simp
    | cons f rest ih =>
      intro a b c d e
      rw [List.foldl_cons, FileInfo.columns]
      simp only [List.zipWith_cons_cons, List.zipWith_nil_left, ih, List.map_cons, List.sum_cons,
        Nat.add_assoc]
  rw [totals, hfold]
  simp

structure RowsAgree (g : InMemoryGraph) (fileMap : List (Text × NodeId))
    (cliRows toolRows : List FileInfo) : Prop where
  cli : cliRows = fileMap.map (CmdFiles.info g)
  tool : toolRows ~ fileMap.map (FilesTool.info g)
  sorted : toolRows.Pairwise fun f f' => f.path ≤ f'.path
  totalNodes : (totals toolRows).head? = (totals cliRows).head?
  totalRest : (totals toolRows).drop 3 = [0, 0]

theorem rowsAgree {g : InMemoryGraph} {fileMap : List (Text × NodeId)} (engine : Regex.Engine)
    (htells : ∀ entry ∈ fileMap,
      ∃ outline, Tells entry.1 outline (CmdFiles.info g entry) (FilesTool.info g entry))
    : RowsAgree g fileMap (fileMap.map (CmdFiles.info g))
        (FilesTool.files g engine none fileMap) := by
  have hfiles : FilesTool.files g engine none fileMap
      = (fileMap.map (FilesTool.info g)).insertionSort fun f f' => f.path ≤ f'.path := by
    rw [FilesTool.files]
    congr 2
    exact List.filter_eq_self.mpr fun _ _ => rfl
  have hperm : FilesTool.files g engine none fileMap ~ fileMap.map (FilesTool.info g) := by
    rw [hfiles]
    exact List.perm_insertionSort _ _
  have hsum : ∀ column : FileInfo → Nat, ((FilesTool.files g engine none fileMap).map column).sum
      = (fileMap.map fun entry => column (FilesTool.info g entry)).sum := by
    intro column
    rw [(hperm.map column).sum_eq, List.map_map]
    rfl
  have hzero : ∀ column : FileInfo → Nat, (∀ entry ∈ fileMap, column (FilesTool.info g entry) = 0) →
      ((FilesTool.files g engine none fileMap).map column).sum = 0 := by
    intro column hcolumn
    rw [hsum, List.map_congr_left hcolumn]
    simp
  constructor
  . rfl
  . exact hperm
  . rw [hfiles]
    exact List.pairwise_insertionSort _ _
  . rw [totals_eq, totals_eq, List.head?_cons, List.head?_cons, hsum, List.map_map,
      Option.some.injEq]
    congr 1
    apply List.map_congr_left
    intro entry hentry
    obtain ⟨_, hentry⟩ := htells entry hentry
    exact hentry.nodes
  . have hinstances :=
      hzero FileInfo.instances fun entry hentry => (htells entry hentry).elim fun _ h => h.instances
    have hsignals :=
      hzero FileInfo.signals fun entry hentry => (htells entry hentry).elim fun _ h => h.signals
    rw [totals_eq, hinstances, hsignals]
    rfl

variable (parse : Text → Option Cst → Cst) (prepare : Text → Text → Text) (files : List FileRead)

/--
In a loaded project both tables tell what the items of the files are and what they contain, with the
same numbers of nodes. The tool server never counts an instance or a signal.
-/
theorem files_loadFiles {fileMap : List (Text × NodeId)}
    (hfileMap : fileMap ~ (ProjectState.loadFiles parse prepare files).fileMap.toList) (u : Unicode)
    (engine : Regex.Engine)
    : let state := ProjectState.loadFiles parse prepare files
      (∀ entry ∈ fileMap, ∃ file ∈ files, file.rel = entry.1
          ∧ ∃ outline, ProjectState.outlineOf parse prepare file = some outline
            ∧ Tells entry.1 outline (CmdFiles.info state.graph entry)
              (FilesTool.info state.graph entry))
        ∧ (fileMap ≠ [] → ∃ cliRows toolRows, RowsAgree state.graph fileMap cliRows toolRows
          ∧ (∀ fuel, CmdFiles.cmdFiles state.graph u fuel none fileMap
              = some (tableText CmdFiles.separator cliRows))
          ∧ FilesTool.run state.graph engine none fileMap
            = tableText FilesTool.separator toolRows) := by
  intro state
  have h := ProjectState.loaded_foldl parse prepare files
  have htells : ∀ entry ∈ fileMap, ∃ file ∈ files, file.rel = entry.1
      ∧ ∃ outline, ProjectState.outlineOf parse prepare file = some outline
        ∧ Tells entry.1 outline (CmdFiles.info state.graph entry)
          (FilesTool.info state.graph entry) :=
    fun entry hentry => tells_of_mem h (hfileMap.mem_iff.mp hentry)
  refine ⟨htells, fun hne => ?_⟩
  have hrows := rowsAgree engine fun entry hentry => (htells entry hentry).elim fun _ h =>
    h.2.2.imp fun _ h => h.2
  refine ⟨_, _, hrows, fun fuel => ?_, ?_⟩
  . have hall : (fileMap.filterM fun entry => Cli.filesAccept u fuel none entry.1)
        = some fileMap := by
      have haux : ∀ (entries acc : List (Text × NodeId)),
          entries.filterAuxM (fun entry => Cli.filesAccept u fuel none entry.1) acc
            = some (entries.reverse ++ acc) := by
        intro entries
        induction entries with
        | nil => exact fun _ => rfl
        | cons entry rest ih =>
          intro acc
          rw [List.reverse_cons, List.append_assoc]
          exact ih (entry :: acc)
      rw [List.filterM, haux, List.append_nil]
      exact congrArg some (List.reverse_reverse fileMap)
    rw [CmdFiles.cmdFiles, hall, Option.bind_eq_bind, Option.bind_some, if_neg (by simpa using hne)]
    rfl
  . have hnonempty : (FilesTool.files state.graph engine none fileMap).isEmpty = false := by
      rw [List.isEmpty_eq_false_iff]
      intro hnil
      have hlength := hrows.tool.length_eq
      rw [hnil, List.length_map] at hlength
      exact hne (List.eq_nil_of_length_eq_zero hlength.symm)
    rw [FilesTool.run, hnonempty]
    rfl

-- The instance in the generate block stands too deep even for the command line
theorem files_loadFiles_generated
    : let state := ProjectState.loadOrBuild ProjectState.parseGenerated [ProjectState.generatedFile]
      ∃ cliRows toolRows, RowsAgree state.graph state.fileMap.toList cliRows toolRows := by
  intro state
  have h :=
    files_loadFiles ProjectState.parseGenerated (fun source _ => source)
      [ProjectState.generatedFile] (.refl _)
    Unicode.ascii Regex.Engine.ascii
  obtain ⟨cliRows, toolRows, hrows, _⟩ := h.2 (by decide)
  exact ⟨cliRows, toolRows, hrows⟩

end FilesTable
end HdlGraph
