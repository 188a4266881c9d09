import HdlGraph.Library.Path
import HdlGraph.Project.Loaded
import HdlGraph.Project.Rebuild

/-!
This module contains how the frontends list the HDL files of a project and load them, and when every
file is loaded exactly once.
-/

namespace HdlGraph

open scoped List

-- A directory tree as one walk sees it: what the files contain and which directories can be found.
-- The tool server follows links, so its tree has the files that they lead to; in the tree of the
-- command line there are regular files only.
structure FileTree where
  cwd : Location
  files : List (Location × Option Text)
  dirExists : PathBuf → Bool
  nodup : (files.map Prod.fst).Nodup
  -- A path that leads to a file ends in its name
  named : ∀ dir, dirExists dir = true → dir.locate cwd ∈ files.map Prod.fst →
    ∃ name, dir.parts.getLast? = some (.normal name)

structure ListedFile where
  path : PathBuf
  location : Location
  content : Option Text
  deriving DecidableEq

namespace FileTree

-- `WalkDir::new(dir)`, of which only the files of the tree are kept
def walk (tree : FileTree) (dir : PathBuf) : List ListedFile :=
  if tree.dirExists dir then
    let start := dir.locate tree.cwd
    (tree.files.filter fun f => start <+: f.1).map fun f =>
      { path := dir.child (f.1.drop start.length), location := f.1, content := f.2 }
  else
    []

end FileTree

namespace ListedFile

def extension (file : ListedFile) : Option Text := file.path.extension

def read (project : PathBuf) (file : ListedFile) : FileRead :=
  ⟨project.relTo file.path, file.content⟩

end ListedFile

namespace Mcp

def isSvFile (path : PathBuf) : Bool :=
  match path.extension with
  | some ext =>
    ["sv".toList, "svh".toList, "svi".toList, "v".toList, "vh".toList, "pkg".toList].contains ext
  | none => false

def walkedDirs (project : PathBuf) (includeDirs : List PathBuf) : List PathBuf :=
  project :: includeDirs.map project.join

def collectSvFiles (tree : FileTree) (project : PathBuf) (includeDirs : List PathBuf)
    : List ListedFile :=
  (walkedDirs project includeDirs).flatMap fun dir => (tree.walk dir).filter fun file =>
    isSvFile file.path

end Mcp

namespace Cli

def isSvFile (path : PathBuf) : Bool :=
  match path.extension with
  | some ext => ["sv".toList, "svh".toList, "v".toList, "vh".toList].contains ext
  | none => false

def walkedDirs (project : PathBuf) (includeDirs : List PathBuf) : List PathBuf :=
  if includeDirs.isEmpty then [project] else includeDirs.map project.join

def collectSvFiles (tree : FileTree) (project : PathBuf) (includeDirs : List PathBuf)
    : List ListedFile :=
  let files :=
    (walkedDirs project includeDirs).flatMap fun dir => (tree.walk dir).filter fun file =>
      isSvFile file.path
  if files.isEmpty then (tree.walk project).filter fun file => isSvFile file.path else files

end Cli

/-! ## Every file once -/

section

variable (parse : Text → Option Cst → Cst) (prepare : Text → Text → Text)

def distinctFiles (listed : List ListedFile) : List ListedFile :=
  listed.pwFilter fun f f' => f.location ≠ f'.location

def ListedFile.tree (project : PathBuf) (file : ListedFile) : Option Cst :=
  file.content.map fun content => parse (prepare content (project.relTo file.path)) none

def ListedFile.nodeCount (project : PathBuf) (file : ListedFile) : Nat :=
  match file.tree parse prepare project with
  | none => 0
  | some tree => (GraphExtractor.new.extract tree 0).1.1.length

def loadListed (project : PathBuf) (listed : List ListedFile)
    : InMemoryGraph × GraphExtractor × Dict Text NodeId :=
  (listed.map (·.read project)).foldl (ProjectState.loadFile parse prepare) (.new, .new, .empty)

/--
Every file is listed once, and what was extracted from it is in the graph once and below its node.
-/
structure IndexedOnce (project : PathBuf) (listed : List ListedFile) : Prop where
  nodup : (listed.map ListedFile.location).Nodup
  nodeCount : (ProjectState.loadFiles parse prepare (listed.map (·.read project))).graph.nodeCount
    = (distinctFiles listed).foldr (fun file n => file.nodeCount parse prepare project + n) 0
  reachable : ∀ before file after tree, listed = before ++ file :: after →
    file.tree parse prepare project = some tree →
    ∀ node ∈ ((loadListed parse prepare project before).2.1.extract tree 0).1.1,
      ∃ root, (ProjectState.loadFiles parse prepare (listed.map (·.read project))).fileMap.get?
          (project.relTo file.path) = some root
        ∧ Reaches (ProjectState.loadFiles parse prepare
            (listed.map (·.read project))).graph.allEdges root node.id

end

namespace FileTree

def HoldsFile (tree : FileTree) (isSvFile : PathBuf → Bool) (dir : PathBuf) : Prop :=
  ∃ file ∈ tree.walk dir, isSvFile file.path = true

/--
One of the directories contains the other one, or they are the same, and there is an HDL file in
both.
-/
def Overlap (tree : FileTree) (isSvFile : PathBuf → Bool) (dir dir' : PathBuf) : Prop :=
  tree.dirExists dir = true ∧ tree.dirExists dir' = true
    ∧ (dir.locate tree.cwd <+: dir'.locate tree.cwd ∧ tree.HoldsFile isSvFile dir'
      ∨ dir'.locate tree.cwd <+: dir.locate tree.cwd ∧ tree.HoldsFile isSvFile dir)

variable {tree : FileTree}

theorem mem_walk {dir : PathBuf} {file : ListedFile}
    : file ∈ tree.walk dir
        ↔
      tree.dirExists dir = true ∧ (file.location, file.content) ∈ tree.files
        ∧ ∃ below, file.location = dir.locate tree.cwd ++ below ∧ file.path = dir.child below := by
  unfold walk
  split
  . next hexists =>
    rw [List.mem_map]
    constructor
    . rintro ⟨⟨location, content⟩, hfile, rfl⟩
      rw [List.mem_filter, decide_eq_true_eq] at hfile
      obtain ⟨hmem, below, rfl⟩ := hfile
      exact ⟨hexists, hmem, below, rfl, by simp⟩
    . rintro ⟨_, hmem, below, hlocation, hpath⟩
      refine ⟨(file.location, file.content), ?_, ?_⟩
      . rw [List.mem_filter, decide_eq_true_eq]
        exact ⟨hmem, hlocation ▸ List.prefix_append _ _⟩
      . cases file
        simp_all
  . next hexists => simp [hexists]

theorem walk_nodup (tree : FileTree) (dir : PathBuf)
    : ((tree.walk dir).map ListedFile.location).Nodup := by
  unfold walk
  split
  . dsimp only
    rw [List.map_map]
    exact tree.nodup.sublist (List.filter_sublist.map _)
  . exact List.nodup_nil

theorem extension_eq {dir : PathBuf} {file : ListedFile} (hfile : file ∈ tree.walk dir)
    : ∃ name, file.location.getLast? = some name ∧ file.path.extension = name.extension := by
  obtain ⟨hexists, hmem, below, hlocation, hpath⟩ := mem_walk.mp hfile
  rw [hlocation, hpath]
  cases hlast : below.getLast? with
  | some name =>
    refine ⟨name, by simp [List.getLast?_append, hlast], ?_⟩
    simp [PathBuf.extension, PathBuf.child, List.getLast?_append, hlast]
  | none =>
    rw [List.getLast?_eq_none_iff] at hlast
    subst hlast
    rw [List.append_nil] at hlocation
    obtain ⟨name, hname⟩ :=
      tree.named dir hexists (hlocation ▸ List.mem_map_of_mem (f := Prod.fst) hmem)
    refine ⟨name, ?_, ?_⟩
    . obtain ⟨front, hparts⟩ := List.getLast?_eq_some_iff.mp hname
      simp [PathBuf.locate, hparts, List.foldl_append]
    . simp [PathBuf.extension, PathBuf.child, hname]

theorem extension_eq_of_location_eq {dir dir' : PathBuf} {file file' : ListedFile}
    (hfile : file ∈ tree.walk dir) (hfile' : file' ∈ tree.walk dir')
    (heq : file.location = file'.location)
    : file.path.extension = file'.path.extension := by
  obtain ⟨name, hname, hext⟩ := extension_eq hfile
  obtain ⟨name', hname', hext'⟩ := extension_eq hfile'
  rw [heq, hname', Option.some.injEq] at hname
  rw [hext, hext', hname]

theorem location_eq_locate {dir : PathBuf} {file : ListedFile} (hfile : file ∈ tree.walk dir)
    : file.location = file.path.locate tree.cwd := by
  obtain ⟨_, _, below, hlocation, hpath⟩ := mem_walk.mp hfile
  rw [hlocation, hpath, PathBuf.locate_child]

section

variable {isSvFile : PathBuf → Bool}
  (hsv : ∀ p q : PathBuf, p.extension = q.extension → isSvFile p = isSvFile q)

include hsv

theorem overlap_of_prefix {dir dir' : PathBuf} (hexists : tree.dirExists dir = true)
    (hbelow : dir.locate tree.cwd <+: dir'.locate tree.cwd) {file' : ListedFile}
    (hfile' : file' ∈ tree.walk dir') (hhdl : isSvFile file'.path = true)
    : ∃ file ∈ tree.walk dir, isSvFile file.path = true ∧ file.location = file'.location := by
  obtain ⟨_, hmem, below, hlocation, _⟩ := mem_walk.mp hfile'
  obtain ⟨between, hbetween⟩ := hbelow
  have hfile : { file' with path := dir.child (between ++ below) } ∈ tree.walk dir := by
    rw [mem_walk]
    exact ⟨hexists, hmem, between ++ below, by rw [hlocation, ← hbetween, List.append_assoc], rfl⟩
  refine ⟨_, hfile, ?_, rfl⟩
  rw [hsv _ _ (extension_eq_of_location_eq hfile hfile' rfl)]
  exact hhdl

theorem overlap_iff {dir dir' : PathBuf}
    : tree.Overlap isSvFile dir dir'
        ↔
      ∃ file ∈ tree.walk dir, ∃ file' ∈ tree.walk dir',
        isSvFile file.path = true ∧ isSvFile file'.path = true
          ∧ file.location = file'.location := by
  constructor
  . rintro ⟨hexists, hexists', ⟨hbelow, file', hfile', hhdl'⟩ | ⟨hbelow, file, hfile, hhdl⟩⟩
    . obtain ⟨file, hfile, hhdl, heq⟩ := overlap_of_prefix hsv hexists hbelow hfile' hhdl'
      exact ⟨file, hfile, file', hfile', hhdl, hhdl', heq⟩
    . obtain ⟨file', hfile', hhdl', heq⟩ := overlap_of_prefix hsv hexists' hbelow hfile hhdl
      exact ⟨file, hfile, file', hfile', hhdl, hhdl', heq.symm⟩
  . rintro ⟨file, hfile, file', hfile', hhdl, hhdl', heq⟩
    obtain ⟨hexists, _, below, hlocation, _⟩ := mem_walk.mp hfile
    obtain ⟨hexists', _, below', hlocation', _⟩ := mem_walk.mp hfile'
    refine ⟨hexists, hexists', ?_⟩
    have hbelow : dir.locate tree.cwd <+: file.location := hlocation ▸ List.prefix_append _ _
    have hbelow' : dir'.locate tree.cwd <+: file.location :=
      heq ▸ hlocation' ▸ List.prefix_append _ _
    cases List.prefix_or_prefix_of_prefix hbelow hbelow' with
    | inl h => exact Or.inl ⟨h, file', hfile', hhdl'⟩
    | inr h => exact Or.inr ⟨h, file, hfile, hhdl⟩

theorem nodup_iff_pairwise (dirs : List PathBuf)
    : ((dirs.flatMap fun dir => (tree.walk dir).filter fun file => isSvFile file.path).map
          ListedFile.location).Nodup
        ↔
      dirs.Pairwise fun dir dir' => ¬tree.Overlap isSvFile dir dir' := by
  rw [List.map_flatMap, List.nodup_flatMap, and_iff_right]
  . refine Iff.of_eq
      (congrArg (fun r => List.Pairwise r dirs) (funext fun dir => funext fun dir' => propext ?_))
    rw [overlap_iff hsv]
    simp only [Function.onFun, List.disjoint_left, List.mem_map, List.mem_filter]
    grind
  . intro dir _
    exact (tree.walk_nodup dir).sublist (List.filter_sublist.map _)

end

end FileTree

/-! ## Loading what is listed -/

section

variable (parse : Text → Option Cst → Cst) (prepare : Text → Text → Text) (project : PathBuf)

def ListedFile.prepared (file : ListedFile) : FileRead :=
  ⟨project.relTo file.path, file.content.map (prepare · (project.relTo file.path))⟩

def indexListed (listed : List ListedFile) : IndexedProject Unit :=
  IndexedProject.indexProject parse (fun _ => ()) (listed.map (·.prepared prepare project))

-- Every module at the top of an HDL file in one of the directories has a name or declares nothing
def AttachedFiles (tree : FileTree) (isSvFile : PathBuf → Bool) (dirs : List PathBuf) : Prop :=
  ∀ dir ∈ dirs, ∀ file ∈ tree.walk dir, isSvFile file.path = true →
    ∀ cst, file.tree parse prepare project = some cst → AttachedTree cst

def Cli.searchedDirs (tree : FileTree) (project : PathBuf) (includeDirs : List PathBuf)
    : List PathBuf :=
  if (walkedDirs project includeDirs).any fun dir => (tree.walk dir).any fun file =>
    isSvFile file.path then
    walkedDirs project includeDirs
  else
    [project]

variable {parse prepare project}

variable (parse prepare project) in
theorem loadListed_eq (listed : List ListedFile)
    : loadListed parse prepare project listed
        =
      ((indexListed parse prepare project listed).graph,
        (indexListed parse prepare project listed).extractor,
        (indexListed parse prepare project listed).fileMap) := by
  induction listed using List.reverseRecOn with
  | nil => rfl
  | append_singleton listed file ih =>
    have hload : loadListed parse prepare project (listed ++ [file])
        = ProjectState.loadFile parse prepare (loadListed parse prepare project listed)
          (file.read project) := by
      simp [loadListed]
    have hindex : indexListed parse prepare project (listed ++ [file])
        = IndexedProject.indexFile parse (fun _ => ()) (indexListed parse prepare project listed)
            (file.prepared prepare project) := by
      simp [indexListed, IndexedProject.indexProject]
    rw [hload, hindex, ih]
    cases hcontent : file.content with
    | none =>
      simp [ProjectState.loadFile, IndexedProject.indexFile, ListedFile.read,
        ListedFile.prepared, hcontent]
    | some content =>
      simp [ProjectState.loadFile, IndexedProject.indexFile, ListedFile.read,
        ListedFile.prepared, hcontent]

theorem graph_loadFiles (listed : List ListedFile)
    : (ProjectState.loadFiles parse prepare (listed.map (·.read project))).graph
        = (indexListed parse prepare project listed).graph := by
  have h := loadListed_eq parse prepare project listed
  unfold loadListed at h
  rw [ProjectState.loadFiles, h]

theorem fileMap_loadFiles (listed : List ListedFile)
    : (ProjectState.loadFiles parse prepare (listed.map (·.read project))).fileMap
        = (indexListed parse prepare project listed).fileMap := by
  have h := loadListed_eq parse prepare project listed
  unfold loadListed at h
  rw [ProjectState.loadFiles, h]

theorem nodesOfFile_prepared (file : ListedFile)
    : IndexedProject.nodesOfFile parse (file.prepared prepare project)
        = file.nodeCount parse prepare project := by
  cases hcontent : file.content <;>
    simp [IndexedProject.nodesOfFile, ListedFile.prepared, ListedFile.nodeCount,
      ListedFile.tree, hcontent]

theorem exists_placed {listed before after : List ListedFile} {file : ListedFile} {tree : Cst}
    {l : Layout} (hrels : ((listed.map (·.prepared prepare project)).map FileRead.rel).Nodup)
    (hl : IndexedProject.Holds (IndexedProject.parsedOutline parse) (fun _ => ())
      (IndexedProject.indexProject parse (fun _ => ()) (listed.map (·.prepared prepare project))) l
      (IndexedProject.contentsOf (listed.map (·.prepared prepare project))))
    (hsplit : listed = before ++ file :: after)
    (htree : file.tree parse prepare project = some tree)
    : ∃ p, l.get? (project.relTo file.path) = some p
        ∧ IndexedProject.parsedOutline parse p.content = GraphExtractor.fileOutline tree
        ∧ ((loadListed parse prepare project before).2.1.extract tree 0).1.1.map GraphNode.id
          = p.nodeIds (IndexedProject.parsedOutline parse) := by
  obtain ⟨content, hcontent, htree⟩ := Option.map_eq_some_iff.mp htree
  have hprepared : (file.prepared prepare project).content
      = some (prepare content (project.relTo file.path)) := by
    rw [ListedFile.prepared, hcontent]
    rfl
  have hmem : file.prepared prepare project ∈ listed.map (·.prepared prepare project) := by
    rw [hsplit]
    exact List.mem_map_of_mem (List.mem_append_right _ List.mem_cons_self)
  have hget := IndexedProject.get?_contentsOf_of_mem hrels hmem hprepared
  rw [hl.contents] at hget
  obtain ⟨p, hp, hpcontent⟩ := Option.map_eq_some_iff.mp hget
  have houtline : IndexedProject.parsedOutline parse p.content
      = GraphExtractor.fileOutline tree := by
    rw [hpcontent, ← htree]
    rfl
  refine ⟨p, hp, houtline, ?_⟩
  have hmap := IndexedProject.get?_fileMap_indexProject (fun _ => ()) parse hrels
    (by rw [hsplit, List.map_append, List.map_cons]) hprepared
  rw [hl.describes.fileMap, hp, Option.map_some, Option.some.injEq] at hmap
  rw [loadListed_eq, (GraphExtractor.extract_extracts _ tree 0).map_id, Placed.nodeIds,
    Placed.nodes, houtline, hmap]
  rfl

theorem indexedOnce_iff_attached {cwd : Location} {listed : List ListedFile}
    (hunder : ∀ file ∈ listed, project.Under file.path)
    (hlocation : ∀ file ∈ listed, file.location = file.path.locate cwd)
    (hnodup : (listed.map ListedFile.location).Nodup)
    : IndexedOnce parse prepare project listed
        ↔
      ∀ file ∈ listed, ∀ tree, file.tree parse prepare project = some tree → AttachedTree tree := by
  have hrels : ((listed.map (·.prepared prepare project)).map FileRead.rel).Nodup := by
    rw [List.map_map]
    refine List.Nodup.map_on ?_ (List.Nodup.of_map _ hnodup)
    intro file hfile file' hfile' heq
    have hpath := PathBuf.relTo_injective (hunder file hfile) (hunder file' hfile') heq
    apply List.inj_on_of_nodup_map hnodup hfile hfile'
    rw [hlocation file hfile, hlocation file' hfile', hpath]
  obtain ⟨l, hl⟩ := IndexedProject.holds_indexProject parse (fun _ => ()) hrels
  constructor
  . intro h file hfile tree htree
    obtain ⟨before, after, hsplit⟩ := List.append_of_mem hfile
    obtain ⟨p, hp, houtline, hids⟩ := exists_placed hrels hl hsplit htree
    rw [← attached_fileOutline_iff, ← houtline, ← hl.describes.reaches_all_iff hp]
    intro id hid
    rw [← hids, List.mem_map] at hid
    obtain ⟨node, hnode, rfl⟩ := hid
    obtain ⟨root, hroot, hreach⟩ := h.reachable before file after tree hsplit htree node hnode
    rw [fileMap_loadFiles] at hroot
    have hbase := hl.describes.fileMap (project.relTo file.path)
    rw [hp] at hbase
    have heq : root = p.base := Option.some.inj (hroot.symm.trans hbase)
    rw [graph_loadFiles, heq] at hreach
    exact hreach
  . intro hattached
    refine ⟨hnodup, ?_, ?_⟩
    . have hdistinct : distinctFiles listed = listed := by
        rw [distinctFiles, List.pwFilter_eq_self]
        exact List.pairwise_map.mp hnodup
      rw [graph_loadFiles, hdistinct]
      refine (hl.nodeCount_eq hrels).trans ?_
      rw [List.foldr_map]
      simp only [nodesOfFile_prepared]
    . intro before file after tree hsplit htree node hnode
      obtain ⟨p, hp, houtline, hids⟩ := exists_placed hrels hl hsplit htree
      have hmem : file ∈ listed := hsplit ▸ List.mem_append_right _ List.mem_cons_self
      have hall := (hl.describes.reaches_all_iff hp).mpr
        (houtline ▸ (attached_fileOutline_iff tree).mpr (hattached file hmem tree htree))
      have hbase := hl.describes.fileMap (project.relTo file.path)
      rw [hp] at hbase
      rw [fileMap_loadFiles, graph_loadFiles]
      exact ⟨p.base, hbase, hall node.id (hids ▸ List.mem_map_of_mem hnode)⟩

theorem under_of_mem_walk {tree : FileTree} {dir : PathBuf} {file : ListedFile}
    (hfile : file ∈ tree.walk dir) (hdir : dir = project ∨ ∃ d, dir = project.join d)
    : project.Under file.path := by
  obtain ⟨_, _, below, _, hpath⟩ := FileTree.mem_walk.mp hfile
  rw [hpath]
  obtain rfl | ⟨d, rfl⟩ := hdir
  . exact PathBuf.under_child _ below
  . exact PathBuf.under_join_child project d below

theorem indexedOnce_walks_iff {tree : FileTree} {isSvFile : PathBuf → Bool} {dirs : List PathBuf}
    (hsv : ∀ p q : PathBuf, p.extension = q.extension → isSvFile p = isSvFile q)
    (hdirs : ∀ dir ∈ dirs, dir = project ∨ ∃ d, dir = project.join d)
    : let listed := dirs.flatMap fun dir => (tree.walk dir).filter fun file => isSvFile file.path
      IndexedOnce parse prepare project listed
        ↔
      (dirs.Pairwise fun dir dir' => ¬tree.Overlap isSvFile dir dir')
        ∧ AttachedFiles parse prepare project tree isSvFile dirs := by
  intro listed
  have hwalk : ∀ file ∈ listed, ∃ dir ∈ dirs, file ∈ tree.walk dir := by
    intro file hfile
    obtain ⟨dir, hdir, hfile⟩ := List.mem_flatMap.mp hfile
    exact ⟨dir, hdir, (List.mem_filter.mp hfile).1⟩
  have hunder : ∀ file ∈ listed, project.Under file.path := by
    intro file hfile
    obtain ⟨dir, hdir, hfile⟩ := hwalk file hfile
    exact under_of_mem_walk hfile (hdirs dir hdir)
  have hlocation : ∀ file ∈ listed, file.location = file.path.locate tree.cwd := by
    intro file hfile
    obtain ⟨dir, _, hfile⟩ := hwalk file hfile
    exact FileTree.location_eq_locate hfile
  have hfiles : (∀ file ∈ listed, ∀ cst, file.tree parse prepare project = some cst →
      AttachedTree cst)
      ↔ AttachedFiles parse prepare project tree isSvFile dirs := by
    simp only [listed, AttachedFiles, List.mem_flatMap, List.mem_filter]
    grind
  rw [← FileTree.nodup_iff_pairwise hsv dirs, ← hfiles]
  constructor
  . intro h
    exact ⟨h.nodup, (indexedOnce_iff_attached hunder hlocation h.nodup).mp h⟩
  . rintro ⟨hnodup, hattached⟩
    exact (indexedOnce_iff_attached hunder hlocation hnodup).mpr hattached

theorem Mcp.isSvFile_congr (p q : PathBuf) (h : p.extension = q.extension)
    : Mcp.isSvFile p = Mcp.isSvFile q := by
  rw [Mcp.isSvFile, Mcp.isSvFile, h]

theorem Cli.isSvFile_congr (p q : PathBuf) (h : p.extension = q.extension)
    : Cli.isSvFile p = Cli.isSvFile q := by
  rw [Cli.isSvFile, Cli.isSvFile, h]

theorem Cli.collectSvFiles_eq (tree : FileTree) (project : PathBuf) (includeDirs : List PathBuf)
    : collectSvFiles tree project includeDirs
        =
      (searchedDirs tree project includeDirs).flatMap
        fun dir => (tree.walk dir).filter fun file => isSvFile file.path := by
  unfold collectSvFiles searchedDirs
  dsimp only
  split
  . next hempty =>
    rw [if_neg]
    . simp
    . rw [List.isEmpty_iff, List.flatMap_eq_nil_iff] at hempty
      simp only [List.any_eq_true, not_exists, not_and]
      intro dir hdir file hfile hhdl
      have hmem : file ∈ (tree.walk dir).filter fun file => isSvFile file.path :=
        List.mem_filter.mpr ⟨hfile, hhdl⟩
      simp [hempty dir hdir] at hmem
  . next hfound =>
    rw [if_pos]
    rw [List.isEmpty_iff, List.flatMap_eq_nil_iff, not_forall] at hfound
    obtain ⟨dir, hfound⟩ := hfound
    rw [Classical.not_imp] at hfound
    obtain ⟨file, hfile⟩ := List.exists_mem_of_ne_nil _ hfound.2
    rw [List.mem_filter] at hfile
    exact List.any_eq_true.mpr ⟨dir, hfound.1, List.any_eq_true.mpr ⟨file, hfile⟩⟩

theorem Cli.mem_searchedDirs {tree : FileTree} {includeDirs : List PathBuf} {dir : PathBuf}
    (hdir : dir ∈ searchedDirs tree project includeDirs)
    : dir = project ∨ ∃ d, dir = project.join d := by
  unfold searchedDirs at hdir
  split at hdir
  . unfold walkedDirs at hdir
    split at hdir
    . exact Or.inl (List.mem_singleton.mp hdir)
    . obtain ⟨d, _, heq⟩ := List.mem_map.mp hdir
      exact Or.inr ⟨d, heq.symm⟩
  . exact Or.inl (List.mem_singleton.mp hdir)

theorem Mcp.mem_walkedDirs {includeDirs : List PathBuf} {dir : PathBuf}
    (hdir : dir ∈ walkedDirs project includeDirs)
    : dir = project ∨ ∃ d, dir = project.join d := by
  cases List.mem_cons.mp hdir with
  | inl heq => exact Or.inl heq
  | inr hdir =>
    obtain ⟨d, _, heq⟩ := List.mem_map.mp hdir
    exact Or.inr ⟨d, heq.symm⟩

end

/--
In both frontends every HDL file is indexed exactly once if and only if no two of the directories
that are walked overlap and no module without a name declares something at the top of a file.
-/
theorem collectSvFiles_indexedOnce_iff (parse : Text → Option Cst → Cst)
    (preprocess : Text → Text → Text) (tree : FileTree) (project : PathBuf)
    (includeDirs : List PathBuf)
    : (IndexedOnce parse preprocess project (Mcp.collectSvFiles tree project includeDirs)
          ↔
        ((Mcp.walkedDirs project includeDirs).Pairwise fun dir dir' =>
          ¬tree.Overlap Mcp.isSvFile dir dir')
          ∧ AttachedFiles parse preprocess project tree Mcp.isSvFile
            (Mcp.walkedDirs project includeDirs))
      ∧ (IndexedOnce parse (fun source _ => source) project
            (Cli.collectSvFiles tree project includeDirs)
          ↔
        ((Cli.searchedDirs tree project includeDirs).Pairwise fun dir dir' =>
          ¬tree.Overlap Cli.isSvFile dir dir')
          ∧ AttachedFiles parse (fun source _ => source) project tree Cli.isSvFile
              (Cli.searchedDirs tree project includeDirs)) := by
  rw [Cli.collectSvFiles_eq]
  constructor
  . exact indexedOnce_walks_iff Mcp.isSvFile_congr fun dir hdir => Mcp.mem_walkedDirs hdir
  . exact indexedOnce_walks_iff Cli.isSvFile_congr fun dir hdir => Cli.mem_searchedDirs hdir

/-! ## An include directory inside the project -/

def rtl : FileName := ⟨"rtl".toList, by decide, by decide, by decide, by decide⟩

def topSv : FileName := ⟨"top.sv".toList, by decide, by decide, by decide, by decide⟩

def rtlTree : FileTree where
  cwd := []
  files := [([rtl, topSv], some "module top; endmodule".toList)]
  dirExists dir := dir = ⟨false, [.curDir]⟩ ∨ dir = ⟨false, [.curDir, .normal rtl]⟩
  nodup := by decide
  named := by
    intro dir hdir hfile
    rw [decide_eq_true_eq] at hdir
    obtain rfl | rfl := hdir
    . exact absurd hfile (by decide)
    . exact absurd hfile (by decide)

theorem not_indexedOnce_rtl
    : ¬IndexedOnce IndexedProject.parsePackage (fun source _ => source) ⟨false, [.curDir]⟩
          (Mcp.collectSvFiles rtlTree ⟨false, [.curDir]⟩ [⟨false, [.normal rtl]⟩])
        ∧ ¬IndexedOnce IndexedProject.parsePackage (fun source _ => source) ⟨false, [.curDir]⟩
          (Cli.collectSvFiles rtlTree ⟨false, [.curDir]⟩ [⟨false, [.normal rtl]⟩,
            ⟨false, [.normal rtl]⟩]) := by
  constructor
  . intro h
    exact absurd h.nodup (by decide)
  . intro h
    exact absurd h.nodup (by decide)

end HdlGraph
