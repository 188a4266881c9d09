import HdlGraph.Parse.Preprocessor.Outside
import HdlGraph.Parse.Preprocessor.Preprocess
import HdlGraph.Parse.Preprocessor.SourceLine
import HdlGraph.Project.Collect

/-!
This module contains when the two frontends build the same project. The tool server parses what the
preprocessor writes, the command line parses the files as they are.
-/

namespace Text

open HdlGraph

/-! ## Whole lines -/

def unlines (ls : List Text) : Text := (ls.map fun line => line ++ ['\n']).flatten

theorem unlines_cons (line : Text) (ls : List Text)
    : unlines (line :: ls) = line ++ '\n' :: unlines ls := by
  rw [unlines, List.map_cons, List.flatten_cons, List.append_assoc]
  rfl

theorem mem_of_mem_lines {s line : Text} {c : Char} (hline : line ∈ lines s) (hc : c ∈ line)
    : c ∈ s := by
  have hcr : ∀ acc : Text, c ∈ lines.stripCr acc → c ∈ acc := by
    intro acc h
    unfold lines.stripCr at h
    split at h
    . exact List.mem_cons_of_mem _ (List.mem_reverse.mp h)
    . exact List.mem_reverse.mp h
  have hgo : ∀ s acc : Text, line ∈ lines.go acc s → c ∈ acc ∨ c ∈ s := by
    intro s
    induction s with
    | nil =>
      intro acc h
      rw [lines.go] at h
      split at h
      . contradiction
      . rw [List.mem_singleton.mp h, List.mem_reverse] at hc
        exact .inl hc
    | cons d ds ih =>
      intro acc h
      rw [lines.go] at h
      split at h
      . rcases List.mem_cons.mp h with rfl | h
        . exact .inl (hcr acc hc)
        . rcases ih [] h with hnil | hds
          . contradiction
          . exact .inr (List.mem_cons_of_mem _ hds)
      . rcases ih (d :: acc) h with hacc | hds
        . rcases List.mem_cons.mp hacc with rfl | hacc
          . exact .inr List.mem_cons_self
          . exact .inl hacc
        . exact .inr (List.mem_cons_of_mem _ hds)
  exact (hgo s [] hline).resolve_left List.not_mem_nil

theorem endsLine_append_newline_iff {front s : Text} : EndsLine (front ++ '\n' :: s)
    ↔ EndsLine s := by
  constructor
  . intro h
    rcases List.eq_nil_or_concat s with rfl | ⟨body, c, rfl⟩
    . exact endsLine_nil
    . rcases h with hnil | ⟨front', heq⟩
      . simp at hnil
      . rw [List.concat_eq_append, ← List.cons_append, ← List.append_assoc] at heq
        rw [List.concat_eq_append, (List.append_inj' heq rfl).2]
        exact endsLine_append body
  . intro h
    rw [← List.singleton_append, ← List.append_assoc]
    exact (endsLine_append front).append h

theorem crlf_infix_append_iff {front s : Text} (hfront : '\n' ∉ front)
    (hlast : front.getLast? ≠ some '\r')
    : ['\r', '\n'] <:+: front ++ '\n' :: s ↔ ['\r', '\n'] <:+: s := by
  induction front with
  | nil => simp [List.infix_cons_iff]
  | cons d front ih =>
    have hhere : ¬['\r', '\n'] <+: d :: (front ++ '\n' :: s) := by
      intro h
      obtain ⟨rfl, hnext⟩ := List.cons_prefix_cons.mp h
      cases front with
      | nil => exact hlast rfl
      | cons d' front =>
        obtain ⟨rfl, _⟩ := List.cons_prefix_cons.mp hnext
        simp at hfront
    rw [List.cons_append, List.infix_cons_iff, or_iff_right hhere]
    apply ih (List.not_mem_of_not_mem_cons hfront)
    intro hcr
    cases front with
    | nil => contradiction
    | cons d' front => exact hlast (by rwa [List.getLast?_cons_cons])

/-- The lines of a text make up the text if and only if each of them ends in a line feed alone. -/
theorem unlines_lines_iff {s : Text}
    : unlines (lines s) = s ↔ EndsLine s ∧ ¬['\r', '\n'] <:+: s := by
  have hgo : ∀ acc : Text, '\n' ∉ acc →
      (unlines (lines.go acc s) = acc.reverse ++ s ↔ EndsLine (acc.reverse ++ s)
        ∧ ¬['\r', '\n'] <:+: acc.reverse ++ s) := by
    induction s with
    | nil =>
      intro acc hacc
      cases acc with
      | nil => simp [lines.go, unlines, endsLine_nil]
      | cons a acc =>
        have hends : ¬EndsLine ((a :: acc).reverse ++ []) := by
          rintro (hnil | ⟨front, heq⟩)
          . simp at hnil
          . apply hacc
            rw [← List.mem_reverse, ← List.append_nil (a :: acc).reverse, heq]
            simp
        refine iff_of_false ?_ fun h => hends h.1
        rw [lines.go, if_neg (by simp), unlines_cons]
        simp
    | cons c cs ih =>
      intro acc hacc
      rw [lines.go]
      split
      . next hc =>
        obtain rfl := hc
        rw [unlines_cons]
        have hrest := ih [] List.not_mem_nil
        rw [List.reverse_nil, List.nil_append] at hrest
        unfold lines.stripCr
        split
        . next acc' =>
          -- the carriage return is lost
          refine iff_of_false ?_ fun h => h.2 ⟨acc'.reverse, cs, by simp⟩
          simp
        . next hcr =>
          have hlast : acc.reverse.getLast? ≠ some '\r' := by
            intro h
            rw [List.getLast?_reverse, List.head?_eq_some_iff] at h
            obtain ⟨acc', rfl⟩ := h
            exact hcr acc' rfl
          rw [endsLine_append_newline_iff, crlf_infix_append_iff (by simpa using hacc) hlast,
            ← hrest]
          simp
      . next hc =>
        have hnext := ih (c :: acc) (by simpa [Ne.symm hc] using hacc)
        simpa using hnext
  exact hgo [] List.not_mem_nil

end Text

namespace HdlGraph

open Text

/-! ## Sources without macros -/

namespace Preprocessor

open Pass1Standard Pass2Scanner Pass3Expander

theorem hasCall_of_not_mem {line : Text} (h : '`' ∉ line) : hasCall line = false := by
  rw [hasCall, List.any_eq_false]
  intro name _ hname
  rw [contains_iff] at hname
  exact h (hname.subset List.mem_cons_self)

theorem expandedSource_of_not_mem {source : Text} (h : '`' ∉ source) (filePath : Text)
    (defines : Dict Text Text) (includeDirs : List Text)
    : (preprocess source filePath defines includeDirs).expandedSource = unlines (lines source) := by
  have hline : ∀ line ∈ lines source, '`' ∉ line :=
    fun line hline hmem => h (mem_of_mem_lines hline hmem)
  have hpass1 : (Pass1Standard.run source defines includeDirs).1 = unlines (lines source) := by
    have hrun :=
      runLines_of_isCode (fun line hmem => (isCode_of_not_mem (hline line hmem) defines).1) [] []
        (State.init defines)
    rw [List.append_nil] at hrun
    have hreplaced : ∀ line ∈ lines source, replaced defines line ++ ['\n'] = line ++ ['\n'] :=
      fun line hmem => congrArg (· ++ ['\n']) (isCode_of_not_mem (hline line hmem) defines).2
    unfold Pass1Standard.run
    rw [hrun]
    exact congrArg List.flatten (List.map_congr_left hreplaced)
  have hcalls : scan (unlines (lines source)) = [] := by
    rw [scan_eq_nil_iff]
    intro line hmem
    apply hasCall_of_not_mem
    intro htick
    obtain ⟨text, htext, hin⟩ := List.mem_flatten.mp (mem_of_mem_lines hmem htick)
    obtain ⟨line', hline', rfl⟩ := List.mem_map.mp htext
    exact hline line' hline' (by simpa using hin)
  rw [preprocess]
  simp only [hpass1, hcalls, Pass4Merger.merge]
  rfl

/-- A text without backticks is only written anew line by line. -/
theorem expandedSource_eq_self_iff {source : Text} (h : '`' ∉ source) (filePath : Text)
    (defines : Dict Text Text) (includeDirs : List Text)
    : (preprocess source filePath defines includeDirs).expandedSource = source
        ↔ EndsLine source ∧ ¬['\r', '\n'] <:+: source := by
  rw [expandedSource_of_not_mem h, unlines_lines_iff]

end Preprocessor

/-! ## The two loaders -/

namespace Mcp

-- The macros that every file starts with: those of UVM, then those of the configuration, if it can
-- be read
def collectDefines (config : Option (List Text)) : Dict Text Text :=
  let base :=
    (Dict.empty.insert "UVM_NO_DEPRECATED".toList "1".toList).insert
      "UVM_OBJECT_MUST_HAVE_CONSTRUCTOR".toList "1".toList
  (config.getD []).foldl (fun defines d =>
    if '=' ∈ d then defines.insert (d.takeWhile (· ≠ '=')) ((d.dropWhile (· ≠ '=')).drop 1)
    else defines.insert d "1".toList) base

def loadProject (parse : Text → Option Cst → Cst) (config : Option (List Text)) (tree : FileTree)
    (project : PathBuf) (includeDirs : List Text) : ProjectState :=
  let defines := collectDefines config
  let prepare (source rel : Text) : Text :=
    (Preprocessor.preprocess source rel defines includeDirs).expandedSource
  ProjectState.loadProject parse prepare
    ((collectSvFiles tree project (includeDirs.map PathBuf.ofText)).map (·.read project))

end Mcp

namespace Cli

def loadOrBuild (parse : Text → Option Cst → Cst) (tree : FileTree) (project : PathBuf)
    (includeDirs : List Text)
    : ProjectState :=
  ProjectState.loadOrBuild parse
    ((collectSvFiles tree project (includeDirs.map PathBuf.ofText)).map (·.read project))

end Cli

namespace ProjectState

variable {parse : Text → Option Cst → Cst} {prepare prepare' : Text → Text → Text}
  {files : List FileRead}

theorem loadFiles_congr
    (h : ∀ file ∈ files, ∀ content, file.content = some content →
      prepare content file.rel = prepare' content file.rel)
    : loadFiles parse prepare files = loadFiles parse prepare' files := by
  have hfile : ∀ state,
      ∀ file ∈ files, loadFile parse prepare state file = loadFile parse prepare' state file := by
    intro state file hmem
    unfold loadFile
    cases hcontent : file.content with
    | none => rfl
    | some content => simp only [h file hmem content hcontent]
  unfold loadFiles
  rw [List.foldl_ext _ _ _ fun state file hmem => hfile state file hmem]

end ProjectState

/-- A file that both frontends take for HDL, and that the preprocessor does not change. -/
structure ListedFile.Plain (file : ListedFile) : Prop where
  extension : Cli.isSvFile file.path = true
  content : ∀ content, file.content = some content → '`' ∉ content ∧ EndsLine content
    ∧ ¬['\r', '\n'] <:+: content

/--
Where no directory is named and no link leads to an HDL file, the two frontends build the same
graph, the same symbols and the same map of files if each of the HDL files is plain.
-/
theorem loadOrBuild_eq_loadProject (parse : Text → Option Cst → Cst) (config : Option (List Text))
    {tree followed : FileTree} {project : PathBuf}
    (hlinks : ((followed.walk project).filter fun file => Mcp.isSvFile file.path)
      = (tree.walk project).filter fun file => Mcp.isSvFile file.path)
    (h : ∀ file ∈ tree.walk project, Mcp.isSvFile file.path = true → file.Plain)
    : Cli.loadOrBuild parse tree project [] = Mcp.loadProject parse config followed project [] := by
  have hsv : ∀ path, Cli.isSvFile path = true → Mcp.isSvFile path = true := by
    intro path
    unfold Cli.isSvFile Mcp.isSvFile
    cases path.extension with
    | none => exact id
    | some ext =>
      simp only [List.contains_iff_mem, List.mem_cons]
      tauto
  have hfilter : (tree.walk project).filter (fun file => Cli.isSvFile file.path)
      = (tree.walk project).filter fun file => Mcp.isSvFile file.path := by
    apply List.filter_congr
    intro file hfile
    rw [Bool.eq_iff_iff]
    exact ⟨hsv file.path, fun hmcp => (h file hfile hmcp).extension⟩
  have hcli : Cli.collectSvFiles tree project []
      = (tree.walk project).filter fun file => Mcp.isSvFile file.path := by
    rw [Cli.collectSvFiles, Cli.walkedDirs, List.isEmpty_nil, if_pos rfl, List.flatMap_singleton,
      hfilter, ite_self]
  have hmcp : Mcp.collectSvFiles followed project []
      = (tree.walk project).filter fun file => Mcp.isSvFile file.path := by
    rw [Mcp.collectSvFiles, Mcp.walkedDirs, List.map_nil, List.flatMap_singleton, hlinks]
  rw [Cli.loadOrBuild, Mcp.loadProject, ProjectState.loadOrBuild, ProjectState.loadProject,
    List.map_nil, hcli, hmcp]
  apply ProjectState.loadFiles_congr
  intro read hread content hcontent
  obtain ⟨file, hfile, rfl⟩ := List.mem_map.mp hread
  obtain ⟨hfile, hsvFile⟩ := List.mem_filter.mp hfile
  obtain ⟨htick, hends⟩ := (h file hfile hsvFile).content content hcontent
  exact ((Preprocessor.expandedSource_eq_self_iff htick _ _ _).mpr hends).symm

def topTree : FileTree where
  cwd := []
  files := [([topSv], some "module top;\nendmodule\n".toList)]
  dirExists dir := dir = ⟨false, [.curDir]⟩
  nodup := by decide
  named := by
    intro dir hdir hfile
    rw [decide_eq_true_eq] at hdir
    obtain rfl := hdir
    exact absurd hfile (by decide)

def notes : FileName := ⟨"notes".toList, by decide, by decide, by decide, by decide⟩

-- Next to it a link to a file without an extension
def topTreeFollowed : FileTree where
  cwd := []
  files := [([topSv], some "module top;\nendmodule\n".toList), ([notes], some [])]
  dirExists dir := dir = ⟨false, [.curDir]⟩
  nodup := by decide
  named := by
    intro dir hdir hfile
    rw [decide_eq_true_eq] at hdir
    obtain rfl := hdir
    exact absurd hfile (by decide)

theorem loadOrBuild_eq_loadProject_top
    : Cli.loadOrBuild IndexedProject.parsePackage topTree ⟨false, [.curDir]⟩ []
        = Mcp.loadProject IndexedProject.parsePackage (some ["WIDTH=8".toList]) topTreeFollowed
            ⟨false, [.curDir]⟩ [] := by
  apply loadOrBuild_eq_loadProject
  . decide
  have hwalk : topTree.walk ⟨false, [.curDir]⟩
      = [⟨⟨false, [.curDir, .normal topSv]⟩, [topSv],
          some "module top;\nendmodule\n".toList⟩] := by
    decide
  intro file hfile _
  rw [hwalk, List.mem_singleton] at hfile
  obtain rfl := hfile
  constructor
  . decide
  . rintro content ⟨rfl⟩
    exact ⟨by decide, .inr ⟨"module top;\nendmodule".toList, by decide⟩, by decide⟩

end HdlGraph
