import HdlGraph.Frontend.Impact
import HdlGraph.Library.Chunks
import HdlGraph.Library.Forest
import HdlGraph.Project.Walks
import HdlGraph.Storage.Contents

/-!
This module contains the search for the drivers and readers of a signal over all files. It walks
down what the files contain, and a node is asked for its edges when the walk gets there.
-/

namespace HdlGraph

open scoped List
open Relation

namespace InMemoryGraph

/-! ## The commands -/

section Commands

variable (g : InMemoryGraph) (symbols : SymbolTable)

def driverStarts (fileMap : List (Text × NodeId)) : List NodeId :=
  fileMap.flatMap fun (_, fid) => (g.getOutgoing fid).filterMap fun e =>
    if e.edgeType = .contains then some e.target else none

def driversOfFiles (label : SymbolTable → Option GraphNode → Option Text)
    (fileMap : List (Text × NodeId)) (signal : Text) (fuel : Nat)
    : Option (List Text × List Text) :=
  (Walk.collect (Walk.run (g.driverSteps symbols label signal) fuel 0)
    ((driverStarts g fileMap).map fun target => ⟨[], some target⟩)).map driversAndReaders

def cmdDriversText (signal : Text) (found : List Text × List Text) : Text :=
  println ("Drivers of ".toList ++ signal ++ ":".toList)
    ++ (if found.1.isEmpty then println "  (none)".toList else found.1.flatMap fun d =>
      println ("  ".toList ++ d))
    ++ println ("Readers of ".toList ++ signal ++ ":".toList)
    ++ if found.2.isEmpty then println "  (none)".toList else found.2.flatMap fun r =>
      println ("  ".toList ++ r)

def cmdDrivers (fileMap : List (Text × NodeId)) (signal : Text) (fuel : Nat) : Option Text :=
  (driversOfFiles g symbols driverLabelCli fileMap signal fuel).map (cmdDriversText signal)

def driversToolText (signal : Text) (found : List Text × List Text) : Text :=
  if found.1.isEmpty ∧ found.2.isEmpty then
    "No drivers/readers found for: ".toList ++ signal
  else
    (if found.1.isEmpty then []
      else "Drivers of ".toList ++ signal ++ ":\n".toList ++ found.1.flatMap fun d =>
        "  ".toList ++ d ++ "\n".toList)
    ++ if found.2.isEmpty then []
      else "Readers of ".toList ++ signal ++ ":\n".toList ++ found.2.flatMap fun r =>
        "  ".toList ++ r ++ "\n".toList

def driversTool (fileMap : List (Text × NodeId)) (signal : Text) (fuel : Nat) : Option Text :=
  (driversOfFiles g symbols driverLabelMcp fileMap signal fuel).map (driversToolText signal)

end Commands
end InMemoryGraph

def EdgeType.isDriving : EdgeType → Bool
  | .drives | .references => true
  | _ => false

-- The edges by which extraction hangs a node on another one
def EdgeType.isTree : EdgeType → Bool
  | .contains | .defines | .factoryRegisters | .factoryOverrides => true
  | _ => false

namespace InMemoryGraph

/-! ## What is to be listed -/

section Listed

variable (g : InMemoryGraph) (symbols : SymbolTable) (fileMap : List (Text × NodeId))
  (signal : Text)

/-- The edges make trees below the files: none enters a file, and no two enter the same node. -/
structure ForestFrom : Prop where
  roots : (fileMap.map Prod.snd).Nodup
  entered : ((g.allEdges.filter fun e => e.edgeType.isTree).map Edge.target).Nodup
  rootNotEntered : ∀ e ∈ g.allEdges, e.edgeType.isTree → e.target ∉ fileMap.map Prod.snd

def IntoSignal (e : Edge) : Bool :=
  e.edgeType.isDriving
    && (g.getNode e.target).any fun target =>
      target.kind.nameField.bind symbols.resolve = some signal

def signalSources : List (EdgeType × NodeId) :=
  (g.allEdges.filter (IntoSignal g symbols signal)).map fun e => (e.edgeType, e.source)

def labelled (label : SymbolTable → Option GraphNode → Option Text)
    (found : List (EdgeType × NodeId))
    : List Text × List Text :=
  driversAndReaders (found.map fun x => (x.1, (label symbols (g.getNode x.2)).getD "?".toList))

/-- Both commands return and list the sources, each with the label that the command has for it. -/
def ListsDrivers : Prop :=
  ∃ found, found ~ signalSources g symbols signal ∧ ∃ bound, ∀ fuel, bound < fuel →
    driversOfFiles g symbols driverLabelCli fileMap signal fuel
      = some (labelled g symbols driverLabelCli found)
      ∧ driversOfFiles g symbols driverLabelMcp fileMap signal fuel
        = some (labelled g symbols driverLabelMcp found)

def Contains (v w : NodeId) : Prop := ∃ e ∈ g.getOutgoing v, e.edgeType = .contains ∧ e.target = w

/-- Where the walk gets to the source of an edge and takes note of its target. -/
structure Noticed (e : Edge) : Prop where
  stored : (g.getNode e.source).isSome
  below : ∃ fid ∈ fileMap.map Prod.snd, TransGen (Contains g) fid e.source
  matched : ∃ target, g.getNode e.target = some target
    ∧ matchedName symbols target.kind = some signal

end Listed

/-! ## The walk over the sources -/

section Walk

variable (g : InMemoryGraph) (symbols : SymbolTable) (signal : Text)

def contained (v : NodeId) : List NodeId :=
  (g.getOutgoing v).filterMap fun e => if e.edgeType = .contains then some e.target else none

def Seen (e : Edge) : Bool :=
  e.edgeType.isDriving && (g.getNode e.target).any fun target =>
    matchedName symbols target.kind = some signal

def seenAt (v : NodeId) : List (EdgeType × NodeId) :=
  ((g.getOutgoing v).filter (Seen g symbols signal)).map fun e => (e.edgeType, v)

def sourceSteps (_depth : Nat) (v : NodeId) : List (Walk.Step NodeId (EdgeType × NodeId)) :=
  (g.getOutgoing v).map fun e =>
    { output := if Seen g symbols signal e then [(e.edgeType, v)] else []
      next := if e.edgeType = .contains then some e.target else none }

def labelOf (label : SymbolTable → Option GraphNode → Option Text) (x : EdgeType × NodeId)
    : List (EdgeType × Text) :=
  (label symbols (g.getNode x.2)).toList.map fun l => (x.1, l)

variable {g symbols signal}

theorem isDriving_iff {t : EdgeType} : t = .drives ∨ t = .references ↔ t.isDriving = true := by
  cases t <;> simp [EdgeType.isDriving]

theorem driverSteps_eq (label : SymbolTable → Option GraphNode → Option Text)
    (depth : Nat) (v : NodeId)
    : g.driverSteps symbols label signal depth v
        = (sourceSteps g symbols signal depth v).map
          (Walk.Step.bind (labelOf g symbols label)) := by
  rw [driverSteps, sourceSteps, List.map_map]
  apply List.map_congr_left
  intro e _
  simp only [Function.comp_apply, Walk.Step.bind, Walk.Step.mk.injEq, and_true, Seen, isDriving_iff]
  by_cases hdriving : e.edgeType.isDriving = true
  . rcases Option.eq_none_or_eq_some (g.getNode e.target) with htarget | ⟨target, htarget⟩
    . simp [htarget]
    . by_cases hname : matchedName symbols target.kind
        = some signal <;> simp [hdriving, htarget, hname, labelOf]
  . simp [hdriving]

theorem driversOfFiles_eq (label : SymbolTable → Option GraphNode → Option Text)
    (fileMap : List (Text × NodeId)) (fuel : Nat)
    : driversOfFiles g symbols label fileMap signal fuel
        = (Walk.collect (Walk.run (sourceSteps g symbols signal) fuel 0)
            ((driverStarts g fileMap).map fun target => ⟨[], some target⟩)).map
          fun found => driversAndReaders (found.flatMap (labelOf g symbols label)) := by
  have hsteps : g.driverSteps symbols label signal
      = fun depth v =>
        (sourceSteps g symbols signal depth v).map (Walk.Step.bind (labelOf g symbols label)) := by
    funext depth v
    exact driverSteps_eq label depth v
  have hrun : Walk.run (g.driverSteps symbols label signal) fuel 0
      = fun v => (Walk.run (sourceSteps g symbols signal) fuel 0 v).map
        (·.flatMap (labelOf g symbols label)) := by
    funext v
    rw [hsteps, Walk.run_bind]
  have hstarts : (driverStarts g fileMap).map
        (fun target => (⟨[], some target⟩ : Walk.Step NodeId (EdgeType × Text)))
      = ((driverStarts g fileMap).map fun target => ⟨[], some target⟩).map
        (Walk.Step.bind (labelOf g symbols label)) := by
    rw [List.map_map]
    rfl
  rw [driversOfFiles, hrun, hstarts, Walk.collect_bind, Option.map_map]
  rfl

theorem next_sourceSteps (depth : Nat) (v : NodeId)
    : (sourceSteps g symbols signal depth v).filterMap Walk.Step.next = contained g v := by
  rw [sourceSteps, List.filterMap_map]
  rfl

theorem output_sourceSteps (depth : Nat) (v : NodeId)
    : (sourceSteps g symbols signal depth v).flatMap Walk.Step.output
        = seenAt g symbols signal v := by
  have hfilter := Chunks.flatMap_filter (g.getOutgoing v) (fun e => Seen g symbols signal e = true)
    fun e => [(e.edgeType, v)]
  rw [sourceSteps, seenAt, List.flatMap_map, List.map_eq_flatMap]
  simpa only [Bool.decide_eq_true] using hfilter.symm

theorem driverStarts_eq (fileMap : List (Text × NodeId))
    : driverStarts g fileMap = (fileMap.map Prod.snd).flatMap (contained g) := by
  rw [driverStarts, List.flatMap_map]
  rfl

theorem contained_eq (v : NodeId)
    : contained g v = ((g.getOutgoing v).filter fun e => e.edgeType = .contains).map
        Edge.target := by
  rw [contained, ← List.filterMap_eq_map, List.filterMap_filter]
  simp

theorem exists_edge_of_mem_contained {log : List Edge} (hlog : g.Logs log) {v w : NodeId}
    (h : w ∈ contained g v)
    : ∃ e ∈ g.allEdges, e.edgeType = .contains ∧ e.source = v ∧ e.target = w := by
  rw [contained_eq] at h
  obtain ⟨e, he, rfl⟩ := List.mem_map.mp h
  have ⟨he, hcontains⟩ := List.mem_filter.mp he
  have ⟨hmem, hsource⟩ := hlog.mem_getOutgoing.mp he
  exact ⟨e, hlog.perm_allEdges.mem_iff.mpr hmem, of_decide_eq_true hcontains, hsource, rfl⟩

theorem perm_flatMap_seenAt {log : List Edge} (hlog : g.Logs log) {ids : List NodeId}
    (hids : ids.Nodup)
    : ids.flatMap (seenAt g symbols signal)
        ~ (g.allEdges.filter fun e => Seen g symbols signal e ∧ e.source ∈ ids).map fun e =>
          (e.edgeType, e.source) := by
  have hseen : ids.flatMap (seenAt g symbols signal)
      = ((ids.flatMap g.getOutgoing).filter (Seen g symbols signal)).map fun e =>
        (e.edgeType, e.source) := by
    rw [List.filter_flatMap, List.map_flatMap]
    apply List.flatMap_congr
    intro v _
    apply List.map_congr_left
    intro e he
    rw [(hlog.mem_getOutgoing.mp (List.mem_of_mem_filter he)).2]
  have hedges := (hlog.perm_flatMap_getOutgoing hids).trans (hlog.perm_allEdges.symm.filter _)
  rw [hseen]
  refine ((hedges.filter _).map _).trans (.of_eq ?_)
  rw [List.filter_filter]
  simp

theorem step_contained : Forest.Step (contained g) = Contains g := by
  funext v w
  simp [Forest.Step, contained, Contains]

end Walk

/-! ## The forest -/

namespace ForestFrom

variable {g : InMemoryGraph} {symbols : SymbolTable} {fileMap : List (Text × NodeId)}
  {signal : Text} {log : List Edge}

theorem eq_of_contains (h : ForestFrom g fileMap) (hlog : g.Logs log) {u v w : NodeId}
    (hu : w ∈ contained g u) (hv : w ∈ contained g v)
    : u = v := by
  have htree : ∀ {e}, e ∈ g.allEdges → e.edgeType = .contains →
      e ∈ g.allEdges.filter fun e => e.edgeType.isTree :=
    fun he hcontains => List.mem_filter.mpr ⟨he, by rw [hcontains]; rfl⟩
  obtain ⟨e, he, hcontains, rfl, htarget⟩ := exists_edge_of_mem_contained hlog hu
  obtain ⟨e', he', hcontains', rfl, htarget'⟩ := exists_edge_of_mem_contained hlog hv
  rw [List.inj_on_of_nodup_map h.entered (htree he hcontains) (htree he' hcontains')
    (htarget.trans htarget'.symm)]

theorem nodup_contained (h : ForestFrom g fileMap) (hlog : g.Logs log) (v : NodeId)
    : (contained g v).Nodup := by
  have hsub : (contained g v).Sublist
      ((log.filter fun e => e.edgeType.isTree).map Edge.target) := by
    rw [contained_eq, hlog.getOutgoing_eq, List.filter_filter]
    apply List.Sublist.map
    apply List.monotone_filter_right
    intro e he
    have hcontains : e.edgeType = .contains := by simp_all
    rw [hcontains]
    rfl
  exact (((hlog.perm_allEdges.filter _).map _).nodup_iff.mp h.entered).sublist hsub

theorem root_notMem (h : ForestFrom g fileMap) (hlog : g.Logs log) {r : NodeId}
    (hr : r ∈ fileMap.map Prod.snd) (v : NodeId)
    : r ∉ contained g v := by
  intro hmem
  obtain ⟨e, he, hcontains, _, rfl⟩ := exists_edge_of_mem_contained hlog hmem
  exact h.rootNotEntered e he (by rw [hcontains]; rfl) hr

/-- The walk ends, and it takes note of the edges of every node below a file once. -/
theorem exists_walked (symbols : SymbolTable) (signal : Text) (h : ForestFrom g fileMap)
    (hlog : g.Logs log)
    : ∃ ids : List NodeId,
        (∀ id, id ∈ ids ↔ ∃ fid ∈ fileMap.map Prod.snd, TransGen (Contains g) fid id)
        ∧ ∃ walked, walked ~ (g.allEdges.filter fun e => Seen g symbols signal e
            ∧ e.source ∈ ids).map (fun e => (e.edgeType, e.source))
          ∧ ∃ bound, ∀ fuel, bound < fuel →
            Walk.collect (Walk.run (sourceSteps g symbols signal) fuel 0)
              ((driverStarts g fileMap).map fun target => ⟨[], some target⟩) = some walked := by
  have hnodup := h.nodup_contained hlog
  have hparent : ∀ u v w, w ∈ contained g u → w ∈ contained g v → u = v :=
    fun u v w => h.eq_of_contains hlog
  have hroots : ∀ r ∈ fileMap.map Prod.snd, ∀ v, r ∉ contained g v :=
    fun r hr => h.root_notMem hlog hr
  have hforest := Forest.forestOn_of_roots hnodup hparent hroots
  have hstarts := driverStarts_eq (g := g) fileMap
  have hbelow : ∀ v ∈ driverStarts g fileMap,
      ∃ r ∈ fileMap.map Prod.snd, ReflTransGen (Forest.Step (contained g)) r v := by
    intro v hv
    obtain ⟨r, hr, hstep⟩ := List.mem_flatMap.mp (hstarts ▸ hv)
    exact ⟨r, hr, .single hstep⟩
  have hfinite : ∀ v, {w | ReflTransGen (Forest.Step (contained g)) v w}.Finite := by
    apply Forest.finite_reach (log.map Edge.target)
    intro u w hw
    rw [contained_eq, hlog.getOutgoing_eq] at hw
    exact List.map_subset _ (List.filter_sublist.trans List.filter_sublist).subset hw
  have hends : ∀ v ∈ driverStarts g fileMap,
      Walk.Terminates (sourceSteps g symbols signal) 0 v := by
    intro v hv
    apply Forest.terminates_of_acc next_sourceSteps
    rw [Forest.acc_iff_acyclic (hfinite v)]
    exact fun w hreach => hforest.acyclic w (hforest.closed_reach (hbelow v hv) hreach)
  have hvisit : ∃ walked bound, ∀ fuel, bound < fuel →
      Walk.collect (Walk.run (sourceSteps g symbols signal) fuel 0)
        ((driverStarts g fileMap).map fun target => ⟨[], some target⟩) = some walked := by
    apply Walk.collect_of_terminates
    simpa using hends
  obtain ⟨walked, bound, hwalked⟩ := hvisit
  obtain ⟨listing, hlisting, hperm⟩ :=
    Forest.perm_of_collect next_sourceSteps (hwalked _ (Nat.lt_succ_self _))
  have hnext : ((driverStarts g fileMap).map fun target =>
    (⟨[], some target⟩ : Walk.Step NodeId (EdgeType × NodeId))).filterMap
      Walk.Step.next = driverStarts g fileMap := by
    rw [List.filterMap_map]
    exact List.filterMap_some
  rw [hnext] at hlisting
  have hids :=
    hforest.nodup_listing hlisting hbelow
      (hstarts ▸ Forest.apart_of_roots hnodup hparent hroots h.roots)
  refine ⟨listing.map Prod.snd, ?_, walked, ?_, bound, hwalked⟩
  . intro id
    rw [hlisting.mem_iff, hstarts, Forest.exists_mem_flatMap_iff, step_contained]
  . have houtput : ((driverStarts g fileMap).map fun target =>
      (⟨[], some target⟩ : Walk.Step NodeId (EdgeType × NodeId))).flatMap
        Walk.Step.output = [] := by simp
    simp only [houtput, output_sourceSteps, List.nil_append] at hperm
    refine hperm.trans ?_
    rw [← List.flatMap_map (f := Prod.snd)]
    exact perm_flatMap_seenAt hlog hids

end ForestFrom

/-! ## When all sources are listed -/

section Listed

variable {g : InMemoryGraph} {symbols : SymbolTable} {fileMap : List (Text × NodeId)}
  {signal : Text}

theorem intoSignal_of_seen {e : Edge} (h : Seen g symbols signal e)
    : IntoSignal g symbols signal e := by
  have hname : ∀ kind, matchedName symbols kind = some signal →
      kind.nameField.bind symbols.resolve = some signal := by
    intro kind
    cases kind <;> simp [matchedName, NodeKind.nameField]
  rw [Seen, Bool.and_eq_true, Option.any_eq_true] at h
  obtain ⟨hdriving, target, htarget, hmatched⟩ := h
  rw [IntoSignal, Bool.and_eq_true, Option.any_eq_true]
  exact ⟨hdriving, target, htarget, decide_eq_true (hname _ (of_decide_eq_true hmatched))⟩

theorem seen_iff {e : Edge} (h : e.edgeType.isDriving)
    : Seen g symbols signal e ↔ ∃ target, g.getNode e.target = some target
        ∧ matchedName symbols target.kind = some signal := by
  simp [Seen, h, Option.any_eq_true]

theorem length_driversAndReaders {found : List (EdgeType × Text)} (h : ∀ x ∈ found, x.1.isDriving)
    : (driversAndReaders found).1.length + (driversAndReaders found).2.length = found.length := by
  rw [driversAndReaders, List.length_map, List.length_map]
  induction found with
  | nil => rfl
  | cons x rest ih =>
    have hrest := ih fun y hy => h y (List.mem_cons_of_mem _ hy)
    rcases isDriving_iff.mpr (h x List.mem_cons_self) with hx | hx
    . simp only [List.filter_cons, hx, List.length_cons, ← hrest]
      simp
      omega
    . simp only [List.filter_cons, hx, List.length_cons, ← hrest]
      simp
      omega

theorem flatMap_labelOf_of_stored (label : SymbolTable → Option GraphNode → Option Text)
    (hlabel : ∀ node, (label symbols (some node)).isSome) {found : List (EdgeType × NodeId)}
    (hstored : ∀ x ∈ found, (g.getNode x.2).isSome)
    : found.flatMap (labelOf g symbols label)
        = found.map fun x => (x.1, (label symbols (g.getNode x.2)).getD "?".toList) := by
  rw [List.map_eq_flatMap]
  apply List.flatMap_congr
  intro x hx
  obtain ⟨node, hnode⟩ := Option.isSome_iff_exists.mp (hstored x hx)
  obtain ⟨text, htext⟩ := Option.isSome_iff_exists.mp (hlabel node)
  rw [labelOf, hnode, htext]
  rfl

theorem length_labelOf_cli (x : EdgeType × NodeId)
    : (labelOf g symbols driverLabelCli x).length = if (g.getNode x.2).isSome then 1 else 0 := by
  rw [labelOf, driverLabelCli]
  cases g.getNode x.2 <;> rfl

theorem length_flatMap_labelOf_cli (found : List (EdgeType × NodeId))
    : (found.flatMap (labelOf g symbols driverLabelCli)).length = found.countP fun x =>
        (g.getNode x.2).isSome := by
  induction found with
  | nil => rfl
  | cons x rest ih =>
    rw [List.flatMap_cons, List.length_append, ih, List.countP_cons,
      length_labelOf_cli, Nat.add_comm]

theorem isDriving_of_mem_flatMap (label : SymbolTable → Option GraphNode → Option Text)
    {found : List (EdgeType × NodeId)} (h : ∀ x ∈ found, x.1.isDriving)
    : ∀ x ∈ found.flatMap (labelOf g symbols label), x.1.isDriving := by
  intro x hx
  obtain ⟨y, hy, hx⟩ := List.mem_flatMap.mp hx
  obtain ⟨l, _, rfl⟩ := List.mem_map.mp hx
  exact h y hy

variable (symbols signal)

/--
In a forest, both commands list the sources of all edges into the signal if and only if the walk
notices each of these edges.
-/
theorem listsDrivers_iff (hg : g.Reachable) (hforest : ForestFrom g fileMap)
    : ListsDrivers g symbols fileMap signal
        ↔ ∀ e ∈ g.allEdges, IntoSignal g symbols signal e → Noticed g symbols fileMap signal e := by
  obtain ⟨log, hlog⟩ := hg.logs
  obtain ⟨ids, hids, walked, hwalked, bound, hrun⟩ := hforest.exists_walked symbols signal hlog
  have hdrivers : ∀ label fuel, bound < fuel →
      driversOfFiles g symbols label fileMap signal fuel
        = some (driversAndReaders (walked.flatMap (labelOf g symbols label))) := by
    intro label fuel hfuel
    rw [driversOfFiles_eq, hrun fuel hfuel]
    rfl
  have hdriving : ∀ e, IntoSignal g symbols signal e → e.edgeType.isDriving :=
    fun e h => (Bool.and_eq_true_iff.mp h).1
  let noticed (e : Edge) : Bool :=
    Seen g symbols signal e && e.source ∈ ids && (g.getNode e.source).isSome
  have hnoticed : ∀ e, IntoSignal g symbols signal e →
      (noticed e ↔ Noticed g symbols fileMap signal e) := by
    intro e he
    simp only [noticed, Bool.and_eq_true, decide_eq_true_eq, seen_iff (hdriving e he), hids]
    exact ⟨fun ⟨⟨hmatched, hbelow⟩, hstored⟩ => ⟨hstored, hbelow, hmatched⟩,
      fun ⟨hstored, hbelow, hmatched⟩ => ⟨⟨hmatched, hbelow⟩, hstored⟩⟩
  have hinto : ∀ e, noticed e → IntoSignal g symbols signal e := by
    intro e he
    simp only [noticed, Bool.and_eq_true] at he
    exact intoSignal_of_seen he.1.1
  have hwalkedDriving : ∀ x ∈ walked, x.1.isDriving := by
    intro x hx
    obtain ⟨e, he, rfl⟩ := List.mem_map.mp (hwalked.subset hx)
    exact hdriving e (intoSignal_of_seen (of_decide_eq_true (List.mem_filter.mp he).2).1)
  constructor
  . rintro ⟨found, hfound, bound', hlists⟩
    have hcli := (hlists (max bound bound' + 1) (by omega)).1
    rw [hdrivers _ _ (by omega), Option.some.injEq, labelled] at hcli
    have hfoundDriving : ∀ x ∈ found, x.1.isDriving := by
      intro x hx
      obtain ⟨e, he, rfl⟩ := List.mem_map.mp (hfound.subset hx)
      exact hdriving e (List.mem_filter.mp he).2
    have hlength : (g.allEdges.filter (IntoSignal g symbols signal)).length
        = (g.allEdges.filter noticed).length := by
      calc (g.allEdges.filter (IntoSignal g symbols signal)).length
          = found.length := by rw [hfound.length_eq, signalSources, List.length_map]
        _ = (walked.flatMap (labelOf g symbols driverLabelCli)).length := by
          rw [← length_driversAndReaders (isDriving_of_mem_flatMap _ hwalkedDriving), hcli,
            length_driversAndReaders, List.length_map]
          exact List.forall_mem_map.mpr hfoundDriving
        _ = walked.countP fun x => (g.getNode x.2).isSome := length_flatMap_labelOf_cli walked
        _ = (g.allEdges.filter noticed).length := by
          rw [hwalked.countP_eq, List.countP_map, List.countP_filter, List.countP_eq_length_filter]
          simp only [noticed, Function.comp_def, Bool.decide_and, Bool.decide_eq_true,
            Bool.and_comm]
    have hfilter : g.allEdges.filter noticed
        = (g.allEdges.filter (IntoSignal g symbols signal)).filter noticed := by
      rw [List.filter_filter]
      apply List.filter_congr
      intro e _
      have := hinto e
      cases hn : noticed e <;> simp_all
    rw [hfilter, eq_comm, List.length_filter_eq_length_iff] at hlength
    intro e he hinto
    exact (hnoticed e hinto).mp (hlength e (List.mem_filter.mpr ⟨he, hinto⟩))
  . intro hall
    have hsources : walked ~ signalSources g symbols signal := by
      refine hwalked.trans (.of_eq ?_)
      rw [signalSources]
      congr 1
      apply List.filter_congr
      intro e he
      rw [Bool.eq_iff_iff, decide_eq_true_eq]
      constructor
      . exact fun h => intoSignal_of_seen h.1
      . intro hinto
        have hnoticed := hall e he hinto
        exact ⟨(seen_iff (hdriving e hinto)).mpr hnoticed.matched, (hids _).mpr hnoticed.below⟩
    have hstored : ∀ x ∈ walked, (g.getNode x.2).isSome := by
      intro x hx
      obtain ⟨e, he, rfl⟩ := List.mem_map.mp (hsources.subset hx)
      have ⟨he, hinto⟩ := List.mem_filter.mp he
      exact (hall e he hinto).stored
    refine ⟨walked, hsources, bound, ?_⟩
    intro fuel hfuel
    rw [hdrivers _ _ hfuel, hdrivers _ _ hfuel, flatMap_labelOf_of_stored _ (fun _ => rfl) hstored,
      flatMap_labelOf_of_stored _ (fun _ => rfl) hstored]
    exact ⟨rfl, rfl⟩

end Listed

-- A module with an output port that drives a signal; the port hangs on the module by a `Defines`
-- edge
def portDrivesSignal : InMemoryGraph :=
  run [
    .addNode ⟨1, .sourceFile, none, 0, 0, 0⟩, .addNode ⟨2, .module ⟨1⟩, none, 0, 0, 0⟩,
    .addNode ⟨3, .modulePort ⟨2⟩ .output, none, 0, 0, 0⟩,
    .addNode ⟨4, .signalDecl ⟨0⟩ .wire, none, 0, 0, 0⟩,
    .addEdge ⟨1, 2, .contains⟩, .addEdge ⟨2, 3, .defines⟩, .addEdge ⟨2, 4, .contains⟩,
    .addEdge ⟨3, 4, .drives⟩] new

def portSymbols : SymbolTable :=
  let (_, symbols) := SymbolTable.new.intern "s".toList
  let (_, symbols) := symbols.intern "m".toList
  (symbols.intern "p".toList).2

theorem forestFrom_port : ForestFrom portDrivesSignal [("m.sv".toList, 1)] where
  roots := by decide
  entered := by decide +kernel
  rootNotEntered := by decide +kernel

theorem listsDrivers_iff_port
    : ListsDrivers portDrivesSignal portSymbols [("m.sv".toList, 1)] "s".toList
        ↔ ∀ e ∈ portDrivesSignal.allEdges, IntoSignal portDrivesSignal portSymbols "s".toList e →
          Noticed portDrivesSignal portSymbols [("m.sv".toList, 1)] "s".toList e :=
  listsDrivers_iff _ _ ⟨_, rfl⟩ forestFrom_port

theorem not_listsDrivers_port
    : portDrivesSignal.Reachable ∧ ForestFrom portDrivesSignal [("m.sv".toList, 1)]
      ∧ ¬ListsDrivers portDrivesSignal portSymbols [("m.sv".toList, 1)] "s".toList := by
  refine ⟨⟨_, rfl⟩, forestFrom_port, ?_⟩
  rintro ⟨found, hfound, bound, hlists⟩
  have hcli := (hlists (bound + 3) (by omega)).1
  have hwalk : Walk.collect
      (Walk.run (portDrivesSignal.driverSteps portSymbols driverLabelCli "s".toList) 3 0)
      ((driverStarts portDrivesSignal [("m.sv".toList, 1)]).map fun target => ⟨[], some target⟩)
      = some [] := by
    decide +kernel
  have hsources : signalSources portDrivesSignal portSymbols "s".toList = [(.drives, 3)] := by
    decide +kernel
  rw [driversOfFiles, Walk.collect_of_le (by omega) hwalk, Option.map_some, Option.some.injEq]
    at hcli
  rw [hsources, List.perm_singleton] at hfound
  have hdrivers := congrArg (fun lists => lists.1.length) hcli
  rw [hfound] at hdrivers
  revert hdrivers
  decide +kernel

end InMemoryGraph
end HdlGraph
