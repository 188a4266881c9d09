import HdlGraph.Library.Bfs
import HdlGraph.Core.Helpers
import HdlGraph.Storage.Contents

/-!
This module contains the impact analysis of the command line: what a change of a symbol reaches in
at most three steps.
-/

namespace HdlGraph

open scoped List

-- A listed node stands beside its depth and the line that is printed for it
abbrev ImpactSearch := Bfs.Search NodeId Text

variable (g : InMemoryGraph) (symbols : SymbolTable)

-- `nodes` is `all_nodes()`, in the order in which the map happens to give them
def impactTargets (nodes : List GraphNode) (symbol : Text) : List NodeId :=
  (nodes.filter fun n => nodeNameFromKind n.kind symbols = some symbol).map (·.id)

def impactLine (node : GraphNode) (via : EdgeType) : Text :=
  let name := (nodeNameFromKind node.kind symbols).getD (idLabel node.id)
  "  - ".toList ++ nodeKindStr node.kind ++ " `".toList ++ name ++ "` (via ".toList
    ++ via.name ++ ")".toList

def impactIncoming (targetSet : List NodeId) (depth : Nat) :
    ImpactSearch × List (NodeId × Nat) → Edge → ImpactSearch × List (NodeId × Nat)
  | (s, queue), edge =>
    if !isImpactEdge edge.edgeType then
      (s, queue)
    else if edge.source ∈ s.visited then
      (s, queue)
    else
      let s := { s with visited := s.visited ++ [edge.source] }
      match g.getNode edge.source with
      | some src =>
        let line := impactLine symbols src edge.edgeType
        let s :=
          if src.id ∈ targetSet then s
            else { s with found := s.found ++ [(edge.source, depth + 1, line)] }
        (s, queue ++ [(edge.source, depth + 1)])
      | none => (s, queue)

def impactOutgoing (depth : Nat) :
    ImpactSearch × List (NodeId × Nat) → Edge → ImpactSearch × List (NodeId × Nat)
  | (s, queue), edge =>
    if !edge.edgeType.leavesSignal then
      (s, queue)
    else if edge.target ∈ s.visited then
      (s, queue)
    else
      let s := { s with visited := s.visited ++ [edge.target] }
      match g.getNode edge.target with
      | some tgt =>
        let line := impactLine symbols tgt edge.edgeType
        ({ s with found := s.found ++ [(edge.target, depth + 1, line)] },
          queue ++ [(edge.target, depth + 1)])
      | none => (s, queue)

def impactVisit (targetSet : List NodeId) (s : ImpactSearch)
    : NodeId × Nat → ImpactSearch × List (NodeId × Nat)
  | (nodeId, depth) =>
    if depth ≥ 3 then
      (s, [])
    else
      let (s, queue) :=
        (g.getIncoming nodeId).foldl (impactIncoming g symbols targetSet depth) (s, [])
      -- For signals, also follow outgoing drives/connects
      match g.getNode nodeId with
      | some node =>
        if node.kind.isSignalDecl then
          (g.getOutgoing nodeId).foldl (impactOutgoing g symbols depth) (s, queue)
        else
          (s, queue)
      | none => (s, queue)

def impactResults (fuel : Nat) (targets : List NodeId) : Option (List (NodeId × Nat × Text)) :=
  let queue := targets.map fun id => (id, 0)
  (Worklist.run Worklist.queue (impactVisit g symbols targets) fuel queue ⟨targets, []⟩).map
  (·.found)

def impactItems (results : List (NodeId × Nat × Text)) (depth : Nat) : List (NodeId × Nat × Text) :=
  results.filter fun r => r.2.1 = depth

def println (s : Text) : Text := s ++ ['\n']

def impactGroup (results : List (NodeId × Nat × Text)) (depth : Nat) : Text :=
  let items := impactItems results depth
  if items.isEmpty then
    []
  else
    let heading := if depth = 1 then "Direct impact (depth 1)".toList else "Transitive".toList
    println ("\n## ".toList ++ heading ++ " (depth ".toList ++ (Nat.repr depth).toList
      ++ ")".toList)
      ++ items.flatMap fun r => println r.2.2

def printImpact (symbol : Text) (results : List (NodeId × Nat × Text)) : Text :=
  if results.isEmpty then
    println ("No downstream impact found for: ".toList ++ symbol)
  else
    println ("Impact analysis for '".toList ++ symbol ++ "':".toList)
      ++ [1, 2, 3].flatMap (impactGroup results)
      ++ println ("\nTotal affected nodes: ".toList ++ (Nat.repr results.length).toList)

def cmdImpact (fuel : Nat) (nodes : List GraphNode) (symbol : Text) : Option Text :=
  let targets := impactTargets symbols nodes symbol
  if targets.isEmpty then
    some (println ("Symbol not found: ".toList ++ symbol))
  else
    (impactResults g symbols fuel targets).map (printImpact symbol)

/-! ## Exactness -/

def Stored (id : NodeId) : Prop := ∃ node, g.getNode id = some node

def ImpactNeighbour (u v : NodeId) : Prop :=
  (∃ e ∈ g.allEdges, isImpactEdge e.edgeType = true ∧ e.source = v ∧ e.target = u)
    ∨ (∃ node, g.getNode u = some node ∧ node.kind.isSignalDecl = true)
      ∧ ∃ e ∈ g.allEdges, e.edgeType.leavesSignal = true ∧ e.source = u ∧ e.target = v

def ImpactStep (u v : NodeId) : Prop := ImpactNeighbour g u v ∧ Stored g v

variable {g symbols}

theorem InMemoryGraph.Reachable.mem_getIncoming (h : g.Reachable) {id : NodeId} {e : Edge}
    : e ∈ g.getIncoming id ↔ e ∈ g.allEdges ∧ e.target = id := by
  obtain ⟨log, hlog⟩ := h.logs
  rw [hlog.mem_getIncoming, hlog.perm_allEdges.mem_iff]

theorem InMemoryGraph.Reachable.mem_getOutgoing (h : g.Reachable) {id : NodeId} {e : Edge}
    : e ∈ g.getOutgoing id ↔ e ∈ g.allEdges ∧ e.source = id := by
  obtain ⟨log, hlog⟩ := h.logs
  rw [hlog.mem_getOutgoing, hlog.perm_allEdges.mem_iff]

theorem grows_candidate {present : NodeId → Prop} {d : Nat} {C : NodeId → Prop}
    {s s' : ImpactSearch} {more : List (NodeId × Nat)} {v : NodeId} (hC : ∀ w, C w ↔ w = v)
    (hseen : v ∈ s.visited → s' = s ∧ more = [])
    (hstored : v ∉ s.visited → present v →
      ∃ line, s' = ⟨s.visited ++ [v], s.found ++ [(v, d + 1, line)]⟩ ∧ more = [(v, d + 1)])
    (habsent : v ∉ s.visited → ¬present v → s' = ⟨s.visited ++ [v], s.found⟩ ∧ more = [])
    : Bfs.Grows present d C s s' more := by
  by_cases hv : v ∈ s.visited
  . obtain ⟨rfl, rfl⟩ := hseen hv
    exact {
      visited := by grind
      found := ⟨[], by simp, rfl, List.nodup_nil, by simp, by grind⟩
    }
  . by_cases hp : present v
    . obtain ⟨line, rfl, rfl⟩ := hstored hv hp
      exact {
        visited := by grind
        found := ⟨[(v, d + 1, line)], rfl, rfl, by simp, by simp, by grind⟩
      }
    . obtain ⟨rfl, rfl⟩ := habsent hv hp
      exact {
        visited := by grind
        found := ⟨[], by simp, rfl, List.nodup_nil, by simp, by grind⟩
      }

variable (symbols) in
theorem impactIncoming_grows (hkeyed : g.Keyed) (targets : List NodeId) (d : Nat) (s : ImpactSearch)
    (more : List (NodeId × Nat)) (e : Edge) (hs : ∀ v ∈ targets, v ∈ s.visited)
    : ∃ s' new, impactIncoming g symbols targets d (s, more) e = (s', more ++ new)
        ∧ Bfs.Grows (Stored g) d (fun v => isImpactEdge e.edgeType = true ∧ e.source = v)
          s s' new := by
  by_cases himpact : isImpactEdge e.edgeType = true
  . by_cases hseen : e.source ∈ s.visited
    . refine ⟨s, [], by simp [impactIncoming, himpact, hseen], ?_⟩
      apply grows_candidate (v := e.source) <;> grind
    . cases hnode : g.getNode e.source with
      | none =>
        refine ⟨_, [], by simp [impactIncoming, himpact, hseen, hnode]; rfl, ?_⟩
        apply grows_candidate (v := e.source) <;> grind [Stored]
      | some src =>
        have hid : src.id = e.source := hkeyed _ _ hnode
        have hnot : src.id ∉ targets := fun hmem => hseen (hid ▸ hs _ hmem)
        refine ⟨_, _, by simp [impactIncoming, himpact, hseen, hnode, hnot]; exact ⟨rfl, rfl⟩, ?_⟩
        apply grows_candidate (v := e.source) <;> grind [Stored]
  . exact ⟨s, [], by simp [impactIncoming, himpact], .refl s (by grind)⟩

variable (symbols) in
theorem impactOutgoing_grows (d : Nat) (s : ImpactSearch) (more : List (NodeId × Nat)) (e : Edge)
    : ∃ s' new, impactOutgoing g symbols d (s, more) e = (s', more ++ new)
        ∧ Bfs.Grows (Stored g) d (fun v => e.edgeType.leavesSignal = true ∧ e.target = v)
          s s' new := by
  by_cases hleaves : e.edgeType.leavesSignal = true
  . by_cases hseen : e.target ∈ s.visited
    . refine ⟨s, [], by simp [impactOutgoing, hleaves, hseen], ?_⟩
      apply grows_candidate (v := e.target) <;> grind
    . cases hnode : g.getNode e.target with
      | none =>
        refine ⟨_, [], by simp [impactOutgoing, hleaves, hseen, hnode]; rfl, ?_⟩
        apply grows_candidate (v := e.target) <;> grind [Stored]
      | some tgt =>
        refine ⟨_, _, by simp [impactOutgoing, hleaves, hseen, hnode]; exact ⟨rfl, rfl⟩, ?_⟩
        apply grows_candidate (v := e.target) <;> grind [Stored]
  . exact ⟨s, [], by simp [impactOutgoing, hleaves], .refl s (by grind)⟩

theorem impactVisit_grows (h : g.Reachable) (targets : List NodeId) (s : ImpactSearch) (u : NodeId)
    (d : Nat) (hd : d < 3) (hs : ∀ v ∈ targets, v ∈ s.visited)
    : Bfs.Grows (Stored g) d (ImpactNeighbour g u) s (impactVisit g symbols targets s (u, d)).1
        (impactVisit g symbols targets s (u, d)).2 := by
  obtain ⟨s', new, hin, hgrows⟩ := Bfs.grows_foldl (impactIncoming_grows symbols h.keyed targets d)
    (g.getIncoming u) [] hs
  have hnot : ¬d ≥ 3 := by omega
  rw [List.nil_append] at hin
  by_cases hsignal : ∃ node, g.getNode u = some node ∧ node.kind.isSignalDecl = true
  . obtain ⟨node, hnode, hkind⟩ := hsignal
    obtain ⟨s'', new', hout, hgrows'⟩ := Bfs.grows_foldl
      (fun s more e _ => impactOutgoing_grows symbols d s more e) (g.getOutgoing u) new
      fun v hv => hgrows.mem_visited (hs v hv)
    have hvisit : impactVisit g symbols targets s (u, d) = (s'', new ++ new') := by
      simp only [impactVisit, hnot, if_false, hin, hnode, hkind, if_true]
      exact hout
    rw [hvisit]
    apply (hgrows.trans hgrows').congr
    intro v
    simp only [ImpactNeighbour, h.mem_getIncoming, h.mem_getOutgoing]
    grind
  . have hvisit : impactVisit g symbols targets s (u, d) = (s', new) := by
      simp only [impactVisit, hnot, if_false, hin]
      cases hnode : g.getNode u with
      | none => rfl
      | some node =>
        have hkind : ¬node.kind.isSignalDecl = true := fun hkind => hsignal ⟨node, hnode, hkind⟩
        exact if_neg hkind
    rw [hvisit]
    apply hgrows.congr
    intro v
    simp only [ImpactNeighbour, h.mem_getIncoming]
    grind

variable (symbols) in
theorem impactVisit_isVisit (h : g.Reachable) (targets : List NodeId)
    : Bfs.IsVisit targets (Stored g) (ImpactNeighbour g) 3 (impactVisit g symbols targets) where
  grows s u d hd hs := impactVisit_grows h targets s u d hd hs
  stops _ _ _ hd := if_pos hd

variable (g symbols) in
def ImpactLines (results : List (NodeId × Nat × Text)) : Prop :=
  ∀ x ∈ results, ∃ node via, g.getNode x.1 = some node ∧ x.2.2 = impactLine symbols node via

theorem ImpactLines.append {results : List (NodeId × Nat × Text)}
    (h : ImpactLines g symbols results) {id : NodeId} {node : GraphNode}
    (hnode : g.getNode id = some node) (depth : Nat) (via : EdgeType)
    : ImpactLines g symbols (results ++ [(id, depth, impactLine symbols node via)]) := by
  intro x hx
  cases List.mem_append.mp hx with
  | inl hx => exact h x hx
  | inr hx =>
    rw [List.mem_singleton] at hx
    subst hx
    exact ⟨node, via, hnode, rfl⟩

theorem impactIncoming_lines {targets : List NodeId} {d : Nat}
    {acc : ImpactSearch × List (NodeId × Nat)} (e : Edge) (h : ImpactLines g symbols acc.1.found)
    : ImpactLines g symbols (impactIncoming g symbols targets d acc e).1.found := by
  obtain ⟨s, queue⟩ := acc
  unfold impactIncoming
  dsimp only
  split
  . exact h
  . split
    . exact h
    . split
      . next src hsrc =>
        split
        . exact h
        . exact h.append hsrc _ _
      . exact h

theorem impactOutgoing_lines {d : Nat} {acc : ImpactSearch × List (NodeId × Nat)} (e : Edge)
    (h : ImpactLines g symbols acc.1.found)
    : ImpactLines g symbols (impactOutgoing g symbols d acc e).1.found := by
  obtain ⟨s, queue⟩ := acc
  unfold impactOutgoing
  dsimp only
  split
  . exact h
  . split
    . exact h
    . split
      . next tgt htgt => exact h.append htgt _ _
      . exact h

theorem impactVisit_lines {targets : List NodeId} {s : ImpactSearch} (item : NodeId × Nat)
    (h : ImpactLines g symbols s.found)
    : ImpactLines g symbols (impactVisit g symbols targets s item).1.found := by
  obtain ⟨u, d⟩ := item
  have hin : ImpactLines g symbols
      ((g.getIncoming u).foldl (impactIncoming g symbols targets d) (s, [])).1.found :=
    List.foldlRecOn (motive := fun acc : ImpactSearch × List (NodeId × Nat) =>
      ImpactLines g symbols acc.1.found) _ _
      h fun _ hacc e _ => impactIncoming_lines e hacc
  unfold impactVisit
  dsimp only
  split
  . exact h
  . split
    . split
      . exact List.foldlRecOn
          (motive := fun acc : ImpactSearch × List (NodeId × Nat) =>
            ImpactLines g symbols acc.1.found) _ _ hin
          fun _ hacc e _ => impactOutgoing_lines e hacc
      . exact hin
    . exact hin

variable (g symbols) in
structure ListsImpact (targets : List NodeId) (results : List (NodeId × Nat × Text)) : Prop where
  exact : Bfs.Exact targets (ImpactStep g) 3 results
  lines : ImpactLines g symbols results
  -- Every result is printed, under the heading of its depth
  printed : [1, 2, 3].flatMap (impactItems results) ~ results

theorem impactItems_perm {results : List (NodeId × Nat × Text)}
    (h : ∀ x ∈ results, 0 < x.2.1 ∧ x.2.1 ≤ 3)
    : [1, 2, 3].flatMap (impactItems results) ~ results := by
  induction results with
  | nil => rfl
  | cons x rest ih =>
    have hrest := ih fun y hy => h y (List.mem_cons_of_mem _ hy)
    have hx := h x List.mem_cons_self
    simp only [impactItems, List.flatMap_cons, List.flatMap_nil, List.append_nil, List.filter_cons,
      decide_eq_true_eq]
      at *
    obtain hd | hd | hd : x.2.1 = 1 ∨ x.2.1 = 2 ∨ x.2.1 = 3 := by omega
    . simpa [hd] using hrest
    . simp only [hd]
      simpa using List.perm_middle.trans (hrest.cons x)
    . simp only [hd]
      rw [← List.append_assoc] at hrest
      simpa using List.perm_middle.trans (hrest.cons x)

theorem mem_impactTargets (h : g.Keyed) {nodes : List GraphNode} (hnodes : nodes ~ g.allNodes)
    {symbol : Text} {id : NodeId}
    : id ∈ impactTargets symbols nodes symbol
        ↔
      ∃ node, g.getNode id = some node ∧ nodeNameFromKind node.kind symbols = some symbol := by
  simp only [impactTargets, List.mem_map, List.mem_filter, decide_eq_true_eq, h.getNode_eq_some_iff,
    hnodes.mem_iff]
  grind

variable (symbols) in
theorem impactResults_exact (h : g.Reachable) (targets : List NodeId)
    : ∃ results bound, ListsImpact g symbols targets results
        ∧ ∀ fuel, bound ≤ fuel → impactResults g symbols fuel targets = some results := by
  obtain ⟨s, bound, hexact, hrun⟩ := Bfs.run_exact (impactVisit_isVisit symbols h targets)
  have hlines : ImpactLines g symbols s.found := by
    apply Worklist.run_induction (P := fun _ s => ImpactLines g symbols s.found) _
      (hrun bound (Nat.le_refl _))
    . simp [ImpactLines]
    . intro item _ s hs
      exact impactVisit_lines item hs
  have hdepth : ∀ x ∈ s.found, 0 < x.2.1 ∧ x.2.1 ≤ 3 := by
    rintro ⟨v, d, line⟩ hx
    have hat := (hexact.mem_iff v d).mp ⟨line, hx⟩
    exact ⟨hat.1, hat.2.1⟩
  refine ⟨s.found, bound, ⟨hexact, hlines, impactItems_perm hdepth⟩, ?_⟩
  intro fuel hfuel
  rw [impactResults, hrun fuel hfuel]
  rfl

def feedbackOps : List GraphOp := [
  .addNode
    { id := 1, kind := .signalDecl ⟨0⟩ .wire, scopeId := none, fileId := 1, line := 1, col := 0 },
  .addNode
    { id := 2, kind := .signalDecl ⟨1⟩ .wire, scopeId := none, fileId := 1, line := 2, col := 0 },
  .addEdge { source := 1, target := 2, edgeType := .drives },
  .addEdge { source := 2, target := 1, edgeType := .drives }
]

def feedbackSymbols : SymbolTable := ((SymbolTable.new.intern "a".toList).2.intern "b".toList).2

end HdlGraph
