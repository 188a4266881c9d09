import HdlGraph.Frontend.Impact

/-!
This module contains the impact analysis of the tool server, which is a second loop beside that of
the command line, and compares the two.
-/

namespace HdlGraph

open scoped List

namespace ImpactTool

variable (g : InMemoryGraph) (symbols : SymbolTable)

def nodeNameStr : NodeKind InternedString → Option Text
  | .module name | .class name _ | .package name | .interface name | .function name
      _ | .signalDecl name _
  | .modulePort name _ | .moduleInstance name _ | .property name | .variableRef
      name | .callSite name
  | .method name _ | .tlmPort name _ | .parameter name | .modport name | .dpiImport
      name | .configDBSet name
  | .configDBGet name => symbols.resolve name
  | .factoryReg typeName _ => symbols.resolve typeName
  | .factoryCreate typeName => symbols.resolve typeName
  | .factoryOverride originalType _ => symbols.resolve originalType
  | _ => none

def isImpactEdge : EdgeType → Bool
  | .references | .drives | .calls | .connects | .instantiates | .extends | .overrides
  | .factoryRegisters | .factoryOverrides | .tlmBinds | .configSets | .configGets
  | .contains => true
  | _ => false

def formatImpactNode (node : GraphNode) (via : EdgeType) : Text :=
  let kind :=
    match node.kind with
    | .module .. => "module".toList
    | .class .. => "class".toList
    | .function .. => "function".toList
    | .signalDecl .. => "signal".toList
    | .modulePort .. => "port".toList
    | .moduleInstance .. => "instance".toList
    | .alwaysBlock .. => "always".toList
    | .assignment => "assign".toList
    | .callSite .. => "call_site".toList
    | .factoryOverride .. => "factory_override".toList
    | _ => "node".toList
  let name := (nodeNameStr symbols node.kind).getD (idLabel node.id)
  kind ++ " `".toList ++ name ++ "` (via ".toList ++ via.name ++ ")".toList

def targetIds (nodes : List GraphNode) (symbol : Text) : List NodeId :=
  (nodes.filter fun n => nodeNameStr symbols n.kind = some symbol).map (·.id)

-- What depends on the node is listed with the depth of the node itself
def incoming (depth : Nat) : ImpactSearch × List (NodeId × Nat) → Edge →
    ImpactSearch × List (NodeId × Nat)
  | (s, queue), edge =>
    if !isImpactEdge edge.edgeType then
      (s, queue)
    else
      match g.getNode edge.source with
      | some source =>
        if source.id ∈ s.visited then
          (s, queue)
        else
          let label := formatImpactNode symbols source edge.edgeType
          let s :=
            { visited := s.visited ++ [source.id], found := s.found ++ [(source.id, depth, label)] }
          (s, queue ++ [(source.id, depth + 1)])
      | none => (s, queue)

def outgoing (depth : Nat) (s : ImpactSearch) (edge : Edge) : ImpactSearch :=
  if edge.edgeType.leavesSignal then
    match g.getNode edge.target with
    | some target =>
      if target.id ∈ s.visited then
        s
      else
        let label := formatImpactNode symbols target edge.edgeType
        { visited := s.visited ++ [target.id], found := s.found ++ [(target.id, depth + 1, label)] }
    | none => s
  else
    s

def visit (s : ImpactSearch) : NodeId × Nat → ImpactSearch × List (NodeId × Nat)
  | (nodeId, depth) =>
    if depth > 3 then
      (s, [])
    else
      let (s, queue) := (g.getIncoming nodeId).foldl (incoming g symbols depth) (s, [])
      match g.getNode nodeId with
      | some node =>
        if node.kind.isSignalDecl then
          ((g.getOutgoing nodeId).foldl (outgoing g symbols depth) s, queue)
        else
          (s, queue)
      | none => (s, queue)

def impacts (fuel : Nat) (targets : List NodeId) : Option (List (NodeId × Nat × Text)) :=
  let queue := targets.map fun id => (id, 0)
  (Worklist.run Worklist.queue (visit g symbols) fuel queue ⟨targets, []⟩).map (·.found)

def depthLabel (depth : Nat) : Text :=
  let depthLabels :=
    ["Direct impact (depth 1)".toList, "Transitive (depth 2)".toList, "Transitive (depth 3)".toList]
  depthLabels[depth - 1]?.getD "Transitive".toList

def printGroups (currentDepth : Nat) : List (NodeId × Nat × Text) → Text
  | [] => []
  | (_, depth, label) :: rest =>
    let heading :=
      if depth ≠ currentDepth then "## ".toList ++ depthLabel depth ++ "\n\n".toList else []
    heading ++ "  - ".toList ++ label ++ "\n".toList ++ printGroups depth rest

def report (symbol : Text) (impacts : List (NodeId × Nat × Text)) : Text :=
  if impacts.isEmpty then
    "No downstream impact found for: ".toList ++ symbol
  else
    "Impact analysis for '".toList ++ symbol ++ "':\n\n".toList
      ++ printGroups 0 (impacts.mergeSort fun a b => a.2.1 ≤ b.2.1)
      ++ "\nTotal affected nodes: ".toList ++ (Nat.repr impacts.length).toList ++ "\n".toList

def run (fuel : Nat) (nodes : List GraphNode) (symbol : Text) : Option Text :=
  let targets := targetIds symbols nodes symbol
  if targets.isEmpty then
    some ("Symbol not found: ".toList ++ symbol)
  else
    (impacts g symbols fuel targets).map (report symbol)

/-! ## Comparison with the command line -/

def BothName (symbol : Text) : Prop :=
  ∀ node ∈ g.allNodes, nodeNameFromKind node.kind symbols = some symbol →
    (nodeNameStr symbols node.kind).isSome = true

instance (symbol : Text) : Decidable (BothName g symbols symbol) :=
  inferInstanceAs (Decidable (∀ node ∈ g.allNodes, _ → _))

def SameImpact (nodes : List GraphNode) (symbol : Text) : Prop :=
  ∃ listed impacted bound,
    (∀ fuel, bound ≤ fuel →
      impactResults g symbols fuel (impactTargets symbols nodes symbol) = some listed
      ∧ impacts g symbols fuel (targetIds symbols nodes symbol) = some impacted)
    ∧ ∀ v d, (∃ label, (v, d, label) ∈ impacted) ↔ ∃ line, (v, d, line) ∈ listed

/-- Nothing depends on the targets, and what they drive is all there is within two steps. -/
structure DrivesOnly (targets : List NodeId) : Prop where
  no_dependent : ∀ e ∈ g.allEdges, isImpactEdge e.edgeType = true → e.target ∈ targets →
    Stored g e.source →
    e.source ∈ targets
  one_step : ∀ t ∈ targets, ∀ u v, ImpactStep g t u → ImpactStep g u v →
    v ∈ targets ∨ ∃ t ∈ targets, ImpactStep g t v

variable {g symbols}

theorem isImpactEdge_eq (et : EdgeType) : isImpactEdge et = HdlGraph.isImpactEdge et := by
  cases et <;> rfl

theorem nodeNameFromKind_of_nodeNameStr {kind : NodeKind InternedString} {name : Text}
    (h : nodeNameStr symbols kind = some name)
    : nodeNameFromKind kind symbols = some name := by
  cases kind
  all_goals first
    | exact h
    | simp [nodeNameStr] at h

theorem targetIds_eq {nodes : List GraphNode} (hnodes : nodes ~ g.allNodes) {symbol : Text}
    (hnamed : BothName g symbols symbol)
    : targetIds symbols nodes symbol = impactTargets symbols nodes symbol := by
  unfold targetIds impactTargets
  congr 1
  apply List.filter_congr
  intro node hnode
  rw [decide_eq_decide]
  constructor
  . exact nodeNameFromKind_of_nodeNameStr
  . intro hname
    obtain ⟨name, hstr⟩ := Option.isSome_iff_exists.mp (hnamed node (hnodes.mem_iff.mp hnode) hname)
    rw [hstr, ← nodeNameFromKind_of_nodeNameStr hstr, hname]

structure Discovers (d : Nat) (C : NodeId → Prop) (s s' : ImpactSearch) : Prop where
  visited : ∀ v, v ∈ s'.visited ↔ v ∈ s.visited ∨ C v
  found : ∀ v n, (∃ label, (v, n, label) ∈ s'.found)
    ↔ (∃ label, (v, n, label) ∈ s.found) ∨ n = d ∧ v ∉ s.visited ∧ C v

namespace Discovers

variable {d : Nat} {C C' : NodeId → Prop} {s s' s'' : ImpactSearch}

theorem refl (s : ImpactSearch) (h : ∀ v, C v → v ∈ s.visited) : Discovers d C s s where
  visited := by grind
  found := by grind

theorem trans (h : Discovers d C s s') (h' : Discovers d C' s' s'')
    : Discovers d (fun v => C v ∨ C' v) s s'' where
  visited v := by
    rw [h'.visited, h.visited]
    grind
  found v n := by
    rw [h'.found, h.found, h.visited]
    grind

theorem congr (h : Discovers d C s s') (hC : ∀ v, C v ∨ v ∈ s.visited ↔ C' v ∨ v ∈ s.visited)
    : Discovers d C' s s' where
  visited v := by
    rw [h.visited]
    grind
  found v n := by
    rw [h.found]
    grind

theorem one {v : NodeId} {label : Text} (hv : v ∉ s.visited)
    : Discovers d (fun w => w = v) s ⟨s.visited ++ [v], s.found ++ [(v, d, label)]⟩ where
  visited := by grind
  found := by grind

theorem found_of_mem (h : Discovers d C s s') {v : NodeId} {n : Nat}
    (hfound : ∃ label, (v, n, label) ∈ s.found)
    : ∃ label, (v, n, label) ∈ s'.found :=
  (h.found v n).mpr (Or.inl hfound)

theorem foldl {γ : Type*} {step : ImpactSearch → γ → ImpactSearch} {C : γ → NodeId → Prop}
    (hstep : ∀ s c, Discovers d (C c) s (step s c)) (candidates : List γ) (s : ImpactSearch)
    : Discovers d (fun v => ∃ c ∈ candidates, C c v) s (candidates.foldl step s) := by
  induction candidates generalizing s with
  | nil => exact .refl s (by simp)
  | cons c rest ih => exact ((hstep s c).trans (ih (step s c))).congr (by simp)

end Discovers

variable (symbols) in
theorem outgoing_discovers (h : g.Keyed) (d : Nat) (s : ImpactSearch) (e : Edge)
    : Discovers (d + 1) (fun v => e.edgeType.leavesSignal = true ∧ e.target = v ∧ Stored g v) s
        (outgoing g symbols d s e) := by
  unfold outgoing
  split
  . split
    . next target htarget =>
      have hid : target.id = e.target := h _ _ htarget
      rw [hid]
      split
      . exact .refl s (by grind)
      . next hseen => exact (Discovers.one hseen).congr (by grind [Stored])
    . exact .refl s (by grind [Stored])
  . exact .refl s (by grind)

theorem incoming_discovers (h : g.Keyed) (d : Nat)
    (acc : ImpactSearch × List (NodeId × Nat)) (e : Edge)
    : Discovers d (fun v => isImpactEdge e.edgeType = true ∧ e.source = v ∧ Stored g v) acc.1
        (incoming g symbols d acc e).1 := by
  obtain ⟨s, queue⟩ := acc
  unfold incoming
  dsimp only
  split
  . exact .refl s (by grind)
  . split
    . next source hsource =>
      have hid : source.id = e.source := h _ _ hsource
      rw [hid]
      split
      . exact .refl s (by grind)
      . next hseen => exact (Discovers.one hseen).congr (by grind [Stored])
    . exact .refl s (by grind [Stored])

variable (symbols) in
theorem foldl_incoming_discovers (h : g.Keyed) (d : Nat) (edges : List Edge)
    (acc : ImpactSearch × List (NodeId × Nat))
    : Discovers d (fun v => ∃ e ∈ edges, isImpactEdge e.edgeType = true ∧ e.source = v ∧ Stored g v)
        acc.1
        (edges.foldl (incoming g symbols d) acc).1 := by
  induction edges generalizing acc with
  | nil => exact .refl acc.1 (by simp)
  | cons e rest ih =>
    exact ((incoming_discovers h d acc e).trans (ih (incoming g symbols d acc e))).congr (by simp)

theorem visit_found_of_mem (h : g.Keyed) {s : ImpactSearch} {v : NodeId} {n : Nat}
    (item : NodeId × Nat) (hfound : ∃ label, (v, n, label) ∈ s.found)
    : ∃ label, (v, n, label) ∈ (visit g symbols s item).1.found := by
  obtain ⟨u, d⟩ := item
  have hin := (foldl_incoming_discovers symbols h d (g.getIncoming u) (s, [])).found_of_mem hfound
  unfold visit
  dsimp only
  split
  . exact hfound
  . split
    . split
      . exact (Discovers.foldl (outgoing_discovers symbols h d) _ _).found_of_mem hin
      . exact hin
    . exact hin

theorem dependent_found_at_zero (h : g.Reachable) {t : NodeId} {rest : List NodeId} {e : Edge}
    (he : e ∈ g.allEdges) (himpact : isImpactEdge e.edgeType = true) (htarget : e.target = t)
    (hstored : Stored g e.source) (hnew : e.source ∉ t :: rest) {fuel : Nat}
    {impacted : List (NodeId × Nat × Text)}
    (hrun : impacts g symbols (fuel + 1) (t :: rest) = some impacted)
    : ∃ label, (e.source, 0, label) ∈ impacted := by
  rw [impacts, Option.map_eq_some_iff] at hrun
  obtain ⟨s, hrun, rfl⟩ := hrun
  rw [List.map_cons, Worklist.run_cons] at hrun
  refine Worklist.run_induction (P := fun _ s => ∃ label, (e.source, 0, label) ∈ s.found) ?_ hrun ?_
  . intro item _ s hs
    exact visit_found_of_mem h.keyed item hs
  . have hin : ∃ label, (e.source, 0, label)
        ∈ ((g.getIncoming t).foldl (incoming g symbols 0) (⟨t :: rest, []⟩, [])).1.found := by
      rw [(foldl_incoming_discovers symbols h.keyed 0 (g.getIncoming t)
        (⟨t :: rest, []⟩, [])).found]
      exact Or.inr ⟨rfl, hnew, e, h.mem_getIncoming.mpr ⟨he, htarget⟩, himpact, rfl, hstored⟩
    unfold visit
    dsimp only
    rw [if_neg (by omega)]
    split
    . split
      . exact (Discovers.foldl (outgoing_discovers symbols h.keyed 0) _ _).found_of_mem hin
      . exact hin
    . exact hin

theorem foldl_incoming_of_seen (h : g.Keyed) {d : Nat} {s : ImpactSearch}
    {queue : List (NodeId × Nat)} {edges : List Edge}
    (hseen : ∀ e ∈ edges, isImpactEdge e.edgeType = true → Stored g e.source → e.source ∈ s.visited)
    : edges.foldl (incoming g symbols d) (s, queue) = (s, queue) := by
  induction edges with
  | nil => rfl
  | cons e rest ih =>
    have hstep : incoming g symbols d (s, queue) e = (s, queue) := by
      unfold incoming
      dsimp only
      split
      . rfl
      . next himpact =>
        split
        . next source hsource =>
          have hid : source.id = e.source := h _ _ hsource
          rw [if_pos (hid ▸ hseen e List.mem_cons_self (by simpa using himpact) ⟨source, hsource⟩)]
        . rfl
    rw [List.foldl_cons, hstep]
    exact ih fun e he => hseen e (List.mem_cons_of_mem _ he)

section

variable {targets : List NodeId}
variable (hdep : ∀ e ∈ g.allEdges, isImpactEdge e.edgeType = true → e.target ∈ targets →
    Stored g e.source →
  e.source ∈ targets)

include hdep

variable (symbols) in
theorem visit_target (h : g.Reachable) {t : NodeId} (ht : t ∈ targets) {s : ImpactSearch}
    (hs : ∀ v ∈ targets, v ∈ s.visited)
    : (visit g symbols s (t, 0)).2 = []
        ∧ Discovers 1 (ImpactStep g t) s (visit g symbols s (t, 0)).1 := by
  have hin : (g.getIncoming t).foldl (incoming g symbols 0) (s, []) = (s, []) := by
    apply foldl_incoming_of_seen h.keyed
    intro e he himpact hstored
    obtain ⟨he, htarget⟩ := h.mem_getIncoming.mp he
    exact hs _ (hdep e he himpact (htarget ▸ ht) hstored)
  have hback : ∀ e ∈ g.allEdges, HdlGraph.isImpactEdge e.edgeType = true → e.target = t →
      Stored g e.source →
      e.source ∈ s.visited := by
    intro e he himpact htarget hstored
    exact hs _ (hdep e he (isImpactEdge_eq _ ▸ himpact) (htarget ▸ ht) hstored)
  have hout := Discovers.foldl (outgoing_discovers symbols h.keyed 0) (g.getOutgoing t) s
  unfold visit
  dsimp only
  rw [if_neg (by omega), hin]
  dsimp only
  split
  . next node hnode =>
    split
    . next hkind =>
      refine ⟨rfl, hout.congr fun v => ⟨?_, ?_⟩⟩
      . rintro (⟨e, he, hleaves, htarget, hstored⟩ | hv)
        . obtain ⟨he, hsource⟩ := h.mem_getOutgoing.mp he
          exact Or.inl ⟨Or.inr ⟨⟨node, hnode, hkind⟩, e, he, hleaves, hsource, htarget⟩, hstored⟩
        . exact Or.inr hv
      . rintro (⟨⟨e, he, himpact, rfl, htarget⟩ | ⟨_, e, he, hleaves, hsource, htarget⟩,
          hstored⟩ | hv)
        . exact Or.inr (hback e he himpact htarget hstored)
        . exact Or.inl ⟨e, h.mem_getOutgoing.mpr ⟨he, hsource⟩, hleaves, htarget, hstored⟩
        . exact Or.inr hv
    . next hkind =>
      refine ⟨rfl, .refl s ?_⟩
      rintro v ⟨⟨e, he, himpact, rfl, htarget⟩ | ⟨⟨node', hnode', hkind'⟩, _⟩, hstored⟩
      . exact hback e he himpact htarget hstored
      . rw [hnode, Option.some.injEq] at hnode'
        exact absurd (hnode' ▸ hkind') hkind
  . next hnode =>
    refine ⟨rfl, .refl s ?_⟩
    rintro v ⟨⟨e, he, himpact, rfl, htarget⟩ | ⟨⟨node', hnode', _⟩, _⟩, hstored⟩
    . exact hback e he himpact htarget hstored
    . simp [hnode] at hnode'

variable (symbols) in
theorem run_targets (h : g.Reachable) {waiting : List NodeId}
    (hwaiting : ∀ t ∈ waiting, t ∈ targets) {s : ImpactSearch} (hs : ∀ v ∈ targets, v ∈ s.visited)
    : ∃ s', Worklist.run Worklist.queue (visit g symbols) waiting.length
          (waiting.map fun id => (id, 0)) s = some s'
        ∧ Discovers 1 (fun v => ∃ t ∈ waiting, ImpactStep g t v) s s' := by
  induction waiting generalizing s with
  | nil => exact ⟨s, rfl, .refl s (by simp)⟩
  | cons t rest ih =>
    obtain ⟨hnone, hfirst⟩ := visit_target symbols hdep h (hwaiting t List.mem_cons_self) hs
    have hs' : ∀ v ∈ targets, v ∈ (visit g symbols s (t, 0)).1.visited :=
      fun v hv => (hfirst.visited v).mpr (Or.inl (hs v hv))
    obtain ⟨s', hrun, hrest⟩ := ih (fun t ht => hwaiting t (List.mem_cons_of_mem _ ht)) hs'
    refine ⟨s', ?_, (hfirst.trans hrest).congr (by simp)⟩
    rw [List.map_cons, List.length_cons, Worklist.run_cons, hnone, Worklist.queue,
      List.append_nil, hrun]

variable (symbols) in
theorem impacts_eq (h : g.Reachable)
    : ∃ impacted, (∀ fuel, targets.length ≤ fuel → impacts g symbols fuel targets = some impacted)
        ∧ ∀ v d, (∃ label, (v, d, label) ∈ impacted)
          ↔ d = 1 ∧ Bfs.AtDistance targets (ImpactStep g) 1 v := by
  obtain ⟨s, hrun, hdiscovers⟩ := run_targets symbols (s := ⟨targets, []⟩) hdep h (fun _ ht => ht)
    fun _ hv => hv
  refine ⟨s.found, ?_, ?_⟩
  . intro fuel hfuel
    rw [impacts, Worklist.run_of_le hrun hfuel]
    rfl
  . intro v d
    rw [hdiscovers.found, Bfs.atDistance_succ_iff]
    simp [Bfs.AtDistance, Bfs.Within]

end

theorem atDistance_one_iff {targets : List NodeId} {v : NodeId}
    : Bfs.AtDistance targets (ImpactStep g) 1 v
        ↔ v ∉ targets ∧ ∃ t ∈ targets, ImpactStep g t v := by
  rw [Bfs.atDistance_succ_iff]
  simp [Bfs.AtDistance, Bfs.Within]

theorem one_step_iff {targets : List NodeId}
    : (∀ t ∈ targets, ∀ u v, ImpactStep g t u → ImpactStep g u v → v ∈ targets
        ∨ ∃ t ∈ targets, ImpactStep g t v)
        ↔
      ∀ v, ¬Bfs.AtDistance targets (ImpactStep g) 2 v := by
  constructor
  . intro hone v hat
    rw [Bfs.atDistance_succ_iff] at hat
    obtain ⟨hnot, u, hu, huv⟩ := hat
    obtain ⟨_, t, ht, htu⟩ := atDistance_one_iff.mp hu
    apply hnot
    exact hone t ht u v htu huv
  . intro hnone t ht u v htu huv
    by_contra hnot
    have hv : ¬Bfs.Within targets (ImpactStep g) 1 v := hnot
    apply hnone v
    rw [Bfs.atDistance_succ_iff]
    refine ⟨hv, u, atDistance_one_iff.mpr ⟨?_, t, ht, htu⟩, huv⟩
    intro hu
    exact hnot (Or.inr ⟨u, hu, huv⟩)

theorem DrivesOnly.congr {targets targets' : List NodeId} (h : DrivesOnly g targets)
    (heq : ∀ v, v ∈ targets ↔ v ∈ targets')
    : DrivesOnly g targets' := by
  constructor
  . intro e he himpact htarget hstored
    rw [← heq] at *
    exact h.no_dependent e he himpact htarget hstored
  . simp only [← heq]
    exact h.one_step

theorem sameImpact_of_no_dependent (h : g.Reachable) {nodes : List GraphNode}
    (hnodes : nodes ~ g.allNodes) {symbol : Text} (hnamed : BothName g symbols symbol)
    (hdep : ∀ e ∈ g.allEdges, isImpactEdge e.edgeType = true →
      e.target ∈ impactTargets symbols nodes symbol →
      Stored g e.source → e.source ∈ impactTargets symbols nodes symbol)
    : SameImpact g symbols nodes symbol
        ↔
      ∀ v, ¬Bfs.AtDistance (impactTargets symbols nodes symbol) (ImpactStep g) 2 v := by
  obtain ⟨listed, bound, hlisted, hrun⟩ := impactResults_exact symbols h
    (impactTargets symbols nodes symbol)
  obtain ⟨impacted, hrun', himpacted⟩ := impacts_eq symbols hdep h
  constructor
  . rintro ⟨listed', impacted', bound', hruns, hsame⟩ v hat
    have hl := hrun (bound + bound') (Nat.le_add_right _ _)
    have hl' := (hruns (bound + bound') (Nat.le_add_left _ _)).1
    rw [hl, Option.some.injEq] at hl'
    subst hl'
    have hi := hrun' ((impactTargets symbols nodes symbol).length + bound') (Nat.le_add_right _ _)
    have hi' :=
      (hruns ((impactTargets symbols nodes symbol).length + bound') (Nat.le_add_left _ _)).2
    rw [targetIds_eq hnodes hnamed, hi, Option.some.injEq] at hi'
    subst hi'
    have htwo :=
      (himpacted v 2).mp
        ((hsame v 2).mpr ((hlisted.exact.mem_iff v 2).mpr ⟨by omega, by omega, hat⟩))
    omega
  . intro hnone
    refine ⟨listed, impacted, bound + (impactTargets symbols nodes symbol).length, ?_, ?_⟩
    . intro fuel hfuel
      rw [targetIds_eq hnodes hnamed]
      exact ⟨hrun fuel (by omega), hrun' fuel (by omega)⟩
    . intro v d
      rw [himpacted, hlisted.exact.mem_iff]
      constructor
      . rintro ⟨rfl, hat⟩
        exact ⟨by omega, by omega, hat⟩
      . rintro ⟨hpos, hle, hat⟩
        obtain rfl | rfl | rfl : d = 1 ∨ d = 2 ∨ d = 3 := by omega
        . exact ⟨rfl, hat⟩
        . exact absurd hat (hnone v)
        . rw [Bfs.atDistance_succ_iff] at hat
          obtain ⟨_, u, hu, _⟩ := hat
          exact absurd hu (hnone u)

theorem not_sameImpact (h : g.Reachable) {nodes : List GraphNode} (hnodes : nodes ~ g.allNodes)
    {symbol : Text} (hnamed : BothName g symbols symbol) {t : NodeId} {rest : List NodeId}
    (hfirst : impactTargets symbols nodes symbol = t :: rest) {e : Edge} (he : e ∈ g.allEdges)
    (himpact : isImpactEdge e.edgeType = true) (htarget : e.target = t)
    (hstored : Stored g e.source) (hnew : e.source ∉ t :: rest)
    : ¬SameImpact g symbols nodes symbol := by
  rintro ⟨listed, impacted, bound, hruns, hiff⟩
  obtain ⟨listed', bound', hlisted, hrun⟩ := impactResults_exact symbols h
    (impactTargets symbols nodes symbol)
  have hl := hrun (bound + bound') (Nat.le_add_left _ _)
  rw [(hruns (bound + bound') (Nat.le_add_right _ _)).1, Option.some.injEq] at hl
  subst hl
  have hi := (hruns (bound + 1) (Nat.le_add_right _ _)).2
  rw [targetIds_eq hnodes hnamed, hfirst] at hi
  have hzero := dependent_found_at_zero h he himpact htarget hstored hnew hi
  have hpos := ((hlisted.exact.mem_iff _ 0).mp ((hiff _ 0).mp hzero)).1
  omega

theorem no_dependent_of_sameImpact (h : g.Reachable) {symbol : Text}
    (hnamed : BothName g symbols symbol)
    (hsame : ∀ nodes, nodes ~ g.allNodes → SameImpact g symbols nodes symbol) {e : Edge}
    (he : e ∈ g.allEdges) (himpact : isImpactEdge e.edgeType = true)
    (htarget : e.target ∈ impactTargets symbols g.allNodes symbol) (hstored : Stored g e.source)
    : e.source ∈ impactTargets symbols g.allNodes symbol := by
  by_contra hnew
  obtain ⟨node, hnode, hname⟩ := (mem_impactTargets h.keyed (List.Perm.refl _)).mp htarget
  obtain ⟨hmem, hid⟩ := (h.keyed.getNode_eq_some_iff).mp hnode
  have hnodes : node :: g.allNodes.erase node ~ g.allNodes := (List.perm_cons_erase hmem).symm
  have hfirst : impactTargets symbols (node :: g.allNodes.erase node) symbol
      = e.target :: impactTargets symbols (g.allNodes.erase node) symbol := by
    rw [impactTargets, List.filter_cons_of_pos (by simpa using hname), List.map_cons, hid]
    rfl
  refine not_sameImpact h hnodes hnamed hfirst he himpact rfl hstored ?_ (hsame _ hnodes)
  rwa [← hfirst, mem_impactTargets h.keyed hnodes, ← mem_impactTargets h.keyed (List.Perm.refl _)]

/--
The tool agrees with the command line, whatever the order of the nodes, exactly in the case
`DrivesOnly`.
-/
theorem sameImpact_iff (h : g.Reachable) {symbol : Text} (hnamed : BothName g symbols symbol)
    : (∀ nodes, nodes ~ g.allNodes → SameImpact g symbols nodes symbol)
        ↔
      DrivesOnly g (impactTargets symbols g.allNodes symbol) := by
  constructor
  . intro hsame
    have hdep : ∀ e ∈ g.allEdges, isImpactEdge e.edgeType = true →
        e.target ∈ impactTargets symbols g.allNodes symbol → Stored g e.source →
        e.source ∈ impactTargets symbols g.allNodes symbol :=
      fun e he himpact htarget hstored =>
        no_dependent_of_sameImpact h hnamed hsame he himpact htarget hstored
    refine ⟨hdep, one_step_iff.mpr ?_⟩
    exact (sameImpact_of_no_dependent h (List.Perm.refl _) hnamed hdep).mp
      (hsame _ (List.Perm.refl _))
  . intro honly nodes hnodes
    have honly : DrivesOnly g (impactTargets symbols nodes symbol) := by
      apply honly.congr
      intro v
      rw [mem_impactTargets h.keyed hnodes, mem_impactTargets h.keyed (List.Perm.refl _)]
    exact (sameImpact_of_no_dependent h hnodes hnamed honly.no_dependent).mpr
      (one_step_iff.mp honly.one_step)

theorem sameImpact_iff_feedback
    : (∀ nodes, nodes ~ (InMemoryGraph.run feedbackOps .new).allNodes →
        SameImpact (InMemoryGraph.run feedbackOps .new) feedbackSymbols nodes "a".toList)
        ↔
      DrivesOnly (InMemoryGraph.run feedbackOps .new)
        (impactTargets feedbackSymbols (InMemoryGraph.run feedbackOps .new).allNodes "a".toList) :=
  sameImpact_iff (InMemoryGraph.Reachable.new.run feedbackOps) (by decide)

def callerOps : List GraphOp := [
  .addNode
    { id := 1, kind := .function ⟨0⟩ false, scopeId := none, fileId := 1, line := 1, col := 0 },
  .addNode { id := 2, kind := .callSite ⟨1⟩, scopeId := none, fileId := 1, line := 2, col := 0 },
  .addEdge { source := 2, target := 1, edgeType := .calls }
]

-- The direct caller of a function is listed with depth 0
theorem not_sameImpact_caller
    : (InMemoryGraph.run callerOps .new).Reachable
        ∧ BothName (InMemoryGraph.run callerOps .new) feedbackSymbols "a".toList
        ∧ ¬SameImpact (InMemoryGraph.run callerOps .new) feedbackSymbols
          (InMemoryGraph.run callerOps .new).allNodes
            "a".toList := by
  have hreachable := InMemoryGraph.Reachable.new.run callerOps
  have hnamed : BothName (InMemoryGraph.run callerOps .new) feedbackSymbols "a".toList := by decide
  have htargets : impactTargets feedbackSymbols (InMemoryGraph.run callerOps .new).allNodes
      "a".toList = [1] := by
    decide
  exact ⟨hreachable, hnamed,
    not_sameImpact (e := { source := 2, target := 1, edgeType := .calls }) hreachable
    (List.Perm.refl _) hnamed htargets (by decide) rfl rfl ⟨_, rfl⟩ (by decide)⟩

end ImpactTool
end HdlGraph
