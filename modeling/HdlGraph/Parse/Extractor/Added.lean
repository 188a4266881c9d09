import HdlGraph.Parse.Extractor.Outline

/-!
This module contains what a run of the extractor adds to its state, read off the state before and
after.
-/

namespace HdlGraph
namespace ExtractM

def addedNodes (run : ExtractM Unit) (s : ExtractState) : List NamedNode :=
  ((run s).2.nodes.drop s.nodes.length).filterMap fun node => node.named (run s).2.extractor.symbols

def addedEdges (run : ExtractM Unit) (s : ExtractState) : List Edge :=
  (run s).2.edges.drop s.edges.length

theorem addedNodes_emitAll (parentId : NodeId) (os : List Outline) (s : ExtractState)
    : addedNodes (emitAll parentId os) s
        = nodesOf (Rose.placeAll parentId s.extractor.nextId os) := by
  obtain ⟨added, hadded, hnamed⟩ := (emitAll_grows parentId os s).nodes
  have hmap := congrArg (List.filterMap id) hnamed
  rw [List.filterMap_map, List.filterMap_map] at hmap
  rw [addedNodes, hadded, List.drop_left]
  exact hmap.trans (by simp)

theorem addedEdges_emitAll (parentId : NodeId) (os : List Outline) (s : ExtractState)
    : addedEdges (emitAll parentId os) s
        = edgesOf (Rose.placeAll parentId s.extractor.nextId os) := by
  rw [addedEdges, (emitAll_grows parentId os s).edges, List.drop_left]

/-! An outline can be read off what is emitted. -/

theorem placements_eq {xs ys : List (Rose.Placement Declared)} (hnodes : nodesOf xs = nodesOf ys)
    (hedges : edgesOf xs = edgesOf ys)
    : xs = ys := by
  let f (x : Rose.Placement Declared) : NamedNode × Edge :=
    (x.label.namedNode x.id, ⟨x.parent, x.id, x.label.edge⟩)
  have hinjective : Function.Injective f := by
    intro ⟨p, b, ⟨kind, edge, ⟨row, col⟩⟩⟩ ⟨p', b', ⟨kind', edge', ⟨row', col'⟩⟩⟩ h
    simp_all [f, Declared.namedNode]
  have hzip := congrArg₂ List.zip hnodes hedges
  rw [nodesOf, nodesOf, edgesOf, edgesOf, List.zip_map', List.zip_map'] at hzip
  exact List.map_injective_iff.mpr hinjective hzip

theorem emitAll_injective {os os' : List Outline}
    (h : ∀ parentId, emitAll parentId os = emitAll parentId os') : os = os' := by
  let s : ExtractState := ⟨.new, [], []⟩
  have hnodes := addedNodes_emitAll 0 os s
  have hedges := addedEdges_emitAll 0 os s
  rw [h, addedNodes_emitAll] at hnodes
  rw [h, addedEdges_emitAll] at hedges
  exact Rose.placeAll_injective s.extractor.nextId_pos (placements_eq hnodes.symm hedges.symm)

end ExtractM
end HdlGraph
