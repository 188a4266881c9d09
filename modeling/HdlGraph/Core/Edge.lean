import Mathlib.Data.Nat.Notation

/-!
This module contains the typed edges of the code graph.
-/

namespace HdlGraph

-- Ids are `u64`; only `InMemoryGraph.addNode` can reach the end of that range
abbrev NodeId := Nat

inductive EdgeType where
  | contains
  | defines
  | references
  | imports
  | extends
  | instantiates
  | connects
  | drives
  | triggers
  | calls
  | overrides
  | macroExpands
  | factoryRegisters
  | factoryOverrides
  | tlmBinds
  | configSets
  | configGets
  | configResolves
  deriving DecidableEq, Repr

structure Edge where
  source : NodeId
  target : NodeId
  edgeType : EdgeType
  deriving DecidableEq, Repr

end HdlGraph
