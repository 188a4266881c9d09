import HdlGraph.Parse.Extractor.UvmCalls

/-!
This module contains the directions of the ports that a port list declares and those that are
recorded: a direction is only looked for among the children of the declaration, not in a header, and
no port takes the direction of the one before it.
-/

namespace HdlGraph

def PortDirection.keyword : PortDirection → Text
  | input => "input".toList
  | output => "output".toList
  | inout => "inout".toList
  | ref => "ref".toList

inductive PortHeader where
  | none
  -- `direction .name(expression)`
  | direct (direction : PortDirection)
  -- A `net_port_header`, `variable_port_header` or `interface_port_header`, with its direction if
  -- it has one
  | nested (direction : Option PortDirection)
  deriving DecidableEq

namespace Cst

structure IsDirection (direction : PortDirection) (node : Cst) : Prop where
  kind : node.kind = .portDirection
  children : ∃ keyword, node.children = [keyword] ∧ keyword.text = direction.keyword

def IsPortHeader (nodes : List Cst) : PortHeader → Prop
  | .none => ∀ node ∈ nodes, node.IsToken .other ".".toList
  | .direct direction =>
    ∃ keyword dot, nodes = [keyword, dot] ∧ keyword.IsDirection direction
      ∧ dot.IsToken .other ".".toList
  | .nested none =>
    ∃ header, nodes = [header] ∧ header.kind = .other
      ∧ ∀ node ∈ header.children, node.kind ≠ .portDirection
  | .nested (some direction) =>
    ∃ header keyword rest, nodes = [header] ∧ header.kind = .other
      ∧ header.children = keyword :: rest
      ∧ keyword.IsDirection direction

/--
An `ansi_port_declaration`: the header, the name, and dimensions and a default or an expression.
-/
structure IsAnsiPort (header : PortHeader) (name : Text) (node : Cst) : Prop where
  kind : node.kind = .ansiPortDeclaration
  name_ne_nil : name ≠ []
  children : ∃ before nameNode rest, node.children = before ++ nameNode :: rest
    ∧ IsPortHeader before header ∧ (∀ other ∈ before, .portName ∉ other.fields)
    ∧ nameNode.text = name ∧ .portName ∈ nameNode.fields ∧ nameNode.kind ≠ .portDirection
    ∧ ∀ other ∈ rest, other.kind ≠ .portDirection

/-- A `list_of_port_declarations`: the ports, and parentheses, commas and attributes around them. -/
structure IsPortList (ports : List (PortHeader × Text)) (node : Cst) : Prop where
  kind : node.kind = .listOfPortDeclarations
  ansi : ∀ child ∈ node.children, child.kind ≠ .portDeclaration
  ports : ports.Forall₂ (fun port child => child.IsAnsiPort port.1 port.2)
    (node.children.filter (·.kind = .ansiPortDeclaration))

end Cst

namespace PortHeader

-- The directions that the header gives a port that comes after one of direction `previous`
def Allows (header : PortHeader) (previous direction : PortDirection) : Prop :=
  match header with
  | none => direction = previous
  | direct keyword | nested (some keyword) => direction = keyword
  | nested Option.none => True

def recorded : PortHeader → PortDirection
  | direct .input => .input
  | direct .output => .output
  | _ => .inout

end PortHeader

/--
One port for each declaration, in their order and under their names, with directions as declared
-/
def DeclaredPorts (previous : PortDirection)
    : List (PortHeader × Text) → List (NodeKind Text) → Prop
  | [], kinds => kinds = []
  | (header, name) :: ports, kinds =>
    ∃ direction rest, kinds = .modulePort name direction :: rest ∧ header.Allows previous direction
      ∧ DeclaredPorts direction ports rest

namespace GraphExtractor

open ExtractM

theorem portDirection_eq {direction : PortDirection} {node : Cst} (h : node.IsDirection direction)
    : portDirection node .inout = (PortHeader.direct direction).recorded := by
  obtain ⟨keyword, hchildren, htext⟩ := h.children
  rw [portDirection, hchildren]
  change (directionKeyword keyword.text).getD .inout = _
  rw [htext]
  cases direction <;> decide

theorem foldl_ansiPortChild_of_ne {nodes : List Cst}
    (h : ∀ node ∈ nodes, node.kind ≠ .portDirection) (direction : PortDirection)
    : nodes.foldl ansiPortChild direction = direction := by
  induction nodes with
  | nil => rfl
  | cons node nodes ih =>
    rw [List.forall_mem_cons] at h
    have hnode : ansiPortChild direction node = direction := by
      unfold ansiPortChild
      split
      . exact absurd ‹_› h.1
      . rfl
    rw [List.foldl_cons, hnode, ih h.2]

theorem ansiPortChild_direction {direction : PortDirection} {node : Cst}
    (h : node.IsDirection direction)
    : ansiPortChild .inout node = (PortHeader.direct direction).recorded := by
  rw [ansiPortChild, h.kind]
  exact portDirection_eq h

theorem foldl_ansiPortChild_header {header : PortHeader} {nodes : List Cst}
    (h : Cst.IsPortHeader nodes header)
    : nodes.foldl ansiPortChild .inout = header.recorded := by
  have hother : ∀ node : Cst, node.kind = .other → node.kind ≠ .portDirection := by
    intro node hkind
    simp [hkind]
  match header, h with
  | .none, h =>
    exact foldl_ansiPortChild_of_ne (fun node hnode => hother node (h node hnode).1) .inout
  | .direct direction, ⟨keyword, dot, hnodes, hkeyword, hdot⟩ =>
    subst hnodes
    rw [List.foldl_cons, ansiPortChild_direction hkeyword]
    exact foldl_ansiPortChild_of_ne (fun node hnode => by
      rw [List.mem_singleton.mp hnode]
      exact hother dot hdot.1) _
  | .nested none, ⟨header, hnodes, hkind, _⟩ =>
    subst hnodes
    exact foldl_ansiPortChild_of_ne (fun node hnode => by
      rw [List.mem_singleton.mp hnode]
      exact hother header hkind) .inout
  | .nested (some direction), ⟨header, _, _, hnodes, hkind, _⟩ =>
    subst hnodes
    exact foldl_ansiPortChild_of_ne (fun node hnode => by
      rw [List.mem_singleton.mp hnode]
      exact hother header hkind) .inout

theorem portOf_eq {header : PortHeader} {name : Text} {node : Cst} (h : node.IsAnsiPort header name)
    : portOf node = (header.recorded, name) := by
  obtain ⟨before, nameNode, rest, hchildren, hheader, hbefore, htext, hfield, hkind, hrest⟩ :=
    h.children
  have hdirection : node.children.foldl ansiPortChild .inout = header.recorded := by
    rw [hchildren, List.foldl_append, foldl_ansiPortChild_header hheader]
    exact foldl_ansiPortChild_of_ne (List.forall_mem_cons.mpr ⟨hkind, hrest⟩) _
  have hname : node.fieldText .portName = name := by
    have hfind : before.find? (fun child => .portName ∈ child.fields) = none := by
      simpa [List.find?_eq_none] using hbefore
    rw [Cst.fieldText, Cst.childByFieldName, hchildren, List.find?_append, hfind,
      List.find?_cons_of_pos (by simpa using hfield), Option.none_or, Option.map_some, htext]
    rfl
  rw [portOf, if_pos h.kind, hdirection, hname]

theorem recorded_extractPorts {ports : List (PortHeader × Text)} {node : Cst}
    (h : node.IsPortList ports) (moduleId : NodeId) (s : ExtractState)
    : recorded (extractPorts node moduleId) s = ports.map fun port =>
        .modulePort port.2 port.1.recorded := by
  have hansi := h.ansi
  have hports := h.ports
  rw [extractPorts_eq, recorded_emitAll, portsOutline]
  clear h
  generalize node.children = children at hansi hports
  induction children generalizing ports with
  | nil => simp_all
  | cons child children ih =>
    rw [List.forall_mem_cons] at hansi
    by_cases hkind : child.kind = .ansiPortDeclaration
    . rw [List.filter_cons_of_pos (by simpa using hkind)] at hports
      cases hports with
      | cons hport hports =>
        rename_i port ports
        have houtline : portOutline child
            = [.leaf child (.modulePort port.2 port.1.recorded) .defines] := by
          rw [portOutline, portOf_eq hport]
          exact if_pos hport.name_ne_nil
        rw [List.flatMap_cons, hkind, Rose.labelsAll_append, List.map_append, ih hansi.2 hports,
          List.map_cons]
        simp only [houtline]
        rfl
    . rw [List.filter_cons_of_neg (by simpa using hkind)] at hports
      rw [List.flatMap_cons, ← ih hansi.2 hports]
      split
      . exact absurd ‹_› hansi.1
      . exact absurd ‹_› hkind
      . rfl

/--
What the headers of a list have to be for their directions to be recorded: a keyword in a header is
`inout`, one outside is not `ref`, and a port without a header comes first or after one that is
recorded as `inout`.
-/
def RecordedHeaders (headers : List PortHeader) : Prop :=
  (∀ header ∈ headers, header ≠ .direct .ref ∧ ∀ keyword, header = .nested (some keyword) →
    keyword = .inout)
    ∧ headers.IsChain fun previous header => header = .none → previous ≠ .direct .input
      ∧ previous ≠ .direct .output

theorem allows_recorded_iff (previous header : PortHeader)
    : header.Allows previous.recorded header.recorded
        ↔
      (header ≠ .direct .ref ∧ ∀ keyword, header = .nested (some keyword) → keyword = .inout)
        ∧ (header = .none → previous ≠ .direct .input ∧ previous ≠ .direct .output) := by
  cases header with
  | none =>
    cases previous with
    | direct direction => cases direction <;> simp [PortHeader.Allows, PortHeader.recorded]
    | _ => simp [PortHeader.Allows, PortHeader.recorded]
  | direct direction => cases direction <;> simp [PortHeader.Allows, PortHeader.recorded]
  | nested direction => cases direction <;> simp [PortHeader.Allows, PortHeader.recorded, eq_comm]

theorem declaredPorts_cons_iff {previous : PortDirection} {header : PortHeader} {name : Text}
    {ports : List (PortHeader × Text)} {direction : PortDirection} {kinds : List (NodeKind Text)}
    : DeclaredPorts previous ((header, name) :: ports) (.modulePort name direction :: kinds)
        ↔
      header.Allows previous direction ∧ DeclaredPorts direction ports kinds := by
  rw [DeclaredPorts]
  constructor
  . rintro ⟨_, _, heq, h⟩
    cases heq
    exact h
  . intro h
    exact ⟨_, _, rfl, h⟩

theorem declaredPorts_recorded_iff (previous : PortHeader) (ports : List (PortHeader × Text))
    : DeclaredPorts previous.recorded ports
          (ports.map fun port => .modulePort port.2 port.1.recorded)
        ↔
      (∀ header ∈ ports.map Prod.fst,
        header ≠ .direct .ref ∧ ∀ keyword, header = .nested (some keyword) → keyword = .inout)
        ∧ (previous :: ports.map Prod.fst).IsChain
            fun previous header => header = .none → previous ≠ .direct .input
              ∧ previous ≠ .direct .output := by
  induction ports generalizing previous with
  | nil => simp [DeclaredPorts]
  | cons port ports ih =>
    obtain ⟨header, name⟩ := port
    rw [List.map_cons, declaredPorts_cons_iff, ih header, allows_recorded_iff, List.map_cons,
      List.forall_mem_cons, List.isChain_cons_cons, and_and_and_comm]

theorem declaredPorts_extractPorts_iff {ports : List (PortHeader × Text)} {node : Cst}
    (h : node.IsPortList ports) (moduleId : NodeId) (s : ExtractState)
    : DeclaredPorts .inout ports (recorded (extractPorts node moduleId) s)
        ↔ RecordedHeaders (ports.map Prod.fst) := by
  have hfirst := declaredPorts_recorded_iff .none ports
  rw [recorded_extractPorts h]
  refine hfirst.trans (and_congr_right fun _ => ?_)
  cases ports with
  | nil => simp
  | cons port ports => simp [List.isChain_cons_cons]

section Examples

def directionNode (direction : PortDirection) : Cst :=
  .node .portDirection [] direction.keyword ⟨0, 0⟩ [UvmCall.token .other [] direction.keyword]

def wirePort (direction : PortDirection) (name : Text) : Cst :=
  .node .ansiPortDeclaration [] (direction.keyword ++ " wire ".toList ++ name) ⟨0, 0⟩ [
    .node .other [] (direction.keyword ++ " wire".toList) ⟨0, 0⟩ [
      directionNode direction,
      UvmCall.token .netType [] "wire".toList],
    UvmCall.token .simpleIdentifier [.portName] name]

def wirePortList (direction : PortDirection) (name : Text) : Cst :=
  .node .listOfPortDeclarations [] [] ⟨0, 0⟩ [
    UvmCall.token .leftParen [] "(".toList,
    wirePort direction name,
    UvmCall.token .rightParen [] ")".toList]

theorem isPortList_wirePortList {direction : PortDirection} {name : Text} (hname : name ≠ [])
    : (wirePortList direction name).IsPortList [(.nested (some direction), name)] where
  kind := rfl
  ansi := by simp [wirePortList, wirePort, UvmCall.token, Cst.children, Cst.kind]
  ports := by
    refine .cons ⟨rfl, hname, ?_⟩ .nil
    refine ⟨[_], _, [], rfl, ⟨_, _, _, rfl, rfl, rfl, rfl, _, rfl, rfl⟩, ?_, rfl, ?_, ?_, ?_⟩
    all_goals simp [UvmCall.token, Cst.fields, Cst.kind]

theorem declaredPorts_wirePortList
    : DeclaredPorts .inout [(.nested (some .inout), "c".toList)]
        (recorded (extractPorts (wirePortList .inout "c".toList) 1) ⟨.new, [], []⟩) :=
  (declaredPorts_extractPorts_iff (isPortList_wirePortList (by decide)) 1 _).mpr
  (by simp [RecordedHeaders])

-- `(input wire a)` gives a port of direction `inout`
theorem not_declaredPorts_wirePortList
    : ¬DeclaredPorts .inout [(.nested (some .input), "a".toList)]
        (recorded (extractPorts (wirePortList .input "a".toList) 1) ⟨.new, [], []⟩) := by
  have hrecorded : recorded (extractPorts (wirePortList .input "a".toList) 1) ⟨.new, [], []⟩
      = [.modulePort "a".toList .inout] :=
    recorded_extractPorts (isPortList_wirePortList (by decide)) 1 _
  rw [hrecorded]
  intro h
  cases (declaredPorts_cons_iff.mp h).1

end Examples

end GraphExtractor
end HdlGraph
