import HdlGraph.Core.Symbol
import HdlGraph.Core.Edge

/-!
This module contains the nodes of the code graph. A kind carries its names as interned strings; the
same kind over plain texts is what it stands for once a symbol table resolves the names.
-/

namespace HdlGraph

inductive PortDirection where
  | input
  | output
  | inout
  | ref
  deriving DecidableEq, Repr

inductive GenerateKind where
  | if
  | case
  | for
  | loop
  deriving DecidableEq, Repr

inductive AlwaysKind where
  | combinational
  | sequential
  | latch
  deriving DecidableEq, Repr

inductive SignalKind where
  | wire
  | reg
  | logic
  | integer
  | bit
  deriving DecidableEq, Repr

inductive TLMDirection where
  | analysisPort
  | analysisExport
  | blocking
  | nonblocking
  | fifo
  deriving DecidableEq, Repr

inductive NodeKind (ν : Type) where
  -- Structural
  | sourceFile
  | module (name : ν)
  | modulePort (name : ν) (direction : PortDirection)
  | moduleInstance (name moduleType : ν)
  | portConnection (portName actual : ν)
  | generateBlock (kind : GenerateKind)
  | alwaysBlock (kind : AlwaysKind)
  | signalDecl (name : ν) (kind : SignalKind)
  | assignment
  | function (name : ν) (isTask : Bool)
  | beginBlock (label : Option ν)
  | variableRef (name : ν)
  | callSite (target : ν)
  -- OOP
  | class (name : ν) (parent : Option ν)
  | method (name : ν) (isVirtual : Bool)
  | property (name : ν)
  -- Packages and interfaces
  | package (name : ν)
  | packageImport (source : ν)
  | interface (name : ν)
  | modport (name : ν)
  -- UVM
  | factoryReg (typeName baseType : ν)
  | factoryCreate (typeName : ν)
  | factoryOverride (originalType overrideType : ν)
  | tlmPort (name : ν) (direction : TLMDirection)
  | tlmBinding
  | configDBSet (field : ν)
  | configDBGet (field : ν)
  -- Assertions
  | assertProperty
  | sequenceDecl (name : ν)
  | propertyDecl (name : ν)
  | coverGroup (name : ν)
  | coverPoint (name : ν)
  -- Misc
  | dpiImport (functionName : ν)
  | bindDirective (moduleType : ν)
  | configBlock (name : ν)
  | parameter (name : ν)
  deriving DecidableEq, Repr

structure GraphNode where
  id : NodeId
  kind : NodeKind InternedString
  scopeId : Option NodeId
  fileId : Nat
  line : Nat
  col : Nat
  deriving DecidableEq, Repr

namespace NodeKind

def nameField : NodeKind ν → Option ν
  | module name | .class name _ | package name | interface name | function name _
  | signalDecl name _ | modulePort name _ | moduleInstance name _ | property name
  | variableRef name | method name _ | tlmPort name _ | sequenceDecl name | propertyDecl name
  | coverGroup name | coverPoint name | modport name | configBlock name => some name
  | callSite name | dpiImport name | configDBSet name | configDBGet name | parameter name =>
    some name
  | factoryReg typeName _ => some typeName
  | factoryCreate typeName => some typeName
  | factoryOverride originalType _ => some originalType
  | _ => none

def mapM [Monad m] (f : ν → m μ) : NodeKind ν → m (NodeKind μ)
  | sourceFile => return sourceFile
  | module name => return module (← f name)
  | modulePort name direction => return modulePort (← f name) direction
  | moduleInstance name moduleType => do
    let moduleType ← f moduleType
    let name ← f name
    return moduleInstance name moduleType
  | portConnection portName actual => return portConnection (← f portName) (← f actual)
  | generateBlock kind => return generateBlock kind
  | alwaysBlock kind => return alwaysBlock kind
  | signalDecl name kind => return signalDecl (← f name) kind
  | assignment => return assignment
  | function name isTask => return function (← f name) isTask
  | beginBlock none => return beginBlock none
  | beginBlock (some label) => return beginBlock (some (← f label))
  | variableRef name => return variableRef (← f name)
  | callSite target => return callSite (← f target)
  | .class name none => return .class (← f name) none
  | .class name (some parent) => return .class (← f name) (some (← f parent))
  | method name isVirtual => return method (← f name) isVirtual
  | property name => return property (← f name)
  | package name => return package (← f name)
  | packageImport source => return packageImport (← f source)
  | interface name => return interface (← f name)
  | modport name => return modport (← f name)
  | factoryReg typeName baseType => return factoryReg (← f typeName) (← f baseType)
  | factoryCreate typeName => return factoryCreate (← f typeName)
  | factoryOverride originalType overrideType =>
    return factoryOverride (← f originalType) (← f overrideType)
  | tlmPort name direction => return tlmPort (← f name) direction
  | tlmBinding => return tlmBinding
  | configDBSet field => return configDBSet (← f field)
  | configDBGet field => return configDBGet (← f field)
  | assertProperty => return assertProperty
  | sequenceDecl name => return sequenceDecl (← f name)
  | propertyDecl name => return propertyDecl (← f name)
  | coverGroup name => return coverGroup (← f name)
  | coverPoint name => return coverPoint (← f name)
  | dpiImport functionName => return dpiImport (← f functionName)
  | bindDirective moduleType => return bindDirective (← f moduleType)
  | configBlock name => return configBlock (← f name)
  | parameter name => return parameter (← f name)

def resolve (symbols : SymbolTable) (kind : NodeKind InternedString) : Option (NodeKind Text) :=
  kind.mapM symbols.resolve

theorem resolve_of_extends {table table' : SymbolTable} (h : table.Extends table')
    {kind : NodeKind InternedString} {named : NodeKind Text}
    (hkind : kind.resolve table = some named)
    : kind.resolve table' = some named := by
  have step : ∀ {id : InternedString} {s : Text}, table.resolve id = some s →
      table'.resolve id = some s :=
    h.resolve_eq
  unfold resolve at *
  cases kind
  case beginBlock label =>
    cases label
    all_goals
      simp only [mapM, Option.bind_eq_bind, Option.bind_eq_some_iff, Option.pure_def,
        Option.some.injEq] at *
      grind
  case «class» name parent =>
    cases parent
    all_goals
      simp only [mapM, Option.bind_eq_bind, Option.bind_eq_some_iff, Option.pure_def,
        Option.some.injEq] at *
      grind
  all_goals
    simp only [mapM, Option.bind_eq_bind, Option.bind_eq_some_iff, Option.pure_def,
      Option.some.injEq] at *
    grind

inductive Says (symbols : SymbolTable) : NodeKind InternedString → NodeKind Text → Prop where
  | sourceFile : Says symbols .sourceFile .sourceFile
  | module (hname : symbols.resolve name = some name') : Says symbols (.module name) (.module name')
  | modulePort (hname : symbols.resolve name = some name') (direction : PortDirection)
    : Says symbols (.modulePort name direction) (.modulePort name' direction)
  | moduleInstance (hname : symbols.resolve name = some name')
      (hmoduleType : symbols.resolve moduleType = some moduleType')
    : Says symbols (.moduleInstance name moduleType) (.moduleInstance name' moduleType')
  | portConnection (hportName : symbols.resolve portName = some portName')
      (hactual : symbols.resolve actual = some actual')
    : Says symbols (.portConnection portName actual) (.portConnection portName' actual')
  | generateBlock (kind : GenerateKind) : Says symbols (.generateBlock kind) (.generateBlock kind)
  | alwaysBlock (kind : AlwaysKind) : Says symbols (.alwaysBlock kind) (.alwaysBlock kind)
  | signalDecl (hname : symbols.resolve name = some name') (kind : SignalKind)
    : Says symbols (.signalDecl name kind) (.signalDecl name' kind)
  | assignment : Says symbols .assignment .assignment
  | function (hname : symbols.resolve name = some name') (isTask : Bool)
    : Says symbols (.function name isTask) (.function name' isTask)
  | unnamed : Says symbols (.beginBlock none) (.beginBlock none)
  | beginBlock (hlabel : symbols.resolve label = some label')
    : Says symbols (.beginBlock (some label)) (.beginBlock (some label'))
  | variableRef (hname : symbols.resolve name = some name') : Says symbols (.variableRef name)
      (.variableRef name')
  | callSite (htarget : symbols.resolve target = some target') : Says symbols (.callSite target)
      (.callSite target')
  | root (hname : symbols.resolve name = some name') : Says symbols (.class name none)
      (.class name' none)
  | derived (hname : symbols.resolve name = some name')
      (hparent : symbols.resolve parent = some parent')
    : Says symbols (.class name (some parent)) (.class name' (some parent'))
  | method (hname : symbols.resolve name = some name') (isVirtual : Bool)
    : Says symbols (.method name isVirtual) (.method name' isVirtual)
  | property (hname : symbols.resolve name = some name') : Says symbols (.property name)
      (.property name')
  | package (hname : symbols.resolve name = some name') : Says symbols (.package name)
      (.package name')
  | packageImport (hsource : symbols.resolve source = some source')
    : Says symbols (.packageImport source) (.packageImport source')
  | interface (hname : symbols.resolve name = some name') : Says symbols (.interface name)
      (.interface name')
  | modport (hname : symbols.resolve name = some name') : Says symbols (.modport name)
      (.modport name')
  | factoryReg (htypeName : symbols.resolve typeName = some typeName')
      (hbaseType : symbols.resolve baseType = some baseType')
    : Says symbols (.factoryReg typeName baseType) (.factoryReg typeName' baseType')
  | factoryCreate (htypeName : symbols.resolve typeName = some typeName')
    : Says symbols (.factoryCreate typeName) (.factoryCreate typeName')
  | factoryOverride (horiginalType : symbols.resolve originalType = some originalType')
    (hoverrideType : symbols.resolve overrideType = some overrideType')
    : Says symbols (.factoryOverride originalType overrideType)
        (.factoryOverride originalType' overrideType')
  | tlmPort (hname : symbols.resolve name = some name') (direction : TLMDirection)
    : Says symbols (.tlmPort name direction) (.tlmPort name' direction)
  | tlmBinding : Says symbols .tlmBinding .tlmBinding
  | configDBSet (hfield : symbols.resolve field = some field') : Says symbols (.configDBSet field)
      (.configDBSet field')
  | configDBGet (hfield : symbols.resolve field = some field') : Says symbols (.configDBGet field)
      (.configDBGet field')
  | assertProperty : Says symbols .assertProperty .assertProperty
  | sequenceDecl (hname : symbols.resolve name = some name') : Says symbols (.sequenceDecl name)
      (.sequenceDecl name')
  | propertyDecl (hname : symbols.resolve name = some name') : Says symbols (.propertyDecl name)
      (.propertyDecl name')
  | coverGroup (hname : symbols.resolve name = some name') : Says symbols (.coverGroup name)
      (.coverGroup name')
  | coverPoint (hname : symbols.resolve name = some name') : Says symbols (.coverPoint name)
      (.coverPoint name')
  | dpiImport (hfunctionName : symbols.resolve functionName = some functionName')
    : Says symbols (.dpiImport functionName) (.dpiImport functionName')
  | bindDirective (hmoduleType : symbols.resolve moduleType = some moduleType')
    : Says symbols (.bindDirective moduleType) (.bindDirective moduleType')
  | configBlock (hname : symbols.resolve name = some name') : Says symbols (.configBlock name)
      (.configBlock name')
  | parameter (hname : symbols.resolve name = some name') : Says symbols (.parameter name)
      (.parameter name')

theorem says_of_resolve {table : SymbolTable} {kind : NodeKind InternedString}
    {named : NodeKind Text} (h : kind.resolve table = some named)
    : kind.Says table named := by
  unfold resolve at h
  cases kind
  case beginBlock label =>
    cases label
    all_goals
      simp only [mapM, Option.bind_eq_bind, Option.bind_eq_some_iff, Option.pure_def,
        Option.some.injEq] at h
      grind [Says]
  case «class» name parent =>
    cases parent
    all_goals
      simp only [mapM, Option.bind_eq_bind, Option.bind_eq_some_iff, Option.pure_def,
        Option.some.injEq] at h
      grind [Says]
  all_goals
    simp only [mapM, Option.bind_eq_bind, Option.bind_eq_some_iff, Option.pure_def,
      Option.some.injEq] at h
    grind [Says]

theorem eq_sourceFile_of_resolve {table : SymbolTable} {kind : NodeKind InternedString}
    (h : kind.resolve table = some sourceFile)
    : kind = sourceFile := by
  cases says_of_resolve h
  rfl

end NodeKind

structure NamedNode where
  id : NodeId
  kind : NodeKind Text
  line : Nat
  col : Nat
  deriving DecidableEq, Repr

def extractNameId (kind : NodeKind InternedString) : Option Nat := kind.nameField.map (·.val)

def nodeNameFromKind (kind : NodeKind InternedString) (symbols : SymbolTable) : Option Text :=
  kind.nameField.bind symbols.resolve

namespace GraphNode

def nameStr (node : GraphNode) (symbols : SymbolTable) : Option Text :=
  nodeNameFromKind node.kind symbols

def nameInternedId (node : GraphNode) : Option Nat := extractNameId node.kind

def named (symbols : SymbolTable) (node : GraphNode) : Option NamedNode :=
  (node.kind.resolve symbols).map fun kind =>
    { id := node.id, kind, line := node.line, col := node.col }

section Named

variable {table : SymbolTable} {node : GraphNode} {content : NamedNode}

theorem id_of_named (h : node.named table = some content) : node.id = content.id := by
  obtain ⟨kind, _, rfl⟩ := Option.map_eq_some_iff.mp h
  rfl

theorem resolve_of_named (h : node.named table = some content)
    : node.kind.resolve table = some content.kind := by
  obtain ⟨kind, hresolve, rfl⟩ := Option.map_eq_some_iff.mp h
  exact hresolve

theorem says_of_named (h : node.named table = some content)
    : NodeKind.Says table node.kind content.kind :=
  NodeKind.says_of_resolve (resolve_of_named h)

end Named

theorem named_of_extends {table table' : SymbolTable} (h : table.Extends table') {node : GraphNode}
    {content : NamedNode} (hnode : node.named table = some content)
    : node.named table' = some content := by
  unfold named at *
  rw [Option.map_eq_some_iff] at *
  have ⟨kind, hkind, heq⟩ := hnode
  exact ⟨kind, NodeKind.resolve_of_extends h hkind, heq⟩

end GraphNode

end HdlGraph
