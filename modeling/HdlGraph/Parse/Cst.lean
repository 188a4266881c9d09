import HdlGraph.Library.Text

/-!
This module contains the concrete syntax trees that the grammar produces, as far as the extractor
looks at them.
-/

namespace HdlGraph

-- The node kinds of the grammar that the extractor names; all the others are `other`
inductive SyntaxKind where
  -- Design units and their wrappers
  | moduleDeclaration | packageDeclaration | interfaceDeclaration | classDeclaration
  | configDeclaration | bindDirective
  | moduleHeader | moduleNonansiHeader | moduleAnsiHeader | interfaceNonansiHeader
  | interfaceAnsiHeader
  | moduleItem | packageItem | interfaceItem | classItem
  -- Ports
  | listOfPorts | listOfPortDeclarations | portDeclaration | ansiPortDeclaration | portDirection
  | input | output | inout
  -- Module items
  | netDeclaration | dataDeclaration | alwaysConstruct | initialConstruct | finalConstruct
  | moduleInstantiation | udpInstantiation | gateInstantiation | interfaceInstantiation
  | programInstantiation | continuousAssign | alwaysKeyword | hierarchicalInstance | nameOfInstance
  | functionDeclaration | taskDeclaration | functionBodyDeclaration | functionPrototype
  | taskBodyDeclaration | taskPrototype
  -- Generate constructs
  | loopGenerateConstruct | conditionalGenerateConstruct | generateRegion | ifGenerateConstruct
  | caseGenerateConstruct | caseGenerateItem | generateBlock
  -- Assertions, DPI
  | concurrentAssertionItem | covergroupDeclaration | coverPoint | propertyDeclaration
  | sequenceDeclaration | dpiImportExport | dpiFunctionProto | dpiTaskProto
  -- Classes
  | classType | classProperty | classMethod | methodQualifier | classConstructorDeclaration
  | psClassIdentifier
  -- Packages and interfaces
  | packageImportDeclaration | packageExportDeclaration | packageImportItem
  | modportDeclaration | modportItem | clockingDeclaration
  -- Calls
  | methodCall | tfCall | methodCallBody | packageScope | listOfArguments | expression
  | comma | leftParen | rightParen | semicolon
  -- Declarations and types
  | simpleIdentifier | escapedIdentifier | listOfVariableDeclAssignments | variableDeclAssignment
  | dataTypeOrImplicit | implicitDataType | dataType | netType | integerVectorType
  | integerAtomType | nonIntegerType | signing | delay3 | delayControl | delayValue
  | driveStrength | chargeStrength | unpackedDimension | constantExpression
  | constantMintypmaxExpression | parameterValueAssignment | orderedParameterAssignment
  | namedParameterAssignment
  | other
  deriving DecidableEq, Repr

inductive FieldName where
  | name
  | instanceType
  | instanceName
  | portName
  | arguments
  deriving DecidableEq, Repr

structure Position where
  row : Nat
  col : Nat
  deriving DecidableEq, Repr

/--
A syntax node: its kind, the fields of its parent that it fills, its source text (empty if that is
not UTF-8), its start position and its children.
-/
inductive Cst where
  | node (kind : SyntaxKind) (fields : List FieldName) (text : Text) (pos : Position)
      (children : List Cst)

namespace Cst

def kind : Cst → SyntaxKind
  | node kind _ _ _ _ => kind

def fields : Cst → List FieldName
  | node _ fields _ _ _ => fields

def text : Cst → Text
  | node _ _ text _ _ => text

def pos : Cst → Position
  | node _ _ _ pos _ => pos

def children : Cst → List Cst
  | node _ _ _ _ children => children

def childByFieldName (node : Cst) (field : FieldName) : Option Cst :=
  node.children.find? fun child => field ∈ child.fields

-- `node.child_by_field_name(field).map(text).unwrap_or_default()`
def fieldText (node : Cst) (field : FieldName) : Text :=
  ((node.childByFieldName field).map text).getD []

-- A loop over the children that overwrites `init` whenever `f` gives a value
def lastOf (init : α) (f : Cst → Option α) (children : List Cst) : α :=
  children.foldl (fun found child => (f child).getD found) init

end Cst
end HdlGraph
