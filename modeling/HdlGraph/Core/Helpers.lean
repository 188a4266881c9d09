import HdlGraph.Core.Node

/-!
This module contains the helpers that the frontends share: what the kinds of nodes and edges are
called and which edges the impact analysis follows.
-/

namespace HdlGraph

def nodeKindStr : NodeKind InternedString → Text
  | .sourceFile => "file".toList
  | .module .. => "module".toList
  | .modulePort .. => "port".toList
  | .moduleInstance .. => "instance".toList
  | .portConnection .. => "port_connection".toList
  | .generateBlock .. => "generate".toList
  | .alwaysBlock .. => "always".toList
  | .signalDecl .. => "signal".toList
  | .assignment => "assign".toList
  | .function .. => "function".toList
  | .beginBlock .. => "begin".toList
  | .variableRef .. => "variable_ref".toList
  | .callSite .. => "call_site".toList
  | .class .. => "class".toList
  | .method .. => "method".toList
  | .property .. => "property".toList
  | .package .. => "package".toList
  | .packageImport .. => "import".toList
  | .interface .. => "interface".toList
  | .modport .. => "modport".toList
  | .factoryReg .. => "factory_reg".toList
  | .factoryCreate .. => "factory_create".toList
  | .factoryOverride .. => "factory_override".toList
  | .tlmPort .. => "tlm_port".toList
  | .tlmBinding => "tlm_binding".toList
  | .configDBSet .. => "config_db_set".toList
  | .configDBGet .. => "config_db_get".toList
  | .assertProperty => "assert".toList
  | .sequenceDecl .. => "sequence".toList
  | .propertyDecl .. => "property_decl".toList
  | .coverGroup .. => "covergroup".toList
  | .coverPoint .. => "coverpoint".toList
  | .parameter .. => "parameter".toList
  | .dpiImport .. => "dpi_import".toList
  | .bindDirective .. => "bind".toList
  | .configBlock .. => "config".toList

def EdgeType.name : EdgeType → Text
  | .contains => "contains".toList
  | .defines => "defines".toList
  | .references => "references".toList
  | .imports => "imports".toList
  | .extends => "extends".toList
  | .instantiates => "instantiates".toList
  | .connects => "connects".toList
  | .drives => "drives".toList
  | .triggers => "triggers".toList
  | .calls => "calls".toList
  | .overrides => "overrides".toList
  | .macroExpands => "macro_expands".toList
  | .factoryRegisters => "factory_registers".toList
  | .factoryOverrides => "factory_overrides".toList
  | .tlmBinds => "tlm_binds".toList
  | .configSets => "config_sets".toList
  | .configGets => "config_gets".toList
  | .configResolves => "config_resolves".toList

-- The kinds as `Debug` prints them, in lower case
def PortDirection.name : PortDirection → Text
  | .input => "input".toList
  | .output => "output".toList
  | .inout => "inout".toList
  | .ref => "ref".toList

def SignalKind.name : SignalKind → Text
  | .wire => "wire".toList
  | .reg => "reg".toList
  | .logic => "logic".toList
  | .integer => "integer".toList
  | .bit => "bit".toList

def TLMDirection.name : TLMDirection → Text
  | .analysisPort => "analysisport".toList
  | .analysisExport => "analysisexport".toList
  | .blocking => "blocking".toList
  | .nonblocking => "nonblocking".toList
  | .fifo => "fifo".toList

def isImpactEdge : EdgeType → Bool
  | .references | .drives | .calls | .connects | .instantiates | .extends | .overrides
  | .factoryRegisters | .factoryOverrides | .tlmBinds | .configSets | .configGets
  | .contains => true
  | _ => false

def NodeKind.isSignalDecl : NodeKind InternedString → Bool
  | .signalDecl .. => true
  | _ => false

def EdgeType.leavesSignal : EdgeType → Bool
  | .drives | .connects => true
  | _ => false

-- `format!("#{}", id)`
def idLabel (id : NodeId) : Text := '#' :: (Nat.repr id).toList

end HdlGraph
