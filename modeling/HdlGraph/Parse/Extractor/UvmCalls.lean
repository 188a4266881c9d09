import HdlGraph.Parse.Extractor.Numbering
import HdlGraph.Parse.Extractor.Uvm

/-!
This module contains the UVM calls that a body is searched for, the two syntax trees that the
grammar makes of each, and what is recorded for either. Only factory creations are recorded alike.
-/

namespace HdlGraph

open ExtractM Text

/-! ## Calls -/

/--
A name of a type: parts without white space and colons, as identifiers are, with `::` between them
-/
structure TypeName where
  first : Text
  rest : List Text
  ne_nil : ∀ part ∈ first :: rest, part ≠ []
  colon : ∀ part ∈ first :: rest, ':' ∉ part
  space : ∀ part ∈ first :: rest, ∀ c ∈ part, isWhitespace c = false

namespace TypeName

def parts (name : TypeName) : List Text := name.first :: name.rest

def text (name : TypeName) : Text := join "::".toList name.parts

theorem text_eq (name : TypeName)
    : name.text = name.first ++ name.rest.flatMap ("::".toList ++ ·) := by
  rw [text, parts, join_cons_eq]

theorem text_ne_nil (name : TypeName) : name.text ≠ [] := by
  rw [text_eq]
  exact List.append_ne_nil_of_left_ne_nil (name.ne_nil _ List.mem_cons_self) _

theorem not_isWhitespace (name : TypeName) : ∀ c ∈ name.text, isWhitespace c = false := by
  intro c hc
  rw [text_eq, List.mem_append, List.mem_flatMap] at hc
  rcases hc with hc | ⟨part, hpart, hc⟩
  . exact name.space _ List.mem_cons_self c hc
  . rcases List.mem_append.mp hc with hc | hc
    . rcases List.mem_pair.mp hc with rfl | rfl <;> decide
    . exact name.space _ (List.mem_cons_of_mem _ hpart) c hc

theorem not_isWhitespace_append (name : TypeName) {suffix : Text}
    (h : ∀ c ∈ suffix, isWhitespace c = false)
    : ∀ c ∈ name.text ++ suffix, isWhitespace c = false :=
  List.forall_mem_append.mpr ⟨name.not_isWhitespace, h⟩

end TypeName

inductive UvmCall where
  -- `P::type_id::create(args)`
  | create (type : TypeName) (args : List Text)
  -- `O::type_id::set_type_override(R::get_type())`
  | setTypeOverride (original override : TypeName)
  -- `O::type_id::set_inst_override(R::get_type(), path)`
  | setInstOverride (original override : TypeName) (path : Text)
  -- `uvm_config_db#(T)::set(c, p, "f", v)`
  | configDbSet (type : TypeName) (context path field value : Text)
  -- `uvm_config_db#(T)::get(c, p, "f", v)`
  | configDbGet (type : TypeName) (context path field value : Text)

namespace UvmCall

def scope : UvmCall → List Text
  | create type _ => type.parts ++ ["type_id".toList]
  | setTypeOverride original _ | setInstOverride original _ _ =>
    original.parts ++ ["type_id".toList]
  | configDbSet type _ _ _ _ | configDbGet type _ _ _ _ =>
    ["uvm_config_db#(".toList ++ type.text ++ ")".toList]

def method : UvmCall → Text
  | create _ _ => "create".toList
  | setTypeOverride _ _ => "set_type_override".toList
  | setInstOverride _ _ _ => "set_inst_override".toList
  | configDbSet _ _ _ _ _ => "set".toList
  | configDbGet _ _ _ _ _ => "get".toList

def getType (type : TypeName) : Text := type.text ++ "::get_type()".toList

def args : UvmCall → List Text
  | create _ args => args
  | setTypeOverride _ override => [getType override]
  | setInstOverride _ override path => [getType override, path]
  | configDbSet _ context path field value | configDbGet _ context path field value =>
    [context, path, "\"".toList ++ field ++ "\"".toList, value]

def kind : UvmCall → NodeKind Text
  | create type _ => .factoryCreate type.text
  | setTypeOverride original override | setInstOverride original override _ =>
    .factoryOverride original.text override.text
  | configDbSet _ _ _ field _ => .configDBSet field
  | configDbGet _ _ _ field _ => .configDBGet field

end UvmCall

/-! ## Their syntax trees -/

namespace Cst

def IsToken (kind : SyntaxKind) (text : Text) (node : Cst) : Prop :=
  node.kind = kind ∧ node.text = text ∧ node.children = []

def IsExpressions : List Text → List Cst → Prop
  | [], nodes => nodes = []
  | [arg], nodes =>
    ∃ expression, nodes = [expression] ∧ expression.kind = .expression ∧ expression.text = arg
  | arg :: args, nodes =>
    ∃ expression comma rest, nodes = expression :: comma :: rest ∧ expression.kind = .expression
      ∧ expression.text = arg ∧ comma.IsToken .comma ",".toList ∧ IsExpressions args rest

/--
The parenthesised arguments of a call: the two parentheses and, if there are arguments, the list
between them. What the field `fields` is put on carries it at each of these tokens.
-/
def IsArguments (fields : List FieldName) (args : List Text) (nodes : List Cst) : Prop :=
  ∃ leftParen lists rightParen, nodes = leftParen :: (lists ++ [rightParen])
    ∧ leftParen.IsToken .leftParen "(".toList ∧ leftParen.fields = fields
    ∧ rightParen.IsToken .rightParen ")".toList ∧ rightParen.fields = fields
    ∧ (args = [] ∧ lists = [] ∨ args ≠ [] ∧ ∃ list, lists = [list] ∧ list.kind = .listOfArguments
        ∧ list.fields = fields ∧ IsExpressions args list.children)

end Cst

namespace UvmCall

/--
The call as a `method_call`: the class type is the root, and the body has the method and the
arguments.
-/
structure IsMethodCall (call : UvmCall) (node : Cst) : Prop where
  kind : node.kind = .methodCall
  children : ∃ root colons body name arguments, node.children = [root, colons, body]
    ∧ root.kind = .classType ∧ root.text = join "::".toList call.scope
    ∧ colons.IsToken .other "::".toList
    ∧ body.kind = .methodCallBody ∧ body.children = name :: arguments
    ∧ name.IsToken .simpleIdentifier call.method ∧ name.fields = [.name]
    ∧ Cst.IsArguments [.arguments] call.args arguments

/--
The call as a `tf_call`: a package scope for each part of the scope, the method and the arguments.
-/
structure IsTfCall (call : UvmCall) (node : Cst) : Prop where
  kind : node.kind = .tfCall
  children : ∃ scopes name arguments, node.children = scopes ++ name :: arguments
    ∧ scopes.Forall₂ (fun scope part => scope.kind = .packageScope
        ∧ scope.text = part ++ "::".toList) call.scope
    ∧ name.IsToken .simpleIdentifier call.method
    ∧ Cst.IsArguments [] call.args arguments

/-! Every call has both trees. -/

def token (kind : SyntaxKind) (fields : List FieldName) (text : Text) : Cst :=
  .node kind fields text ⟨0, 0⟩ []

def expressions : List Text → List Cst
  | [] => []
  | [arg] => [token .expression [] arg]
  | arg :: args => token .expression [] arg :: token .comma [] ",".toList :: expressions args

def arguments (fields : List FieldName) (args : List Text) : List Cst :=
  let lists :=
    if args = [] then []
      else [.node .listOfArguments fields (join ",".toList args) ⟨0, 0⟩ (expressions args)]
  token .leftParen fields "(".toList :: (lists ++ [token .rightParen fields ")".toList])

def methodCallTree (call : UvmCall) : Cst :=
  .node .methodCall [] [] ⟨0, 0⟩ [
    token .classType [] (join "::".toList call.scope),
    token .other [] "::".toList,
    .node .methodCallBody [] [] ⟨0, 0⟩
    (token .simpleIdentifier [.name] call.method :: arguments [.arguments] call.args)]

def tfCallTree (call : UvmCall) : Cst :=
  .node .tfCall [] [] ⟨0, 0⟩
    (call.scope.map (fun part => token .packageScope [] (part ++ "::".toList))
      ++ token .simpleIdentifier [] call.method :: arguments [] call.args)

theorem isExpressions_expressions (args : List Text)
    : Cst.IsExpressions args (expressions args) := by
  fun_induction expressions args with
  | case1 => rfl
  | case2 arg => exact ⟨_, rfl, rfl, rfl⟩
  | case3 arg args hne ih =>
    rw [Cst.IsExpressions.eq_3 _ _ _ hne]
    exact ⟨_, _, _, rfl, rfl, rfl, ⟨rfl, rfl, rfl⟩, ih⟩

theorem isArguments_arguments (fields : List FieldName) (args : List Text)
    : Cst.IsArguments fields args (arguments fields args) := by
  refine ⟨_, _, _, rfl, ⟨rfl, rfl, rfl⟩, rfl, ⟨rfl, rfl, rfl⟩, rfl, ?_⟩
  by_cases hargs : args = []
  . exact Or.inl ⟨hargs, if_pos hargs⟩
  . exact Or.inr ⟨hargs, _, if_neg hargs, rfl, rfl, isExpressions_expressions args⟩

theorem isMethodCall_methodCallTree (call : UvmCall) : call.IsMethodCall (methodCallTree call) where
  kind := rfl
  children := ⟨_, _, _, _, _, rfl, rfl, rfl, ⟨rfl, rfl, rfl⟩, rfl, rfl, ⟨rfl, rfl, rfl⟩, rfl,
    isArguments_arguments [.arguments] call.args⟩

theorem isTfCall_tfCallTree (call : UvmCall) : call.IsTfCall (tfCallTree call) where
  kind := rfl
  children := by
    refine ⟨_, _, _, rfl, ?_, ⟨rfl, rfl, rfl⟩, isArguments_arguments [] call.args⟩
    rw [List.forall₂_map_left_iff, List.forall₂_same]
    exact fun _ _ => ⟨rfl, rfl⟩

end UvmCall

/-! ## What is read off the trees -/

namespace GraphExtractor

def recorded (call : ExtractM Unit) (s : ExtractState) : List (NodeKind Text) :=
  ((call s).2.nodes.drop s.nodes.length).filterMap fun node =>
    node.kind.resolve (call s).2.extractor.symbols

theorem recorded_emitAll (parentId : NodeId) (os : List Outline) (s : ExtractState)
    : recorded (emitAll parentId os) s = (Rose.labelsAll os).map Declared.kind := by
  obtain ⟨added, hadded, hnamed⟩ := (emitAll_grows parentId os s).nodes
  have hkinds : ∀ node : GraphNode, node.kind.resolve (emitAll parentId os s).2.extractor.symbols
      = (node.named (emitAll parentId os s).2.extractor.symbols).map NamedNode.kind := by
    intro node
    rw [GraphNode.named, Option.map_map]
    exact Option.map_id'.symm
  have hmap := congrArg (List.filterMap (Option.map NamedNode.kind)) hnamed
  rw [List.filterMap_map, List.filterMap_map] at hmap
  rw [recorded, hadded, List.drop_left]
  simp only [hkinds]
  refine hmap.trans ?_
  rw [← Rose.map_label_placeAll parentId s.extractor.nextId]
  simp [nodesOf, Declared.namedNode, Function.comp_def]

/-! ## Type names in arguments -/

theorem before?_getType {rest : List Text} (hne : ∀ part ∈ rest, part ≠ [])
    (hcolon : ∀ part ∈ rest, ':' ∉ part)
    : before? "::get_type".toList (rest.flatMap ("::".toList ++ ·) ++ "::get_type()".toList)
        =
      some ((rest.takeWhile fun part => ¬"get_type".toList <+: part).flatMap
        ("::".toList ++ ·)) := by
  induction rest with
  | nil => decide
  | cons part rest ih =>
    rw [List.forall_mem_cons] at hne hcolon
    have hhead : (rest.flatMap ("::".toList ++ ·) ++ "::get_type()".toList).head? = some ':' := by
      cases rest <;> rfl
    have hkey : ':' ∉ "get_type".toList := by decide
    have hstep := before?_doubled hkey hne.1 hcolon.1 hhead
    rw [List.flatMap_cons, List.append_assoc, List.append_assoc]
    refine hstep.trans ?_
    by_cases hpart : "get_type".toList <+: part
    . rw [if_pos hpart, List.takeWhile_cons, if_neg (mt of_decide_eq_true (not_not_intro hpart))]
      rfl
    . rw [if_neg hpart, List.takeWhile_cons, if_pos (decide_eq_true hpart),
        show ':' :: ':' :: "get_type".toList = "::get_type".toList from rfl, ih hne.2 hcolon.2]
      rfl

-- What `clean_arg` takes for the type in `R::get_type()`: it cuts at the first `::get_type`
def beforeGetType (type : TypeName) : TypeName where
  first := type.first
  rest := type.rest.takeWhile fun part => ¬"get_type".toList <+: part
  ne_nil part hpart := type.ne_nil part (List.cons_subset_cons _ (List.takeWhile_subset _) hpart)
  colon part hpart := type.colon part (List.cons_subset_cons _ (List.takeWhile_subset _) hpart)
  space part hpart := type.space part (List.cons_subset_cons _ (List.takeWhile_subset _) hpart)

theorem cleanArg_getType (type : TypeName)
    : cleanArg (UvmCall.getType type) = (beforeGetType type).text := by
  have hspace : ∀ c ∈ UvmCall.getType type, isWhitespace c = false :=
    type.not_isWhitespace_append (by decide)
  have hne : UvmCall.getType type ≠ [] := List.append_ne_nil_of_left_ne_nil type.text_ne_nil _
  have hrest := before?_getType (fun part hpart => type.ne_nil part (List.mem_cons_of_mem _ hpart))
    (fun part hpart => type.colon part (List.mem_cons_of_mem _ hpart))
  have hbefore : before? "::get_type".toList (UvmCall.getType type)
      = some (beforeGetType type).text := by
    rw [UvmCall.getType, TypeName.text_eq, List.append_assoc, TypeName.text_eq]
    exact (before?_skip (type.colon _ List.mem_cons_self) _ _).trans (congrArg _ hrest)
  rw [cleanArg, trim_of_not_isWhitespace hspace, if_neg hne, hbefore]
  exact trim_of_not_isWhitespace (beforeGetType type).not_isWhitespace

theorem text_beforeGetType_iff (type : TypeName)
    : (beforeGetType type).text = type.text ↔ ∀ part ∈ type.rest, ¬"get_type".toList <+: part := by
  let cut := type.rest.dropWhile fun part => ¬"get_type".toList <+: part
  have hrest : type.rest.flatMap ("::".toList ++ ·)
      = (beforeGetType type).rest.flatMap ("::".toList ++ ·) ++ cut.flatMap ("::".toList ++ ·) := by
    rw [← List.flatMap_append, beforeGetType, List.takeWhile_append_dropWhile]
  rw [TypeName.text_eq, TypeName.text_eq type, hrest]
  change type.first ++ _ = _ ↔ _
  rw [List.append_cancel_left_eq, List.self_eq_append_right, List.flatMap_eq_nil_iff]
  have hcut : (∀ part ∈ cut, "::".toList ++ part = []) ↔ cut = [] := by
    rw [List.eq_nil_iff_forall_not_mem]
    simp
  rw [hcut, List.dropWhile_eq_nil_iff]
  simp only [decide_eq_true_eq]

section Arguments

variable {fields : List FieldName} {args : List Text} {arguments : List Cst}

theorem filter_isExpressions {p : SyntaxKind → Bool} (hexpression : p .expression = true)
    (hcomma : p .comma = false) {nodes : List Cst} (h : Cst.IsExpressions args nodes)
    : (nodes.filter (p ·.kind)).map Cst.text = args := by
  fun_induction Cst.IsExpressions args nodes with
  | case1 nodes => simp_all
  | case2 arg nodes =>
    obtain ⟨expression, rfl, hkind, htext⟩ := h
    simp [hkind, hexpression, htext]
  | case3 arg args nodes _ ih =>
    obtain ⟨expression, comma, rest, rfl, hkind, htext, htoken, hrest⟩ := h
    simp [hkind, hexpression, htoken.1, hcomma, htext, ih rest hrest]

theorem collectArgs_eq {node : Cst} {before : List Cst}
    (hchildren : node.children = before ++ arguments)
    (hbefore : ∀ child ∈ before, child.kind ≠ .listOfArguments)
    (h : Cst.IsArguments fields args arguments)
    : collectArgs node = args := by
  obtain ⟨leftParen, lists, rightParen, rfl, hleft, _, hright, _, hlists⟩ := h
  have hinit : ∀ f : Cst → List Text,
      (before.flatMap fun child => if child.kind = .listOfArguments then f child else []) = [] :=
    fun f => List.flatMap_eq_nil_iff.mpr fun child hchild => if_neg (hbefore child hchild)
  rw [collectArgs, hchildren, List.flatMap_append, hinit, List.nil_append, List.flatMap_cons,
    List.flatMap_append]
  rw [List.flatMap_singleton, if_neg (by simp [hleft.1]), if_neg (by simp [hright.1]),
    List.nil_append, List.append_nil]
  rcases hlists with ⟨rfl, rfl⟩ | ⟨_, list, rfl, hkind, _, hexpressions⟩
  . rfl
  . rw [List.flatMap_singleton, if_pos hkind]
    exact filter_isExpressions (p := fun kind =>
      kind ≠ .comma ∧ kind ≠ .leftParen ∧ kind ≠ .rightParen
        ∧ kind ≠ .semicolon) (by decide) (by decide) hexpressions

end Arguments
section MethodCall

variable {call : UvmCall} {node : Cst}

theorem methodName_eq (h : call.IsMethodCall node) : methodName node = call.method := by
  obtain ⟨root, colons, body, name, arguments, hchildren, hroot, _, hcolons, hbody, hparts, hname,
    hfields, _⟩ := h.children
  simp [methodName, Cst.lastOf, hchildren, methodCallName, hroot, hcolons.1, hbody,
    Cst.childByFieldName, hparts, hfields, hname.2.1]

theorem classTypeText_eq (h : call.IsMethodCall node)
    : classTypeText node = join "::".toList call.scope := by
  obtain ⟨root, colons, body, name, arguments, hchildren, hroot, htext, hcolons, hbody, _⟩ :=
    h.children
  simp [classTypeText, Cst.lastOf, hchildren, hroot, htext, hcolons.1, hbody]

theorem getNthArgument_eq_none (h : call.IsMethodCall node) (index : Nat)
    : getNthArgument node index = none := by
  obtain ⟨root, colons, body, name, arguments, hchildren, hroot, _, hcolons, hbody, hparts, _,
    hfields, harguments⟩ :=
    h.children
  obtain ⟨leftParen, lists, rightParen, rfl, hleft, hfield, _⟩ := harguments
  simp [getNthArgument, hchildren, hroot, hcolons.1, hbody, Cst.childByFieldName, hparts, hfields,
    hfield, hleft.2.2]

theorem extractOverrideArgs_eq (h : call.IsMethodCall node)
    : extractOverrideArgs node = cleanOverrideArgs call.args := by
  obtain ⟨root, colons, body, name, arguments, hchildren, hroot, _, hcolons, hbody, hparts, hname,
    _, harguments⟩ :=
    h.children
  have hargs : collectArgs body = call.args := by
    have hchildren : body.children = [name] ++ arguments := hparts
    refine collectArgs_eq hchildren ?_ harguments
    simp [hname.1]
  simp [extractOverrideArgs, hchildren, hroot, hcolons.1, hbody, hargs]

end MethodCall

section TfCall

variable {call : UvmCall} {node : Cst}

theorem foldl_tfCallChild_scopes {scopes : List Cst} {parts : List Text}
    (hscopes : scopes.Forall₂ (fun scope part => scope.kind = .packageScope
      ∧ scope.text = part ++ "::".toList) parts)
    (hparts : ∀ part ∈ parts, part ≠ [] ∧ part.getLast? ≠ some ':'
      ∧ ∀ c ∈ part, isWhitespace c = false) (found : List Text × Text)
    : scopes.foldl tfCallChild found = (found.1 ++ parts, found.2) := by
  induction hscopes generalizing found with
  | nil => simp
  | @cons scope part scopes parts hscope _ ih =>
    rw [List.forall_mem_cons] at hparts
    obtain ⟨⟨hne, hlast, hspace⟩, hparts⟩ := hparts
    have hcleaned : trim (trimEndChar ':' scope.text) = part := by
      rw [hscope.2, show part ++ "::".toList = (part ++ [':']) ++ [':']
        from by simp, trimEndChar_concat, trimEndChar_concat, trim_trimEndChar hlast hspace]
    rw [List.foldl_cons, ih hparts]
    simp [tfCallChild, hscope.1, hcleaned, hne]

theorem foldl_tfCallChild_arguments {fields : List FieldName} {args : List Text}
    {arguments : List Cst} (h : Cst.IsArguments fields args arguments) (found : List Text × Text)
    : arguments.foldl tfCallChild found = found := by
  obtain ⟨leftParen, lists, rightParen, rfl, hleft, _, hright, _, hlists⟩ := h
  rcases hlists with ⟨_, rfl⟩ | ⟨_, list, rfl, hkind, _⟩
  . simp [tfCallChild, hleft.1, hright.1]
  . simp [tfCallChild, hleft.1, hright.1, hkind]

theorem isScopePart (call : UvmCall)
    : ∀ part ∈ call.scope, part ≠ [] ∧ part.getLast? ≠ some ':'
        ∧ ∀ c ∈ part, isWhitespace c = false := by
  have htypeId : ∀ c ∈ "type_id".toList, isWhitespace c = false := by decide
  have htype : ∀ (type : TypeName), ∀ part ∈ type.parts ++ ["type_id".toList],
      part ≠ [] ∧ part.getLast? ≠ some ':' ∧ ∀ c ∈ part, isWhitespace c = false := by
    intro type part hpart
    rcases List.mem_append.mp hpart with hpart | hpart
    . exact ⟨type.ne_nil part hpart,
        fun hlast => type.colon part hpart (List.mem_of_getLast? hlast), type.space part hpart⟩
    . rw [List.mem_singleton.mp hpart]
      exact ⟨by decide, by decide, htypeId⟩
  have hconfigDb : ∀ c ∈ "uvm_config_db#(".toList, isWhitespace c = false := by decide
  have hconfig : ∀ (type : TypeName),
      ∀ part ∈ ["uvm_config_db#(".toList ++ type.text ++ ")".toList],
      part ≠ [] ∧ part.getLast? ≠ some ':' ∧ ∀ c ∈ part, isWhitespace c = false := by
    intro type part hpart
    rw [List.mem_singleton.mp hpart]
    refine ⟨by simp, ?_, ?_⟩
    . rw [show ")".toList = [')'] from rfl, List.getLast?_concat]
      decide
    . rw [List.append_assoc]
      exact List.forall_mem_append.mpr ⟨hconfigDb, type.not_isWhitespace_append (by decide)⟩
  cases call with
  | create type => exact htype type
  | setTypeOverride original => exact htype original
  | setInstOverride original => exact htype original
  | configDbSet type => exact hconfig type
  | configDbGet type => exact hconfig type

theorem extractTfCallName_eq (h : call.IsTfCall node)
    : extractTfCallName node = (call.scope, call.method) := by
  obtain ⟨scopes, name, arguments, hchildren, hscopes, hname, harguments⟩ := h.children
  rw [extractTfCallName, hchildren, List.foldl_append,
    foldl_tfCallChild_scopes hscopes (isScopePart call), List.foldl_cons,
    foldl_tfCallChild_arguments harguments]
  simp [tfCallChild, hname.1, hname.2.1]

theorem collectArgs_tfCall (h : call.IsTfCall node) : collectArgs node = call.args := by
  obtain ⟨scopes, name, arguments, hchildren, hscopes, hname, harguments⟩ := h.children
  rw [List.append_cons] at hchildren
  refine collectArgs_eq hchildren ?_ harguments
  intro child hchild
  rcases List.mem_append.mp hchild with hchild | hchild
  . simp [((List.forall₂_and_left _ _).mp hscopes).1 child hchild]
  . rw [List.mem_singleton.mp hchild]
    simp [hname.1]

end TfCall

/-! ## What is recorded -/

section Recorded

variable {node : Cst} (parentId : NodeId) (s : ExtractState)

theorem recorded_methodCall
    : recorded (extractMethodCall node parentId) s
        = (Rose.labelsAll (methodCallOutline node)).map Declared.kind := by
  rw [extractMethodCall_eq, recorded_emitAll]

theorem recorded_tfCall
    : recorded (extractTfCall node parentId) s
        = (Rose.labelsAll (tfCallOutline node)).map Declared.kind := by
  rw [extractTfCall_eq, recorded_emitAll]

/-! Creations -/

theorem isFactoryCreate_eq {type : TypeName} (hmethod : methodName node = "create".toList)
    (hroot : classTypeText node = type.text ++ "::type_id".toList)
    : isFactoryCreate node = some type.text := by
  have hspace :=
    type.not_isWhitespace_append (show ∀ c ∈ "::type_id".toList, isWhitespace c = false by decide)
  have hlast : (type.text ++ "::type_id".toList).getLast? ≠ some ':' := by
    rw [show type.text ++ "::type_id".toList = (type.text ++ "::type_i".toList) ++ ['d']
      from by simp, List.getLast?_concat]
    decide
  have hne : type.text ++ "::type_id".toList ≠ "type_id".toList := by
    intro heq
    have := congrArg List.length heq
    simp at this
  rw [isFactoryCreate, hmethod, if_neg (not_not_intro rfl), hroot, trim_trimEndChar hlast hspace]
  dsimp only
  rw [if_neg hne, stripSuffix?_append, Option.bind_some,
    trim_of_not_isWhitespace type.not_isWhitespace]
  exact if_neg type.text_ne_nil

theorem recorded_methodCall_create {type : TypeName} {args : List Text}
    (h : (UvmCall.create type args).IsMethodCall node)
    : recorded (extractMethodCall node parentId) s = [.factoryCreate type.text] := by
  have hmethod : methodName node = "create".toList := methodName_eq h
  have hroot : classTypeText node = type.text ++ "::type_id".toList := by
    rw [classTypeText_eq h]
    exact join_concat _ _ _ _
  have houtline : methodCallOutline node = factoryCreateOutline node := by
    rw [methodCallOutline, hmethod]
    rfl
  rw [recorded_methodCall, houtline, factoryCreateOutline, isFactoryCreate_eq hmethod hroot]
  simp [Outline.leaf, Rose.labels]

theorem scopedTypeName_eq (type : TypeName)
    : scopedTypeName (type.parts ++ ["type_id".toList]) = type.text := by
  rw [scopedTypeName, if_pos (by simp [TypeName.parts]), List.dropLast_concat]
  rfl

theorem recorded_tfCall_create {type : TypeName} {args : List Text}
    (h : (UvmCall.create type args).IsTfCall node)
    : recorded (extractTfCall node parentId) s = [.factoryCreate type.text] := by
  have hname : extractTfCallName node = (type.parts ++ ["type_id".toList], "create".toList) :=
    extractTfCallName_eq h
  have hlast : (type.parts ++ ["type_id".toList]).getLast? = some "type_id".toList :=
    List.getLast?_concat
  have houtline : tfCallOutline node = [.leaf node (.factoryCreate type.text) .contains] := by
    rw [tfCallOutline, hname]
    dsimp only
    rw [if_neg (by simp), if_pos rfl, if_pos hlast, factoryCreateViaTfOutline, scopedTypeName_eq]
    exact if_pos type.text_ne_nil
  rw [recorded_tfCall, houtline]
  simp [Outline.leaf, Rose.labels]

/-! Overrides -/

section Overrides

variable {call : UvmCall}
  (hmethod : call.method = "set_type_override".toList ∨ call.method = "set_inst_override".toList)

include hmethod

theorem isFactoryOverride_eq (h : call.IsMethodCall node)
    : isFactoryOverride node = cleanOverrideArgs call.args := by
  rw [isFactoryOverride, methodName_eq h, extractOverrideArgs_eq h]
  exact if_neg fun hne => hmethod.elim hne.1 hne.2

theorem methodCallOutline_override (h : call.IsMethodCall node)
    : methodCallOutline node = factoryOverrideOutline node := by
  rw [methodCallOutline, methodName_eq h]
  cases hmethod with
  | inl hmethod =>
    rw [hmethod]
    rfl
  | inr hmethod =>
    rw [hmethod]
    rfl

theorem recorded_tfCall_override {original override : TypeName} {args : List Text}
    (h : call.IsTfCall node) (hscope : call.scope = original.parts ++ ["type_id".toList])
    (hargs : call.args = UvmCall.getType override :: args)
    : recorded (extractTfCall node parentId) s
        = [.factoryOverride original.text (beforeGetType override).text] := by
  have hname : extractTfCallName node = (original.parts ++ ["type_id".toList], call.method) := by
    rw [extractTfCallName_eq h, hscope]
  have hoverride : overrideViaTf node (original.parts ++ ["type_id".toList])
      = some (original.text, (beforeGetType override).text) := by
    have hscoped : join "::".toList original.parts ≠ [] ∧ (beforeGetType override).text ≠ [] :=
      ⟨original.text_ne_nil, (beforeGetType override).text_ne_nil⟩
    rw [overrideViaTf, collectArgs_tfCall h, hargs, scopedOverride,
      if_pos ⟨by simp [TypeName.parts], List.getLast?_concat⟩, List.dropLast_concat]
    simp only [List.head?_cons, Option.map_some, cleanArg_getType, Option.getD_some, if_pos hscoped]
    rfl
  have houtline : tfCallOutline node
      = factoryOverrideViaTfOutline node (original.parts ++ ["type_id".toList]) := by
    rw [tfCallOutline, hname]
    cases hmethod with
    | inl hmethod =>
      rw [hmethod]
      rfl
    | inr hmethod =>
      rw [hmethod]
      rfl
  rw [recorded_tfCall, houtline, factoryOverrideViaTfOutline, hoverride]
  simp [Outline.leaf, Rose.labels]

end Overrides

theorem recorded_methodCall_typeOverride {original override : TypeName}
    (h : (UvmCall.setTypeOverride original override).IsMethodCall node)
    : recorded (extractMethodCall node parentId) s = [] := by
  rw [recorded_methodCall, methodCallOutline_override (Or.inl rfl) h, factoryOverrideOutline,
    isFactoryOverride_eq (Or.inl rfl) h]
  rfl

theorem recorded_methodCall_instOverride {original override : TypeName} {path : Text}
    (h : (UvmCall.setInstOverride original override path).IsMethodCall node)
    : recorded (extractMethodCall node parentId) s
        =
      if cleanArg path = [] then []
        else [.factoryOverride (beforeGetType override).text (cleanArg path)] := by
  have hne := (beforeGetType override).text_ne_nil
  rw [recorded_methodCall, methodCallOutline_override (Or.inr rfl) h, factoryOverrideOutline,
    isFactoryOverride_eq (Or.inr rfl) h, UvmCall.args, cleanOverrideArgs, cleanArg_getType]
  by_cases hpath : cleanArg path = []
  . simp [hpath]
  . simp [hpath, hne, Outline.leaf, Rose.labels]

/-! Accesses to the config db -/

theorem extractConfigDbField_methodCall {call : UvmCall} (h : call.IsMethodCall node) (name : Text)
    : extractConfigDbField node name = none := by
  rw [extractConfigDbField, getNthArgument_eq_none h]
  exact ite_self none

theorem configDbOutlines_eq_nil (hfield : ∀ name, extractConfigDbField node name = none)
    : configDbSetOutline node = [] ∧ configDbGetOutline node = [] := by
  simp [configDbSetOutline, isUvmConfigDbSet, configDbGetOutline, isUvmConfigDbGet, hfield]

theorem recorded_methodCall_configDb {call : UvmCall} (h : call.IsMethodCall node)
    (hmethod : call.method = "set".toList ∨ call.method = "get".toList)
    : recorded (extractMethodCall node parentId) s = [] := by
  obtain ⟨hset, hget⟩ := configDbOutlines_eq_nil (extractConfigDbField_methodCall h)
  have houtline : methodCallOutline node = [] := by
    rw [methodCallOutline, methodName_eq h]
    cases hmethod with
    | inl hmethod =>
      rw [hmethod]
      exact hset
    | inr hmethod =>
      rw [hmethod]
      exact hget
  rw [recorded_methodCall, houtline]
  rfl

end Recorded

-- Both syntax trees of a call give one node, with what the call says
def RecordedAlike (call : UvmCall) (methodCall tfCall : Cst) (parentId : NodeId) (s : ExtractState)
    : Prop :=
  recorded (extractMethodCall methodCall parentId) s = [call.kind]
    ∧ recorded (extractTfCall tfCall parentId) s = [call.kind]

def IsCreateOrIdentity : UvmCall → Prop
  | .create _ _ => True
  | .setInstOverride original override path =>
    original.text = override.text ∧ (∀ part ∈ override.rest, ¬"get_type".toList <+: part)
      ∧ cleanArg path = override.text
  | _ => False

/--
A UVM call is recorded alike from its two syntax trees exactly if it creates an object, or if it
overrides a type by itself on a path that spells the type once more. Type overrides and accesses to
the config db give no node from a `method_call`, and there the path of an instance override is taken
for the type.
-/
theorem recordedAlike_iff {call : UvmCall} {methodCall tfCall : Cst}
    (hmethodCall : call.IsMethodCall methodCall) (htfCall : call.IsTfCall tfCall)
    (parentId : NodeId) (s : ExtractState)
    : RecordedAlike call methodCall tfCall parentId s ↔ IsCreateOrIdentity call := by
  unfold RecordedAlike
  cases call with
  | create type args =>
    rw [recorded_methodCall_create parentId s hmethodCall,
      recorded_tfCall_create parentId s htfCall]
    simp [UvmCall.kind, IsCreateOrIdentity]
  | setTypeOverride original override =>
    rw [recorded_methodCall_typeOverride parentId s hmethodCall]
    simp [IsCreateOrIdentity]
  | setInstOverride original override path =>
    rw [recorded_methodCall_instOverride parentId s hmethodCall,
      recorded_tfCall_override parentId s (Or.inr rfl) htfCall rfl rfl, IsCreateOrIdentity,
        ← text_beforeGetType_iff]
    have hne := override.text_ne_nil
    by_cases hpath : cleanArg path = []
    . simp [hpath, hne.symm]
    . simp only [hpath, if_false, UvmCall.kind, List.cons.injEq, NodeKind.factoryOverride.injEq,
        and_true, true_and]
      constructor
      . intro ⟨⟨horiginal, hoverride⟩, htype⟩
        exact ⟨horiginal.symm.trans htype, htype, hoverride⟩
      . intro ⟨horiginal, htype, hoverride⟩
        exact ⟨⟨htype.trans horiginal.symm, hoverride⟩, htype⟩
  | configDbSet type context path field value =>
    rw [recorded_methodCall_configDb parentId s hmethodCall (Or.inl rfl)]
    simp [IsCreateOrIdentity]
  | configDbGet type context path field value =>
    rw [recorded_methodCall_configDb parentId s hmethodCall (Or.inr rfl)]
    simp [IsCreateOrIdentity]

def plainType (name : Text) (hname : name ≠ [] ∧ ':' ∉ name ∧ ∀ c ∈ name, isWhitespace c = false)
    : TypeName where
  first := name
  rest := []
  ne_nil := by simpa using hname.1
  colon := by simpa using hname.2.1
  space := by simpa using hname.2.2

def driver : TypeName := plainType "driver".toList (by decide)

def mock : TypeName := plainType "mock".toList (by decide)

theorem recordedAlike_driverCreate
    : RecordedAlike (.create driver ["\"drv\"".toList, "this".toList])
        (UvmCall.create driver ["\"drv\"".toList, "this".toList]).methodCallTree
        (UvmCall.create driver ["\"drv\"".toList, "this".toList]).tfCallTree 1 ⟨.new, [], []⟩ :=
  (recordedAlike_iff (UvmCall.isMethodCall_methodCallTree _) (UvmCall.isTfCall_tfCallTree _) 1
    ⟨.new, [], []⟩).mpr trivial

-- `driver::type_id::set_type_override(mock::get_type())` gives a node from one of its trees only
theorem not_recordedAlike_driverOverride
    : (UvmCall.setTypeOverride driver mock).IsMethodCall
        (UvmCall.setTypeOverride driver mock).methodCallTree
      ∧ (UvmCall.setTypeOverride driver mock).IsTfCall
        (UvmCall.setTypeOverride driver mock).tfCallTree
      ∧ recorded (extractTfCall (UvmCall.setTypeOverride driver mock).tfCallTree 1) ⟨.new, [], []⟩
          = [.factoryOverride "driver".toList "mock".toList]
      ∧ ¬RecordedAlike (.setTypeOverride driver mock)
        (UvmCall.setTypeOverride driver mock).methodCallTree
          (UvmCall.setTypeOverride driver mock).tfCallTree 1 ⟨.new, [], []⟩ := by
  have hmethodCall := UvmCall.isMethodCall_methodCallTree (.setTypeOverride driver mock)
  have htfCall := UvmCall.isTfCall_tfCallTree (.setTypeOverride driver mock)
  refine ⟨hmethodCall, htfCall, ?_, ?_⟩
  . exact recorded_tfCall_override 1 ⟨.new, [], []⟩ (Or.inl rfl) htfCall rfl rfl
  . intro h
    rw [RecordedAlike, recorded_methodCall_typeOverride 1 ⟨.new, [], []⟩ hmethodCall] at h
    simp at h

end GraphExtractor
end HdlGraph
