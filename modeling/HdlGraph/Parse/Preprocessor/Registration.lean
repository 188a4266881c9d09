import HdlGraph.Parse.Extractor.RegistryType
import HdlGraph.Parse.Preprocessor.Pass3Expander

/-!
This module contains the way of a factory registration through the preprocessor and back: the call
of a registration macro is scanned, its arguments are split, the typedef is written and the
extractor reads the type name and the base type of it. It ends with the exact condition under which
the type of the call is the one that is read.
-/

namespace HdlGraph
namespace Registration

open Text Brackets Pass2Scanner Pass3Expander GraphExtractor

inductive RegistrationMacro where
  | componentUtils
  | objectUtils
  | componentParamUtils
  | objectParamUtils
  | objectUtilsBegin
  | componentUtilsBegin
deriving DecidableEq, Repr

namespace RegistrationMacro

def name : RegistrationMacro → Text
  | componentUtils => "uvm_component_utils".toList
  | objectUtils => "uvm_object_utils".toList
  | componentParamUtils => "uvm_component_param_utils".toList
  | objectParamUtils => "uvm_object_param_utils".toList
  | objectUtilsBegin => "uvm_object_utils_begin".toList
  | componentUtilsBegin => "uvm_component_utils_begin".toList

def all : List RegistrationMacro :=
  [componentUtils, objectUtils, componentParamUtils, objectParamUtils, objectUtilsBegin,
    componentUtilsBegin]

def isBegin : RegistrationMacro → Bool
  | objectUtilsBegin | componentUtilsBegin => true
  | _ => false

def isComponent : RegistrationMacro → Bool
  | componentUtils | componentParamUtils | componentUtilsBegin => true
  | _ => false

def registry (m : RegistrationMacro) : String :=
  if m.isComponent then "uvm_component_registry" else "uvm_object_registry"

def baseType (m : RegistrationMacro) : Text :=
  if m.isComponent then "uvm_component".toList else "uvm_object".toList

theorem all_nodup : all.Nodup := by decide

theorem mem_all (m : RegistrationMacro) : m ∈ all := by cases m <;> decide

end RegistrationMacro

def registrationNames : List Text := RegistrationMacro.all.map RegistrationMacro.name

def firstLine (s : Text) : Text := s.takeWhile (· ≠ '\n')

def registryTypedefs (st : Expansion) : List Text :=
  (located st).filterMap fun (macroName, expansion) =>
    if registrationNames.contains macroName then expansion.map firstLine else none

def callLine (m : RegistrationMacro) (t : Text) : Text := '`' :: (m.name ++ '(' :: (t ++ [')']))

/-- One typedef comes out of the line, and the type and the base are read back from it. -/
def Survives (m : RegistrationMacro) (t : Text) : Prop :=
  ∃ typedef, registryTypedefs (expand (callLine m t) (scan (callLine m t))) = [typedef]
    ∧ factoryRegistrationOf typedef = some (trim t, m.baseType)

structure IsTypeText (t : Text) : Prop where
  balancedParens : Balanced parens t
  balancedSquares : Balanced squares t
  balancedBraces : Balanced braces t
  noComma : NoneOutside brackets ',' 0 t
  oneLine : '\n' ∉ t

/-- When the registration comes through. -/
structure Regular (m : RegistrationMacro) (t : Text) : Prop where
  -- a `_begin` macro is found as the macro without `_begin` too
  notBegin : m.isBegin = false
  notBlank : trim t ≠ []
  -- the arguments are split at commas that only square brackets or braces enclose
  noComma : NoneOutside parens ',' 0 t
  noOther : ∀ m', m' ≠ m → contains t ('`' :: m'.name) = false
  -- the name of the component registry is looked for first, in the whole typedef
  noComponent : m.isComponent = false → contains (trim t) "uvm_component_registry".toList = false

/-! ## The calls of the line -/

theorem filter_uvmNames : uvmNames.filter (· ∈ registrationNames) = registrationNames := by
  decide +kernel

def typedefOf (line : Text) (m : RegistrationMacro) : Option Text :=
  (find? ('`' :: m.name) line).map fun (_, rest) =>
    firstLine (expandOne m.name (extractArgs (trim rest) 0).1)

theorem firstLine_append_newline (s : Text) : firstLine (s ++ ['\n']) = firstLine s := by
  unfold firstLine
  rw [List.takeWhile_append]
  split
  . next h =>
    rw [(List.takeWhile_prefix _).eq_of_length h]
    simp
  . rfl

theorem registryTypedefs_eq {line : Text} (hline : '\n' ∉ line) (hne : line ≠ [])
    : registryTypedefs (expand line (scan line))
        = RegistrationMacro.all.filterMap (typedefOf line) := by
  unfold registryTypedefs
  rw [located_expand_scan, scan, lines_eq_singleton hline hne]
  simp only [List.zipIdx_singleton, List.flatMap_cons, List.flatMap_nil, List.append_nil,
    List.filterMap_map, List.filterMap_filterMap]
  have hnames : RegistrationMacro.all.filterMap (typedefOf line)
      = registrationNames.filterMap fun name =>
          (find? ('`' :: name) line).map fun (_, rest) =>
            firstLine (expandOne name (extractArgs (trim rest) 0).1) := by
    unfold registrationNames
    rw [List.filterMap_map]
    rfl
  rw [hnames, ← filter_uvmNames, List.filterMap_filter]
  apply List.filterMap_congr
  intro name hmem
  unfold scanName expansionOf
  cases find? ('`' :: name) line with
  | none => simp
  | some found =>
    by_cases hname : name ∈ registrationNames
    . simp [hname, hmem, firstLine_append_newline]
    . simp [hname]

/-! ## The other registration macros -/

theorem contains_callLine (m m' : RegistrationMacro) (t : Text)
    : contains (callLine m t) ('`' :: m'.name)
      = (contains ('`' :: m.name) ('`' :: m'.name) || contains t ('`' :: m'.name)) := by
  have hopen : '(' ∉ '`' :: m'.name := by cases m' <;> decide
  have hclose : ')' ∉ '`' :: m'.name := by cases m' <;> decide
  unfold callLine
  rw [← List.cons_append, contains_append_cons hopen, contains_append_cons hclose, ← Bool.or_assoc]
  cases m' <;> simp [contains, find?]

theorem contains_name {m m' : RegistrationMacro} (hm : m.isBegin = false) (hne : m' ≠ m)
    : contains ('`' :: m.name) ('`' :: m'.name) = false := by
  have hall : ∀ m ∈ RegistrationMacro.all, ∀ m' ∈ RegistrationMacro.all,
      m.isBegin = false → m' ≠ m →
      contains ('`' :: m.name) ('`' :: m'.name) = false := by
    decide +kernel
  exact hall m m.mem_all m' m'.mem_all hm hne

theorem exists_contains_name {m : RegistrationMacro} (hm : m.isBegin = true)
    : ∃ m', m' ≠ m ∧ contains ('`' :: m.name) ('`' :: m'.name) = true := by
  cases m with
  | objectUtilsBegin => exact ⟨.objectUtils, by decide, by decide⟩
  | componentUtilsBegin => exact ⟨.componentUtils, by decide, by decide⟩
  | _ => contradiction

theorem filterMap_eq_singleton_iff {κ β : Type} {f : κ → Option β} {ks : List κ} (hks : ks.Nodup)
    {k : κ} {b : β} (hk : k ∈ ks) (hb : f k = some b) (x : β)
    : ks.filterMap f = [x] ↔ x = b ∧ ∀ k' ∈ ks, k' ≠ k → f k' = none := by
  have ⟨front, back, heq⟩ := List.append_of_mem hk
  subst heq
  have hnodup := List.nodup_append.mp hks
  rw [List.filterMap_append, List.filterMap_cons_some hb]
  rw [List.append_eq_singleton_iff]
  simp
  grind

theorem typedefOf_isSome (line : Text) (m : RegistrationMacro)
    : (typedefOf line m).isSome = contains line ('`' :: m.name) := by
  simp [typedefOf, contains]

/-! ## The scanners and the depth of brackets -/

theorem step_brackets_eq (c : Char)
    : step brackets c = step parens c + (step squares c + step braces c) := by
  simp only [step, brackets, parens, squares, braces, List.map_cons, List.map_nil, List.mem_cons,
    List.not_mem_nil]
  grind

theorem step_eq_zero_of_isWhitespace {c : Char} (h : isWhitespace c)
    : step parens c = 0 ∧ step brackets c = 0 := by
  rw [step_parens, step_brackets]
  constructor
  . split
    . next hc => subst hc; contradiction
    . split
      . next hc => subst hc; contradiction
      . rfl
  . split
    . next hc => rcases hc with hc | hc | hc <;> subst hc <;> contradiction
    . split
      . next hc => rcases hc with hc | hc | hc <;> subst hc <;> contradiction
      . rfl

theorem extractArgsLoop_append {u : Text} {d : Int} (hbelow : NeverBelow parens d u)
    (hcomma : NoneOutside parens ',' d u) {depth depth' : Nat} (hdepth : (depth : Int) = d + 1)
    (hdepth' : (depth' : Int) = d + rise parens u + 1) (current v : Text)
    : extractArgsLoop depth current (u ++ v) = extractArgsLoop depth' (current ++ u) v := by
  induction u generalizing d depth current with
  | nil =>
    have : depth' = depth := by
      simp only [rise_nil] at hdepth'
      omega
    simp [this]
  | cons c u ih =>
    have hstep := step_parens c
    have hge := hbelow.1
    rw [rise_cons] at hdepth'
    rw [List.cons_append, extractArgsLoop]
    split
    . next hc =>
      rw [if_pos hc] at hstep
      rw [ih hbelow.2 hcomma.2 (by omega) (by omega), hc]
      simp
    . next hopen =>
      rw [if_neg hopen] at hstep
      split
      . next hc =>
        rw [if_pos hc] at hstep
        rw [if_neg (by omega), ih hbelow.2 hcomma.2 (by omega) (by omega), hc]
        simp
      . next hclose =>
        rw [if_neg hclose] at hstep
        have hsep : ¬(c = ',' ∧ depth = 1) := by
          rintro ⟨hc, hone⟩
          exact hcomma.1 hc (by omega)
        rw [if_neg hsep, ih hbelow.2 hcomma.2 (by omega) (by omega)]
        simp

def Blind (kinds : List (Char × Char)) : Prop := ∀ c, isWhitespace c → step kinds c = 0

theorem blind_parens : Blind parens := fun _ h => (step_eq_zero_of_isWhitespace h).1

theorem blind_brackets : Blind brackets := fun _ h => (step_eq_zero_of_isWhitespace h).2

section

variable {kinds : List (Char × Char)}

theorem Blind.rise_trim (h : Blind kinds) (u : Text) : rise kinds (trim u) = rise kinds u := by
  have ⟨lead, trail, hu, hlead, htrail⟩ := exists_eq_append_trim u
  have hlead := rise_eq_zero fun c hc => h c (hlead c hc)
  have htrail := rise_eq_zero fun c hc => h c (htrail c hc)
  have := congrArg (rise kinds) hu
  simp only [rise_append, hlead, htrail] at this
  omega

theorem Blind.neverBelow_trim (h : Blind kinds) {d : Int} {u : Text} (hu : NeverBelow kinds d u)
    : NeverBelow kinds d (trim u) := by
  have ⟨lead, trail, heq, hlead, _⟩ := exists_eq_append_trim u
  rw [heq, neverBelow_append, neverBelow_append, rise_eq_zero fun c hc => h c (hlead c hc),
    add_zero] at hu
  exact hu.1.2

theorem Blind.balanced_trim (h : Blind kinds) {u : Text} (hu : Balanced kinds u)
    : Balanced kinds (trim u) :=
  ⟨h.neverBelow_trim hu.neverBelow, (h.rise_trim u).trans hu.rise_eq⟩

theorem Blind.noneOutside_trim (h : Blind kinds) {sep : Char} {d : Int} {u : Text}
    (hu : NoneOutside kinds sep d u)
    : NoneOutside kinds sep d (trim u) := by
  have ⟨lead, trail, heq, hlead, _⟩ := exists_eq_append_trim u
  rw [heq, noneOutside_append, noneOutside_append, rise_eq_zero fun c hc => h c (hlead c hc),
    add_zero] at hu
  exact hu.1.2

end

theorem newline_not_mem_trim {u : Text} (h : '\n' ∉ u) : '\n' ∉ trim u := by
  have ⟨lead, trail, hu, _, _⟩ := exists_eq_append_trim u
  rw [hu] at h
  simp only [List.mem_append, not_or] at h
  exact h.1.2

/-! ## Reading the typedef back -/

def typedefParams (u : Text) : Text := u ++ (", \"".toList ++ (u ++ ['"']))

theorem registryTypedef_eq (registry : String) (u : Text)
    : registryTypedef registry u
        = ("typedef ".toList ++ registry.toList ++ [' '])
            ++ ('#' :: ['('] ++ (typedefParams u ++ ')' :: " type_id;".toList)) := by
  have hopen : " #(".toList = [' ', '#', '('] := rfl
  have hclose : "\") type_id;".toList = '"' :: ')' :: " type_id;".toList := rfl
  unfold registryTypedef typedefParams
  rw [hopen, hclose]
  simp only [List.append_assoc, List.cons_append, List.nil_append]

theorem isParamList_registryTypedef {registry : String} (hregistry : '#' ∉ registry.toList)
    {u : Text} (hu : Balanced parens u)
    : IsParamList (registryTypedef registry u) (typedefParams u) := by
  have hfront : '#' ∉ "typedef ".toList ++ registry.toList ++ [' '] := by simp [hregistry]
  have hfirst : contains ("typedef ".toList ++ registry.toList ++ [' ']) "#(".toList = false := by
    rw [← Bool.not_eq_true, contains_iff]
    exact fun hopen => hfront (hopen.subset (by decide))
  have hsep : Balanced parens ", \"".toList := by decide
  have hquote : Balanced parens ['"'] := by decide
  exact ⟨_, _, registryTypedef_eq registry u, hfirst, hu.append (hsep.append (hu.append hquote))⟩

theorem contains_component_registryTypedef (m : RegistrationMacro) (u : Text)
    : contains (registryTypedef m.registry u) "uvm_component_registry".toList
        = (m.isComponent || contains u "uvm_component_registry".toList) := by
  have hparts : registryTypedef m.registry u
      = ("typedef ".toList ++ m.registry.toList ++ " #".toList)
          ++ '(' :: (u ++ ',' :: ([' '] ++ '"' :: (u ++ '"' :: ") type_id;".toList))) := by
    have hopen : " #(".toList = " #".toList ++ ['('] := rfl
    have hcomma : ", \"".toList = [',', ' ', '"'] := rfl
    have hclose : "\") type_id;".toList = '"' :: ") type_id;".toList := rfl
    unfold registryTypedef
    rw [hopen, hcomma, hclose]
    simp only [List.append_assoc, List.cons_append, List.nil_append]
  have hfront : contains ("typedef ".toList ++ m.registry.toList ++ " #".toList)
        "uvm_component_registry".toList
      = m.isComponent := by
    cases m <;> decide +kernel
  have hspace : contains [' '] "uvm_component_registry".toList = false := by decide
  have hback : contains ") type_id;".toList "uvm_component_registry".toList = false := by decide
  rw [hparts, contains_append_cons (by decide), contains_append_cons (by decide),
    contains_append_cons (by decide), contains_append_cons (by decide), hfront, hspace, hback]
  simp

theorem registryBaseType_registryTypedef (m : RegistrationMacro) (u : Text)
    : registryBaseType (registryTypedef m.registry u)
        = some (if m.isComponent || contains u "uvm_component_registry".toList
            then "uvm_component".toList
            else "uvm_object".toList) := by
  unfold registryBaseType
  rw [contains_component_registryTypedef]
  split
  . rfl
  . next h =>
    have hobject : m.registry = "uvm_object_registry" := by
      have : m.isComponent = false := by simp_all
      simp [RegistrationMacro.registry, this]
    have hcontains : contains (registryTypedef m.registry u) "uvm_object_registry".toList
        = true := by
      rw [contains_iff, hobject]
      unfold registryTypedef
      simp only [List.append_assoc]
      exact ⟨_, _, List.append_assoc _ _ _⟩
    rw [if_pos hcontains]

theorem factoryRegistrationOf_registryTypedef (m : RegistrationMacro) (u name : Text)
    : factoryRegistrationOf (registryTypedef m.registry u) = some (name, m.baseType)
      ↔ parseRegistryTypeName (registryTypedef m.registry u) = some name
          ∧ (m.isComponent = false → contains u "uvm_component_registry".toList = false) := by
  unfold factoryRegistrationOf
  rw [registryBaseType_registryTypedef]
  simp only [Option.bind_eq_bind, Option.bind_some, Option.bind_eq_some_iff, Option.pure_def,
    Option.some.injEq, Prod.mk.injEq]
  unfold RegistrationMacro.baseType
  cases m.isComponent <;> cases contains u "uvm_component_registry".toList <;> simp

/-! ## The argument of the call -/

def argumentOf (t : Text) : Text := arg (extractArgsLoop 1 [] (t ++ [')'])).1 0 "T"

theorem newline_not_mem_registryTypedef {m : RegistrationMacro} {u : Text} (h : '\n' ∉ u)
    : '\n' ∉ registryTypedef m.registry u := by
  have hregistry : '\n' ∉ m.registry.toList := by cases m <;> decide
  unfold registryTypedef
  simp [h, hregistry]

theorem expandOne_name {m : RegistrationMacro} (hm : m.isBegin = false) (args : List Text)
    : ∃ more, expandOne m.name args = registryTypedef m.registry (arg args 0 "T")
        ++ '\n' :: more := by
  cases m with
  | componentUtils => exact ⟨_, List.append_assoc _ _ _⟩
  | objectUtils => exact ⟨_, List.append_assoc _ _ _⟩
  | componentParamUtils => exact ⟨_, rfl⟩
  | objectParamUtils => exact ⟨_, rfl⟩
  | objectUtilsBegin => contradiction
  | componentUtilsBegin => contradiction

theorem newline_not_mem_args {s : Text} (h : '\n' ∉ s) (depth : Nat) {current : Text}
    (hcurrent : '\n' ∉ current)
    : ∀ a ∈ (extractArgsLoop depth current s).1, '\n' ∉ a := by
  induction s generalizing depth current with
  | nil => simp [extractArgsLoop]
  | cons c rest ih =>
    have hrest := List.not_mem_of_not_mem_cons h
    have hpush (d : Char) (hd : d ≠ '\n') : '\n' ∉ current ++ [d] := by simp [hcurrent, hd.symm]
    rw [extractArgsLoop]
    split
    . exact ih hrest _ (hpush '(' (by decide))
    . split
      . split
        . intro a ha
          split at ha
          . rw [List.mem_singleton.mp ha]
            exact newline_not_mem_trim hcurrent
          . contradiction
        . exact ih hrest _ (hpush ')' (by decide))
      . split
        . intro a ha
          cases ha with
          | head => exact newline_not_mem_trim hcurrent
          | tail _ ha => exact ih hrest _ List.not_mem_nil a ha
        . exact ih hrest _ (hpush c (List.ne_of_not_mem_cons h).symm)

theorem newline_not_mem_argumentOf {t : Text} (h : '\n' ∉ t) : '\n' ∉ argumentOf t := by
  have hargs := newline_not_mem_args (s := t ++ [')']) (by simp [h]) 1 List.not_mem_nil
  unfold argumentOf arg
  cases hfirst : (extractArgsLoop 1 [] (t ++ [')'])).1[0]? with
  | none => decide
  | some a => exact hargs a (List.mem_of_getElem? hfirst)

theorem firstLine_append {s : Text} (h : '\n' ∉ s) (more : Text)
    : firstLine (s ++ '\n' :: more) = s := by
  unfold firstLine
  rw [List.takeWhile_append_of_pos]
  . simp
  . intro c hc
    have hne : c ≠ '\n' := fun heq => h (heq ▸ hc)
    simpa using hne

theorem typedefOf_callLine {m : RegistrationMacro} (hm : m.isBegin = false) {t : Text}
    (h : '\n' ∉ argumentOf t)
    : typedefOf (callLine m t) m = some (registryTypedef m.registry (argumentOf t)) := by
  have htick : '`' ∉ m.name := by cases m <;> decide
  have hnil : contains [] ('`' :: m.name) = false := rfl
  have hfind : find? ('`' :: m.name) (callLine m t) = some (0, '(' :: (t ++ [')'])) :=
    find?_append_of_not_contains htick hnil ('(' :: (t ++ [')']))
  have htrim : trim ('(' :: (t ++ [')'])) = '(' :: (t ++ [')']) := by
    apply trim_eq_self
    . simp [isWhitespace]
    . rw [← List.cons_append, List.getLast?_append_of_ne_nil _ (by simp)]
      simp [isWhitespace]
  have hargs : (extractArgs ('(' :: (t ++ [')'])) 0).1 = (extractArgsLoop 1 [] (t ++ [')'])).1 :=
    rfl
  obtain ⟨more, hexpand⟩ := expandOne_name hm (extractArgsLoop 1 [] (t ++ [')'])).1
  unfold typedefOf
  simp only [hfind, Option.map_some, htrim, hargs, hexpand]
  exact congrArg some (firstLine_append (newline_not_mem_registryTypedef h) more)

theorem argumentOf_eq {t : Text} (ht : Balanced parens t) (hcomma : NoneOutside parens ',' 0 t)
    (hne : trim t ≠ [])
    : argumentOf t = trim t := by
  have hdepth : ((1 : Nat) : Int) = 0 + rise parens t + 1 := by
    rw [ht.rise_eq]
    rfl
  unfold argumentOf
  rw [extractArgsLoop_append ht.neverBelow hcomma rfl hdepth, extractArgsLoop]
  simp [hne, arg]

theorem argumentOf_eq_front {front back : Text} (ht : Balanced parens (front ++ ',' :: back))
    (hcomma : NoneOutside parens ',' 0 front) (hrise : rise parens front = 0)
    : argumentOf (front ++ ',' :: back) = trim front := by
  have hdepth : ((1 : Nat) : Int) = 0 + rise parens front + 1 := by
    rw [hrise]
    rfl
  have hbelow := ((neverBelow_append _ _).mp ht.neverBelow).1
  unfold argumentOf
  rw [List.append_assoc, extractArgsLoop_append hbelow hcomma rfl hdepth, List.cons_append,
    extractArgsLoop]
  simp [arg]

/-! ## The type that is read back -/

theorem firstParam_typedefParams {u : Text} (hcomma : NoneOutside brackets ',' 0 u)
    (hrise : rise brackets u = 0)
    : firstParam 0 (typedefParams u) = u :=
  firstParam_eq_iff.mpr ⟨hcomma, Or.inr ⟨_, rfl, by rw [hrise]; rfl⟩⟩

theorem firstParam_typedefParams_of_open {u : Text} (hbelow : NeverBelow brackets 0 u)
    (hcomma : NoneOutside brackets ',' 0 u) (hrise : 0 < rise brackets u)
    : firstParam 0 (typedefParams u) = typedefParams u := by
  have hsep : rise brackets ", \"".toList = 0 := by decide
  have hparams : NoneOutside brackets ',' 0 (typedefParams u) := by
    unfold typedefParams
    simp only [noneOutside_append, hsep, zero_add, add_zero]
    refine ⟨hcomma, ?_, by simpa using hbelow.noneOutside (le_refl 0) hrise, ?_⟩
    . have hnone : NeverBelow brackets 0 ", \"".toList := by decide
      simpa using hnone.noneOutside (le_refl 0) hrise
    . simp [NoneOutside]
  exact firstParam_eq_iff.mpr ⟨hparams, Or.inl rfl⟩

theorem rise_typedefParams (u : Text) : rise brackets (typedefParams u) = 2 * rise brackets u := by
  have hsep : rise brackets ", \"".toList = 0 := by decide
  have hquote : rise brackets ['"'] = 0 := by decide
  unfold typedefParams
  simp only [rise_append, hsep, hquote]
  omega

theorem IsTypeText.balancedBrackets {t : Text} (ht : IsTypeText t) : Balanced brackets t := by
  have hsum : ∀ c, step (squares ++ braces) c = step squares c + step braces c := by
    intro c
    simp only [step, squares, braces, List.map_append, List.map_cons, List.map_nil]
    grind
  have hall : ∀ c, step brackets c = step parens c + step (squares ++ braces) c := by
    intro c
    rw [hsum, step_brackets_eq]
  constructor
  . exact ht.balancedParens.neverBelow.add hall
      (ht.balancedSquares.neverBelow.add hsum ht.balancedBraces.neverBelow)
  . rw [rise_add hall, rise_add hsum, ht.balancedParens.rise_eq, ht.balancedSquares.rise_eq,
      ht.balancedBraces.rise_eq]
    rfl

theorem parseRegistryTypeName_argumentOf (m : RegistrationMacro) {t : Text} (ht : IsTypeText t)
    (hne : trim t ≠ [])
    : parseRegistryTypeName (registryTypedef m.registry (argumentOf t)) = some (trim t)
      ↔ NoneOutside parens ',' 0 t := by
  have hregistry : '#' ∉ m.registry.toList := by cases m <;> decide
  constructor
  . intro h
    by_contra hcomma
    have ⟨front, back, heq, hfront, hrise⟩ := exists_of_not_noneOutside hcomma
    rw [zero_add] at hrise
    have hall := ht.balancedBrackets
    have hparens := ht.balancedParens
    have hnone := ht.noComma
    rw [heq] at hall hparens hnone
    have hbelow := ((neverBelow_append _ _).mp hall.neverBelow).1
    have hpos : 0 < rise brackets front := by
      -- the comma behind the front is within some brackets
      have hcomma := ((noneOutside_append _ _).mp hnone).2.1 rfl
      have := hbelow.rise_nonneg (le_refl 0)
      omega
    have hcut := firstParam_typedefParams_of_open (blind_brackets.neverBelow_trim hbelow)
      (blind_brackets.noneOutside_trim ((noneOutside_append _ _).mp hnone).1)
      (by rwa [blind_brackets.rise_trim])
    have hbalanced :=
      blind_parens.balanced_trim ⟨((neverBelow_append _ _).mp hparens.neverBelow).1, hrise⟩
    rw [heq, argumentOf_eq_front hparens hfront hrise, ← heq,
      parseRegistryTypeName_of_isParamList (isParamList_registryTypedef hregistry hbalanced),
        hcut] at h
    split at h
    . contradiction
    . have := congrArg (rise brackets) (Option.some.inj h)
      rw [blind_brackets.rise_trim, blind_brackets.rise_trim, rise_typedefParams,
        blind_brackets.rise_trim, ht.balancedBrackets.rise_eq] at this
      omega
  . intro hcomma
    have hbalanced := blind_parens.balanced_trim ht.balancedParens
    have hparam := firstParam_typedefParams (blind_brackets.noneOutside_trim ht.noComma)
      (blind_brackets.balanced_trim ht.balancedBrackets).rise_eq
    rw [argumentOf_eq ht.balancedParens hcomma hne,
      parseRegistryTypeName_of_isParamList (isParamList_registryTypedef hregistry hbalanced),
        hparam, trim_trim, if_neg hne]

theorem contains_callLine_eq_false_iff (m : RegistrationMacro) (t : Text)
    : (∀ m', m' ≠ m → contains (callLine m t) ('`' :: m'.name) = false)
      ↔ m.isBegin = false ∧ ∀ m', m' ≠ m → contains t ('`' :: m'.name) = false := by
  simp only [contains_callLine, Bool.or_eq_false_iff]
  constructor
  . intro h
    constructor
    . by_contra hm
      have ⟨m', hne, hcontains⟩ := exists_contains_name (Bool.eq_true_of_not_eq_false hm)
      rw [(h m' hne).1] at hcontains
      contradiction
    . intro m' hne
      exact (h m' hne).2
  . intro h m' hne
    exact ⟨contains_name h.1 hne, h.2 m' hne⟩

theorem registryTypedefs_callLine {m : RegistrationMacro} {t : Text} (ht : IsTypeText t)
    (typedef : Text)
    : registryTypedefs (expand (callLine m t) (scan (callLine m t))) = [typedef]
      ↔ (m.isBegin = false ∧ ∀ m', m' ≠ m → contains t ('`' :: m'.name) = false)
          ∧ typedef = registryTypedef m.registry (argumentOf t) := by
  have hline : '\n' ∉ callLine m t := by
    have hname : '\n' ∉ m.name := by cases m <;> decide
    simp [callLine, hname, ht.oneLine]
  have ⟨found, hfound⟩ : ∃ found, typedefOf (callLine m t) m = some found := by
    have hself : contains ('`' :: m.name) ('`' :: m.name) = true := contains_iff.mpr List.infix_rfl
    rw [← Option.isSome_iff_exists, typedefOf_isSome, contains_callLine, hself, Bool.true_or]
  have hnone : (∀ m' ∈ RegistrationMacro.all, m' ≠ m → typedefOf (callLine m t) m' = none)
      ↔ m.isBegin = false ∧ ∀ m', m' ≠ m → contains t ('`' :: m'.name) = false := by
    rw [← contains_callLine_eq_false_iff]
    simp only [RegistrationMacro.mem_all, true_imp_iff, ← typedefOf_isSome,
      Option.isSome_eq_false_iff, Option.isNone_iff_eq_none]
  rw [registryTypedefs_eq hline (List.cons_ne_nil _ _)]
  rw [filterMap_eq_singleton_iff RegistrationMacro.all_nodup m.mem_all hfound, hnone, and_comm]
  apply and_congr_right
  intro h
  rw [typedefOf_callLine h.1 (newline_not_mem_argumentOf ht.oneLine)] at hfound
  rw [Option.some.inj hfound]

/--
A registration comes through the preprocessor and the extractor with its type and its base exactly
if its macro is no `_begin` macro, its type is not blank and has no comma outside parentheses and no
other registration macro in it, and the type of an object does not name the component registry.
-/
theorem survives_iff (m : RegistrationMacro) {t : Text} (ht : IsTypeText t)
    : Survives m t ↔ Regular m t := by
  simp only [Survives, registryTypedefs_callLine ht]
  constructor
  . intro ⟨typedef, ⟨⟨hbegin, hother⟩, htypedef⟩, hread⟩
    rw [htypedef, factoryRegistrationOf_registryTypedef] at hread
    have hne := (parseRegistryTypeName_eq_some_iff.mp hread.1).1
    have hcomma := (parseRegistryTypeName_argumentOf m ht hne).mp hread.1
    rw [argumentOf_eq ht.balancedParens hcomma hne] at hread
    exact ⟨hbegin, hne, hcomma, hother, hread.2⟩
  . intro h
    refine ⟨_, ⟨⟨h.notBegin, h.noOther⟩, rfl⟩, ?_⟩
    rw [factoryRegistrationOf_registryTypedef, parseRegistryTypeName_argumentOf m ht h.notBlank,
      argumentOf_eq ht.balancedParens h.noComma h.notBlank]
    exact ⟨h.noComma, h.noComponent⟩

theorem survives_iff_fifo : Survives .objectParamUtils " fifo #(int, 4) ".toList := by
  apply (survives_iff .objectParamUtils (by constructor <;> decide)).mpr
  have hother : ∀ m' ∈ RegistrationMacro.all, m' ≠ .objectParamUtils →
      contains " fifo #(int, 4) ".toList ('`' :: m'.name) = false := by
    decide +kernel
  exact ⟨by decide, by decide, by decide, fun m' hne => hother m' m'.mem_all hne, by decide⟩

theorem registryTypedefs_objectUtilsBegin
    : IsTypeText "item".toList
      ∧ registryTypedefs (expand (callLine .objectUtilsBegin "item".toList)
            (scan (callLine .objectUtilsBegin "item".toList)))
          = ["typedef uvm_object_registry #(T, \"T\") type_id;".toList,
              "typedef uvm_component_registry #(item, \"item\") type_id;".toList]
      ∧ ¬Survives .objectUtilsBegin "item".toList := by
  have htypedefs : registryTypedefs (expand (callLine .objectUtilsBegin "item".toList)
          (scan (callLine .objectUtilsBegin "item".toList)))
        = ["typedef uvm_object_registry #(T, \"T\") type_id;".toList,
            "typedef uvm_component_registry #(item, \"item\") type_id;".toList] := by
    rw [registryTypedefs_eq (by decide) (by decide)]
    decide +kernel
  refine ⟨by constructor <;> decide, htypedefs, ?_⟩
  intro ⟨typedef, hone, _⟩
  rw [htypedefs] at hone
  have hlength : 2 = 1 := congrArg List.length hone
  omega

end Registration
end HdlGraph
