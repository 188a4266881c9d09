import HdlGraph.Library.Text
import Mathlib.Data.List.Perm.Basic
import Mathlib.Data.List.Count

/-!
This module contains pass 2 of the UVM preprocessor, the scan for UVM macro calls, and when the scan
reports the invocations of a source one by one: it looks for the first occurrence of each known name
on a line, whatever follows it.
-/

namespace HdlGraph

structure UVMMacroCall where
  line : Nat
  -- the byte offset in the line
  column : Nat
  macroName : Text
  args : List Text
  rawText : Text
deriving DecidableEq, Repr

namespace Pass2Scanner

open Text

-- The names of the macros, in the order in which the scan tries them
def uvmNames : List Text :=
  ["uvm_component_utils", "uvm_object_utils", "uvm_component_param_utils", "uvm_object_param_utils",
    "uvm_field_int", "uvm_field_string", "uvm_field_object", "uvm_field_enum",
      "uvm_field_array_int",
    "uvm_field_queue_int", "uvm_field_sarray_int", "uvm_field_real", "uvm_field_time",
    "uvm_do", "uvm_do_with", "uvm_do_on", "uvm_do_on_with", "uvm_create", "uvm_send",
    "uvm_rand_send",
    "uvm_info", "uvm_error", "uvm_warning", "uvm_fatal",
    "uvm_object_utils_begin", "uvm_object_utils_end", "uvm_component_utils_begin",
    "uvm_component_utils_end",
    "uvm_field_utils_begin", "uvm_field_utils_end",
    "uvm_config_int", "uvm_config_string", "uvm_config_object",
    "uvm_set_type_override_by_type", "uvm_set_inst_override_by_type", "uvm_register_cb",
    "uvm_analysis_imp_decl", "uvm_nonblocking_imp_decl", "uvm_blocking_put_imp_decl",
    "uvm_set_report_id_verbosity", "uvm_set_report_id_action"].map String.toList

def extractArgsLoop (depth : Nat) (current : Text) : Text → List Text × Bool
  | [] => ([], false)
  | c :: rest =>
    if c = '(' then extractArgsLoop (depth + 1) (current ++ ['(']) rest
    else if c = ')' then
      if depth = 1 then
        (if trim current ≠ [] then [trim current] else [], true)
      else
        extractArgsLoop (depth - 1) (current ++ [')']) rest
    else if c = ',' ∧ depth = 1 then
      let (args, closed) := extractArgsLoop depth [] rest
      (trim current :: args, closed)
    else extractArgsLoop depth (current ++ [c]) rest

-- The comma-separated arguments of a parenthesised expression, and the index of the line they end
-- on. An expression that is not closed on its line loses its last argument; the next line is not
-- read.
def extractArgs (text : Text) (startLine : Nat) : List Text × Nat :=
  match text.dropWhile isWhitespace with
  | '(' :: rest =>
    let (args, closed) := extractArgsLoop 1 [] rest
    (args, if closed then startLine else startLine + 1)
  | _ => ([], startLine)

def scanName (line : Text) (i : Nat) (name : Text) : Option UVMMacroCall :=
  (find? ('`' :: name) line).map fun (pos, rest) =>
    { line := i + 1
      column := pos
      macroName := name
      args := (extractArgs (trim rest) i).1
      rawText := line }

def scan (source : Text) : List UVMMacroCall :=
  (lines source).zipIdx.flatMap fun (line, i) => uvmNames.filterMap (scanName line i)

theorem line_of_mem_scan {source : Text} {call : UVMMacroCall} (h : call ∈ scan source)
    : 0 < call.line ∧ call.line ≤ (lines source).length := by
  simp only [scan, List.mem_flatMap, List.mem_filterMap, scanName, Option.map_eq_some_iff] at h
  have ⟨⟨line, i⟩, hline, name, _, found, _, heq⟩ := h
  have := List.snd_lt_of_mem_zipIdx hline
  rw [← heq]
  exact ⟨Nat.succ_pos i, this⟩

theorem scan_pairwise (source : Text) : (scan source).Pairwise (·.line ≤ ·.line) := by
  have hline {line : Text} {i : Nat} {call : UVMMacroCall}
      (h : call ∈ uvmNames.filterMap (scanName line i))
      : call.line = i + 1 := by
    simp only [List.mem_filterMap, scanName, Option.map_eq_some_iff] at h
    have ⟨name, _, found, _, heq⟩ := h
    rw [← heq]
  have hindex : ((lines source).zipIdx).Pairwise (·.2 < ·.2) := by
    apply List.pairwise_map.mp
    rw [List.zipIdx_map_snd]
    exact List.pairwise_lt_range' 1 (by decide)
  apply List.pairwise_flatMap.mpr
  constructor
  . intro x _
    apply List.pairwise_of_forall_mem_list
    intro a ha b hb
    rw [hline ha, hline hb]
  . apply hindex.imp
    intro x y hxy a ha b hb
    rw [hline ha, hline hb]
    omega

/-! ## Invocations -/

def isIdentChar (c : Char) : Bool := isWordChar c || c = '$'

-- The invocations on a line, where a recognised name is a whole identifier, with their columns
def invocationsFrom (pos : Nat) : Text → List (Nat × Text)
  | [] => []
  | c :: cs =>
    let rest := invocationsFrom (pos + c.utf8Size) cs
    if c = '`' ∧ cs.takeWhile isIdentChar ∈ uvmNames then (pos, cs.takeWhile isIdentChar) :: rest
      else rest

def invocations (source : Text) : List (Nat × Nat × Text) :=
  (lines source).zipIdx.flatMap fun (line, i) => (invocationsFrom 0 line).map fun (pos, name) =>
    (i + 1, pos, name)

def reported (call : UVMMacroCall) : Nat × Nat × Text := (call.line, call.column, call.macroName)

/--
On the line, the first occurrence of the name behind a backtick is no longer identifier, and the
macro is not invoked again behind it.
-/
def AtMostOnce (name line : Text) : Prop :=
  ∀ pos rest, find? ('`' :: name) line = some (pos, rest) →
    rest.head?.any isIdentChar = false ∧ ∀ p, (p, name) ∉ invocationsFrom 0 rest

theorem uvmNames_nodup : uvmNames.Nodup := by decide +kernel

theorem isIdentChar_of_mem : ∀ name ∈ uvmNames, name.all isIdentChar = true := by decide +kernel

/-! ## The calls of one line -/

theorem perm_iff_filter_key {α κ : Type} [DecidableEq α] [DecidableEq κ] (key : α → κ)
    {l l' : List α}
    : l.Perm l' ↔ ∀ k, (l.filter (key · = k)).Perm (l'.filter (key · = k)) := by
  constructor
  . intro h k
    exact h.filter _
  . intro h
    apply List.perm_iff_count.mpr
    intro a
    have hcount := (h (key a)).count_eq a
    rwa [List.count_filter (by simp), List.count_filter (by simp)] at hcount

theorem perm_append_iff {α : Type} (p : α → Bool) {a a' b b' : List α} (ha : ∀ x ∈ a, p x)
    (ha' : ∀ x ∈ a', p x) (hb : ∀ x ∈ b, !p x) (hb' : ∀ x ∈ b', !p x)
    : (a ++ b).Perm (a' ++ b') ↔ a.Perm a' ∧ b.Perm b' := by
  have hfront {a b : List α} (ha : ∀ x ∈ a, p x) (hb : ∀ x ∈ b, !p x) : (a ++ b).filter p = a := by
    rw [List.filter_append, List.filter_eq_self.mpr ha, List.filter_eq_nil_iff.mpr, List.append_nil]
    intro x hx
    simpa using hb x hx
  have hback {a b : List α} (ha : ∀ x ∈ a, p x) (hb : ∀ x ∈ b, !p x) : (a ++ b).filter (!p ·)
      = b := by
    rw [List.filter_append, List.filter_eq_self.mpr hb, List.filter_eq_nil_iff.mpr, List.nil_append]
    intro x hx
    simpa using ha x hx
  constructor
  . intro h
    have hp := h.filter p
    have hq := h.filter (!p ·)
    rw [hfront ha hb, hfront ha' hb'] at hp
    rw [hback ha hb, hback ha' hb'] at hq
    exact ⟨hp, hq⟩
  . intro h
    exact h.1.append h.2

theorem filter_filterMap_key {κ β : Type} [DecidableEq κ] {f : κ → Option β} {key : β → κ}
    (hkey : ∀ k b, f k = some b → key b = k) {ks : List κ} (hks : ks.Nodup) (k : κ)
    : (ks.filterMap f).filter (key · = k) = if k ∈ ks then (f k).toList else [] := by
  induction ks with
  | nil => rfl
  | cons k' rest ih =>
    have hnodup := List.nodup_cons.mp hks
    have ih := ih hnodup.2
    rw [List.filterMap_cons]
    by_cases hk : k = k'
    . subst hk
      rw [if_neg hnodup.1] at ih
      cases hf : f k with
      | none => simp [ih]
      | some b => simp [ih, hkey k b hf]
    . cases hf : f k' with
      | none => simp [ih, hk]
      | some b =>
        have hb : key b ≠ k := by
          rw [hkey k' b hf]
          exact Ne.symm hk
        simp [ih, hk, hb]

theorem reported_scanName {line name : Text} {i : Nat}
    : (scanName line i name).map reported = (find? ('`' :: name) line).map fun (pos, _) =>
        (i + 1, pos, name) := by
  unfold scanName
  rw [Option.map_map]
  rfl

theorem invocationsFrom_eq (pos : Nat) (line : Text)
    : invocationsFrom pos line = (invocationsFrom 0 line).map fun (p, name) => (pos + p, name) := by
  induction line generalizing pos with
  | nil => rfl
  | cons c cs ih =>
    unfold invocationsFrom
    rw [ih (pos + c.utf8Size), ih (0 + c.utf8Size)]
    split <;> simp [Nat.add_assoc]

theorem invocationsFrom_append {front : Text} (h : ∀ c ∈ front, isIdentChar c)
    (pos : Nat) (rest : Text)
    : invocationsFrom pos (front ++ rest) = invocationsFrom (pos + byteLen front) rest := by
  induction front generalizing pos with
  | nil => simp [byteLen_nil]
  | cons c cs ih =>
    have hc : c ≠ '`' := by
      intro hc
      have := h c List.mem_cons_self
      rw [hc] at this
      contradiction
    rw [List.cons_append, invocationsFrom, ih fun c' hc' => h c' (List.mem_cons_of_mem _ hc')]
    simp [hc, Nat.add_assoc]

theorem filter_invocationsFrom {name : Text} (hname : name ∈ uvmNames) (pos : Nat) (line : Text)
    : (invocationsFrom pos line).filter (·.2 = name)
        =
      match find? ('`' :: name) line with
      | none => []
      | some (p, rest) =>
        (if rest.head?.any isIdentChar then [] else [(pos + p, name)])
          ++ (invocationsFrom (pos + p + byteLen ('`' :: name)) rest).filter (·.2 = name) := by
  have hident : ∀ c ∈ name, isIdentChar c := List.all_eq_true.mp (isIdentChar_of_mem name hname)
  induction line generalizing pos with
  | nil => rfl
  | cons c cs ih =>
    rw [find?]
    by_cases hp : ('`' :: name).isPrefixOf (c :: cs) = true
    . rw [if_pos hp]
      obtain ⟨rest, hrest⟩ := List.isPrefixOf_iff_prefix.mp hp
      rw [List.cons_append] at hrest
      obtain ⟨rfl, rfl⟩ := List.cons_eq_cons.mp hrest
      rw [invocationsFrom, invocationsFrom_append hident, List.takeWhile_append_of_pos hident]
      have hdrop : List.drop ('`' :: name).length ('`' :: (name ++ rest)) = rest := by simp
      simp only [hdrop, byteLen_cons, Nat.add_zero, Nat.add_assoc]
      cases rest with
      | nil => simp [hname, invocationsFrom]
      | cons d ds =>
        cases hd : isIdentChar d with
        | true =>
          rw [List.takeWhile_cons_of_pos hd]
          split <;> simp [hd]
        | false =>
          rw [List.takeWhile_cons_of_neg (by simp [hd])]
          simp [hname, hd]
    . rw [if_neg hp]
      have hhead : ¬(c = '`' ∧ cs.takeWhile isIdentChar = name) := by
        rintro ⟨hc, htake⟩
        apply hp
        rw [hc, ← htake]
        exact List.isPrefixOf_iff_prefix.mpr
          ((List.prefix_cons_inj _).mpr (List.takeWhile_prefix _))
      have hskip : (invocationsFrom pos (c :: cs)).filter (·.2 = name)
          = (invocationsFrom (pos + c.utf8Size) cs).filter (·.2 = name) := by
        simp only [invocationsFrom]
        split
        . next hc =>
          apply List.filter_cons_of_neg
          simpa using fun htake => hhead ⟨hc.1, htake⟩
        . rfl
      rw [hskip, ih]
      cases find? ('`' :: name) cs with
      | none => rfl
      | some found => simp [Nat.add_assoc]

theorem scanName_perm_iff {name : Text} (hname : name ∈ uvmNames) (line : Text)
    : (((find? ('`' :: name) line).map fun (pos, _) => (pos, name)).toList).Perm
        ((invocationsFrom 0 line).filter (·.2 = name))
      ↔ AtMostOnce name line := by
  rw [filter_invocationsFrom hname]
  unfold AtMostOnce
  cases hfind : find? ('`' :: name) line with
  | none => simp
  | some found =>
    have ⟨pos, rest⟩ := found
    have hrest : ∀ p, (invocationsFrom p rest).filter (·.2 = name) = []
        ↔ ∀ p, (p, name) ∉ invocationsFrom 0 rest := by
      intro p
      rw [invocationsFrom_eq, List.filter_eq_nil_iff]
      simp
      grind
    simp only [Option.map_some, Option.toList_some, Option.some.injEq, Prod.mk.injEq,
      List.singleton_perm]
    cases hhead : rest.head?.any isIdentChar with
    | true =>
      simp only [if_true, List.nil_append]
      constructor
      . intro h
        have hmem : (pos, name) ∈ (invocationsFrom (0 + pos + byteLen ('`' :: name)) rest).filter
            (·.2 = name) := by
          rw [← h]
          exact List.mem_singleton_self _
        rw [invocationsFrom_eq] at hmem
        simp at hmem
        have ⟨p, _, hp⟩ := hmem
        have hpos := Char.utf8Size_pos '`'
        omega
      . intro h
        have := (h pos rest ⟨rfl, rfl⟩).1
        simp [hhead] at this
    | false => simp [hrest, hhead]

theorem mem_uvmNames_of_mem_invocationsFrom {pos p : Nat} {line name : Text}
    (h : (p, name) ∈ invocationsFrom pos line)
    : name ∈ uvmNames := by
  induction line generalizing pos with
  | nil => contradiction
  | cons c cs ih =>
    simp only [invocationsFrom] at h
    split at h
    . next hc =>
      cases h with
      | head => exact hc.2
      | tail _ h => exact ih h
    . exact ih h

def foundOn (line : Text) : List (Nat × Text) :=
  uvmNames.filterMap fun name => (find? ('`' :: name) line).map fun (pos, _) => (pos, name)

theorem foundOn_perm_iff (line : Text)
    : (foundOn line).Perm (invocationsFrom 0 line) ↔ ∀ name ∈ uvmNames, AtMostOnce name line := by
  rw [foundOn, perm_iff_filter_key Prod.snd]
  apply forall_congr'
  intro name
  rw [filter_filterMap_key _ uvmNames_nodup]
  . by_cases hname : name ∈ uvmNames
    . rw [if_pos hname, scanName_perm_iff hname]
      simp [hname]
    . have hnone : (invocationsFrom 0 line).filter (·.2 = name) = [] := by
        rw [List.filter_eq_nil_iff]
        intro found hfound
        have := mem_uvmNames_of_mem_invocationsFrom hfound
        grind
      simp [hname, hnone]
  . intro name found h
    simp only [Option.map_eq_some_iff] at h
    have ⟨_, _, heq⟩ := h
    rw [← heq]

/-! ## The calls of a source -/

def numbered (f : Text → List (Nat × Text)) (lines : List Text) (i : Nat)
    : List (Nat × Nat × Text) :=
  (lines.zipIdx i).flatMap fun (line, i) => (f line).map fun (pos, name) => (i + 1, pos, name)

theorem lt_of_mem_numbered {f : Text → List (Nat × Text)} {lines : List Text} {i : Nat}
    : ∀ x ∈ numbered f lines i, i < x.1 := by
  intro x hx
  simp only [numbered, List.mem_flatMap, List.mem_map] at hx
  have ⟨⟨line, j⟩, hline, found, _, heq⟩ := hx
  have := List.le_snd_of_mem_zipIdx hline
  rw [← heq]
  exact Nat.lt_succ_of_le this

theorem numbered_perm_iff {f g : Text → List (Nat × Text)} (lines : List Text) (i : Nat)
    : (numbered f lines i).Perm (numbered g lines i) ↔ ∀ line ∈ lines, (f line).Perm (g line) := by
  induction lines generalizing i with
  | nil => simp [numbered]
  | cons line rest ih =>
    have hcons (f : Text → List (Nat × Text))
        : numbered f (line :: rest) i = (f line).map (fun (pos, name) => (i + 1, pos, name))
            ++ numbered f rest (i + 1) := by
      simp [numbered, List.zipIdx_cons]
    have hinj : Function.Injective fun (found : Nat × Text) => (i + 1, found.1, found.2) := by
      intro a b h
      simpa [Prod.ext_iff] using h
    have hhead (f : Text → List (Nat × Text))
        : ∀ x ∈ (f line).map (fun (pos, name) => (i + 1, pos, name)),
            (decide (x.1 = i + 1)) = true := by
      intro x hx
      have ⟨_, _, heq⟩ := List.mem_map.mp hx
      simp [← heq]
    have htail (f : Text → List (Nat × Text)) : ∀ x ∈ numbered f rest (i + 1),
        (!decide (x.1 = i + 1)) = true := by
      intro x hx
      have := lt_of_mem_numbered x hx
      simp only [Bool.not_eq_true', decide_eq_false_iff_not]
      omega
    rw [hcons, hcons,
      perm_append_iff (fun x => decide (x.1 = i + 1)) (hhead f) (hhead g) (htail f) (htail g)]
    rw [List.map_perm_map_iff hinj, ih, List.forall_mem_cons]

theorem reported_scan (source : Text)
    : (scan source).map reported = numbered foundOn (lines source) 0 := by
  simp only [scan, numbered, foundOn, List.map_flatMap, List.map_filterMap, reported_scanName,
    Option.map_map]
  rfl

/--
The calls that the scan returns are the invocations of the source, one to one, exactly if on each
line the first occurrence of each known name is a whole identifier and there is no second invocation
of it.
-/
theorem scan_reports_invocations_iff (source : Text)
    : ((scan source).map reported).Perm (invocations source)
      ↔ ∀ line ∈ lines source, ∀ name ∈ uvmNames, AtMostOnce name line := by
  rw [reported_scan, show invocations source = numbered (invocationsFrom 0) (lines source) 0
    from rfl]
  rw [numbered_perm_iff]
  simp only [foundOn_perm_iff]

-- A call of the longer name is reported under the shorter one too
theorem scan_uvmDoWith
    : (scan "`uvm_do_with(req, c)".toList).map reported
        = [(1, 0, "uvm_do".toList), (1, 0, "uvm_do_with".toList)]
      ∧ invocations "`uvm_do_with(req, c)".toList = [(1, 0, "uvm_do_with".toList)]
      ∧ ¬((scan "`uvm_do_with(req, c)".toList).map reported).Perm
        (invocations "`uvm_do_with(req, c)".toList) := by
  have hscan : (scan "`uvm_do_with(req, c)".toList).map reported
      = [(1, 0, "uvm_do".toList), (1, 0, "uvm_do_with".toList)] := by decide +kernel
  have hinvocations : invocations "`uvm_do_with(req, c)".toList = [(1, 0, "uvm_do_with".toList)] :=
    by decide +kernel
  refine ⟨hscan, hinvocations, ?_⟩
  intro h
  rw [hscan, hinvocations] at h
  have := h.length_eq
  simp only [List.length_cons, List.length_nil] at this
  omega

end Pass2Scanner
end HdlGraph
