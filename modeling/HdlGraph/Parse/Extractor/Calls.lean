import HdlGraph.Parse.Extractor.UvmCalls
import HdlGraph.Parse.Subtrees

/-!
This module contains which calls of a body the scan for calls passes on: it stops at a call, so the
calls in the arguments or the receiver of another call are not passed on.
-/

namespace HdlGraph

open ExtractM

def isCall (kind : SyntaxKind) : Bool := kind = .methodCall || kind = .tfCall

def Cst.calls (node : Cst) : List Cst := node.within isCall

namespace GraphExtractor

/-! ## The scan with its two handlers as parameters -/

section Scan

variable {m : Type → Type} [Monad m] (onMethodCall onTfCall : Cst → NodeId → m Unit)

mutual

def scanCalls (node : Cst) (parentId : NodeId) : m Unit :=
  match node with
  | .node _ _ _ _ children => scanCallsIn children parentId

def scanCallsIn (children : List Cst) (parentId : NodeId) : m Unit :=
  match children with
  | [] => return ()
  | child :: rest => do
    match child.kind with
    | .methodCall => onMethodCall child parentId
    | .tfCall => onTfCall child parentId
    | _ => scanCalls child parentId
    scanCallsIn rest parentId

end

def onCall (call : Cst) (parentId : NodeId) : m Unit :=
  if call.kind = .methodCall then onMethodCall call parentId else onTfCall call parentId

mutual

theorem scanCalls_eq [LawfulMonad m] (parentId : NodeId)
    : (node : Cst) →
      scanCalls onMethodCall onTfCall node parentId
        =
      (node.reached isCall fun _ => false).forM fun call =>
        onCall onMethodCall onTfCall call parentId
  | .node _ _ _ _ children => by
    rw [scanCalls, Cst.reached]
    exact scanCallsIn_eq parentId children

theorem scanCallsIn_eq [LawfulMonad m] (parentId : NodeId)
    : (children : List Cst) →
      scanCallsIn onMethodCall onTfCall children parentId
        =
      (Cst.reachedAll isCall (fun _ => false) children).forM fun call =>
        onCall onMethodCall onTfCall call parentId
  | [] => by simp [scanCallsIn]
  | child :: rest => by
    rw [scanCallsIn, Cst.reachedAll_cons, scanCallsIn_eq parentId rest]
    split
    . next hkind => simp [isCall, hkind, onCall]
    . next hkind => simp [isCall, hkind, onCall]
    . next hmethodCall htfCall =>
      have hcall : isCall child.kind = false := by
        rw [isCall, decide_eq_false hmethodCall, decide_eq_false htfCall, Bool.or_false]
      rw [hcall, scanCalls_eq parentId child]
      simp

end

end Scan

mutual

theorem extractMethodCallsInSubtree_eq_scanCalls (parentId : NodeId)
    : (node : Cst) →
      extractMethodCallsInSubtree node parentId
        = scanCalls extractMethodCall extractTfCall node parentId
  | .node _ _ _ _ children => by
    rw [extractMethodCallsInSubtree, scanCalls]
    exact extractMethodCallsIn_eq_scanCallsIn parentId children

theorem extractMethodCallsIn_eq_scanCallsIn (parentId : NodeId)
    : (children : List Cst) →
      extractMethodCallsIn children parentId
        = scanCallsIn extractMethodCall extractTfCall children parentId
  | [] => by rw [extractMethodCallsIn, scanCallsIn]
  | child :: rest => by
    have hrest := extractMethodCallsIn_eq_scanCallsIn parentId rest
    have hchild := extractMethodCallsInSubtree_eq_scanCalls parentId child
    rw [extractMethodCallsIn, scanCallsIn]
    generalize extractMethodCallsIn rest parentId = restRun at hrest ⊢
    generalize extractMethodCallsInSubtree child parentId = childRun at hchild ⊢
    subst hrest hchild
    rfl

end

/-! ## What is passed on -/

inductive Dispatch where
  | methodCall (node : Cst) (parentId : NodeId)
  | tfCall (node : Cst) (parentId : NodeId)

namespace Dispatch

def of (parentId : NodeId) (call : Cst) : Dispatch :=
  if call.kind = .methodCall then .methodCall call parentId else .tfCall call parentId

theorem of_injective (parentId : NodeId) : Function.Injective (of parentId) := by
  intro x y h
  unfold of at h
  split at h <;> split at h <;> simp_all

def log (dispatch : Dispatch) : StateM (List Dispatch) Unit :=
  modify fun passed => passed ++ [dispatch]

end Dispatch

def passed (node : Cst) (parentId : NodeId) : List Dispatch :=
  (scanCalls (fun call id => (Dispatch.methodCall call id).log)
    (fun call id => (Dispatch.tfCall call id).log) node
    parentId []).2

theorem forM_log {α : Type} (f : α → Dispatch) (xs : List α) (before : List Dispatch)
    : (xs.forM (fun x => (f x).log) before).2 = before ++ xs.map f := by
  induction xs generalizing before with
  | nil => simp; rfl
  | cons x xs ih =>
    change (xs.forM (fun x => (f x).log) (before ++ [f x])).2 = _
    rw [ih, List.map_cons, List.append_assoc, List.singleton_append]

theorem passed_eq (node : Cst) (parentId : NodeId)
    : passed node parentId = (node.reached isCall fun _ => false).map (Dispatch.of parentId) := by
  have hlog : (fun call : Cst => onCall (fun call id => (Dispatch.methodCall call id).log)
      (fun call id => (Dispatch.tfCall call id).log) call parentId) = fun call =>
        (Dispatch.of parentId call).log := by
    funext call
    rw [onCall, Dispatch.of]
    split <;> rfl
  rw [passed, scanCalls_eq, hlog, forM_log, List.nil_append]

def extractCall (call : Cst) (parentId : NodeId) : ExtractM Unit :=
  onCall extractMethodCall extractTfCall call parentId

def callOutline (call : Cst) : List Outline :=
  if call.kind = .methodCall then methodCallOutline call else tfCallOutline call

theorem extractCall_eq (call : Cst) (parentId : NodeId)
    : extractCall call parentId = emitAll parentId (callOutline call) := by
  unfold extractCall onCall callOutline
  split
  . apply extractMethodCall_eq
  . apply extractTfCall_eq

/-! What a call gives are nodes with nothing below them. -/

theorem callOutline_leaf (call : Cst) : ∀ o ∈ callOutline call, ∃ d : Declared, o = .node d [] := by
  have hmem : ∀ (d : Declared) (o : Outline), o ∈ [.node d []] →
      ∃ d : Declared, o = .node d [] := by
    intro d o ho
    exact ⟨d, List.mem_singleton.mp ho⟩
  intro o ho
  simp only [callOutline, methodCallOutline, tfCallOutline, tlmConnectOutline, configDbSetOutline,
    configDbGetOutline, factoryCreateOutline, factoryOverrideOutline, factoryCreateViaTfOutline,
    factoryOverrideViaTfOutline] at ho
  repeat' split at ho
  all_goals
    first
    | exact hmem _ o ho
    | cases ho

mutual

theorem methodCallsOutline_eq
    : (node : Cst) →
        methodCallsOutline node = (node.reached isCall fun _ => false).flatMap callOutline
  | .node _ _ _ _ children => by
    rw [methodCallsOutline, Cst.reached]
    exact methodCallsInOutline_eq children

theorem methodCallsInOutline_eq
    : (children : List Cst) →
      methodCallsInOutline children
        = (Cst.reachedAll isCall (fun _ => false) children).flatMap callOutline
  | [] => by simp [methodCallsInOutline]
  | child :: rest => by
    rw [methodCallsInOutline, Cst.reachedAll_cons, methodCallsInOutline_eq rest,
      List.flatMap_append]
    congr 1
    split
    . next hkind => simp [isCall, hkind, callOutline]
    . next hkind => simp [isCall, hkind, callOutline]
    . next hmethodCall htfCall =>
      rw [isCall, decide_eq_false hmethodCall, decide_eq_false htfCall, methodCallsOutline_eq child]
      rfl

end

theorem methodCallsOutline_leaf (node : Cst) : ∀ o ∈ methodCallsOutline node, ∃ d
    : Declared, o = .node d [] := by
  intro o ho
  rw [methodCallsOutline_eq, List.mem_flatMap] at ho
  obtain ⟨call, _, ho⟩ := ho
  exact callOutline_leaf call o ho

/--
Each call below a node is passed on once, and what is extracted is what the calls give one after
another.
-/
structure DispatchedOnce (node : Cst) (parentId : NodeId) : Prop where
  passed : passed node parentId = node.calls.map (Dispatch.of parentId)
  extracted : extractMethodCallsInSubtree node parentId = node.calls.forM fun call =>
    extractCall call parentId
  recorded : ∀ s : ExtractState,
    recorded (extractMethodCallsInSubtree node parentId) s
      =
    node.calls.flatMap fun call => recorded (extractCall call parentId) s

theorem dispatchedOnce_iff_reached (node : Cst) (parentId : NodeId)
    : DispatchedOnce node parentId ↔ (node.reached isCall fun _ => false) = node.calls := by
  constructor
  . intro h
    have hpassed := h.passed
    rw [passed_eq] at hpassed
    exact List.map_injective_iff.mpr (Dispatch.of_injective parentId) hpassed
  . intro h
    have hextracted : extractMethodCallsInSubtree node parentId = node.calls.forM fun call =>
      extractCall call parentId := by
      rw [extractMethodCallsInSubtree_eq_scanCalls, scanCalls_eq, h]
      rfl
    refine ⟨by rw [passed_eq, h], hextracted, ?_⟩
    intro s
    rw [hextracted, forM_eq_emitAll parentId _ _ callOutline fun call =>
      extractCall_eq call parentId, recorded_emitAll, Rose.labelsAll_flatMap, List.map_flatMap]
    simp only [extractCall_eq, recorded_emitAll]

theorem dispatchedOnce_iff (node : Cst) (parentId : NodeId)
    : DispatchedOnce node parentId ↔ ∀ call ∈ node.calls, call.calls = [] := by
  rw [dispatchedOnce_iff_reached]
  exact Cst.reached_eq_within_iff node

-- `uvm_config_db#(cfg)::set(this, "*", "cfg", cfg::type_id::create("c"))`: the created value is
-- passed on nowhere
def setOfCreate : Cst :=
  let cfg : TypeName := ⟨"cfg".toList, [], by decide, by decide, by decide⟩
  let value := UvmCall.tfCallTree (.create cfg ["\"c\"".toList])
  .node .other [] [] ⟨0, 0⟩ [
    .node .tfCall [] [] ⟨0, 0⟩ [
      UvmCall.token .packageScope [] "uvm_config_db#(cfg)::".toList,
      UvmCall.token .simpleIdentifier [] "set".toList,
      UvmCall.token .leftParen [] "(".toList,
      .node .listOfArguments [] [] ⟨0, 0⟩ [
        UvmCall.token .expression [] "this".toList,
        UvmCall.token .comma [] ",".toList,
        UvmCall.token .expression [] "\"*\"".toList,
        UvmCall.token .comma [] ",".toList,
        UvmCall.token .expression [] "\"cfg\"".toList,
        UvmCall.token .comma [] ",".toList,
        .node .expression [] "cfg::type_id::create(\"c\")".toList ⟨0, 0⟩ [value]],
      UvmCall.token .rightParen [] ")".toList]]

theorem not_dispatchedOnce_setOfCreate : ¬DispatchedOnce setOfCreate 1 := by
  intro h
  have hlength := congrArg List.length h.passed
  revert hlength
  decide

end GraphExtractor
end HdlGraph
