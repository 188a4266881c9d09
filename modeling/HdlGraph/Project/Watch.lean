import HdlGraph.Project.Collect

/-!
This module contains the loop of the watch command: which changed files it keeps back, when it hands
them to the incremental index, and which ones it never hands over.
-/

namespace HdlGraph

-- A reading of the monotonic clock, in nanoseconds
abbrev Instant := Nat

-- `Duration::from_millis(DEBOUNCE_MS)`
def debounce : Nat := 100 * 1000000

inductive EventKind where
  | any
  | access
  | create
  | modify
  | remove
  | other
  deriving DecidableEq

-- What `recv` gives, with the readings of the clock: one for each path, one before the check
inductive WatchMessage where
  | event (kind : EventKind) (paths : List (PathBuf × Instant)) (now : Instant)
  | error

abbrev Pending := Dict PathBuf Instant

def EventKind.changes : EventKind → Bool
  | .modify | .create => true
  | _ => false

def stampPath (pending : Pending) (entry : PathBuf × Instant) : Pending :=
  if Cli.isSvFile entry.1 then pending.insert entry.1 entry.2 else pending

def stampPaths (pending : Pending) (kind : EventKind) (paths : List (PathBuf × Instant))
    : Pending :=
  if kind.changes then paths.foldl stampPath pending else pending

def readyPaths (pending : Pending) (now : Instant) : List PathBuf :=
  (pending.toList.filter fun entry => debounce ≤ now - entry.2).map Prod.fst

def receive (pending : Pending) : WatchMessage → Pending × List PathBuf
  | .event kind paths now =>
    let pending := stampPaths pending kind paths
    let ready := readyPaths pending now
    (ready.foldl Dict.remove pending, ready)
  | .error => (pending, [])

def pendingAfter (pending : Pending) (trace : List WatchMessage) : Pending :=
  trace.foldl (fun pending message => (receive pending message).1) pending

def handedOver (pending : Pending) : List WatchMessage → List (List PathBuf)
  | [] => []
  | message :: rest => (receive pending message).2 :: handedOver (receive pending message).1 rest

namespace WatchMessage

-- The stamp that the message leaves on an HDL path that it reports as changed
def stamp? (message : WatchMessage) (path : PathBuf) : Option Instant :=
  match message with
  | event kind paths _ =>
    if kind.changes && Cli.isSvFile path then
      (paths.reverse.find? fun entry => entry.1 = path).map Prod.snd
    else
      none
  | error => none

-- When this message is handled, something with this stamp has waited long enough
def Due (stamp : Instant) : WatchMessage → Prop
  | event _ _ now => debounce ≤ now - stamp
  | error => False

end WatchMessage

/-- Every HDL path that was reported is handed over, in the turn of its last report or later. -/
def LosesNoUpdate (trace : List WatchMessage) : Prop :=
  ∀ before message after path stamp, trace = before ++ message :: after →
    message.stamp? path = some stamp →
    (∀ later ∈ after, later.stamp? path = none) →
    ∃ ready ∈ handedOver (pendingAfter .empty before) (message :: after), path ∈ ready

/--
The turn of the last report of a path, or a later one, comes when the debounce time has passed.
-/
def FollowedUp (trace : List WatchMessage) : Prop :=
  ∀ before message after path stamp, trace = before ++ message :: after →
    message.stamp? path = some stamp →
    (∀ later ∈ after, later.stamp? path = none) →
    ∃ later ∈ message :: after, later.Due stamp

/-! ## One turn -/

theorem get?_foldl_stampPath (paths : List (PathBuf × Instant)) (pending : Pending) (path : PathBuf)
    : (paths.foldl stampPath pending).get? path
        =
      if Cli.isSvFile path then
        ((paths.reverse.find? fun entry => entry.1 = path).map Prod.snd).or (pending.get? path)
      else
        pending.get? path := by
  induction paths using List.reverseRecOn with
  | nil => simp
  | append_singleton paths entry ih =>
    obtain ⟨q, t⟩ := entry
    rw [List.foldl_append, List.foldl_cons, List.foldl_nil, stampPath]
    by_cases hq : q = path
    . subst hq
      by_cases hsv : Cli.isSvFile q = true
      . simp [hsv]
      . rw [if_neg hsv, ih]
        simp [hsv]
    . have hne : path ≠ q := fun h => hq h.symm
      have hskip : ((paths ++ [(q, t)]).reverse.find? fun entry => entry.1 = path)
          = paths.reverse.find? fun entry => entry.1 = path := by
        simp [hq]
      rw [hskip, ← ih]
      split
      . exact Dict.get?_insert_of_ne _ _ hne
      . rfl

theorem get?_stampPaths (pending : Pending) (kind : EventKind) (paths : List (PathBuf × Instant))
    (now : Instant) (path : PathBuf)
    : (stampPaths pending kind paths).get? path
        =
      ((WatchMessage.event kind paths now).stamp? path).or (pending.get? path) := by
  unfold stampPaths WatchMessage.stamp?
  dsimp only
  by_cases hkind : kind.changes = true
  . rw [if_pos hkind, get?_foldl_stampPath, hkind, Bool.true_and]
    split <;> rfl
  . simp [hkind]

theorem mem_readyPaths {pending : Pending} {now : Instant} {path : PathBuf}
    : path ∈ readyPaths pending now
        ↔ ∃ stamp, pending.get? path = some stamp ∧ debounce ≤ now - stamp := by
  simp only [readyPaths, List.mem_map, List.mem_filter, decide_eq_true_eq, Prod.exists,
    Dict.mem_toList_iff]
  grind

theorem get?_foldl_remove (paths : List PathBuf) (pending : Pending) (path : PathBuf)
    : (paths.foldl Dict.remove pending).get? path = if path ∈ paths then none
        else pending.get? path := by
  induction paths generalizing pending with
  | nil => simp
  | cons q rest ih =>
    rw [List.foldl_cons, ih, Dict.get?_remove]
    grind

def stampIn (pending : Pending) (message : WatchMessage) (path : PathBuf) : Option Instant :=
  (message.stamp? path).or (pending.get? path)

theorem mem_receive {pending : Pending} {message : WatchMessage} {path : PathBuf} {stamp : Instant}
    (h : stampIn pending message path = some stamp)
    : path ∈ (receive pending message).2 ↔ message.Due stamp := by
  cases message with
  | event kind paths now =>
    unfold stampIn at h
    rw [← get?_stampPaths] at h
    simp only [receive, mem_readyPaths, h, WatchMessage.Due]
    grind
  | error => simp [receive, WatchMessage.Due]

theorem get?_receive {pending : Pending} {message : WatchMessage} {path : PathBuf} {stamp : Instant}
    (h : stampIn pending message path = some stamp) (hnot : ¬message.Due stamp)
    : (receive pending message).1.get? path = some stamp := by
  have hready := mt (mem_receive h).mp hnot
  cases message with
  | event kind paths now =>
    unfold stampIn at h
    rw [← get?_stampPaths] at h
    rw [receive] at hready ⊢
    dsimp only at hready ⊢
    rw [get?_foldl_remove, if_neg hready, h]
  | error => exact h

theorem stampIn_ne_none_iff {pending : Pending} {kind : EventKind}
    {paths : List (PathBuf × Instant)} {now : Instant} {path : PathBuf}
    : stampIn pending (.event kind paths now) path ≠ none
        ↔
      (kind.changes = true ∧ Cli.isSvFile path = true ∧ path ∈ paths.map Prod.fst)
      ∨ pending.get? path ≠ none := by
  have hstamp : (WatchMessage.event kind paths now).stamp? path ≠ none
      ↔ kind.changes = true ∧ Cli.isSvFile path = true ∧ path ∈ paths.map Prod.fst := by
    simp only [WatchMessage.stamp?, Bool.and_eq_true, List.mem_map]
    split
    . simp_all
    . grind
  rw [← hstamp, stampIn]
  cases (WatchMessage.event kind paths now).stamp? path <;> simp

theorem receive_cases {pending : Pending} {message : WatchMessage} {path : PathBuf}
    : stampIn pending message path ≠ none
        ↔
      path ∈ (receive pending message).2 ∨ (receive pending message).1.get? path ≠ none := by
  constructor
  . intro h
    obtain ⟨stamp, hstamp⟩ := Option.ne_none_iff_exists'.mp h
    by_cases hdue : message.Due stamp
    . exact Or.inl ((mem_receive hstamp).mpr hdue)
    . right
      rw [get?_receive hstamp hdue]
      simp
  . intro h
    cases message with
    | event kind paths now =>
      rw [stampIn, ← get?_stampPaths]
      rw [receive] at h
      dsimp only at h
      rw [get?_foldl_remove] at h
      have hready : path ∈ readyPaths (stampPaths pending kind paths) now ↔ _ := mem_readyPaths
      grind
    | error => simpa [receive, stampIn, WatchMessage.stamp?] using h

/-! ## Runs -/

theorem handedOver_iff {pending : Pending} {path : PathBuf} {stamp : Instant}
    {message : WatchMessage} {after : List WatchMessage}
    (h : stampIn pending message path = some stamp)
    (hlast : ∀ later ∈ after, later.stamp? path = none)
    : (∃ ready ∈ handedOver pending (message :: after), path ∈ ready)
        ↔
      ∃ later ∈ message :: after, later.Due stamp := by
  induction after generalizing pending message with
  | nil => simp [handedOver, mem_receive h]
  | cons next after ih =>
    by_cases hdue : message.Due stamp
    . constructor
      . intro _
        exact ⟨message, List.mem_cons_self, hdue⟩
      . intro _
        exact ⟨(receive pending message).2, List.mem_cons_self, (mem_receive h).mpr hdue⟩
    . have hnext : stampIn (receive pending message).1 next path = some stamp := by
        rw [stampIn, hlast next List.mem_cons_self, Option.none_or]
        exact get?_receive h hdue
      have hrest := ih hnext fun later hlater => hlast later (List.mem_cons_of_mem _ hlater)
      have hnot := mt (mem_receive h).mp hdue
      rw [handedOver]
      simp only [List.mem_cons, exists_eq_or_imp, hnot, hdue, false_or] at hrest ⊢
      exact hrest

/-- The loop loses no update of a trace exactly if every path is followed up in time. -/
theorem losesNoUpdate_iff (trace : List WatchMessage) : LosesNoUpdate trace ↔ FollowedUp trace := by
  unfold LosesNoUpdate FollowedUp
  refine forall₅_congr fun before message after path stamp => ?_
  refine imp_congr_right fun _ => imp_congr_right fun hstamp => imp_congr_right fun hlast => ?_
  apply handedOver_iff _ hlast
  rw [stampIn, hstamp, Option.some_or]

theorem not_losesNoUpdate_oneCreate
    : ¬LosesNoUpdate [.event .create [(⟨true, [.normal topSv]⟩, 0)] 0] := by
  intro h
  have hnone : handedOver .empty [.event .create [(⟨true, [.normal topSv]⟩, 0)] 0] = [[]] := by
    decide
  obtain ⟨ready, hready, hmem⟩ := h [] _ [] ⟨true, [.normal topSv]⟩ 0 rfl (by decide) (by simp)
  rw [pendingAfter, List.foldl_nil, hnone, List.mem_singleton] at hready
  rw [hready] at hmem
  exact List.not_mem_nil hmem

end HdlGraph
