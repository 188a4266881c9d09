import HdlGraph.Library.Dict
import HdlGraph.Library.Text

/-!
This module contains the symbol table that interns names.
-/

namespace HdlGraph

structure InternedString where
  val : Nat
  deriving DecidableEq, Repr

-- The two fields of the table are inverse to each other, so a string is interned at most once
structure SymbolTable where
  strings : List Text
  lookup : Dict Text Nat
  lookup_iff : ∀ (s : Text) (id : Nat), lookup.get? s = some id ↔ strings[id]? = some s

namespace SymbolTable

def new : SymbolTable where
  strings := []
  lookup := .empty
  lookup_iff := by simp

instance : Inhabited SymbolTable where
  default := new

def intern (table : SymbolTable) (s : Text) : InternedString × SymbolTable :=
  match hlookup : table.lookup.get? s with
  | some id => (⟨id⟩, table)
  | none =>
    let id := table.strings.length
    let newTable := {
      strings := table.strings ++ [s]
      lookup := table.lookup.insert s id
      lookup_iff := by
        intro s' id'
        rw [Dict.get?_insert, List.getElem?_append]
        split
        . next hs =>
          subst hs
          have hnone : ∀ i : Nat, table.strings[i]? ≠ some s' := by
            intro i hi
            rw [← table.lookup_iff] at hi
            simp [hi] at hlookup
          have := hnone id'
          split <;> grind
        . next hs =>
          have := table.lookup_iff s' id'
          split <;> grind
    }
    (⟨id⟩, newTable)

def resolve (table : SymbolTable) (id : InternedString) : Option Text := table.strings[id.val]?

def len (table : SymbolTable) : Nat := table.strings.length

def isEmpty (table : SymbolTable) : Bool := table.strings.isEmpty

def contains (table : SymbolTable) (s : Text) : Bool := table.lookup.containsKey s

def resolveId (table : SymbolTable) (s : Text) : Option Nat := table.lookup.get? s

def Extends (table table' : SymbolTable) : Prop := table.strings <+: table'.strings

namespace Extends

theorem refl (table : SymbolTable) : Extends table table := List.prefix_refl _

theorem trans {t₁ t₂ t₃ : SymbolTable} (h₁ : Extends t₁ t₂) (h₂ : Extends t₂ t₃) : Extends t₁ t₃ :=
  List.IsPrefix.trans h₁ h₂

theorem resolve_eq {table table' : SymbolTable} (h : Extends table table') {id : InternedString}
    {s : Text} (hs : table.resolve id = some s)
    : table'.resolve id = some s := by
  have ⟨rest, hrest⟩ := h
  unfold resolve at *
  rw [← hrest]
  have hlt : id.val < table.strings.length := (List.getElem?_eq_some_iff.mp hs).1
  rw [List.getElem?_append_left hlt, hs]

end Extends

theorem resolveId_iff {table : SymbolTable} {s : Text} {id : Nat}
    : table.resolveId s = some id ↔ table.resolve ⟨id⟩ = some s :=
  table.lookup_iff s id

theorem intern_extends (table : SymbolTable) (s : Text) : Extends table (table.intern s).2 := by
  unfold intern
  split
  . exact .refl table
  . exact List.prefix_append _ _

@[simp]
theorem resolve_intern (table : SymbolTable) (s : Text)
    : (table.intern s).2.resolve (table.intern s).1 = some s := by
  unfold intern
  split
  . next id hlookup =>
    exact (table.lookup_iff s id).mp hlookup
  . simp [resolve]

theorem resolve_injective {table : SymbolTable} {i j : InternedString} {s : Text}
    (hi : table.resolve i = some s) (hj : table.resolve j = some s)
    : i = j := by
  have hi := resolveId_iff.mpr hi
  have hj := resolveId_iff.mpr hj
  rw [hi] at hj
  cases i
  cases j
  simpa using hj

/-! ## Runs -/

def internEach : List Text → SymbolTable → List InternedString × SymbolTable
  | [], table => ([], table)
  | s :: ss, table =>
    let (id, table) := table.intern s
    let (ids, table) := internEach ss table
    (id :: ids, table)

theorem mem_strings_iff {table : SymbolTable} {s : Text}
    : s ∈ table.strings ↔ ∃ id, table.resolveId s = some id := by
  rw [List.mem_iff_getElem?]
  exact exists_congr fun id => (table.lookup_iff s id).symm

theorem contains_iff {table : SymbolTable} {s : Text} : table.contains s = true
    ↔ s ∈ table.strings := by
  rw [mem_strings_iff]
  exact Dict.containsKey_iff

theorem mem_strings_intern {table : SymbolTable} {s t : Text}
    : t ∈ (table.intern s).2.strings ↔ t = s ∨ t ∈ table.strings := by
  unfold intern
  split
  . next id hlookup =>
    have hmem : s ∈ table.strings := mem_strings_iff.mpr ⟨id, hlookup⟩
    constructor
    . exact Or.inr
    . rintro (rfl | h)
      . exact hmem
      . exact h
  . simp [or_comm]

theorem internEach_extends (ss : List Text) (table : SymbolTable)
    : Extends table (internEach ss table).2 := by
  induction ss generalizing table with
  | nil => exact .refl table
  | cons s ss ih => exact (intern_extends table s).trans (ih _)

theorem mem_strings_internEach {ss : List Text} {table : SymbolTable} {t : Text}
    : t ∈ (internEach ss table).2.strings ↔ t ∈ ss ∨ t ∈ table.strings := by
  induction ss generalizing table with
  | nil => simp [internEach]
  | cons s ss ih =>
    have hrest : t ∈ (internEach (s :: ss) table).2.strings
        ↔ t ∈ ss ∨ t ∈ (table.intern s).2.strings := ih
    rw [hrest, mem_strings_intern, List.mem_cons]
    grind

theorem length_internEach (ss : List Text) (table : SymbolTable)
    : (internEach ss table).1.length = ss.length := by
  induction ss generalizing table with
  | nil => rfl
  | cons s ss ih => exact congrArg (· + 1) (ih _)

theorem internEach_take (ss : List Text) (n : Nat) (table : SymbolTable)
    : (internEach (ss.take n) table).1 = (internEach ss table).1.take n := by
  induction ss generalizing n table with
  | nil => simp [internEach]
  | cons s ss ih =>
    cases n with
    | zero => rfl
    | succ n => exact congrArg ((table.intern s).1 :: ·) (ih n _)

theorem resolve_internEach {ss : List Text} {table : SymbolTable} {a : Nat} {id : InternedString}
    (h : (internEach ss table).1[a]? = some id)
    : (internEach ss table).2.resolve id = ss[a]? := by
  induction ss generalizing table a with
  | nil => contradiction
  | cons s ss ih =>
    cases a with
    | zero =>
      have hid : (table.intern s).1 = id := Option.some.inj h
      rw [← hid]
      exact (internEach_extends ss (table.intern s).2).resolve_eq (resolve_intern table s)
    | succ a =>
      rw [internEach] at h ⊢
      exact ih h

theorem exists_resolve_internEach {ss : List Text} {table : SymbolTable} {a : Nat}
    (h : a < ss.length)
    : ∃ id, (internEach ss table).1[a]? = some id
        ∧ (internEach ss table).2.resolve id = some ss[a] := by
  have hlt : a < (internEach ss table).1.length := (length_internEach ss table).symm ▸ h
  have hid := List.getElem?_eq_getElem hlt
  refine ⟨_, hid, ?_⟩
  rw [resolve_internEach hid, List.getElem?_eq_getElem h]

theorem mem_internEach_new_iff {ss : List Text} {i : Nat}
    : ⟨i⟩ ∈ (internEach ss new).1 ↔ i < (internEach ss new).2.len := by
  constructor
  . intro hi
    obtain ⟨a, ha⟩ := List.mem_iff_getElem?.mp hi
    have hlt : a < (internEach ss new).1.length := (List.getElem?_eq_some_iff.mp ha).1
    have hresolve := resolve_internEach ha
    rw [List.getElem?_eq_getElem (length_internEach ss new ▸ hlt)] at hresolve
    exact (List.getElem?_eq_some_iff.mp hresolve).1
  . intro hi
    have hresolve : (internEach ss new).2.resolve ⟨i⟩ = some (internEach ss new).2.strings[i] :=
      List.getElem?_eq_getElem hi
    have hmem : (internEach ss new).2.strings[i] ∈ ss :=
      (mem_strings_internEach.mp (List.getElem_mem hi)).resolve_right List.not_mem_nil
    obtain ⟨a, hlt, ha⟩ := List.mem_iff_getElem.mp hmem
    obtain ⟨id, hid, hs⟩ := exists_resolve_internEach hlt
    rw [ha] at hs
    rw [resolve_injective hresolve hs]
    exact List.mem_of_getElem? hid

theorem getElem?_internEach_eq_iff {ss : List Text} {table : SymbolTable} {a b : Nat}
    (ha : a < ss.length) (hb : b < ss.length)
    : (internEach ss table).1[a]? = (internEach ss table).1[b]? ↔ ss[a]? = ss[b]? := by
  obtain ⟨id, hid, hs⟩ := exists_resolve_internEach ha
  obtain ⟨id', hid', hs'⟩ := exists_resolve_internEach hb
  rw [hid, hid', List.getElem?_eq_getElem ha, List.getElem?_eq_getElem hb]
  constructor
  . intro h
    rw [← hs, ← hs', Option.some.inj h]
  . intro h
    rw [← h] at hs'
    rw [resolve_injective hs hs']

theorem resolve_internEach_take {ss : List Text} {table : SymbolTable} {a n : Nat}
    {id : InternedString} (han : a < n) (h : (internEach ss table).1[a]? = some id)
    : (internEach (ss.take n) table).2.resolve id = ss[a]? := by
  have htake : (internEach (ss.take n) table).1[a]? = some id := by
    rw [internEach_take, List.getElem?_take_of_lt han]
    exact h
  rw [resolve_internEach htake, List.getElem?_take_of_lt han]

/--
Over any run of calls on a fresh table, the ids handed out are the first natural numbers, one for
each string, and the two directions of the table are inverse to each other.
-/
theorem internEach_bijection (ss : List Text)
    : let ids := (internEach ss new).1
      let table := (internEach ss new).2
      ids.length = ss.length
        ∧ (∀ i, ⟨i⟩ ∈ ids ↔ i < table.len)
        ∧ (∀ a b, a < ss.length → b < ss.length → (ids[a]? = ids[b]? ↔ ss[a]? = ss[b]?))
        ∧ (∀ a n id, a < n → n ≤ ss.length → ids[a]? = some id →
            (internEach (ss.take n) new).2.resolve id = ss[a]?)
        ∧ (∀ s, (table.contains s = true ↔ s ∈ ss) ∧ ((table.resolveId s).isSome ↔ s ∈ ss))
        ∧ ∀ s i, table.resolveId s = some i ↔ table.resolve ⟨i⟩ = some s := by
  intro ids table
  have hmem : ∀ s, s ∈ table.strings ↔ s ∈ ss := by
    intro s
    simp [table, mem_strings_internEach, new]
  refine ⟨length_internEach ss new, fun i => mem_internEach_new_iff, ?_, ?_, ?_,
    fun s i => resolveId_iff⟩
  . intro a b ha hb
    exact getElem?_internEach_eq_iff ha hb
  . intro a n id han _ hid
    exact resolve_internEach_take han hid
  . intro s
    rw [contains_iff, hmem, Option.isSome_iff_exists, ← mem_strings_iff, hmem]
    exact ⟨Iff.rfl, Iff.rfl⟩

end SymbolTable
end HdlGraph
