import HdlGraph.Library.Text

/-!
This module contains the operations on texts that need the tables of Unicode. Which version of the
tables there is depends on the toolchain, so they are a parameter; on ASCII characters they are
fixed.
-/

structure Unicode where
  isAlphanumeric : Char → Bool
  -- `char::to_lowercase`
  toLower : Char → Text
  isCased : Char → Bool
  isCaseIgnorable : Char → Bool
  isAlphanumeric_ascii : ∀ c : Char, c.toNat < 128 → isAlphanumeric c = c.isAlphanum
  toLower_ascii : ∀ c : Char, c.toNat < 128 → toLower c = [c.toLower]

namespace Unicode

open Text

def ascii : Unicode where
  isAlphanumeric c := c.isAlphanum
  toLower c := [c.toLower]
  isCased c := c.isAlpha
  isCaseIgnorable _ := false
  isAlphanumeric_ascii _ _ := rfl
  toLower_ascii _ _ := rfl

variable (u : Unicode)

def caseIgnorableThenCased (s : Text) : Bool := (s.dropWhile u.isCaseIgnorable).head?.any u.isCased

-- `str::to_lowercase`; how a capital sigma is mapped depends on what is around it
def toLowercase (s : Text) : Text := go [] s
where
  go (before : Text) : Text → Text
  | [] => []
  | c :: rest =>
    (if c = 'Σ' then
      [if u.caseIgnorableThenCased before && !u.caseIgnorableThenCased rest then 'ς' else 'σ']
    else
      u.toLower c) ++ go (c :: before) rest

def isIdentifier (c : Char) : Bool := u.isAlphanumeric c || c = '_'

theorem toLowercase_ascii {s : Text} (h : ∀ c ∈ s, c.toNat < 128)
    : u.toLowercase s = s.map Char.toLower := by
  have hgo : ∀ before, toLowercase.go u before s = s.map Char.toLower := by
    induction s with
    | nil =>
      intro before
      rfl
    | cons c s ih =>
      intro before
      have hc := h c List.mem_cons_self
      have hsigma : c ≠ 'Σ' := by
        rintro rfl
        exact absurd hc (by decide)
      rw [toLowercase.go, if_neg hsigma, u.toLower_ascii c hc,
        ih fun d hd => h d (List.mem_cons_of_mem c hd)]
      rfl
  exact hgo []

theorem toLower_of_ascii {c : Char} (h : c.toNat < 128)
    : c.toLower.toNat < 128 ∧ isWordChar c.toLower = isWordChar c := by
  have hall : ∀ n : Fin 128,
      (Char.ofNat n).toLower.toNat < 128
      ∧ isWordChar (Char.ofNat n).toLower = isWordChar (Char.ofNat n) := by
    decide
  have := hall ⟨c.toNat, h⟩
  rwa [Char.ofNat_toNat] at this

theorem isIdentifier_ascii {c : Char} (h : c.toNat < 128) : u.isIdentifier c = isWordChar c := by
  rw [isIdentifier, u.isAlphanumeric_ascii c h]
  rfl

theorem isIdentifier_toLower {c : Char} (h : c.toNat < 128)
    : u.isIdentifier c.toLower = u.isIdentifier c := by
  rw [u.isIdentifier_ascii h, u.isIdentifier_ascii (toLower_of_ascii h).1, (toLower_of_ascii h).2]

theorem isIdentifier_of_isWordChar {c : Char} (h : isWordChar c) : u.isIdentifier c := by
  have := toNat_of_isWordChar h
  rwa [u.isIdentifier_ascii (by omega)]

end Unicode
