import Mathlib.Data.List.Lex
import Mathlib.Order.Fin.Basic
import Mathlib.Tactic.Ring

/-!
This module contains byte strings in their bytewise order and the big-endian encoding of numbers,
for which that order is the order of the numbers.
-/

abbrev Byte := Fin 256

abbrev Byte.ofNat (n : Nat) : Byte := Fin.ofNat 256 n

abbrev Bytes := List Byte

namespace Bytes

theorem lt_append_left (p : Bytes) {k k' : Bytes} : p ++ k < p ++ k' ↔ k < k' := by
  induction p with
  | nil => rfl
  | cons a p ih => simp [ih]

theorem le_append (p k : Bytes) : p ≤ p ++ k := by
  rw [← not_lt]
  induction p with
  | nil => exact List.not_lt_nil k
  | cons a p ih => simp [ih]

theorem prefix_of_le_of_lt {p k k' : Bytes} (hle : p ≤ k) (hlt : k < k') (hfront : p <+: k')
    : p <+: k := by
  rw [← not_lt] at hle
  induction p generalizing k k' with
  | nil => exact List.nil_prefix
  | cons a p ih =>
    obtain ⟨rest, hrest⟩ := hfront
    subst hrest
    cases k with
    | nil => exact absurd (List.nil_lt_cons a p) hle
    | cons b k =>
      rw [List.cons_append, List.cons_lt_cons_iff] at hlt
      rw [List.cons_lt_cons_iff, not_or, not_and] at hle
      have heq : b = a := by
        cases hlt with
        | inl hba => exact absurd hba hle.1
        | inr hba => exact hba.1
      subst heq
      have hlt' : k < p ++ rest := (hlt.resolve_left (lt_irrefl b)).2
      exact List.cons_prefix_cons.mpr ⟨rfl, ih (hle.2 rfl) hlt' (List.prefix_append p rest)⟩

def bigEndian : Nat → Nat → Bytes
  | 0, _ => []
  | width + 1, n => Byte.ofNat (n / 256 ^ width) :: bigEndian width (n % 256 ^ width)

def ofBigEndian (bytes : Bytes) : Nat := bytes.foldl (fun n b => 256 * n + b.val) 0

@[simp]
theorem length_bigEndian (width n : Nat) : (bigEndian width n).length = width := by
  induction width generalizing n with
  | zero => rfl
  | succ width ih => simp [bigEndian, ih]

theorem foldl_bigEndian {width n : Nat} (h : n < 256 ^ width) (start : Nat)
    : (bigEndian width n).foldl (fun n b => 256 * n + b.val) start = start * 256 ^ width + n := by
  induction width generalizing n start with
  | zero =>
    have hzero : n = 0 := by simpa using h
    simp [bigEndian, hzero]
  | succ width ih =>
    have hpos : 0 < 256 ^ width := Nat.pow_pos (by decide)
    have hhead : n / 256 ^ width < 256 := Nat.div_lt_of_lt_mul (by rwa [← Nat.pow_succ])
    have hsplit := Nat.div_add_mod n (256 ^ width)
    rw [bigEndian, List.foldl_cons, ih (Nat.mod_lt n hpos), Fin.val_ofNat, Nat.mod_eq_of_lt hhead]
    calc (256 * start + n / 256 ^ width) * 256 ^ width + n % 256 ^ width
      _ = start * 256 ^ (width + 1) + (256 ^ width * (n / 256 ^ width) + n % 256 ^ width) := by ring
      _ = start * 256 ^ (width + 1) + n := by rw [hsplit]

theorem ofBigEndian_bigEndian {width n : Nat} (h : n < 256 ^ width)
    : ofBigEndian (bigEndian width n) = n := by
  rw [ofBigEndian, foldl_bigEndian h, Nat.zero_mul, Nat.zero_add]

theorem bigEndian_inj {width n m : Nat} (hn : n < 256 ^ width) (hm : m < 256 ^ width)
    : bigEndian width n = bigEndian width m ↔ n = m := by
  constructor
  . intro h
    rw [← ofBigEndian_bigEndian hn, h, ofBigEndian_bigEndian hm]
  . intro h
    rw [h]

theorem bigEndian_lt_iff {width n m : Nat} (hn : n < 256 ^ width) (hm : m < 256 ^ width)
    : bigEndian width n < bigEndian width m ↔ n < m := by
  induction width generalizing n m with
  | zero =>
    have hzero : n = 0 ∧ m = 0 := ⟨by simpa using hn, by simpa using hm⟩
    simp [bigEndian, hzero.1, hzero.2]
  | succ width ih =>
    have hpos : 0 < 256 ^ width := Nat.pow_pos (by decide)
    have hn' : n / 256 ^ width < 256 := Nat.div_lt_of_lt_mul (by rwa [← Nat.pow_succ])
    have hm' : m / 256 ^ width < 256 := Nat.div_lt_of_lt_mul (by rwa [← Nat.pow_succ])
    have hnsplit := Nat.div_add_mod n (256 ^ width)
    have hmsplit := Nat.div_add_mod m (256 ^ width)
    have hnmod := Nat.mod_lt n hpos
    have hmmod := Nat.mod_lt m hpos
    have hhead : Byte.ofNat (n / 256 ^ width) < Byte.ofNat (m / 256 ^ width)
        ↔ n / 256 ^ width < m / 256 ^ width := by
      rw [Fin.lt_def, Fin.val_ofNat, Fin.val_ofNat, Nat.mod_eq_of_lt hn', Nat.mod_eq_of_lt hm']
    have heq : Byte.ofNat (n / 256 ^ width) = Byte.ofNat (m / 256 ^ width)
        ↔ n / 256 ^ width = m / 256 ^ width := by
      rw [Fin.ext_iff, Fin.val_ofNat, Fin.val_ofNat, Nat.mod_eq_of_lt hn', Nat.mod_eq_of_lt hm']
    rw [bigEndian, bigEndian, List.cons_lt_cons_iff, hhead, heq, ih hnmod hmmod]
    generalize 256 ^ width = base at *
    generalize n / base = q at *
    generalize m / base = q' at *
    constructor
    . rintro (hlt | ⟨heq, hlt⟩)
      . have hmul : base * (q + 1) ≤ base * q' := Nat.mul_le_mul_left base hlt
        rw [Nat.mul_add, Nat.mul_one] at hmul
        omega
      . subst heq
        omega
    . intro hlt
      rcases Nat.lt_trichotomy q q' with hq | hq | hq
      . exact Or.inl hq
      . subst hq
        exact Or.inr ⟨rfl, by omega⟩
      . have hmul : base * (q' + 1) ≤ base * q := Nat.mul_le_mul_left base hq
        rw [Nat.mul_add, Nat.mul_one] at hmul
        omega

end Bytes
