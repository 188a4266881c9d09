import Mathlib.Data.List.Infix
import Mathlib.Data.List.DropRight

/-!
This module contains the text operations of an imperative string library, on lists of characters:
trimming, line splitting, prefix tests and leftmost substring search. Offsets count bytes of the
UTF-8 encoding.
-/

abbrev Text := List Char

namespace Text

-- Goes through the text where another instance may go through all characters
instance decidableForallMem (s : Text) (p : Char → Prop) [DecidablePred p]
    : Decidable (∀ c ∈ s, p c) :=
  List.decidableBAll p s

-- Membership in a list of texts is decided by this one instance, whatever module it is written in
instance lawfulBEq : LawfulBEq Text := inferInstanceAs (LawfulBEq (List Char))

def isWhitespace (c : Char) : Bool :=
  (0x09 ≤ c.toNat && c.toNat ≤ 0x0d) || c.toNat = 0x20 || c.toNat = 0x85 || c.toNat = 0xa0
    || c.toNat = 0x1680 || (0x2000 ≤ c.toNat && c.toNat ≤ 0x200a) || c.toNat = 0x2028
    || c.toNat = 0x2029 || c.toNat = 0x202f || c.toNat = 0x205f || c.toNat = 0x3000

def trimStart (s : Text) : Text := s.dropWhile isWhitespace

def trimEnd (s : Text) : Text := s.rdropWhile isWhitespace

def trim (s : Text) : Text := trimEnd (trimStart s)

def trimMatches (c : Char) (s : Text) : Text := (s.dropWhile (· = c)).rdropWhile (· = c)

def trimStartChar (c : Char) (s : Text) : Text := s.dropWhile (· = c)

def trimEndChar (c : Char) (s : Text) : Text := s.rdropWhile (· = c)

def startsWith (s pat : Text) : Bool := pat.isPrefixOf s

def stripPrefix? (pat s : Text) : Option Text :=
  if pat.isPrefixOf s then some (s.drop pat.length) else none

def stripSuffix? (pat s : Text) : Option Text :=
  if pat.isSuffixOf s then some (s.take (s.length - pat.length)) else none

def trimStartMatches (pat s : Text) : Text := go s.length s
where
  go : Nat → Text → Text
  | 0, s => s
  | fuel + 1, s => if pat.isPrefixOf s then go fuel (s.drop pat.length) else s

def isWordChar (c : Char) : Bool := c.isAlphanum || c = '_'

def byteLen : Text → Nat
  | [] => 0
  | c :: s => c.utf8Size + byteLen s

-- `(&s[..n], &s[n..])`; `none` where these slices panic
def splitAtByte? : Nat → Text → Option (Text × Text)
  | 0, s => some ([], s)
  | _ + 1, [] => none
  | n + 1, c :: cs =>
    if c.utf8Size ≤ n + 1 then
      (splitAtByte? (n + 1 - c.utf8Size) cs).map fun (front, back) => (c :: front, back)
    else
      none

def IsCharBoundary (s : Text) (n : Nat) : Prop :=
  ∃ front back, s = front ++ back ∧ byteLen front = n

-- The leftmost occurrence of `pat` in `s`, as `s.find(pat)` finds it: its byte offset and the text
-- that follows it
def find? (pat : Text) : Text → Option (Nat × Text)
  | [] => if pat.isEmpty then some (0, []) else none
  | c :: cs =>
    if pat.isPrefixOf (c :: cs) then
      some (0, (c :: cs).drop pat.length)
    else
      (find? pat cs).map fun (pos, after) => (c.utf8Size + pos, after)

def contains (s pat : Text) : Bool := (find? pat s).isSome

def before? (pat : Text) : Text → Option Text
  | [] => if pat.isEmpty then some [] else none
  | c :: cs => if pat.isPrefixOf (c :: cs) then some [] else (before? pat cs).map (c :: ·)

def outsideFrom (ranges : List (Nat × Nat)) : Nat → Text → Text
  | _, [] => []
  | pos, c :: cs =>
    let rest := outsideFrom ranges (pos + c.utf8Size) cs
    if ranges.any fun range => range.1 ≤ pos && pos < range.2 then rest else c :: rest

-- `s.lines()`: a line ends at `\n` or `\r\n`; a last line without such an end is a line too
def lines (s : Text) : List Text := go [] s
where
  go (acc : Text) : Text → List Text
  | [] => if acc.isEmpty then [] else [acc.reverse]
  | c :: cs => if c = '\n' then stripCr acc :: go [] cs else go (c :: acc) cs
  stripCr : Text → Text
  | '\r' :: acc => acc.reverse
  | acc => acc.reverse

def join (sep : Text) : List Text → Text
  | [] => []
  | [s] => s
  | s :: rest => s ++ sep ++ join sep rest

theorem toNat_of_isWordChar {c : Char} (h : isWordChar c) : 0x30 ≤ c.toNat ∧ c.toNat ≤ 0x7a := by
  have hranges : (((decide (c.val ≥ 'A'.val ∧ c.val ≤ 'Z'.val)
      || (c.val ≥ 'a'.val && c.val ≤ 'z'.val))
      || (c.val ≥ '0'.val && c.val ≤ '9'.val)) || decide (c = '_')) = true := h
  simp only [Bool.or_eq_true, Bool.and_eq_true, decide_eq_true_eq, UInt32.le_iff_toNat_le,
    ge_iff_le] at hranges
  rcases hranges with ((h | h) | h) | rfl
  . exact ⟨Nat.le_trans (by decide) h.1, Nat.le_trans h.2 (by decide)⟩
  . exact ⟨Nat.le_trans (by decide) h.1, Nat.le_trans h.2 (by decide)⟩
  . exact ⟨Nat.le_trans (by decide) h.1, Nat.le_trans h.2 (by decide)⟩
  . decide

theorem isWhitespace_of_isWordChar {c : Char} (h : isWordChar c) : isWhitespace c = false := by
  obtain ⟨hle, hge⟩ := toNat_of_isWordChar h
  simp only [isWhitespace, Bool.or_eq_false_iff, Bool.and_eq_false_iff, decide_eq_false_iff_not]
  omega

theorem isWordChar_of_isAlpha {c : Char} (h : c.isAlpha = true) : isWordChar c = true := by
  simp [isWordChar, Char.isAlphanum, h]

theorem takeWhile_append_of_head {p : Char → Bool} {front s : Text} (hfront : ∀ c ∈ front, p c)
    (hs : s.head?.all (!p ·) = true)
    : (front ++ s).takeWhile p = front ∧ (front ++ s).dropWhile p = s := by
  rw [List.takeWhile_append_of_pos hfront, List.dropWhile_append_of_pos hfront]
  cases s with
  | nil => simp
  | cons c cs =>
    have hc : p c = false := by simpa using hs
    simp [hc]

theorem head?_dropWhile_all (p : Char → Bool) (s : Text)
    : (s.dropWhile p).head?.all (!p ·) = true := by
  have hhead := List.head?_dropWhile_not p s
  cases hdrop : (s.dropWhile p).head? with
  | none => rfl
  | some c =>
    rw [hdrop] at hhead
    simpa using hhead

theorem takeWhile_append_head {p : Char → Bool} (s : Text) {t : Text}
    (ht : t.head?.all (!p ·) = true)
    : (s ++ t).takeWhile p = s.takeWhile p ∧ (s ++ t).dropWhile p = s.dropWhile p ++ t := by
  have hword : ∀ c ∈ s.takeWhile p, p c := fun c hc => List.mem_takeWhile_imp hc
  have hhead : (s.dropWhile p ++ t).head?.all (!p ·) = true := by
    have := head?_dropWhile_all p s
    cases hdrop : s.dropWhile p with
    | nil => exact ht
    | cons c cs =>
      rw [hdrop] at this
      exact this
  have := takeWhile_append_of_head hword hhead
  rwa [← List.append_assoc, List.takeWhile_append_dropWhile] at this

theorem trimStart_append {lead : Text} (s : Text) (h : ∀ c ∈ lead, isWhitespace c)
    : trimStart (lead ++ s) = trimStart s := List.dropWhile_append_of_pos h

theorem trimEnd_append (s : Text) {trail : Text} (h : ∀ c ∈ trail, isWhitespace c)
    : trimEnd (s ++ trail) = trimEnd s := by
  unfold trimEnd List.rdropWhile
  rw [List.reverse_append, List.dropWhile_append_of_pos]
  intro c hc
  exact h c (List.mem_reverse.mp hc)

theorem trim_append_left {lead : Text} (s : Text) (h : ∀ c ∈ lead, isWhitespace c)
    : trim (lead ++ s) = trim s := by
  unfold trim
  rw [trimStart_append s h]

theorem trim_append_right (s : Text) {trail : Text} (h : ∀ c ∈ trail, isWhitespace c)
    : trim (s ++ trail) = trim s := by
  unfold trim trimStart
  rw [List.dropWhile_append]
  split
  . next hs =>
    rw [List.isEmpty_iff.mp hs, List.dropWhile_eq_nil_iff.mpr h]
  . apply trimEnd_append _ h

theorem trim_eq_self {s : Text} (hhead : ∀ c ∈ s.head?, isWhitespace c = false)
    (hlast : ∀ c ∈ s.getLast?, isWhitespace c = false)
    : trim s = s := by
  have hstart : trimStart s = s := by
    cases s with
    | nil => rfl
    | cons c cs => exact List.dropWhile_cons_of_neg (by simp [hhead c rfl])
  unfold trim
  rw [hstart]
  apply List.rdropWhile_eq_self_iff.mpr
  intro hs
  simp [hlast _ (List.getLast?_eq_some_getLast hs)]

theorem exists_eq_append_trim (s : Text)
    : ∃ lead trail, s = lead ++ trim s ++ trail ∧ (∀ c ∈ lead, isWhitespace c)
        ∧ ∀ c ∈ trail, isWhitespace c := by
  refine ⟨s.takeWhile isWhitespace, (trimStart s).rtakeWhile isWhitespace, ?_, ?_, ?_⟩
  . rw [List.append_assoc, trim, trimEnd, List.rdropWhile_append_rtakeWhile, trimStart,
      List.takeWhile_append_dropWhile]
  . intro c hc
    exact List.mem_takeWhile_imp hc
  . intro c hc
    exact List.mem_rtakeWhile_imp hc

theorem trim_trim (s : Text) : trim (trim s) = trim s := by
  have ⟨lead, trail, hs, hlead, htrail⟩ := exists_eq_append_trim s
  have := trim_append_left (trim s ++ trail) hlead
  rw [trim_append_right _ htrail, ← List.append_assoc, ← hs] at this
  exact this.symm

theorem trim_eq_nil_iff {s : Text} : trim s = [] ↔ ∀ c ∈ s, isWhitespace c := by
  constructor
  . intro h
    obtain ⟨lead, trail, hs, hlead, htrail⟩ := exists_eq_append_trim s
    rw [h, List.append_nil] at hs
    intro c hc
    rw [hs, List.mem_append] at hc
    cases hc with
    | inl hc => exact hlead c hc
    | inr hc => exact htrail c hc
  . intro h
    have := trim_append_left [] h
    rwa [List.append_nil] at this

theorem trim_append_ne_nil {s : Text} (h : trim s ≠ []) (t : Text) : trim (s ++ t) ≠ [] := by
  rw [ne_eq, trim_eq_nil_iff] at *
  exact fun hall => h fun c hc => hall c (List.mem_append_left t hc)

theorem trim_of_not_isWhitespace {s : Text} (h : ∀ c ∈ s, isWhitespace c = false) : trim s = s := by
  apply trim_eq_self
  . intro c hc
    exact h c (List.mem_of_head? hc)
  . intro c hc
    exact h c (List.mem_of_getLast? hc)

theorem length_trim_le (s : Text) : (trim s).length ≤ s.length := by
  obtain ⟨lead, trail, hs, _, _⟩ := exists_eq_append_trim s
  have := congrArg List.length hs
  simp only [List.length_append] at this
  omega

theorem isWhitespace_head_of_trim_eq {c : Char} {s : Text} (h : trim (c :: s) = c :: s)
    : isWhitespace c = false := by
  by_contra hc
  rw [Bool.not_eq_false] at hc
  have hdrop : trim ([c] ++ s) = trim s := trim_append_left s (by simpa using hc)
  rw [List.singleton_append] at hdrop
  have hle := length_trim_le s
  rw [← hdrop, h, List.length_cons] at hle
  omega

theorem isWhitespace_getLast_of_trim_eq {c : Char} {s : Text} (h : trim (s ++ [c]) = s ++ [c])
    : isWhitespace c = false := by
  by_contra hc
  rw [Bool.not_eq_false] at hc
  have hdrop : trim (s ++ [c]) = trim s := trim_append_right s (by simpa using hc)
  have hle := length_trim_le s
  rw [← hdrop, h, List.length_append, List.length_singleton] at hle
  omega

theorem trimStart_eq_trim_of_suffix {s t : Text} (h : s <:+ trim t) : trimStart s = trim s := by
  have hsuffix : trimStart s <:+ trim t := (List.dropWhile_suffix _).trans h
  obtain ⟨front, hfront⟩ := hsuffix
  symm
  apply List.rdropWhile_eq_self_iff.mpr
  intro hne hlast
  rw [← List.dropLast_append_getLast hne, ← List.append_assoc] at hfront
  have hself : trim (front ++ (trimStart s).dropLast ++ [(trimStart s).getLast hne])
      = front ++ (trimStart s).dropLast ++ [(trimStart s).getLast hne] := by
    rw [hfront, trim_trim]
  rw [isWhitespace_getLast_of_trim_eq hself] at hlast
  contradiction

theorem getLast?_of_suffix {s t : Text} (h : s <:+ t) (hne : s ≠ []) : s.getLast? = t.getLast? := by
  obtain ⟨front, rfl⟩ := h
  exact (List.getLast?_append_of_ne_nil front hne).symm

theorem getLast?_trim {s : Text} {c : Char} (h : s.getLast? = some c) (hc : isWhitespace c = false)
    : (trim s).getLast? = some c := by
  obtain ⟨lead, trail, hs, hlead, htrail⟩ := exists_eq_append_trim s
  have htrailNil : trail = [] := by
    by_contra hne
    rw [hs, List.getLast?_append_of_ne_nil _ hne] at h
    have := htrail c (List.mem_of_getLast? h)
    simp [hc] at this
  rw [htrailNil, List.append_nil] at hs
  have hne : trim s ≠ [] := by
    intro hnil
    rw [hs, hnil, List.append_nil] at h
    have := hlead c (List.mem_of_getLast? h)
    simp [hc] at this
  rw [hs, List.getLast?_append_of_ne_nil _ hne] at h
  exact h

theorem trimStartMatches_suffix (pat s : Text) : trimStartMatches pat s <:+ s := by
  unfold trimStartMatches
  generalize s.length = fuel
  induction fuel generalizing s with
  | zero => exact List.suffix_rfl
  | succ fuel ih =>
    rw [trimStartMatches.go]
    split
    . exact (ih _).trans (List.drop_suffix _ _)
    . exact List.suffix_rfl

theorem not_prefix_trimStartMatches {pat : Text} (hpat : pat ≠ []) (s : Text)
    : ¬pat <+: trimStartMatches pat s := by
  have hgo : ∀ (fuel : Nat) (s : Text), s.length ≤ fuel →
      ¬pat <+: trimStartMatches.go pat fuel s := by
    intro fuel
    induction fuel with
    | zero =>
      intro s hlen hstarts
      rw [trimStartMatches.go, List.eq_nil_of_length_eq_zero (Nat.le_zero.mp hlen), List.prefix_nil]
        at hstarts
      exact hpat hstarts
    | succ fuel ih =>
      intro s hlen
      have hpos := List.length_pos_iff.mpr hpat
      rw [trimStartMatches.go]
      split
      . exact ih _ (by rw [List.length_drop]; omega)
      . next h => rwa [List.isPrefixOf_iff_prefix] at h
  exact hgo s.length s (Nat.le_refl _)

theorem trimStartMatches_append {pat s t : Text} (hpat : pat ≠ [])
    (h : ¬pat <+: trimStartMatches pat s ++ t)
    : trimStartMatches pat (s ++ t) = trimStartMatches pat s ++ t := by
  have hgo : ∀ (fuel fuel' : Nat) (s : Text), s.length ≤ fuel → fuel ≤ fuel' →
      ¬pat <+: trimStartMatches.go pat fuel s ++ t →
      trimStartMatches.go pat fuel' (s ++ t) = trimStartMatches.go pat fuel s ++ t := by
    have hstop (fuel : Nat) {s : Text} (hs : ¬pat <+: s) : trimStartMatches.go pat fuel s = s := by
      cases fuel with
      | zero => rfl
      | succ fuel => rw [trimStartMatches.go, if_neg (by rwa [List.isPrefixOf_iff_prefix])]
    have hstrip (fuel : Nat) (r : Text) : trimStartMatches.go pat (fuel + 1) (pat ++ r)
        = trimStartMatches.go pat fuel r := by
      rw [trimStartMatches.go, if_pos (List.isPrefixOf_iff_prefix.mpr (List.prefix_append _ _)),
        List.drop_left]
    intro fuel
    induction fuel with
    | zero =>
      intro fuel' s _ _ h
      exact hstop fuel' h
    | succ fuel ih =>
      intro fuel' s hlen hle h
      by_cases hstarts : pat <+: s
      . obtain ⟨r, rfl⟩ := hstarts
        have hpos := List.length_pos_iff.mpr hpat
        rw [List.length_append] at hlen
        cases fuel' with
        | zero => omega
        | succ fuel' =>
          rw [hstrip] at h ⊢
          rw [List.append_assoc, hstrip]
          exact ih fuel' r (by omega) (by omega) h
      . rw [hstop _ hstarts] at h ⊢
        exact hstop fuel' h
  exact hgo s.length (s ++ t).length s (Nat.le_refl _) (by simp) h

theorem trim_suffix_of_suffix {s t : Text} (h : s <:+ trim t) : trim s <:+ s := by
  rw [← trimStart_eq_trim_of_suffix h]
  exact List.dropWhile_suffix _

theorem exists_trimEnd_append_cons (s : Text) {c : Char} (hc : isWhitespace c = false) (t : Text)
    : ∃ t', trimEnd (s ++ c :: t) = s ++ c :: t' := by
  have hsplit : trimEnd (s ++ c :: t) ++ (s ++ c :: t).rtakeWhile isWhitespace = s ++ c :: t :=
    List.rdropWhile_append_rtakeWhile
  obtain ⟨more, hmore, htrail⟩ | ⟨more, hmore, htrail⟩ := List.append_eq_append_iff.mp hsplit
  . have hmem : c ∈ (s ++ c :: t).rtakeWhile isWhitespace := by simp [htrail]
    have := List.mem_rtakeWhile_imp hmem
    simp [hc] at this
  . cases more with
    | nil =>
      rw [List.nil_append] at htrail
      have hmem : c ∈ (s ++ c :: t).rtakeWhile isWhitespace := by simp [← htrail]
      have := List.mem_rtakeWhile_imp hmem
      simp [hc] at this
    | cons d ds =>
      rw [List.cons_append, List.cons.injEq] at htrail
      exact ⟨ds, by rw [hmore, htrail.1]⟩

theorem trimStart_append_of_trim_eq {s : Text} (hne : s ≠ []) (hs : trim s = s) (t : Text)
    : trimStart (s ++ t) = s ++ t := by
  cases s with
  | nil => contradiction
  | cons d ds => exact List.dropWhile_cons_of_neg (by simp [isWhitespace_head_of_trim_eq hs])

theorem exists_trim_append_cons {s : Text} (hne : s ≠ []) (hs : trim s = s) {c : Char}
    (hc : isWhitespace c = false) (t : Text)
    : ∃ t', trim (s ++ c :: t) = s ++ c :: t' := by
  rw [trim, trimStart_append_of_trim_eq hne hs]
  exact exists_trimEnd_append_cons s hc t

theorem exists_trim_append {s : Text} (hne : trim s ≠ []) (front : Text) {c : Char}
    (hc : isWhitespace c = false) (t : Text)
    : ∃ trail t', trim (s ++ (front ++ c :: t)) = trim s ++ (trail ++ (front ++ c :: t'))
        ∧ (∀ d ∈ trail, d ∈ s ∧ isWhitespace d) := by
  obtain ⟨lead, trail, hs, hlead, htrail⟩ := exists_eq_append_trim s
  have hsplit : s ++ (front ++ c :: t) = lead ++ (trim s ++ (trail ++ (front ++ c :: t))) := by
    conv => lhs; rw [hs]
    simp only [List.append_assoc]
  obtain ⟨t', ht'⟩ := exists_trimEnd_append_cons (trim s ++ (trail ++ front)) hc t
  refine ⟨trail, t', ?_, fun d hd => ⟨?_, htrail d hd⟩⟩
  . rw [hsplit, trim_append_left _ hlead, trim, trimStart_append_of_trim_eq hne (trim_trim s)]
    simpa only [List.append_assoc] using ht'
  . rw [hs]
    exact List.mem_append_right _ hd

theorem exists_trim_append_eq {s : Text} (hne : trim s ≠ []) (t : Text)
    : ∃ gap trail, trim (s ++ t) ++ trail = trim s ++ (gap ++ t) ∧ (∀ c ∈ gap, isWhitespace c)
        ∧ ∀ c ∈ trail, isWhitespace c := by
  obtain ⟨lead, gap, hs, hlead, hgap⟩ := exists_eq_append_trim s
  refine ⟨gap, (trim s ++ (gap ++ t)).rtakeWhile isWhitespace, ?_, hgap,
    fun c hc => List.mem_rtakeWhile_imp hc⟩
  have hsplit : s ++ t = lead ++ (trim s ++ (gap ++ t)) := by
    conv => lhs; rw [hs]
    simp only [List.append_assoc]
  rw [hsplit, trim_append_left _ hlead, trim, trimStart_append_of_trim_eq hne (trim_trim s)]
  exact List.rdropWhile_append_rtakeWhile

theorem trim_append_of_suffix {s u x trail t : Text} (hs : s <:+ trim u) (hx : x ++ trail = t)
    (htrail : ∀ c ∈ trail, isWhitespace c)
    : trim (s ++ x) = trim (trim s ++ t) := by
  have hsplit : s ++ t = s.takeWhile isWhitespace ++ (trim s ++ t) := by
    rw [← trimStart_eq_trim_of_suffix hs, ← List.append_assoc]
    exact congrArg (· ++ t) List.takeWhile_append_dropWhile.symm
  rw [← trim_append_right _ htrail, List.append_assoc, hx, hsplit]
  exact trim_append_left _ fun c hc => List.mem_takeWhile_imp hc

theorem trim_append_of_suffixes {s u x v : Text} (hs : s <:+ trim u) (hsx : s ++ x <:+ trim v)
    (hne : trim s ≠ [])
    : trim (s ++ x) = trim s ++ x := by
  rw [← trimStart_eq_trim_of_suffix hsx, ← trimStart_eq_trim_of_suffix hs]
  rw [← trimStart_eq_trim_of_suffix hs] at hne
  unfold trimStart at *
  rw [List.dropWhile_append, if_neg (by simpa using hne)]

theorem byteLen_nil : byteLen [] = 0 := rfl

@[simp]
theorem byteLen_cons (c : Char) (s : Text) : byteLen (c :: s) = c.utf8Size + byteLen s := rfl

@[simp]
theorem byteLen_append (s t : Text) : byteLen (s ++ t) = byteLen s + byteLen t := by
  induction s with
  | nil => simp [byteLen]
  | cons c s ih => rw [List.cons_append, byteLen_cons, byteLen_cons, ih, Nat.add_assoc]

theorem splitAtByte?_append (front back : Text)
    : splitAtByte? (byteLen front) (front ++ back) = some (front, back) := by
  induction front with
  | nil => simp [byteLen_nil, splitAtByte?]
  | cons c cs ih =>
    have hpos := Char.utf8Size_pos c
    have ⟨n, hn⟩ : ∃ n, c.utf8Size + byteLen cs = n + 1 := ⟨c.utf8Size + byteLen cs - 1, by omega⟩
    have hrest : n + 1 - c.utf8Size = byteLen cs := by omega
    rw [byteLen_cons, hn, List.cons_append, splitAtByte?, if_pos (by omega), hrest, ih]
    rfl

theorem splitAtByte?_eq_some {n : Nat} {s front back : Text}
    (h : splitAtByte? n s = some (front, back))
    : s = front ++ back ∧ byteLen front = n := by
  induction s generalizing n front with
  | nil =>
    cases n with
    | zero => simp_all [splitAtByte?, byteLen]
    | succ n => contradiction
  | cons c cs ih =>
    cases n with
    | zero => simp_all [splitAtByte?, byteLen]
    | succ n =>
      rw [splitAtByte?] at h
      split at h
      . simp only [Option.map_eq_some_iff, Prod.mk.injEq, Prod.exists] at h
        have ⟨front', back', hsplit, hfront, hback⟩ := h
        subst hfront hback
        have ⟨heq, hlen⟩ := ih hsplit
        rw [byteLen_cons, hlen, heq]
        exact ⟨rfl, by omega⟩
      . contradiction

theorem splitAtByte?_append_right {n : Nat} {s front back : Text}
    (h : splitAtByte? n s = some (front, back)) (t : Text)
    : splitAtByte? n (s ++ t) = some (front, back ++ t) := by
  obtain ⟨rfl, rfl⟩ := splitAtByte?_eq_some h
  rw [List.append_assoc]
  exact splitAtByte?_append front (back ++ t)

theorem splitAtByte?_isSome_iff {n : Nat} {s : Text} : (splitAtByte? n s).isSome = true
    ↔ IsCharBoundary s n := by
  constructor
  . intro h
    obtain ⟨⟨front, back⟩, hsplit⟩ := Option.isSome_iff_exists.mp h
    exact ⟨front, back, splitAtByte?_eq_some hsplit⟩
  . rintro ⟨front, back, rfl, rfl⟩
    rw [splitAtByte?_append]
    rfl

theorem isCharBoundary_append (front back : Text)
    : IsCharBoundary (front ++ back) (byteLen front) :=
  ⟨front, back, rfl, rfl⟩

theorem isCharBoundary_takeWhile (p : Char → Bool) (s : Text)
    : IsCharBoundary s (byteLen (s.takeWhile p)) :=
  ⟨s.takeWhile p, s.dropWhile p, List.takeWhile_append_dropWhile.symm, rfl⟩

theorem isCharBoundary_of_le {s : Text} (h : ∀ c ∈ s, c.utf8Size = 1) {n : Nat} (hn : n ≤ s.length)
    : IsCharBoundary s n := by
  refine ⟨s.take n, s.drop n, (List.take_append_drop n s).symm, ?_⟩
  induction s generalizing n with
  | nil => simp_all [byteLen]
  | cons c cs ih =>
    cases n with
    | zero => rfl
    | succ n =>
      rw [List.take_succ_cons, byteLen_cons, h c List.mem_cons_self,
        ih (fun d hd => h d (List.mem_cons_of_mem c hd)) (Nat.le_of_succ_le_succ hn), Nat.add_comm]

theorem outsideFrom_append (ranges : List (Nat × Nat)) (pos : Nat) (s t : Text)
    : outsideFrom ranges pos (s ++ t)
        = outsideFrom ranges pos s ++ outsideFrom ranges (pos + byteLen s) t := by
  induction s generalizing pos with
  | nil => rfl
  | cons c cs ih =>
    rw [List.cons_append, outsideFrom, outsideFrom, ih, byteLen_cons, Nat.add_assoc]
    split
    . rfl
    . rw [List.cons_append]

theorem outsideFrom_of_le {ranges : List (Nat × Nat)} {pos : Nat}
    (h : ∀ range ∈ ranges, range.2 ≤ pos) (s : Text)
    : outsideFrom ranges pos s = s := by
  induction s generalizing pos with
  | nil => rfl
  | cons c cs ih =>
    rw [outsideFrom, ih fun range hrange => Nat.le_trans (h range hrange) (Nat.le_add_right _ _),
      if_neg]
    intro hany
    obtain ⟨range, hrange, hin⟩ := List.any_eq_true.mp hany
    have := h range hrange
    simp only [Bool.and_eq_true, decide_eq_true_eq] at hin
    omega

theorem outsideFrom_concat {ranges : List (Nat × Nat)} {pos : Nat} {range : Nat × Nat} {s : Text}
    (h : pos + byteLen s ≤ range.1)
    : outsideFrom (ranges ++ [range]) pos s = outsideFrom ranges pos s := by
  induction s generalizing pos with
  | nil => rfl
  | cons c cs ih =>
    rw [byteLen_cons] at h
    have hpos := Char.utf8Size_pos c
    have hout : (decide (range.1 ≤ pos) && decide (pos < range.2)) = false := by
      rw [decide_eq_false (by omega), Bool.false_and]
    have hany : ((ranges ++ [range]).any fun range =>
      decide (range.1 ≤ pos) && decide (pos < range.2))
        = ranges.any fun range => decide (range.1 ≤ pos) && decide (pos < range.2) := by
      rw [List.any_append, List.any_cons, List.any_nil, hout, Bool.or_false, Bool.or_false]
    rw [outsideFrom, outsideFrom, ih (by omega), hany]

theorem outsideFrom_of_mem {ranges : List (Nat × Nat)} {range : Nat × Nat} (hmem : range ∈ ranges)
    {pos : Nat} {s : Text} (hstart : range.1 ≤ pos) (hend : pos + byteLen s ≤ range.2)
    : outsideFrom ranges pos s = [] := by
  induction s generalizing pos with
  | nil => rfl
  | cons c cs ih =>
    rw [byteLen_cons] at hend
    have hpos := Char.utf8Size_pos c
    rw [outsideFrom, ih (by omega) (by omega), if_pos]
    apply List.any_eq_true.mpr
    refine ⟨range, hmem, ?_⟩
    rw [decide_eq_true hstart, decide_eq_true (by omega)]
    rfl

theorem stripSuffix?_append (pat s : Text) : stripSuffix? pat (s ++ pat) = some s := by
  rw [stripSuffix?, if_pos (List.isSuffixOf_iff_suffix.mpr (List.suffix_append s pat)),
    List.length_append, Nat.add_sub_cancel, List.take_left]

theorem join_cons_eq (sep s : Text) (rest : List Text)
    : join sep (s :: rest) = s ++ rest.flatMap (sep ++ ·) := by
  induction rest generalizing s with
  | nil => simp [join]
  | cons t rest ih =>
    change s ++ sep ++ join sep (t :: rest) = _
    rw [ih, List.flatMap_cons, List.append_assoc, List.append_assoc]

theorem join_concat (sep s t : Text) (rest : List Text)
    : join sep (s :: rest ++ [t]) = join sep (s :: rest) ++ (sep ++ t) := by
  rw [List.cons_append, join_cons_eq, join_cons_eq, List.flatMap_append, List.flatMap_singleton,
    List.append_assoc]

theorem trim_trimEndChar {c : Char} {s : Text} (hlast : s.getLast? ≠ some c)
    (hspace : ∀ d ∈ s, isWhitespace d = false)
    : trim (trimEndChar c s) = s := by
  have hself : trimEndChar c s = s := by
    rw [trimEndChar, List.rdropWhile_eq_self_iff]
    intro hne hc
    rw [List.getLast?_eq_some_getLast hne] at hlast
    exact hlast (congrArg some (of_decide_eq_true hc))
  rw [hself, trim_of_not_isWhitespace hspace]

theorem trimEndChar_concat (c : Char) (s : Text) : trimEndChar c (s ++ [c]) = trimEndChar c s :=
  List.rdropWhile_concat_pos _ _ _ (by simp)

theorem before?_eq_some {pat s front : Text} (h : before? pat s = some front)
    : ∃ back, s = front ++ (pat ++ back) := by
  induction s generalizing front with
  | nil =>
    rw [before?] at h
    split at h
    . next hpat =>
      rw [List.isEmpty_iff] at hpat
      cases h
      exact ⟨[], by simp [hpat]⟩
    . contradiction
  | cons c cs ih =>
    rw [before?] at h
    split at h
    . next hpat =>
      cases h
      obtain ⟨back, hback⟩ := List.isPrefixOf_iff_prefix.mp hpat
      exact ⟨back, hback.symm⟩
    . obtain ⟨front, hfront, rfl⟩ := Option.map_eq_some_iff.mp h
      obtain ⟨back, hback⟩ := ih hfront
      exact ⟨back, by rw [hback, List.cons_append]⟩

theorem before?_skip {front : Text} {c : Char} (h : c ∉ front) (pat s : Text)
    : before? (c :: pat) (front ++ s) = (before? (c :: pat) s).map (front ++ ·) := by
  induction front with
  | nil => simp
  | cons d ds ih =>
    have hd : ¬(c :: pat).isPrefixOf (d :: (ds ++ s)) = true := by
      rw [List.isPrefixOf_iff_prefix, List.cons_prefix_cons]
      exact fun hfront => List.ne_of_not_mem_cons h hfront.1
    rw [List.cons_append, before?, if_neg hd, ih (List.not_mem_of_not_mem_cons h), Option.map_map]
    rfl

theorem before?_append {front : Text} {c : Char} (h : c ∉ front) (after : Text)
    : before? [c] (front ++ c :: after) = some front := by
  rw [before?_skip h]
  simp [before?]

theorem before?_eq_none {s : Text} {c : Char} (h : c ∉ s) : before? [c] s = none := by
  rw [← List.append_nil s, before?_skip h]
  rfl

theorem before?_doubled {c : Char} {key part s : Text} (hkey : c ∉ key) (hne : part ≠ [])
    (hpart : c ∉ part) (hs : s.head? = some c)
    : before? (c :: c :: key) (c :: c :: (part ++ s))
        =
      if key <+: part then some [] else (before? (c :: c :: key) s).map (c :: c :: part ++ ·) := by
  have hstarts : (c :: c :: key).isPrefixOf (c :: c :: (part ++ s)) = true ↔ key <+: part := by
    rw [List.isPrefixOf_iff_prefix, List.cons_prefix_cons, List.cons_prefix_cons]
    simp only [true_and]
    constructor
    . intro h
      rcases List.prefix_or_prefix_of_prefix h
        (List.prefix_append part s) with hkeyPart | ⟨after, rfl⟩
      . exact hkeyPart
      . rw [List.prefix_append_right_inj] at h
        cases after with
        | nil => simp
        | cons d after =>
          obtain ⟨back, rfl⟩ := h
          exact absurd (List.mem_append_right part (Option.some.inj hs ▸ List.mem_cons_self)) hkey
    . exact fun h => h.trans (List.prefix_append part s)
  by_cases hkeyPart : key <+: part
  . rw [before?, if_pos (hstarts.mpr hkeyPart), if_pos hkeyPart]
  . obtain ⟨d, ds, rfl⟩ := List.exists_cons_of_ne_nil hne
    have hd : ¬(c :: c :: key).isPrefixOf (c :: (d :: ds ++ s)) = true := by
      rw [List.isPrefixOf_iff_prefix, List.cons_append, List.cons_prefix_cons,
        List.cons_prefix_cons]
      exact fun h => List.ne_of_not_mem_cons hpart h.2.1
    rw [before?, if_neg fun h => hkeyPart (hstarts.mp h), before?, if_neg hd, before?_skip hpart,
      if_neg hkeyPart, Option.map_map, Option.map_map]
    rfl

theorem contains_iff {s pat : Text} : contains s pat = true ↔ pat <:+: s := by
  induction s with
  | nil => simp [contains, find?, List.isEmpty_iff]
  | cons c cs ih =>
    simp only [contains, find?] at *
    split
    . next hp =>
      simp only [Option.isSome_some, true_iff]
      exact (List.isPrefixOf_iff_prefix.mp hp).isInfix
    . next hp =>
      have : ¬ pat <+: c :: cs := fun h => hp (List.isPrefixOf_iff_prefix.mpr h)
      rw [Option.isSome_map, ih, List.infix_cons_iff]
      simp [this]

theorem prefix_append_cons_iff {pat : Text} {c : Char} (h : c ∉ pat) (s t : Text)
    : pat <+: s ++ c :: t ↔ pat <+: s := by
  induction s generalizing pat with
  | nil =>
    cases pat with
    | nil => simp
    | cons d ds => simp [(List.ne_of_not_mem_cons h).symm]
  | cons a s ih =>
    cases pat with
    | nil => simp
    | cons d ds =>
      rw [List.cons_append, List.cons_prefix_cons, List.cons_prefix_cons,
        ih (List.not_mem_of_not_mem_cons h)]

theorem find?_append_of_not_contains {front pat : Text} {c : Char} (hc : c ∉ pat)
    (h : contains front (c :: pat) = false) (after : Text)
    : find? (c :: pat) (front ++ (c :: pat ++ after)) = some (byteLen front, after) := by
  rw [← Bool.not_eq_true, contains_iff] at h
  induction front with
  | nil => simp [find?, byteLen_nil]
  | cons d ds ih =>
    have hd : ¬(c :: pat).isPrefixOf (d :: (ds ++ (c :: pat ++ after))) = true := by
      rw [List.isPrefixOf_iff_prefix, List.cons_prefix_cons, List.cons_append,
        prefix_append_cons_iff hc]
      exact fun hstarts => h (List.cons_prefix_cons.mpr hstarts).isInfix
    rw [List.cons_append, find?, if_neg hd, ih fun hinfix => h (List.infix_cons hinfix)]
    simp

theorem exists_of_find? {pat s after : Text} {c : Char} {pos : Nat}
    (h : find? (c :: pat) s = some (pos, after))
    : ∃ front, s = front ++ (c :: pat ++ after) ∧ contains front (c :: pat) = false := by
  induction s generalizing pos with
  | nil => cases h
  | cons d ds ih =>
    rw [find?] at h
    split at h
    . next hstarts =>
      obtain ⟨after', heq⟩ := List.isPrefixOf_iff_prefix.mp hstarts
      rw [← heq, List.drop_left] at h
      cases h
      exact ⟨[], heq.symm, rfl⟩
    . next hstarts =>
      obtain ⟨⟨pos', _⟩, hfind, hafter⟩ := Option.map_eq_some_iff.mp h
      cases hafter
      obtain ⟨front, rfl, hfront⟩ := ih hfind
      refine ⟨d :: front, rfl, ?_⟩
      rw [← Bool.not_eq_true, contains_iff] at hfront ⊢
      rw [List.infix_cons_iff, not_or]
      refine ⟨fun hpat => hstarts ?_, hfront⟩
      exact List.isPrefixOf_iff_prefix.mpr (hpat.trans (List.prefix_append (d :: front) _))

theorem contains_append_cons {pat : Text} {c : Char} (h : c ∉ pat) (s t : Text)
    : contains (s ++ c :: t) pat = (contains s pat || contains t pat) := by
  rw [Bool.eq_iff_iff, Bool.or_eq_true, contains_iff, contains_iff, contains_iff]
  induction s with
  | nil =>
    rw [List.nil_append, List.infix_cons_iff]
    cases pat with
    | nil => simp
    | cons d ds => simp [(List.ne_of_not_mem_cons h).symm]
  | cons a s ih =>
    rw [List.cons_append, List.infix_cons_iff, List.infix_cons_iff, ih, ← List.cons_append,
      prefix_append_cons_iff h, or_assoc]

theorem lines_append_newline (s t : Text)
    : lines (s ++ '\n' :: t) = lines (s ++ ['\n']) ++ lines t := by
  have hgo (acc : Text) : lines.go acc (s ++ '\n' :: t)
      = lines.go acc (s ++ ['\n']) ++ lines.go [] t := by
    induction s generalizing acc with
    | nil => simp [lines.go]
    | cons c s ih =>
      rw [List.cons_append, List.cons_append, lines.go, lines.go]
      split
      . rw [ih, List.cons_append]
      . exact ih _
  exact hgo []

def EndsLine (s : Text) : Prop := s = [] ∨ ∃ front, s = front ++ ['\n']

theorem endsLine_nil : EndsLine [] := .inl rfl

theorem endsLine_append (s : Text) : EndsLine (s ++ ['\n']) := .inr ⟨s, rfl⟩

theorem EndsLine.append {s t : Text} (hs : EndsLine s) (ht : EndsLine t) : EndsLine (s ++ t) := by
  rcases ht with rfl | ⟨front, rfl⟩
  . rwa [List.append_nil]
  . exact .inr ⟨s ++ front, (List.append_assoc s front _).symm⟩

theorem EndsLine.lines_append {s : Text} (h : EndsLine s) (t : Text)
    : lines (s ++ t) = lines s ++ lines t := by
  rcases h with rfl | ⟨front, rfl⟩
  . rfl
  . rw [List.append_assoc, List.singleton_append, lines_append_newline]

theorem EndsLine.lines_eq_nil_iff {s : Text} (h : EndsLine s) : lines s = [] ↔ s = [] := by
  rcases h with rfl | ⟨front, rfl⟩
  . simp [lines, lines.go]
  . have hgo (acc : Text) : lines.go acc (front ++ ['\n']) ≠ [] := by
      induction front generalizing acc with
      | nil => simp [lines.go]
      | cons c front ih =>
        rw [List.cons_append, lines.go]
        split
        . exact List.cons_ne_nil _ _
        . exact ih _
    exact iff_of_false (hgo []) (by simp)

theorem lines_flatten {texts : List Text} (h : ∀ s ∈ texts, EndsLine s)
    : lines texts.flatten = (texts.map lines).flatten := by
  induction texts with
  | nil => rfl
  | cons s rest ih =>
    rw [List.flatten_cons, (h s List.mem_cons_self).lines_append,
      ih fun s hs => h s (List.mem_cons_of_mem _ hs)]
    rfl

theorem lines_eq_singleton {s : Text} (h : '\n' ∉ s) (hne : s ≠ []) : lines s = [s] := by
  have hgo : ∀ acc s : Text, '\n' ∉ s → acc.reverse ++ s ≠ [] →
      lines.go acc s = [acc.reverse ++ s] := by
    intro acc s
    induction s generalizing acc with
    | nil =>
      intro _ hne
      simp_all [lines.go]
    | cons c cs ih =>
      intro h hne
      rw [lines.go, if_neg (List.ne_of_not_mem_cons h).symm, ih]
      . simp
      . exact List.not_mem_of_not_mem_cons h
      . simp
  exact hgo [] s h hne

theorem newline_not_mem_of_mem_lines {s line : Text} (h : line ∈ lines s) : '\n' ∉ line := by
  have hcr {acc : Text} (hacc : '\n' ∉ acc) : '\n' ∉ lines.stripCr acc := by
    unfold lines.stripCr
    split <;> simp_all
  have hgo : ∀ acc : Text, '\n' ∉ acc → line ∈ lines.go acc s → '\n' ∉ line := by
    clear h
    induction s with
    | nil =>
      intro acc hacc h
      rw [lines.go] at h
      split at h
      . contradiction
      . rw [List.mem_singleton.mp h]
        simpa using hacc
    | cons c cs ih =>
      intro acc hacc h
      rw [lines.go] at h
      split at h
      . cases h with
        | head => exact hcr hacc
        | tail _ h => exact ih [] List.not_mem_nil h
      . next hc => exact ih (c :: acc) (by simpa [Ne.symm hc] using hacc) h
  exact hgo [] List.not_mem_nil h

end Text
