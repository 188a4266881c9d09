import HdlGraph.Parse.Preprocessor.Registration

/-!
This module contains the arguments that the scan records for a call, compared with the texts between
the commas of the call as it is written. The loop over the arguments counts parentheses only, drops
a blank last argument and stops at the end of the line; the theorem at the end says for which calls
that is enough.
-/

namespace HdlGraph
namespace Pass2Scanner

open Text Brackets Registration

def closerOf? (c : Char) : Option Char :=
  if c = '(' then some ')' else if c = '[' then some ']' else if c = '\x7b' then
    some '\x7d' else none

def isCloser (c : Char) : Bool := c = ')' || c = ']' || c = '\x7d'

inductive Reading where
  | code
  | string
  | escaped
deriving DecidableEq

-- Whether the rest of a text ends one argument, with the closing brackets that it has to bring
def isArgumentFrom (awaited : List Char) : Reading → Text → Bool
  | reading, [] => awaited.isEmpty && reading = .code
  | .escaped, _ :: cs => isArgumentFrom awaited .string cs
  | .string, c :: cs =>
    isArgumentFrom awaited (if c = '\\' then .escaped else if c = '"' then .code else .string) cs
  | .code, c :: cs =>
    if c = '"' then isArgumentFrom awaited .string cs
    else if c = ',' then !awaited.isEmpty && isArgumentFrom awaited .code cs
    else if isCloser c then awaited.head? = some c && isArgumentFrom awaited.tail .code cs
    else isArgumentFrom ((closerOf? c).toList ++ awaited) .code cs

-- Balanced in the three kinds of brackets and in strings, and no comma outside of them
def isArgument (a : Text) : Bool := isArgumentFrom [] .code a

/--
A place in a source where a macro is called, with the texts of the arguments as they are written
there.
-/
structure Invocation (source : Text) where
  before : List Text
  front : Text
  macroName : Text
  tail : Text
  behind : List Text
  gap : Text
  args : List Text
  after : Text
  lines_eq : lines source = before ++ (front ++ '`' :: (macroName ++ tail)) :: behind
  known : macroName ∈ uvmNames
  text_eq : join ['\n'] (tail :: behind) = gap ++ '(' :: (join [','] args ++ ')' :: after)
  gap_blank : ∀ c ∈ gap, isWhitespace c
  args_ne_nil : args ≠ []

-- A line break in an argument is white space
def written (a : Text) : Text := trim (a.map fun c => if c = '\n' then ' ' else c)

def Recorded {source : Text} (inv : Invocation source) : Prop :=
  ∃ call ∈ scan source,
    call.line = inv.before.length + 1 ∧ call.column = byteLen inv.front
      ∧ call.macroName = inv.macroName
      ∧ call.args = inv.args.map written

/-- When the arguments of a call are recorded as they are written. -/
structure Plain {source : Text} (inv : Invocation source) : Prop where
  -- the scan finds the first occurrence of the name on the line
  first : contains inv.front ('`' :: inv.macroName) = false
  opensOnLine : '\n' ∉ inv.gap
  oneLine : ∀ a ∈ inv.args, '\n' ∉ a
  -- parentheses in a string are counted, square brackets and braces are not
  balanced : ∀ a ∈ inv.args, Balanced parens a
  noComma : ∀ a ∈ inv.args, NoneOutside parens ',' 0 a
  lastNotBlank : ∀ a ∈ inv.args.getLast?, trim a ≠ []

/-! ## The line of the call -/

theorem find?_append_of_contains {front pat : Text} (hne : pat ≠ [])
    (h : contains front pat = true) (s : Text)
    : ∃ pos after, find? pat (front ++ s) = some (pos, after) ∧ pos < byteLen front := by
  rw [contains_iff] at h
  induction front with
  | nil => exact absurd (List.infix_nil.mp h) hne
  | cons d ds ih =>
    have hd := Char.utf8Size_pos d
    rw [List.cons_append, find?]
    split
    . exact ⟨0, _, rfl, Nat.lt_of_lt_of_le hd (Nat.le_add_right _ _)⟩
    . next hstarts =>
      rw [List.infix_cons_iff] at h
      cases h with
      | inl h =>
        exact absurd (List.isPrefixOf_iff_prefix.mpr (h.trans ((d :: ds).prefix_append s))) hstarts
      | inr h =>
        obtain ⟨pos, after, hfind, hpos⟩ := ih h
        rw [hfind]
        exact ⟨d.utf8Size + pos, after, rfl, Nat.add_lt_add_left hpos _⟩

theorem mem_scan_iff {source : Text} {call : UVMMacroCall}
    : call ∈ scan source
      ↔ ∃ line i, (lines source)[i]? = some line
        ∧ ∃ name ∈ uvmNames, scanName line i name = some call := by
  simp only [scan, List.mem_flatMap, List.mem_filterMap, Prod.exists, List.mem_zipIdx_iff_getElem?]

section

variable {source : Text}

def Invocation.call (inv : Invocation source) : UVMMacroCall :=
  { line := inv.before.length + 1
    column := byteLen inv.front
    macroName := inv.macroName
    args := (extractArgs (trim inv.tail) inv.before.length).1
    rawText := inv.front ++ ('`' :: inv.macroName ++ inv.tail) }

theorem Invocation.recorded_iff (inv : Invocation source)
    : Recorded inv
      ↔ contains inv.front ('`' :: inv.macroName) = false
          ∧ (extractArgs (trim inv.tail) inv.before.length).1 = inv.args.map written := by
  have htick : '`' ∉ inv.macroName := by
    intro hmem
    exact absurd (List.all_eq_true.mp (isIdentChar_of_mem _ inv.known) _ hmem) (by decide)
  have hline : (lines source)[inv.before.length]?
      = some (inv.front ++ ('`' :: inv.macroName ++ inv.tail)) := by
    simp [inv.lines_eq]
  constructor
  . rintro ⟨call, hcall, hnumber, hcolumn, hname, hargs⟩
    obtain ⟨line, i, hi, name, _, hscan⟩ := mem_scan_iff.mp hcall
    simp only [scanName, Option.map_eq_some_iff] at hscan
    obtain ⟨⟨pos, rest⟩, hfind, rfl⟩ := hscan
    simp only at hnumber hcolumn hname hargs
    subst hname hcolumn
    obtain rfl : i = inv.before.length := Nat.succ_inj.mp hnumber
    rw [hline, Option.some.injEq] at hi
    subst hi
    by_cases hfirst : contains inv.front ('`' :: inv.macroName) = true
    . obtain ⟨pos', after, hfind', hpos⟩ := find?_append_of_contains (List.cons_ne_nil _ _) hfirst
        ('`' :: inv.macroName ++ inv.tail)
      rw [hfind, Option.some.injEq, Prod.mk.injEq] at hfind'
      omega
    . have hfirst := Bool.eq_false_of_not_eq_true hfirst
      rw [find?_append_of_not_contains htick hfirst, Option.some.injEq, Prod.mk.injEq] at hfind
      rw [hfind.2]
      exact ⟨hfirst, hargs⟩
  . rintro ⟨hfirst, hargs⟩
    have hscan : scanName (inv.front ++ ('`' :: inv.macroName ++ inv.tail))
          inv.before.length inv.macroName
        = some inv.call := by
      unfold scanName
      rw [find?_append_of_not_contains htick hfirst]
      rfl
    exact ⟨inv.call, mem_scan_iff.mpr ⟨_, _, hline, _, inv.known, hscan⟩, rfl, rfl, rfl, hargs⟩

theorem Invocation.tail_eq (inv : Invocation source)
    : inv.tail = (inv.gap ++ '(' :: (join [','] inv.args ++ ')' :: inv.after)).takeWhile
        (· ≠ '\n') := by
  have hline : '\n' ∉ inv.front ++ '`' :: (inv.macroName ++ inv.tail) := by
    apply newline_not_mem_of_mem_lines (s := source)
    rw [inv.lines_eq]
    exact List.mem_append_right _ List.mem_cons_self
  have htail : ∀ c ∈ inv.tail, decide (c ≠ '\n') = true := by
    intro c hc
    have hne : c ≠ '\n' := by
      intro heq
      subst heq
      simp [hc] at hline
    simpa using hne
  rw [← inv.text_eq]
  cases inv.behind with
  | nil => exact (List.takeWhile_eq_self_iff.mpr htail).symm
  | cons line more =>
    have hjoin : join ['\n'] (inv.tail :: line :: more)
        = inv.tail ++ '\n' :: join ['\n'] (line :: more) := by
      simp [join]
    rw [hjoin, List.takeWhile_append_of_pos htail]
    simp

end

/-! ## The loop over the arguments -/

theorem extractArgsLoop_append_blank (depth : Nat) (current s : Text) {blank : Text}
    (h : ∀ c ∈ blank, isWhitespace c)
    : (extractArgsLoop depth current (s ++ blank)).1 = (extractArgsLoop depth current s).1 := by
  induction s generalizing depth current with
  | nil =>
    rw [List.nil_append]
    induction blank generalizing current with
    | nil => rfl
    | cons c blank ih =>
      have hc := h c List.mem_cons_self
      have hne : ∀ d, isWhitespace d = false → c ≠ d := by
        intro d hd heq
        rw [heq, hd] at hc
        contradiction
      have hpush : extractArgsLoop depth current (c :: blank)
          = extractArgsLoop depth (current ++ [c]) blank := by
        rw [extractArgsLoop, if_neg (hne '(' (by decide)), if_neg (hne ')' (by decide)),
          if_neg fun hcomma => hne ',' (by decide) hcomma.1]
      rw [hpush, ih fun c' hc' => h c' (List.mem_cons_of_mem _ hc')]
      rfl
  | cons c s ih =>
    rw [List.cons_append, extractArgsLoop, extractArgsLoop]
    split
    . exact ih _ _
    . split
      . split
        . rfl
        . exact ih _ _
      . split
        . exact congrArg (trim current :: ·) (ih depth [])
        . exact ih _ _

structure UpTo (d : Int) (p : Text) : Prop where
  neverBelow : NeverBelow parens d p
  noComma : NoneOutside parens ',' d p
  closed : d + rise parens p = 0

theorem UpTo.cons {d : Int} {p : Text} {c : Char} (hd : 0 ≤ d + step parens c)
    (hc : c = ',' → d ≠ 0) (h : UpTo (d + step parens c) p)
    : UpTo d (c :: p) := by
  constructor
  . exact ⟨hd, h.neverBelow⟩
  . exact ⟨hc, h.noComma⟩
  . rw [rise_cons, ← add_assoc]
    exact h.closed

/-- The text of the next argument goes up to a comma, up to the end of the call, or it is lost. -/
inductive NextArgument (current : Text) (d : Int) (s : Text) (args : List Text) : Prop where
  | comma (p s' : Text) (hs : s = p ++ ',' :: s') (hp : UpTo d p)
      (hargs : args = trim (current ++ p) :: (extractArgsLoop 1 [] s').1)
  | close (p s' : Text) (hs : s = p ++ ')' :: s') (hp : UpTo d p)
      (hargs : args = if trim (current ++ p) ≠ [] then [trim (current ++ p)] else [])
  | lost (hargs : args = [])

theorem NextArgument.cons {current s : Text} {d : Int} {args : List Text} {c : Char}
    (hd : 0 ≤ d + step parens c) (hc : c = ',' → d ≠ 0)
    (h : NextArgument (current ++ [c]) (d + step parens c) s args)
    : NextArgument current d (c :: s) args := by
  cases h with
  | comma p s' hs hp hargs =>
    rw [List.append_assoc] at hargs
    exact .comma (c :: p) s' (by rw [hs]; rfl) (hp.cons hd hc) hargs
  | close p s' hs hp hargs =>
    rw [List.append_assoc] at hargs
    exact .close (c :: p) s' (by rw [hs]; rfl) (hp.cons hd hc) hargs
  | lost hargs => exact .lost hargs

theorem nextArgument_extractArgsLoop {d : Int} {depth : Nat} (hd : 0 ≤ d)
    (hdepth : (depth : Int) = d + 1) (current s : Text)
    : NextArgument current d s (extractArgsLoop depth current s).1 := by
  induction s generalizing d depth current with
  | nil => exact .lost rfl
  | cons c s ih =>
    have hstep := step_parens c
    have hnil {d : Int} (h : d = 0) : UpTo d [] := ⟨trivial, trivial, by simp [h]⟩
    rw [extractArgsLoop]
    split
    . next hopen =>
      rw [if_pos hopen] at hstep
      subst hopen
      exact .cons (by omega) (fun hc => absurd hc (by decide)) (ih (by omega) (by omega) _)
    . next hopen =>
      rw [if_neg hopen] at hstep
      split
      . next hclose =>
        rw [if_pos hclose] at hstep
        subst hclose
        split
        . next hone =>
          subst hone
          refine .close [] s rfl (hnil (by omega)) ?_
          rw [List.append_nil]
        . exact .cons (by omega) (fun hc => absurd hc (by decide)) (ih (by omega) (by omega) _)
      . next hclose =>
        rw [if_neg hclose] at hstep
        split
        . next hcomma =>
          have hd : d = 0 := by omega
          refine .comma [] s (by rw [hcomma.1]; rfl) (hnil hd) ?_
          rw [List.append_nil, hcomma.2]
        . next hcomma =>
          exact .cons (by omega) (fun hc hd => hcomma ⟨hc, by omega⟩) (ih (by omega) (by omega) _)

/-! ## Arguments as they are written -/

def solid (s : Text) : Nat := s.countP (!isWhitespace ·)

theorem solid_trim (s : Text) : solid (trim s) = solid s := by
  obtain ⟨lead, trail, hs, hlead, htrail⟩ := exists_eq_append_trim s
  have hzero {blank : Text} (h : ∀ c ∈ blank, isWhitespace c) : blank.countP (!isWhitespace ·)
      = 0 := by
    apply List.countP_eq_zero.mpr
    intro c hc
    simp [h c hc]
  have := congrArg solid hs
  unfold solid at *
  rw [List.countP_append, List.countP_append, hzero hlead, hzero htrail] at this
  omega

theorem written_eq_trim {a : Text} (h : '\n' ∉ a) : written a = trim a := by
  have hmap : (a.map fun c => if c = '\n' then ' ' else c) = a.map id := by
    apply List.map_congr_left
    intro c hc
    have hne : c ≠ '\n' := fun heq => h (heq ▸ hc)
    exact if_neg hne
  rw [written, hmap, List.map_id]

theorem solid_written (a : Text) : solid (written a) = solid a := by
  rw [written, solid_trim]
  unfold solid
  rw [List.countP_map]
  apply List.countP_congr
  intro c _
  simp only [Function.comp_apply]
  split
  . next hc => rw [hc]; decide
  . rfl

theorem eq_of_append_cons_eq {a p x y : Text} {c e : Char} (h : a ++ c :: x = p ++ e :: y)
    (hc : isWhitespace c = false) (he : isWhitespace e = false) (hwritten : solid a = solid p)
    : a = p := by
  have hlonger (u z : Text) {c : Char} (hc : isWhitespace c = false) : solid (u ++ c :: z)
      ≠ solid u := by
    unfold solid
    rw [List.countP_append, List.countP_cons, hc]
    simp
  rcases List.append_eq_append_iff.mp h with ⟨z, hp, hrest⟩ | ⟨z, ha, hrest⟩
  . cases z with
    | nil => rw [hp, List.append_nil]
    | cons b z =>
      rw [List.cons_append, List.cons.injEq] at hrest
      rw [hp, ← hrest.1] at hwritten
      exact absurd hwritten.symm (hlonger a z hc)
  . cases z with
    | nil => rw [ha, List.append_nil]
    | cons b z =>
      rw [List.cons_append, List.cons.injEq] at hrest
      rw [ha, ← hrest.1] at hwritten
      exact absurd hwritten (hlonger p z he)

/-- What is asked of the texts of the arguments alone. -/
structure PlainArguments (args : List Text) : Prop where
  oneLine : ∀ a ∈ args, '\n' ∉ a
  balanced : ∀ a ∈ args, Balanced parens a
  noComma : ∀ a ∈ args, NoneOutside parens ',' 0 a
  lastNotBlank : ∀ a ∈ args.getLast?, trim a ≠ []

theorem takeWhile_append_cons {a : Text} (h : '\n' ∉ a) {c : Char} (hc : c ≠ '\n') (x : Text)
    : (a ++ c :: x).takeWhile (· ≠ '\n') = a ++ c :: x.takeWhile (· ≠ '\n') := by
  rw [List.takeWhile_append_of_pos, List.takeWhile_cons_of_pos (by simpa using hc)]
  intro d hd
  have hne : d ≠ '\n' := fun heq => h (heq ▸ hd)
  simpa using hne

theorem upTo_zero_iff {a : Text} : UpTo 0 a ↔ Balanced parens a ∧ NoneOutside parens ',' 0 a := by
  constructor
  . intro h
    exact ⟨⟨h.neverBelow, by simpa using h.closed⟩, h.noComma⟩
  . rintro ⟨hbalanced, hcomma⟩
    exact ⟨hbalanced.neverBelow, hcomma, by simpa using hbalanced.rise_eq⟩

theorem UpTo.extractArgsLoop_append {a : Text} (h : UpTo 0 a) (s : Text)
    : extractArgsLoop 1 [] (a ++ s) = extractArgsLoop 1 a s :=
  Registration.extractArgsLoop_append h.neverBelow h.noComma rfl (by rw [h.closed]; rfl) [] s

theorem extractArgsLoop_eq_cons {a x : Text} {c : Char} (hc : isWhitespace c = false) {s : Text}
    {more : List Text} (hs : s = (a ++ c :: x).takeWhile (· ≠ '\n'))
    (h : (extractArgsLoop 1 [] s).1 = written a :: more)
    : '\n' ∉ a ∧ UpTo 0 a
        ∧ (c = ',' ∧ (extractArgsLoop 1 [] (x.takeWhile (· ≠ '\n'))).1 = more ∨ c = ')' ∧ more = []
            ∧ trim a ≠ []) := by
  have hne : '\n' ∉ s := by
    rw [hs]
    intro hmem
    exact absurd (List.mem_takeWhile_imp hmem) (by decide)
  have hfront : s <+: a ++ c :: x := by
    rw [hs]
    exact List.takeWhile_prefix _
  obtain ⟨rest, hrest⟩ := hfront
  have hsame {p s' : Text} {e : Char} (hp : s = p ++ e :: s') (he : isWhitespace e = false)
      (hread : trim p = written a) : a = p ∧ c = e ∧ s' = x.takeWhile (· ≠ '\n') ∧ '\n' ∉ a := by
    have hbehind : a ++ c :: x = p ++ e :: (s' ++ rest) := by
      rw [← hrest, hp, List.append_assoc, List.cons_append]
    have hap : a = p := by
      apply eq_of_append_cons_eq hbehind hc he
      rw [← solid_trim p, hread, solid_written]
    subst hap
    have hcx := List.cons.inj (List.append_cancel_left hbehind)
    have ha : '\n' ∉ a := fun hmem => hne (by rw [hp]; exact List.mem_append_left _ hmem)
    have hc' : c ≠ '\n' := by
      intro heq
      rw [heq] at hc
      contradiction
    rw [takeWhile_append_cons ha hc', hp] at hs
    exact ⟨rfl, hcx.1, (List.cons.inj (List.append_cancel_left hs)).2, ha⟩
  cases nextArgument_extractArgsLoop (le_refl 0) rfl [] s with
  | comma p s' hp hup hargs =>
    rw [h, List.nil_append, List.cons.injEq] at hargs
    obtain ⟨rfl, hc, hs', ha⟩ := hsame hp (by decide) hargs.1.symm
    rw [← hs']
    exact ⟨ha, hup, .inl ⟨hc, hargs.2.symm⟩⟩
  | close p s' hp hup hargs =>
    rw [h, List.nil_append] at hargs
    split at hargs
    . next hblank =>
      rw [List.cons.injEq] at hargs
      obtain ⟨rfl, hc, _, ha⟩ := hsame hp (by decide) hargs.1.symm
      exact ⟨ha, hup, .inr ⟨hc, hargs.2, hblank⟩⟩
    . contradiction
  | lost hargs =>
    rw [h] at hargs
    contradiction

theorem plainArguments_singleton_iff {a : Text}
    : PlainArguments [a] ↔ '\n' ∉ a ∧ Balanced parens a ∧ NoneOutside parens ',' 0 a
        ∧ trim a ≠ [] := by
  constructor
  . intro h
    exact ⟨h.oneLine a List.mem_cons_self, h.balanced a List.mem_cons_self,
      h.noComma a List.mem_cons_self,
      h.lastNotBlank a rfl⟩
  . rintro ⟨ha, hbalanced, hcomma, hblank⟩
    constructor <;> simp_all

theorem plainArguments_cons_iff {a b : Text} {more : List Text}
    : PlainArguments (a :: b :: more)
        ↔ '\n' ∉ a ∧ Balanced parens a ∧ NoneOutside parens ',' 0 a
          ∧ PlainArguments (b :: more) := by
  constructor
  . intro h
    obtain ⟨ha, hone⟩ := List.forall_mem_cons.mp h.oneLine
    obtain ⟨hup, hbalanced⟩ := List.forall_mem_cons.mp h.balanced
    obtain ⟨hnone, hcomma⟩ := List.forall_mem_cons.mp h.noComma
    exact ⟨ha, hup, hnone, hone, hbalanced, hcomma, h.lastNotBlank⟩
  . rintro ⟨ha, hup, hnone, hmore⟩
    constructor
    . exact List.forall_mem_cons.mpr ⟨ha, hmore.oneLine⟩
    . exact List.forall_mem_cons.mpr ⟨hup, hmore.balanced⟩
    . exact List.forall_mem_cons.mpr ⟨hnone, hmore.noComma⟩
    . exact hmore.lastNotBlank

theorem extractArgsLoop_eq_map_iff {args : List Text} (hargs : args ≠ []) (after : Text)
    : (extractArgsLoop 1 [] ((join [','] args ++ ')' :: after).takeWhile (· ≠ '\n'))).1
        = args.map written
      ↔ PlainArguments args := by
  induction args with
  | nil => contradiction
  | cons a more ih =>
    cases more with
    | nil =>
      rw [join, plainArguments_singleton_iff]
      constructor
      . intro h
        obtain ⟨ha, hup, hend⟩ := extractArgsLoop_eq_cons (by decide) rfl h
        obtain ⟨hbalanced, hcomma⟩ := upTo_zero_iff.mp hup
        rcases hend with ⟨hc, _⟩ | ⟨_, _, hblank⟩
        . contradiction
        . exact ⟨ha, hbalanced, hcomma, hblank⟩
      . rintro ⟨ha, hbalanced, hcomma, hblank⟩
        have hup := upTo_zero_iff.mpr ⟨hbalanced, hcomma⟩
        rw [takeWhile_append_cons ha (by decide), hup.extractArgsLoop_append, extractArgsLoop]
        simp [hblank, written_eq_trim ha]
    | cons b more =>
      have hjoin : join [','] (a :: b :: more) ++ ')' :: after
          = a ++ ',' :: (join [','] (b :: more) ++ ')' :: after) := by
        simp [join]
      rw [hjoin, plainArguments_cons_iff]
      constructor
      . intro h
        obtain ⟨ha, hup, hend⟩ := extractArgsLoop_eq_cons (by decide) rfl h
        obtain ⟨hbalanced, hcomma⟩ := upTo_zero_iff.mp hup
        rcases hend with ⟨_, hmore⟩ | ⟨hc, _⟩
        . exact ⟨ha, hbalanced, hcomma, (ih (List.cons_ne_nil _ _)).mp hmore⟩
        . contradiction
      . rintro ⟨ha, hbalanced, hcomma, hmore⟩
        have hup := upTo_zero_iff.mpr ⟨hbalanced, hcomma⟩
        rw [takeWhile_append_cons ha (by decide), hup.extractArgsLoop_append, extractArgsLoop]
        have hread := (ih (List.cons_ne_nil _ _)).mpr hmore
        simp only [Char.reduceEq, if_false, and_self, if_true, hread, List.map_cons,
          written_eq_trim ha]

theorem Invocation.extractArgs_tail {source : Text} (inv : Invocation source) (i : Nat)
    : (extractArgs (trim inv.tail) i).1
        = if '\n' ∈ inv.gap then []
          else (extractArgsLoop 1 []
            ((join [','] inv.args ++ ')' :: inv.after).takeWhile (· ≠ '\n'))).1 := by
  rw [inv.tail_eq]
  split
  . next hgap =>
    have hblank :
        ∀ c ∈ (inv.gap ++ '(' :: (join [','] inv.args ++ ')' :: inv.after)).takeWhile (· ≠ '\n'),
          isWhitespace c := by
      obtain ⟨u, v, huv⟩ := List.append_of_mem hgap
      intro c hc
      rw [huv, List.append_assoc, List.takeWhile_append] at hc
      apply inv.gap_blank c
      rw [huv]
      split at hc
      . simp at hc
        exact List.mem_append_left _ hc
      . exact List.mem_append_left _ ((List.takeWhile_prefix _).subset hc)
    rw [trim_eq_nil_iff.mpr hblank]
    rfl
  . next hgap =>
    rw [takeWhile_append_cons hgap (by decide), trim_append_left _ inv.gap_blank]
    generalize (join [','] inv.args ++ ')' :: inv.after).takeWhile (· ≠ '\n') = line
    have hopen : isWhitespace '(' = false := by decide
    obtain ⟨line', hline'⟩ := exists_trimEnd_append_cons [] hopen line
    have htrim : trim ('(' :: line) = '(' :: line' := by
      rw [trim, trimStart, List.dropWhile_cons_of_neg (by simp [hopen])]
      exact hline'
    have hsplit : trimEnd ('(' :: line) ++ ('(' :: line).rtakeWhile isWhitespace = '(' :: line :=
      List.rdropWhile_append_rtakeWhile
    rw [← List.nil_append ('(' :: line), hline', List.nil_append, List.nil_append, List.cons_append,
      List.cons.injEq]
      at hsplit
    rw [htrim, ← hsplit.2, extractArgsLoop_append_blank _ _ _ fun c hc =>
      List.mem_rtakeWhile_imp hc]
    rfl

/--
The arguments of a call are recorded as they are written exactly if the scan finds the call, the
call is on one line, each argument is balanced in parentheses and has no comma outside of
parentheses, and the last argument is not blank.
-/
theorem recorded_iff_plain {source : Text} (inv : Invocation source)
    : Recorded inv ↔ Plain inv := by
  rw [inv.recorded_iff, inv.extractArgs_tail]
  constructor
  . rintro ⟨hfirst, hargs⟩
    split at hargs
    . exact absurd (List.map_eq_nil_iff.mp hargs.symm) inv.args_ne_nil
    . next hgap =>
      have h := (extractArgsLoop_eq_map_iff inv.args_ne_nil inv.after).mp hargs
      exact ⟨hfirst, hgap, h.oneLine, h.balanced, h.noComma, h.lastNotBlank⟩
  . intro h
    rw [if_neg h.opensOnLine]
    exact ⟨h.first, (extractArgsLoop_eq_map_iff inv.args_ne_nil inv.after).mpr
      ⟨h.oneLine, h.balanced, h.noComma, h.lastNotBlank⟩⟩

def messageWithComma : Invocation "`uvm_info(\"TOP\", \"done, bye\", UVM_LOW)".toList where
  before := []
  front := []
  macroName := "uvm_info".toList
  tail := "(\"TOP\", \"done, bye\", UVM_LOW)".toList
  behind := []
  gap := []
  args := ["\"TOP\"", " \"done, bye\"", " UVM_LOW"].map String.toList
  after := []
  lines_eq := by decide
  known := by decide
  text_eq := by decide
  gap_blank := by decide
  args_ne_nil := by decide

def callOnTwoLines : Invocation "`uvm_do_with(req,\n  length)".toList where
  before := []
  front := []
  macroName := "uvm_do_with".toList
  tail := "(req,".toList
  behind := ["  length)".toList]
  gap := []
  args := ["req", "\n  length"].map String.toList
  after := []
  lines_eq := by decide
  known := by decide
  text_eq := by decide
  gap_blank := by decide
  args_ne_nil := by decide

theorem not_recorded_messageWithComma
    : (∀ a ∈ messageWithComma.args, isArgument a) ∧ ¬Recorded messageWithComma
        ∧ (∀ a ∈ callOnTwoLines.args, isArgument a) ∧ ¬Recorded callOnTwoLines := by
  simp only [Invocation.recorded_iff]
  decide

end Pass2Scanner
end HdlGraph
