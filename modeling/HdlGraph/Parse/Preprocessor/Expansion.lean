import HdlGraph.Library.Splice
import HdlGraph.Parse.Preprocessor.Panics

/-!
This module contains the expansion of the macros in a line as a single pass replacement, and
compares it with the replacement of the invocations that are written as their macros are defined.
-/

namespace HdlGraph
namespace SvPreprocessor

open Text Splice

variable {order : Dict Text Text → List Text} {defines : Dict Text MacroDef}

/-! ## The pass over a line -/

structure Named where
  macroDef : MacroDef
  macroName : Text
  afterName : Text

-- The macro that the word behind a backtick names
def named? (defines : Dict Text MacroDef) : Text → Option Named
  | '`' :: cs =>
    let macroName := cs.takeWhile isWordChar
    if macroName = [] ∨ isDirective macroName then
      none
    else
      (defines.get? macroName).map (⟨·, macroName, cs.dropWhile isWordChar⟩)
  | _ => none

-- The scanner reads a name only if it begins with a letter
def expansion? (order : Dict Text Text → List Text) (defines : Dict Text MacroDef) (s : Text)
    : Option (Text × Nat) :=
  match named? defines s with
  | some ⟨macroDef, macroName, afterName⟩ =>
    if macroName.head?.any Char.isAlpha then
      (expandInvocation order macroDef afterName).toOption.map fun (expanded, taken) =>
        (expanded, macroName.length + taken)
    else
      none
  | none => none

theorem named?_eq_some {s macroName afterName : Text} {macroDef : MacroDef}
    (h : named? defines s = some ⟨macroDef, macroName, afterName⟩)
    : s = '`' :: (macroName ++ afterName) ∧ macroName ≠ [] ∧ (∀ c ∈ macroName, isWordChar c)
        ∧ defines.get? macroName = some macroDef := by
  unfold named? at h
  split at h
  . next cs =>
    dsimp only at h
    split at h
    . contradiction
    . next hname =>
      obtain ⟨macroDef', hget, heq⟩ := Option.map_eq_some_iff.mp h
      cases heq
      refine ⟨by rw [List.takeWhile_append_dropWhile], fun hnil => hname (Or.inl hnil), ?_, hget⟩
      intro c hc
      exact List.mem_takeWhile_imp hc
  . contradiction

theorem named?_eq_none {c : Char} (hc : c ≠ '`') (cs : Text) : named? defines (c :: cs) = none := by
  unfold named?
  split
  . next heq => exact absurd (List.cons.inj heq).1 hc
  . rfl

theorem head?_takeWhile_any_isAlpha (cs : Text)
    : (cs.takeWhile isWordChar).head?.any Char.isAlpha = cs.head?.any Char.isAlpha := by
  cases cs with
  | nil => rfl
  | cons c cs =>
    cases hc : isWordChar c with
    | true => simp [hc]
    | false =>
      have halpha : c.isAlpha = false := by
        rw [← Bool.not_eq_true]
        exact fun h => by simp [isWordChar_of_isAlpha h] at hc
      simp [hc, halpha]

theorem invocation?_eq_some_iff {s afterName : Text}
    : invocation? defines s = some afterName
        ↔
      ∃ macroDef macroName, named? defines s = some ⟨macroDef, macroName, afterName⟩
        ∧ macroName.head?.any Char.isAlpha = true := by
  cases s with
  | nil => simp [invocation?, named?]
  | cons c cs =>
    by_cases hc : c = '`'
    . subst hc
      simp only [invocation?, named?, ← head?_takeWhile_any_isAlpha cs, Dict.containsKey]
      generalize cs.takeWhile isWordChar = macroName
      cases macroName with
      | nil => simp
      | cons c rest =>
        cases isDirective (c :: rest)
        . cases defines.get? (c :: rest) with
          | none => simp
          | some macroDef =>
            cases halpha : c.isAlpha <;> simp [halpha]
        . simp
    . have hinvocation : invocation? defines (c :: cs) = none := by
        unfold invocation?
        split
        . next heq => exact absurd (List.cons.inj heq).1 hc
        . rfl
      simp [hinvocation, named?_eq_none hc]

theorem drop_name (macroName afterName : Text) (taken : Nat)
    : (macroName ++ afterName).drop (macroName.length + taken) = afterName.drop taken := by
  rw [← List.drop_drop, List.drop_left]

section

variable {c : Char} {cs macroName afterName : Text} {macroDef : MacroDef}

theorem expansion?_of_invocation?_eq_none {s : Text} (h : invocation? defines s = none)
    : expansion? order defines s = none := by
  unfold expansion?
  split
  . next macroDef macroName afterName hnamed =>
    rw [if_neg]
    intro halpha
    rw [invocation?_eq_some_iff.mpr ⟨macroDef, macroName, hnamed, halpha⟩] at h
    contradiction
  . rfl

theorem expansion?_of_expandInvocation {s expanded : Text} {taken : Nat}
    (hnamed : named? defines s = some ⟨macroDef, macroName, afterName⟩)
    (halpha : macroName.head?.any Char.isAlpha = true)
    (h : expandInvocation order macroDef afterName = .ok (expanded, taken))
    : expansion? order defines s = some (expanded, macroName.length + taken) := by
  unfold expansion?
  rw [hnamed]
  simp only [halpha, if_true, h]
  rfl

theorem exists_of_expansion?_eq_some {s expanded : Text} {more : Nat}
    (h : expansion? order defines s = some (expanded, more))
    : ∃ macroDef macroName afterName taken, named? defines s = some ⟨macroDef, macroName, afterName⟩
        ∧ macroName.head?.any Char.isAlpha = true
          ∧ expandInvocation order macroDef afterName = .ok (expanded, taken)
        ∧ more = macroName.length + taken := by
  unfold expansion? at h
  split at h
  . next macroDef macroName afterName hnamed =>
    split at h
    . next halpha =>
      cases hexpand : expandInvocation order macroDef afterName with
      | error halt =>
        rw [hexpand] at h
        contradiction
      | ok expansion =>
        rw [hexpand] at h
        cases h
        exact ⟨macroDef, macroName, afterName, _, hnamed, halpha, hexpand, rfl⟩
    . contradiction
  . contradiction

variable (order) in
theorem expansion?_of_named?
    (hnamed : named? defines (c :: cs) = some ⟨macroDef, macroName, afterName⟩)
    (halpha : macroName.head?.any Char.isAlpha = true) (hopen : afterName ≠ ['('])
    : ∃ expanded taken, expandInvocation order macroDef afterName = .ok (expanded, taken)
        ∧ expansion? order defines (c :: cs) = some (expanded, macroName.length + taken)
        ∧ cs.drop (macroName.length + taken) = behindArguments afterName := by
  obtain ⟨expanded, taken, hexpand, hdrop⟩ := expandInvocation_eq_ok order macroDef hopen
  refine ⟨expanded, taken, hexpand, expansion?_of_expandInvocation hnamed halpha hexpand, ?_⟩
  obtain ⟨heq, _⟩ := named?_eq_some hnamed
  rw [(List.cons.inj heq).2, drop_name, hdrop]

theorem go_of_named? (hnamed : named? defines (c :: cs) = some ⟨macroDef, macroName, afterName⟩)
    (halpha : macroName.head?.any Char.isAlpha = true)
    : expandInlineMacros.go order defines 0 (c :: cs)
        = (expandInvocation order macroDef afterName).bind fun (expanded, taken) =>
          (expandInlineMacros.go order defines (macroName.length + taken) cs).bind fun rest =>
            .ok (expanded ++ rest) := by
  obtain ⟨heq, _, _, hget⟩ := named?_eq_some hnamed
  obtain ⟨hafter, macroDef', hget', hgo⟩ :=
    go_of_invocation?_eq_some order
      (invocation?_eq_some_iff.mpr ⟨macroDef, macroName, hnamed, halpha⟩)
  have hname : cs.takeWhile isWordChar = macroName := by
    suffices h : cs.takeWhile isWordChar ++ afterName = macroName ++ afterName
        from List.append_cancel_right h
    rw [← (List.cons.inj heq).2, hafter, List.takeWhile_append_dropWhile]
  rw [hname, hget, Option.some.injEq] at hget'
  rw [hgo, hname, hget']

end

theorem go_eq_panic_or_splice (order : Dict Text Text → List Text) (defines : Dict Text MacroDef)
    (skip : Nat) (line : Text)
    : expandInlineMacros.go order defines skip line = .error .panic
        ∨ expandInlineMacros.go order defines skip line
          = .ok (splice (expansion? order defines) (line.drop skip)) := by
  induction line generalizing skip with
  | nil => cases skip <;> exact Or.inr rfl
  | cons c cs ih =>
    cases skip with
    | succ skip => exact ih skip
    | zero =>
      rw [List.drop_zero]
      cases hinvocation : invocation? defines (c :: cs) with
      | none =>
        rw [go_of_invocation?_eq_none hinvocation,
          splice_of_none (expansion?_of_invocation?_eq_none hinvocation)]
        cases ih 0 with
        | inl hpanic => exact Or.inl (by rw [hpanic]; rfl)
        | inr hok => exact Or.inr (by rw [hok]; rfl)
      | some afterName =>
        obtain ⟨macroDef, macroName, hnamed, halpha⟩ := invocation?_eq_some_iff.mp hinvocation
        rw [go_of_named? hnamed halpha]
        by_cases hopen : afterName = ['(']
        . rw [hopen, expandInvocation_eq_panic]
          exact Or.inl rfl
        . obtain ⟨expanded, taken, hexpand, hexpansion, _⟩ :=
            expansion?_of_named? order hnamed halpha hopen
          rw [hexpand, splice_of_some hexpansion]
          cases ih (macroName.length + taken) with
          | inl hpanic => exact Or.inl (by simp [Except.bind, hpanic])
          | inr hok => exact Or.inr (by simp [Except.bind, hok])

theorem behind_expansion? {c : Char} {cs : Text}
    (hopen : invocation? defines (c :: cs) ≠ some ['('])
    : Splice.behind (expansion? order defines) (c :: cs) = behind defines (c :: cs) := by
  unfold behind
  cases hinvocation : invocation? defines (c :: cs) with
  | none => exact behind_of_none (expansion?_of_invocation?_eq_none hinvocation)
  | some afterName =>
    obtain ⟨macroDef, macroName, hnamed, halpha⟩ := invocation?_eq_some_iff.mp hinvocation
    have hopen' : afterName ≠ ['('] := by
      rintro rfl
      exact hopen hinvocation
    obtain ⟨_, _, _, hexpansion, hdrop⟩ := expansion?_of_named? order hnamed halpha hopen'
    rw [behind_of_some hexpansion, hdrop]

theorem cutsArguments_iff_comes (order : Dict Text Text → List Text) (line : Text)
    : CutsArguments defines line
        ↔ ∃ s, Comes (expansion? order defines) line s ∧ invocation? defines s = some ['('] := by
  induction line using places_induction (expansion? order defines) with
  | nil =>
    apply iff_of_false not_cutsArguments_nil
    rintro ⟨s, hcomes, hs⟩
    rw [List.suffix_nil.mp hcomes.suffix] at hs
    contradiction
  | place c cs ih =>
    rw [cutsArguments_iff (List.cons_ne_nil c cs)]
    by_cases hopen : invocation? defines (c :: cs) = some ['(']
    . exact iff_of_true (Or.inl hopen) ⟨_, .here _, hopen⟩
    . rw [← behind_expansion? hopen, ih]
      constructor
      . rintro (h | ⟨s, hcomes, hs⟩)
        . contradiction
        . exact ⟨s, .onward (List.cons_ne_nil c cs) hcomes, hs⟩
      . rintro ⟨s, hcomes, hs⟩
        cases hcomes with
        | here => contradiction
        | onward _ hcomes => exact Or.inr ⟨s, hcomes, hs⟩

theorem expandInlineMacros_eq_ok_iff {line expanded : Text}
    : expandInlineMacros order line defines = .ok expanded
        ↔ ¬CutsArguments defines line ∧ splice (expansion? order defines) line = expanded := by
  have hpanic : expandInlineMacros.go order defines 0 line = .error .panic
      ↔ CutsArguments defines line :=
    go_eq_panic_iff 0 line
  rw [expandInlineMacros, ← hpanic]
  obtain h | h := go_eq_panic_or_splice order defines 0 line
  . simp [h]
  . simp [h]

/-! ## The invocations as they are defined -/

-- A macro without parameters is invoked by its name alone, a macro with parameters only with its
-- arguments
def replacement? (order : Dict Text Text → List Text) (defines : Dict Text MacroDef) (s : Text)
    : Option (Text × Nat) :=
  match named? defines s with
  | some ⟨macroDef, macroName, afterName⟩ =>
    match macroDef.params, afterName with
    | none, _ => some (macroDef.body, macroName.length)
    | some formalParams, '(' :: args =>
      (findMatchingParen args).map fun parenClose =>
        (substituteMacroBody order macroDef.body formalParams macroDef.defaults
          (parseMacroArgs (args.take parenClose)),
          macroName.length + (parenClose + 2))
    | some _, _ => none
  | none => none

def replaceInvocations (order : Dict Text Text → List Text) (line : Text)
    (defines : Dict Text MacroDef) : Text :=
  splice (replacement? order defines) line

def NameIsRead (defines : Dict Text MacroDef) (s : Text) : Prop :=
  ∀ named ∈ named? defines s, named.macroName.head?.any Char.isAlpha = true

-- The macro has parameters exactly if it is written with arguments
def KindIsWritten (defines : Dict Text MacroDef) (s : Text) : Prop :=
  ∀ named ∈ named? defines s, named.macroDef.params.isSome ↔ named.afterName.head? = some '('

-- A macro with parameters that is written without arguments stays as it is
def Unreplaced (defines : Dict Text MacroDef) (s : Text) : Prop :=
  ∀ named ∈ named? defines s,
    named.macroDef.params.isSome ∧ named.afterName.head? ≠ some '('

-- The scanner leaves a name that it does not read
def Fits (defines : Dict Text MacroDef) (s : Text) : Prop :=
  (NameIsRead defines s → KindIsWritten defines s)
    ∧ (¬NameIsRead defines s → Unreplaced defines s)

-- A macro with parameters that is written with arguments closes their parenthesis
def Closes (defines : Dict Text MacroDef) (s : Text) : Prop :=
  ∀ named ∈ named? defines s, named.macroDef.params.isSome → named.afterName.head? = some '(' →
    (findMatchingParen named.afterName.tail).isSome

instance (defines : Dict Text MacroDef) (s : Text) : Decidable (NameIsRead defines s) :=
  inferInstanceAs (Decidable (∀ named ∈ named? defines s, _))

instance (defines : Dict Text MacroDef) (s : Text) : Decidable (KindIsWritten defines s) :=
  inferInstanceAs (Decidable (∀ named ∈ named? defines s, _))

instance (defines : Dict Text MacroDef) (s : Text) : Decidable (Unreplaced defines s) :=
  inferInstanceAs (Decidable (∀ named ∈ named? defines s, _))

instance (defines : Dict Text MacroDef) (s : Text) : Decidable (Fits defines s) :=
  inferInstanceAs (Decidable (_ ∧ _))

instance (defines : Dict Text MacroDef) (s : Text) : Decidable (Closes defines s) :=
  inferInstanceAs (Decidable (∀ named ∈ named? defines s, _))

theorem expandInvocation_of_ne (macroDef : MacroDef) {afterName : Text}
    (h : afterName.head? ≠ some '(')
    : expandInvocation order macroDef afterName = .ok (macroDef.body, 0) := by
  unfold expandInvocation
  split
  . contradiction
  . rfl

theorem eq_body_of_expandInvocation {macroDef : MacroDef} {afterName expanded : Text} {taken : Nat}
    (hparams : macroDef.params = none)
    (h : expandInvocation order macroDef afterName = .ok (expanded, taken))
    : expanded = macroDef.body := by
  unfold expandInvocation at h
  rw [hparams] at h
  split at h
  . dsimp only at h
    split at h
    . contradiction
    . cases h
      rfl
  . cases h
    rfl

theorem argsEnd_one_eq {args : Text} {parenClose : Nat}
    (h : findMatchingParen args = some parenClose)
    : argsEnd 1 args = parenClose + 1 := by
  rw [argsEnd_eq, show findMatchingParen.go 0 args = some parenClose from h]
  rfl

def expandWith (order : Dict Text Text → List Text) (macroDef : MacroDef) (args : Text) : Text :=
  match macroDef.params with
  | some formalParams =>
    substituteMacroBody order macroDef.body formalParams macroDef.defaults (parseMacroArgs args)
  | none => macroDef.body

theorem expandInvocation_of_matching (macroDef : MacroDef) {args : Text} {parenClose : Nat}
    (h : findMatchingParen args = some parenClose)
    : expandInvocation order macroDef ('(' :: args)
        = .ok (expandWith order macroDef (args.take parenClose), parenClose + 2) := by
  simp only [expandInvocation, argsEnd_one_eq h, expandWith]
  cases macroDef.params <;> rfl

theorem nameIsRead_iff {s macroName afterName : Text} {macroDef : MacroDef}
    (hnamed : named? defines s = some ⟨macroDef, macroName, afterName⟩)
    : NameIsRead defines s ↔ macroName.head?.any Char.isAlpha = true := by
  constructor
  . intro hread
    exact hread _ hnamed
  . intro halpha named hmem
    cases hnamed.symm.trans hmem
    exact halpha

theorem expansion?_eq_replacement?_of_read {s : Text} (hread : NameIsRead defines s)
    (hkind : KindIsWritten defines s) (hcloses : Closes defines s)
    : expansion? order defines s = replacement? order defines s := by
  unfold expansion? replacement?
  cases hnamed : named? defines s with
  | none => rfl
  | some taken =>
    obtain ⟨⟨params, defaults, body⟩, macroName, afterName⟩ := taken
    have hiff := hkind _ hnamed
    dsimp only
    rw [if_pos (hread _ hnamed)]
    cases params with
    | none =>
      have hopen : afterName.head? ≠ some '(' := by
        intro h
        have := hiff.mpr h
        contradiction
      rw [expandInvocation_of_ne _ hopen]
      rfl
    | some formalParams =>
      obtain ⟨args, rfl⟩ : ∃ args, afterName = '(' :: args := by
        have := hiff.mp rfl
        cases afterName with
        | nil => contradiction
        | cons c rest =>
          cases this
          exact ⟨rest, rfl⟩
      obtain ⟨parenClose, hclose⟩ : ∃ parenClose, findMatchingParen args = some parenClose :=
        Option.isSome_iff_exists.mp (hcloses _ hnamed rfl rfl)
      rw [expandInvocation_of_matching _ hclose]
      simp [hclose, Except.toOption, expandWith]

theorem expansion?_of_not_read {s : Text} (hread : ¬NameIsRead defines s)
    : expansion? order defines s = none := by
  unfold expansion?
  cases hnamed : named? defines s with
  | none => rfl
  | some named =>
    rw [nameIsRead_iff hnamed] at hread
    exact if_neg hread

theorem replacement?_of_unreplaced {s : Text} (hleft : Unreplaced defines s)
    : replacement? order defines s = none := by
  unfold replacement?
  cases hnamed : named? defines s with
  | none => rfl
  | some named =>
    obtain ⟨⟨params, defaults, body⟩, macroName, afterName⟩ := named
    obtain ⟨hparams, hopen⟩ := hleft _ hnamed
    cases params with
    | none => contradiction
    | some formalParams =>
      dsimp only at hopen ⊢
      split
      . contradiction
      . contradiction
      . rfl

theorem expansion?_eq_replacement? {s : Text} (hfits : Fits defines s) (hcloses : Closes defines s)
    : expansion? order defines s = replacement? order defines s := by
  by_cases hread : NameIsRead defines s
  . exact expansion?_eq_replacement?_of_read hread (hfits.1 hread) hcloses
  . rw [expansion?_of_not_read hread, replacement?_of_unreplaced (hfits.2 hread)]

/-!
What the replacement takes holds as many opening as closing parentheses, so it comes to every
parenthesis that closes what stands before it.
-/

theorem go_append_of_word {macroName : Text} (h : ∀ c ∈ macroName, isWordChar c)
    (depth : Nat) (s : Text)
    : findMatchingParen.go depth (macroName ++ s)
        = (findMatchingParen.go depth s).map (· + macroName.length) := by
  induction macroName with
  | nil => simp
  | cons c cs ih =>
    have hopen : c ≠ '(' := by
      rintro rfl
      exact absurd (h '(' List.mem_cons_self) (by decide)
    have hclose : c ≠ ')' := by
      rintro rfl
      exact absurd (h ')' List.mem_cons_self) (by decide)
    rw [List.cons_append, findMatchingParen.go, if_neg hopen, if_neg hclose,
      ih fun d hd => h d (List.mem_cons_of_mem c hd)]
    cases findMatchingParen.go depth s <;> simp [Nat.add_assoc]

theorem go_add_of_matching {inner : Nat} {args : Text} {parenClose : Nat}
    (h : findMatchingParen.go inner args = some parenClose) (depth : Nat)
    : findMatchingParen.go (inner + depth + 1) args
        = (findMatchingParen.go depth (args.drop (parenClose + 1))).map (· + (parenClose + 1)) := by
  induction args generalizing inner parenClose with
  | nil => contradiction
  | cons c cs ih =>
    have hstep : ∀ {inner' k : Nat}, findMatchingParen.go inner' cs = some k →
        (findMatchingParen.go (inner' + depth + 1) cs).map (· + 1)
          = (findMatchingParen.go depth ((c :: cs).drop (k + 1 + 1))).map (· + (k + 1 + 1)) := by
      intro inner' k hk
      rw [ih hk, List.drop_succ_cons]
      cases findMatchingParen.go depth (cs.drop (k + 1)) <;> simp [Nat.add_assoc]
    simp only [findMatchingParen.go] at h ⊢
    split at h
    . next hopen =>
      obtain ⟨k, hk, rfl⟩ := Option.map_eq_some_iff.mp h
      rw [if_pos hopen, ← hstep hk]
      congr 3
      omega
    . next hopen =>
      rw [if_neg hopen]
      split at h
      . next hclose =>
        rw [if_pos hclose, if_neg (Nat.succ_ne_zero _)]
        split at h
        . next hzero =>
          cases h
          subst hzero
          rw [Nat.zero_add, Nat.add_sub_cancel, List.drop_succ_cons, List.drop_zero]
        . obtain ⟨k, hk, rfl⟩ := Option.map_eq_some_iff.mp h
          rw [← hstep hk]
          congr 3
          omega
      . next hclose =>
        obtain ⟨k, hk, rfl⟩ := Option.map_eq_some_iff.mp h
        rw [if_neg hclose, hstep hk]

theorem go_of_replacement? {c : Char} {cs new : Text} {more : Nat}
    (h : replacement? order defines (c :: cs) = some (new, more)) (depth : Nat)
    : findMatchingParen.go depth (c :: cs)
        = (findMatchingParen.go depth (cs.drop more)).map (· + (more + 1)) := by
  unfold replacement? at h
  split at h
  . next macroDef macroName afterName hnamed =>
    obtain ⟨heq, _, hword, _⟩ := named?_eq_some hnamed
    obtain ⟨rfl, rfl⟩ := List.cons.inj heq
    have hname : findMatchingParen.go depth ('`' :: (macroName ++ afterName))
        = (findMatchingParen.go depth afterName).map (· + (macroName.length + 1)) := by
      rw [findMatchingParen.go, if_neg (by decide), if_neg (by decide), go_append_of_word hword]
      cases findMatchingParen.go depth afterName <;> simp [Nat.add_assoc]
    rw [hname]
    split at h
    . cases h
      rw [List.drop_left]
    . next args _ =>
      obtain ⟨parenClose, hclose, heq'⟩ := Option.map_eq_some_iff.mp h
      cases heq'
      have hgroup := go_add_of_matching hclose depth
      rw [Nat.zero_add] at hgroup
      rw [drop_name, List.drop_succ_cons, findMatchingParen.go, if_pos rfl, hgroup]
      cases findMatchingParen.go depth (args.drop (parenClose + 1)) <;> simp
      omega
    . contradiction
  . contradiction

theorem drop_findMatchingParen {depth : Nat} {args : Text} {parenClose : Nat}
    (h : findMatchingParen.go depth args = some parenClose)
    : ∃ rest, args.drop parenClose = ')' :: rest := by
  induction args generalizing depth parenClose with
  | nil => contradiction
  | cons c cs ih =>
    rw [findMatchingParen.go] at h
    split at h
    . obtain ⟨k, hk, rfl⟩ := Option.map_eq_some_iff.mp h
      exact ih hk
    . split at h
      . next hclose =>
        split at h
        . cases h
          exact ⟨cs, by rw [List.drop_zero, hclose]⟩
        . obtain ⟨k, hk, rfl⟩ := Option.map_eq_some_iff.mp h
          exact ih hk
      . obtain ⟨k, hk, rfl⟩ := Option.map_eq_some_iff.mp h
        exact ih hk

theorem comes_of_matching (order : Dict Text Text → List Text) {depth : Nat} {args : Text}
    {parenClose : Nat} (h : findMatchingParen.go depth args = some parenClose)
    : Comes (replacement? order defines) args (args.drop parenClose) := by
  induction args using places_induction (replacement? order defines)
    generalizing depth parenClose with
  | nil => contradiction
  | place c cs ih =>
    have hne : c :: cs ≠ [] := List.cons_ne_nil c cs
    cases hat : replacement? order defines (c :: cs) with
    | some taken =>
      rw [go_of_replacement? hat] at h
      obtain ⟨k, hk, rfl⟩ := Option.map_eq_some_iff.mp h
      rw [behind_of_some hat] at ih
      have hcomes := ih hk
      rw [List.drop_drop] at hcomes
      apply Comes.onward hne
      rw [behind_of_some hat,
        show k + (taken.2 + 1) = (taken.2 + k) + 1 by omega, List.drop_succ_cons]
      exact hcomes
    | none =>
      rw [behind_of_none hat] at ih
      have hnext : ∀ {depth' k : Nat}, findMatchingParen.go depth' cs = some k →
          Comes (replacement? order defines) (c :: cs) ((c :: cs).drop (k + 1)) := by
        intro depth' k hk
        apply Comes.onward hne
        rw [behind_of_none hat, List.drop_succ_cons]
        exact ih hk
      rw [findMatchingParen.go] at h
      split at h
      . obtain ⟨k, hk, rfl⟩ := Option.map_eq_some_iff.mp h
        exact hnext hk
      . split at h
        . split at h
          . cases h
            exact .here _
          . obtain ⟨k, hk, rfl⟩ := Option.map_eq_some_iff.mp h
            exact hnext hk
        . obtain ⟨k, hk, rfl⟩ := Option.map_eq_some_iff.mp h
          exact hnext hk

theorem replacement?_of_ne {c : Char} (hc : c ≠ '`') (cs : Text)
    : replacement? order defines (c :: cs) = none := by
  unfold replacement?
  rw [named?_eq_none hc]

theorem comes_behindArguments (args : Text)
    : Comes (replacement? order defines) args (behindArguments ('(' :: args)) := by
  simp only [behindArguments]
  split
  . next parenClose hclose =>
    obtain ⟨rest, hrest⟩ := drop_findMatchingParen hclose
    have hcomes : Comes (replacement? order defines) args (args.drop parenClose) :=
      comes_of_matching order hclose
    apply hcomes.trans
    rw [hrest]
    apply Comes.onward (List.cons_ne_nil _ _)
    rw [behind_of_none (replacement?_of_ne (by decide) _), ← List.drop_drop, hrest]
    exact .here _
  . exact comes_nil args

/-! ## Where the scanner reads another kind of macro -/

-- Fewer backticks, or as many in a text that is not longer
def Below (u v : Text) : Prop :=
  u.count '`' < v.count '`' ∨ (u.count '`' = v.count '`' ∧ u.length ≤ v.length)

def StrictlyBelow (u v : Text) : Prop :=
  u.count '`' < v.count '`' ∨ (u.count '`' = v.count '`' ∧ u.length < v.length)

theorem StrictlyBelow.below {u v : Text} (h : StrictlyBelow u v) : Below u v := by
  unfold StrictlyBelow at h
  unfold Below
  omega

theorem StrictlyBelow.ne {u v : Text} (h : StrictlyBelow u v) : u ≠ v := by
  rintro rfl
  unfold StrictlyBelow at h
  omega

theorem Below.append {u v s t : Text} (h : Below u v) (h' : Below s t)
    : Below (u ++ s) (v ++ t) := by
  unfold Below at *
  simp only [List.count_append, List.length_append]
  omega

theorem StrictlyBelow.append {u v s t : Text} (h : StrictlyBelow u v) (h' : Below s t)
    : StrictlyBelow (u ++ s) (v ++ t) := by
  unfold StrictlyBelow Below at *
  simp only [List.count_append, List.length_append]
  omega

theorem Below.append_strictly {u v s t : Text} (h : Below u v) (h' : StrictlyBelow s t)
    : StrictlyBelow (u ++ s) (v ++ t) := by
  unfold StrictlyBelow Below at *
  simp only [List.count_append, List.length_append]
  omega

theorem Below.refl (u : Text) : Below u u := Or.inr ⟨rfl, Nat.le_refl _⟩

-- The scanner goes on at a place that the replacement comes to, and has written less than the
-- replacement until there
def WritesLess (order : Dict Text Text → List Text) (defines : Dict Text MacroDef)
    (s : Text) : Prop :=
  ∃ body front rest,
    Splice.behind (expansion? order defines) s = rest
      ∧ splice (expansion? order defines) s = body ++ splice (expansion? order defines) rest
      ∧ splice (replacement? order defines) s = front ++ splice (replacement? order defines) rest
      ∧ Comes (replacement? order defines) s rest
      ∧ StrictlyBelow body front

section

variable {macroDef : MacroDef} {macroName : Text}

-- The scanner takes the arguments of a macro that has no parameters, and the replacement leaves
-- them behind the body
theorem writesLess_of_arguments {args : Text} (hparams : macroDef.params = none)
    (hnamed : named? defines ('`' :: (macroName ++ '(' :: args))
      = some ⟨macroDef, macroName, '(' :: args⟩)
    (halpha : macroName.head?.any Char.isAlpha = true) (hopen : '(' :: args ≠ ['('])
    : WritesLess order defines ('`' :: (macroName ++ '(' :: args)) := by
  obtain ⟨expanded, taken, hexpand, hexpansion, hdrop⟩ :=
    expansion?_of_named? order hnamed halpha hopen
  rw [eq_body_of_expandInvocation hparams hexpand] at hexpansion
  have hreplacement : replacement? order defines ('`' :: (macroName ++ '(' :: args))
      = some (macroDef.body, macroName.length) := by
    unfold replacement?
    rw [hnamed]
    dsimp only
    rw [hparams]
  have hparen : replacement? order defines ('(' :: args) = none :=
    replacement?_of_ne (by decide) args
  have hcomes : Comes (replacement? order defines) args (behindArguments ('(' :: args)) :=
    comes_behindArguments args
  obtain ⟨front, hfront⟩ := hcomes.exists_splice_eq
  refine ⟨macroDef.body, macroDef.body ++ '(' :: front, behindArguments ('(' :: args), ?_,
    ?_, ?_, ?_, ?_⟩
  . rw [behind_of_some hexpansion, hdrop]
  . rw [splice_of_some hexpansion, hdrop]
  . rw [splice_of_some hreplacement, List.drop_left, splice_of_none hparen, hfront]
    simp
  . apply Comes.onward (List.cons_ne_nil _ _)
    rw [behind_of_some hreplacement, List.drop_left]
    apply Comes.onward (List.cons_ne_nil _ _)
    rw [behind_of_none hparen]
    exact hcomes
  . simp only [StrictlyBelow, List.count_append, List.length_append, List.length_cons]
    omega

-- The scanner writes the body of a macro that has parameters, and the replacement copies its name
theorem writesLess_of_bare {afterName : Text} (hbody : '`' ∉ macroDef.body)
    (hparams : macroDef.params ≠ none)
    (hnamed : named? defines ('`' :: (macroName ++ afterName))
      = some ⟨macroDef, macroName, afterName⟩)
    (halpha : macroName.head?.any Char.isAlpha = true) (hafter : afterName.head? ≠ some '(')
    : WritesLess order defines ('`' :: (macroName ++ afterName)) := by
  have hopen : afterName ≠ ['('] := by
    rintro rfl
    contradiction
  obtain ⟨expanded, taken, hexpand, hexpansion, hdrop⟩ :=
    expansion?_of_named? order hnamed halpha hopen
  rw [expandInvocation_of_ne _ hafter] at hexpand
  cases hexpand
  have hreplacement : replacement? order defines ('`' :: (macroName ++ afterName)) = none := by
    unfold replacement?
    rw [hnamed]
    dsimp only
    split
    . contradiction
    . contradiction
    . rfl
  have hplain : ∀ d ∈ macroName, ∀ ds, replacement? order defines (d :: ds) = none := by
    intro d hd ds
    apply replacement?_of_ne
    rintro rfl
    obtain ⟨_, _, hword, _⟩ := named?_eq_some hnamed
    exact absurd (hword '`' hd) (by decide)
  have hdrop' : (macroName ++ afterName).drop (macroName.length + 0) = afterName := drop_name _ _ 0
  refine ⟨macroDef.body, '`' :: macroName, afterName, ?_, ?_, ?_, ?_, ?_⟩
  . rw [behind_of_some hexpansion, hdrop']
  . rw [splice_of_some hexpansion, hdrop']
  . rw [splice_of_none hreplacement, splice_append_of_none _ hplain, List.cons_append]
  . apply Comes.onward (List.cons_ne_nil _ _)
    rw [behind_of_none hreplacement]
    exact comes_append_of_none _ hplain
  . have hcount : macroDef.body.count '`' = 0 := List.count_eq_zero.mpr hbody
    simp only [StrictlyBelow, hcount, List.count_cons_self]
    omega

theorem writesLess_of_not_kindIsWritten {c : Char} {cs : Text}
    (hbodies : ∀ macroName macroDef, defines.get? macroName = some macroDef → '`' ∉ macroDef.body)
    (hread : NameIsRead defines (c :: cs)) (hopen : invocation? defines (c :: cs) ≠ some ['('])
    (hkind : ¬KindIsWritten defines (c :: cs))
    : WritesLess order defines (c :: cs) := by
  simp only [KindIsWritten, not_forall] at hkind
  obtain ⟨⟨macroDef, macroName, afterName⟩, hnamed, hkind⟩ := hkind
  obtain ⟨heq, _, _, hget⟩ := named?_eq_some hnamed
  rw [heq] at hnamed ⊢
  have halpha := hread _ (heq ▸ hnamed)
  by_cases hparams : macroDef.params = none
  . have hhead : afterName.head? = some '(' := by simpa [hparams] using hkind
    obtain ⟨args, rfl⟩ : ∃ args, afterName = '(' :: args := List.head?_eq_some_iff.mp hhead
    apply writesLess_of_arguments hparams hnamed halpha
    intro hcut
    rw [heq, hcut] at hopen
    rw [hcut] at hnamed
    exact hopen (invocation?_eq_some_iff.mpr ⟨_, _, hnamed, halpha⟩)
  . have hsome : macroDef.params.isSome = true := Option.isSome_iff_ne_none.mpr hparams
    apply writesLess_of_bare (hbodies _ _ hget) hparams hnamed halpha
    intro hhead
    exact hkind (iff_of_true hsome hhead)

end

structure Readable (order : Dict Text Text → List Text) (defines : Dict Text MacroDef)
    (s : Text) : Prop where
  bodies : ∀ macroName macroDef, defines.get? macroName = some macroDef → '`' ∉ macroDef.body
  unreplaced : ∀ t, Comes (replacement? order defines) s t →
    ¬NameIsRead defines t → Unreplaced defines t
  closes : ∀ t, Comes (replacement? order defines) s t → Closes defines t
  notCut : ∀ t, Comes (expansion? order defines) s t → invocation? defines t ≠ some ['(']

section

variable {c : Char} {cs : Text}

theorem Readable.behind {rest : Text} (h : Readable order defines (c :: cs))
    (hrest : Splice.behind (expansion? order defines) (c :: cs) = rest)
    (hcomes : Comes (replacement? order defines) (c :: cs) rest)
    : Readable order defines rest where
  bodies := h.bodies
  unreplaced t ht := h.unreplaced t (hcomes.trans ht)
  closes t ht := h.closes t (hcomes.trans ht)
  notCut t ht := h.notCut t (.onward (List.cons_ne_nil c cs) (hrest ▸ ht))

theorem Readable.exists_of_fits (h : Readable order defines (c :: cs))
    (hfits : Fits defines (c :: cs))
    : ∃ front rest,
        Splice.behind (expansion? order defines) (c :: cs) = rest
          ∧ Splice.behind (replacement? order defines) (c :: cs) = rest
          ∧ splice (expansion? order defines) (c :: cs)
            = front ++ splice (expansion? order defines) rest
          ∧ splice (replacement? order defines) (c :: cs)
            = front ++ splice (replacement? order defines) rest := by
  have heq : expansion? order defines (c :: cs) = replacement? order defines (c :: cs) :=
    expansion?_eq_replacement? hfits (h.closes _ (.here _))
  cases hat : replacement? order defines (c :: cs) with
  | some taken =>
    rw [hat] at heq
    exact ⟨taken.1, _, behind_of_some heq, behind_of_some hat, splice_of_some heq,
      splice_of_some hat⟩
  | none =>
    rw [hat] at heq
    exact ⟨[c], cs, behind_of_none heq, behind_of_none hat, splice_of_none heq, splice_of_none hat⟩

theorem Readable.writesLess_of_not_fits (h : Readable order defines (c :: cs))
    (hfits : ¬Fits defines (c :: cs))
    : WritesLess order defines (c :: cs) := by
  have hread : NameIsRead defines (c :: cs) := by
    by_contra hread
    exact hfits ⟨(absurd · hread), h.unreplaced _ (.here _)⟩
  apply writesLess_of_not_kindIsWritten h.bodies hread (h.notCut _ (.here _))
  intro hkind
  exact hfits ⟨fun _ => hkind, (absurd hread ·)⟩

theorem below_of_readable {s : Text} (h : Readable order defines s)
    : Below (splice (expansion? order defines) s) (splice (replacement? order defines) s) := by
  induction s using places_induction (expansion? order defines) with
  | nil => exact .refl []
  | place c cs ih =>
    by_cases hfits : Fits defines (c :: cs)
    . obtain ⟨front, rest, hrest, hrest', hexpansion, hreplacement⟩ := h.exists_of_fits hfits
      have hcomes : Comes (replacement? order defines) (c :: cs) rest :=
        .onward (List.cons_ne_nil c cs) (hrest' ▸ .here _)
      rw [hrest] at ih
      rw [hexpansion, hreplacement]
      exact (Below.refl front).append (ih (h.behind hrest hcomes))
    . obtain ⟨body, front, rest, hrest, hexpansion, hreplacement, hcomes, hbelow⟩ :=
        h.writesLess_of_not_fits hfits
      rw [hrest] at ih
      rw [hexpansion, hreplacement]
      exact hbelow.below.append (ih (h.behind hrest hcomes))

theorem strictlyBelow_of_readable (h : Readable order defines (c :: cs))
    (hfits : ¬Fits defines (c :: cs))
    : StrictlyBelow (splice (expansion? order defines) (c :: cs))
        (splice (replacement? order defines) (c :: cs)) := by
  obtain ⟨body, front, rest, hrest, hexpansion, hreplacement, hcomes, hbelow⟩ :=
    h.writesLess_of_not_fits hfits
  rw [hexpansion, hreplacement]
  exact hbelow.append (below_of_readable (h.behind hrest hcomes))

theorem strictlyBelow_of_comes {s t : Text} (h : Readable order defines s)
    (hcomes : Comes (replacement? order defines) s t) (hfits : ¬Fits defines t)
    : StrictlyBelow (splice (expansion? order defines) s)
        (splice (replacement? order defines) s) := by
  induction hcomes with
  | here s =>
    cases s with
    | nil => exact absurd ⟨fun _ => nofun, fun _ => nofun⟩ hfits
    | cons c cs => exact strictlyBelow_of_readable h hfits
  | onward hs _ ih =>
    next s t _ =>
    obtain ⟨c, cs, rfl⟩ := List.exists_cons_of_ne_nil hs
    by_cases hfirst : Fits defines (c :: cs)
    . obtain ⟨front, rest, hrest, hrest', hexpansion, hreplacement⟩ := h.exists_of_fits hfirst
      have hcomes : Comes (replacement? order defines) (c :: cs) rest :=
        .onward hs (hrest' ▸ .here _)
      rw [hrest'] at ih
      rw [hexpansion, hreplacement]
      exact (Below.refl front).append_strictly (ih (h.behind hrest hcomes) hfits)
    . exact strictlyBelow_of_readable h hfirst

end

theorem not_cutsArguments_of_fits {line : Text}
    (hcloses : ∀ s, Comes (replacement? order defines) line s → Closes defines s)
    (heq : ∀ s, Comes (replacement? order defines) line s →
      replacement? order defines s = expansion? order defines s)
    (hfits : ∀ s, Comes (replacement? order defines) line s → Fits defines s)
    : ¬CutsArguments defines line := by
  rw [cutsArguments_iff_comes order]
  rintro ⟨s, hcomes, hs⟩
  obtain ⟨macroDef, macroName, hnamed, halpha⟩ := invocation?_eq_some_iff.mp hs
  have hcomes' := hcomes.congr heq
  have hkind := (hfits s hcomes').1 ((nameIsRead_iff hnamed).mpr halpha)
  have hparams := (hkind _ hnamed).mpr rfl
  have := hcloses s hcomes' _ hnamed hparams rfl
  contradiction

/--
The line is written with its invocations replaced, and nothing else changed, if each macro of the
table that the line names is followed by a parenthesis exactly if it has parameters, and if those
whose names the scanner does not read are no invocations. If no invocation has a name that the
scanner does not read, the line is written so only then.
-/
theorem expandInlineMacros_eq_replaceInvocations (order : Dict Text Text → List Text)
    (hbodies : ∀ macroName macroDef,
      defines.get? macroName = some macroDef → '`' ∉ macroDef.body)
    {line : Text} (hcloses : ∀ s, s <:+ line → Closes defines s)
    : ((∀ s, Comes (replacement? order defines) line s →
            (NameIsRead defines s → KindIsWritten defines s)
              ∧ (¬NameIsRead defines s → Unreplaced defines s)) →
          expandInlineMacros order line defines = .ok (replaceInvocations order line defines))
      ∧ (expandInlineMacros order line defines = .ok (replaceInvocations order line defines) →
          (∀ s, Comes (replacement? order defines) line s →
              (NameIsRead defines s → KindIsWritten defines s)
                ∧ (¬NameIsRead defines s → Unreplaced defines s))
            ∨ ∃ s, Comes (replacement? order defines) line s
                ∧ ¬NameIsRead defines s ∧ ¬Unreplaced defines s) := by
  rw [expandInlineMacros_eq_ok_iff]
  constructor
  . intro hfits
    have heq : ∀ s, Comes (replacement? order defines) line s →
        replacement? order defines s = expansion? order defines s := by
      intro s hs
      exact (expansion?_eq_replacement? (hfits s hs) (hcloses s hs.suffix)).symm
    have hcut : ¬CutsArguments defines line :=
      not_cutsArguments_of_fits (fun s hs => hcloses s hs.suffix) heq hfits
    exact ⟨hcut, (splice_congr heq).symm⟩
  . rintro ⟨hcut, hsplice⟩
    by_cases hunreplaced : ∀ s, Comes (replacement? order defines) line s →
        ¬NameIsRead defines s → Unreplaced defines s
    . refine Or.inl fun s hcomes => ?_
      by_contra hfits
      have hreadable : Readable order defines line := {
        bodies := hbodies
        unreplaced := hunreplaced
        closes := fun t ht => hcloses t ht.suffix
        notCut := fun t ht hopen =>
          hcut ((cutsArguments_iff_comes order line).mpr ⟨t, ht, hopen⟩)
      }
      exact (strictlyBelow_of_comes hreadable hcomes hfits).ne hsplice
    . push Not at hunreplaced
      exact Or.inr hunreplaced

-- The scanner does not read the name of _X
def addAndWidth : Dict Text MacroDef :=
  ((Dict.empty.insert "W".toList (.object "8".toList)).insert "ADD".toList
    (.function ["x".toList, "y".toList] Dict.empty "x + y".toList)).insert "_X".toList
    (.function ["x".toList] Dict.empty "x".toList)

theorem expandInlineMacros_eq_replaceInvocations_add
    : expandInlineMacros Dict.keys "`ADD(`W, 1)-`W `_X `U(`else)".toList addAndWidth
        = .ok "`W + 1-8 `_X `U(`else)".toList := by
  have hfits : ∀ s ∈ "`ADD(`W, 1)-`W `_X `U(`else)".toList.tails,
      Fits addAndWidth s ∧ Closes addAndWidth s := by
    decide
  have hentries : ∀ entry ∈ addAndWidth.toList, '`' ∉ entry.2.body := by
    decide
  refine Eq.trans ((expandInlineMacros_eq_replaceInvocations Dict.keys ?_ ?_).1 ?_) (by decide)
  . intro macroName macroDef hget
    exact hentries _ (Dict.mem_toList_iff.mpr hget)
  . intro s hs
    exact (hfits s ((List.mem_tails _ _).mpr hs)).2
  . intro s hs
    exact (hfits s ((List.mem_tails _ _).mpr hs.suffix)).1

-- A parenthesised text behind a macro without parameters, and a macro with parameters alone
theorem expandInlineMacros_drops_parentheses
    : (∀ entry ∈ addAndWidth.toList, '`' ∉ entry.2.body)
      ∧ (∀ s ∈ "`W(x)".toList.tails, Closes addAndWidth s)
      ∧ expandInlineMacros Dict.keys "`W(x)".toList addAndWidth = .ok "8".toList
      ∧ replaceInvocations Dict.keys "`W(x)".toList addAndWidth = "8(x)".toList
      ∧ (∀ s ∈ "`ADD;".toList.tails, Closes addAndWidth s)
      ∧ expandInlineMacros Dict.keys "`ADD;".toList addAndWidth = .ok "x + y;".toList
      ∧ replaceInvocations Dict.keys "`ADD;".toList addAndWidth = "`ADD;".toList := by
  refine ⟨by decide, by decide, by decide, by decide, by decide, by decide, by decide⟩

-- An invocation by a name that the scanner does not read can be the text of its replacement
example
    : let defines := Dict.empty.insert "_X".toList
        (.function ["x".toList] Dict.empty "x(x)".toList)
      expandInlineMacros Dict.keys "`_X(`_X)".toList defines
        = .ok (replaceInvocations Dict.keys "`_X(`_X)".toList defines) := by
  decide

end SvPreprocessor
end HdlGraph
