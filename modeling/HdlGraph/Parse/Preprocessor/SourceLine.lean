import HdlGraph.Library.Respelled
import HdlGraph.Parse.Preprocessor.Comments
import HdlGraph.Parse.Preprocessor.Replacement

/-!
This module contains the lines that both preprocessors read: object-like macros, their uses alone on
a line and conditional groups. Their meaning is stated once, and each of the two preprocessors is
compared with it.
-/

namespace HdlGraph

open Text Conditional

/-! ## Lines -/

structure Blank where
  text : Text
  white : ∀ c ∈ text, isWhitespace c

structure MacroName where
  text : Text
  ne_nil : text ≠ []
  word : ∀ c ∈ text, isWordChar c

structure Behind where
  text : Text
  gap : text.head?.all isWhitespace = true
  ends : ∀ c ∈ text.getLast?, isWhitespace c = false
  noParams : (trim text).head? ≠ some '('

inductive Directive where
  | define (name : MacroName) (behind : Behind)
  | undef (name : MacroName)
  | ifdef (name : MacroName)
  | ifndef (name : MacroName)
  | elsif (name : MacroName)
  | otherwise
  | endif

-- A name that is used: the standalone preprocessor reads it from a letter on, and pass 1 takes what
-- starts with `endif` for the directive
structure UsedName extends MacroName where
  alpha : text.head?.any Char.isAlpha = true
  notDirective : SvPreprocessor.isDirective text = false
  notEndif : ¬"endif".toList <+: text

inductive SourceLine where
  | code (line : { line : Text // '`' ∉ line })
  | use (lead : Blank) (name : UsedName)
  | directive (lead : Blank) (gap : Blank) (d : Directive) (trail : Blank)

namespace Directive

def keyword : Directive → String
  | .define _ _ => "define"
  | .undef _ => "undef"
  | .ifdef _ => "ifdef"
  | .ifndef _ => "ifndef"
  | .elsif _ => "elsif"
  | .otherwise => "else"
  | .endif => "endif"

def operand : Directive → Text
  | .define name behind => name.text ++ behind.text
  | .undef name => name.text
  | .ifdef name => name.text
  | .ifndef name => name.text
  | .elsif name => name.text
  | .otherwise => []
  | .endif => []

def text (gap : Blank) (d : Directive) : Text :=
  '`' :: (d.keyword.toList ++ if d.operand = [] then [] else ' ' :: (gap.text ++ d.operand))

def kind : Directive → Kind
  | .define _ _ => .plain
  | .undef _ => .plain
  | .ifdef _ => .opens
  | .ifndef _ => .opens
  | .elsif _ => .elsif
  | .otherwise => .otherwise
  | .endif => .endif

def holds (defines : Dict Text Text) : Directive → Bool
  | .ifdef name => defines.containsKey name.text
  | .ifndef name => !defines.containsKey name.text
  | .elsif name => defines.containsKey name.text
  | _ => false

def apply (defines : Dict Text Text) : Directive → Dict Text Text
  | .define name behind => defines.insert name.text (trim behind.text)
  | .undef name => defines.remove name.text
  | _ => defines

end Directive

namespace SourceLine

def text : SourceLine → Text
  | .code line => line
  | .use lead name => lead.text ++ '`' :: name.text
  | .directive lead gap d trail => lead.text ++ d.text gap ++ trail.text

-- A line that is written: a line of code, or a directive that takes no part in the code
inductive Written where
  | code (line : Text)
  | directive (line : Text)

structure State where
  defines : Dict Text Text
  written : List Written

def keep (st : State) : SourceLine → State
  | .code line => { st with written := st.written ++ [.code line] }
  | .use lead name =>
    { st with
      written := st.written
        ++ [.code (lead.text ++ (st.defines.get? name.text).getD ('`' :: name.text))] }
  | .directive lead gap d trail =>
    ⟨d.apply st.defines, st.written ++ [.directive (lead.text ++ d.text gap ++ trail.text)]⟩

def reference : Dialect SourceLine State where
  kind
    | .directive _ _ d _ => d.kind
    | _ => .plain
  holds
    | st, .directive _ _ d _ => d.holds st.defines
    | _, _ => false
  keep := keep

def codeText (written : List Written) : Text :=
  written.flatMap fun
    | .code line => line ++ ['\n']
    | .directive _ => []

def fullText (written : List Written) : Text :=
  written.flatMap fun
    | .code line => line ++ ['\n']
    | .directive line => SvPreprocessor.commented line

end SourceLine

/-! ## The text of a directive -/

namespace Directive

variable (gap : Blank) (d : Directive)

theorem keyword_mem : d.keyword ∈ Pass1Standard.directives := by
  cases d <;> simp [keyword, Pass1Standard.directives]

theorem head_operand : ∀ c ∈ d.operand.head?, isWhitespace c = false ∧ c ≠ '`' := by
  have hname (name : MacroName) (t : Text) : ∀ c ∈ (name.text ++ t).head?, isWhitespace c = false
      ∧ c ≠ '`' := by
    obtain ⟨s, hne, hword⟩ := name
    obtain ⟨c, cs, rfl⟩ := List.exists_cons_of_ne_nil hne
    intro c' hc'
    cases hc'
    have hc := hword c List.mem_cons_self
    refine ⟨isWhitespace_of_isWordChar hc, ?_⟩
    rintro rfl
    exact absurd hc (by decide)
  cases d with
  | define name behind => exact hname name behind.text
  | undef name => simpa [operand] using hname name []
  | ifdef name => simpa [operand] using hname name []
  | ifndef name => simpa [operand] using hname name []
  | elsif name => simpa [operand] using hname name []
  | otherwise => exact nofun
  | endif => exact nofun

theorem last_operand : ∀ c ∈ d.operand.getLast?, isWhitespace c = false := by
  have hname (name : MacroName) : ∀ c ∈ name.text.getLast?, isWhitespace c = false :=
    fun c hc => isWhitespace_of_isWordChar (name.word c (List.mem_of_getLast? hc))
  cases d with
  | define name behind =>
    intro c hc
    by_cases hnil : behind.text = []
    . simp only [operand, hnil, List.append_nil] at hc
      exact hname name c hc
    . rw [operand, List.getLast?_append_of_ne_nil _ hnil] at hc
      exact behind.ends c hc
  | undef name => exact hname name
  | ifdef name => exact hname name
  | ifndef name => exact hname name
  | elsif name => exact hname name
  | otherwise => exact nofun
  | endif => exact nofun

theorem trim_operand : trim d.operand = d.operand :=
  trim_eq_self (fun c hc => (d.head_operand c hc).1) d.last_operand

theorem trim_gap_operand : trim (gap.text ++ d.operand) = d.operand := by
  rw [trim_append_left _ gap.white, d.trim_operand]

theorem trim_space_operand : trim (' ' :: (gap.text ++ d.operand)) = d.operand := by
  rw [← List.singleton_append, trim_append_left _ (by decide), d.trim_gap_operand]

theorem trim_text : trim (d.text gap) = d.text gap := by
  apply trim_eq_self
  . intro c hc
    cases hc
    decide
  . intro c hc
    unfold text at hc
    by_cases hnil : d.operand = []
    . rw [if_pos hnil, List.append_nil] at hc
      have hlast : ∀ keyword ∈ Pass1Standard.directives,
          ('`' :: keyword.toList).getLast?.all (isWhitespace · = false) := by
        decide
      exact of_decide_eq_true ((Option.all_eq_true _ _).mp (hlast _ d.keyword_mem) c hc)
    . rw [if_neg hnil, ← List.cons_append, List.getLast?_append_of_ne_nil _ (List.cons_ne_nil _ _),
        ← List.cons_append, List.getLast?_append_of_ne_nil _ hnil] at hc
      exact d.last_operand c hc

theorem trim_line (lead trail : Blank)
    : trim (lead.text ++ d.text gap ++ trail.text) = d.text gap := by
  rw [trim_append_right _ trail.white, trim_append_left _ lead.white, d.trim_text]

theorem text_of_operand (h : d.operand ≠ [])
    : d.text gap = '`' :: (d.keyword.toList ++ ' ' :: (gap.text ++ d.operand)) := by
  rw [text, if_neg h]

end Directive

theorem MacroName.append_ne_nil (name : MacroName) (t : Text) : name.text ++ t ≠ [] :=
  List.append_ne_nil_of_left_ne_nil name.ne_nil t

theorem MacroName.isWhitespace_eq_false (name : MacroName)
    : ∀ c ∈ name.text, isWhitespace c = false :=
  fun c hc => isWhitespace_of_isWordChar (name.word c hc)

theorem UsedName.trim_line (lead : Blank) (name : UsedName)
    : trim (lead.text ++ '`' :: name.text) = '`' :: (name.text ++ []) := by
  rw [trim_append_left _ lead.white, List.append_nil]
  apply trim_eq_self
  . intro c hc
    cases hc
    decide
  . intro c hc
    rw [← List.singleton_append, List.getLast?_append_of_ne_nil _ name.ne_nil] at hc
    exact name.isWhitespace_eq_false c (List.mem_of_getLast? hc)

theorem head?_trim_of_not_mem {line : Text} {c : Char} (h : c ∉ line)
    : (trim line).head? ≠ some c := by
  intro hhead
  obtain ⟨lead, trail, hline, _, _⟩ := exists_eq_append_trim line
  apply h
  rw [hline]
  exact List.mem_append_left _ (List.mem_append_right _ (List.mem_of_head? hhead))

/-! ## Pass 1 -/

namespace Pass1Standard

theorem argument_append {keyword t : Text} (hne : keyword ≠ []) (h : ¬keyword <+: t)
    : argument keyword (keyword ++ t) = trim t := by
  obtain ⟨n, hn⟩ :=
    Nat.exists_eq_succ_of_ne_zero
      (List.length_pos_iff.mpr (List.append_ne_nil_of_left_ne_nil hne t)).ne'
  have hstop : trimStartMatches.go keyword n t = t := by
    cases n with
    | zero => rfl
    | succ n => rw [trimStartMatches.go, if_neg (by rwa [List.isPrefixOf_iff_prefix])]
  rw [argument, trimStartMatches, hn, trimStartMatches.go,
    if_pos (List.isPrefixOf_iff_prefix.mpr (List.prefix_append _ _)), List.drop_left, hstop]

section

variable (gap : Blank) {d : Directive} (h : d.operand ≠ [])

include h

theorem argument_directive (keyword : String) (hkeyword : d.keyword = keyword)
    : argument ('`' :: (keyword.toList ++ [' '])) (d.text gap) = d.operand := by
  subst hkeyword
  have hnot : ¬('`' :: (d.keyword.toList ++ [' '])) <+: gap.text ++ d.operand := by
    intro hpre
    have hhead : (gap.text ++ d.operand).head? = some '`' := by
      obtain ⟨t, ht⟩ := hpre
      rw [← ht]
      rfl
    cases hgap : gap.text with
    | nil =>
      rw [hgap, List.nil_append] at hhead
      exact (d.head_operand _ hhead).2 rfl
    | cons c cs =>
      rw [hgap] at hhead
      have hc := gap.white c (by rw [hgap]; exact List.mem_cons_self)
      cases hhead
      exact absurd hc (by decide)
  have htext : d.text gap = ('`' :: (d.keyword.toList ++ [' '])) ++ (gap.text ++ d.operand) := by
    rw [d.text_of_operand gap h]
    simp
  rw [htext, argument_append (List.cons_ne_nil _ _) hnot, d.trim_gap_operand]

theorem startsWith_directive (keyword : String) (hmem : keyword ∈ directives)
    : startsWith (d.text gap) ('`' :: (keyword.toList ++ [' ']))
        = decide (d.keyword = keyword) := by
  have hword : ∀ keyword ∈ directives, ∀ c ∈ keyword.toList, isWordChar c := by decide
  by_cases heq : d.keyword = keyword
  . subst heq
    rw [decide_eq_true rfl, d.text_of_operand gap h]
    apply List.isPrefixOf_iff_prefix.mpr
    exact ⟨gap.text ++ d.operand, by simp⟩
  . rw [decide_eq_false heq]
    by_contra hstarts
    rw [Bool.not_eq_false] at hstarts
    have htrim : trim (d.text gap)
        = '`' :: (d.keyword.toList ++ ' ' :: (gap.text ++ d.operand)) := by
      rw [d.trim_text, d.text_of_operand gap h]
    have hname :=
      startsWith_keyword htrim (hword _ d.keyword_mem) (by simp [isWordChar]) (hword _ hmem)
      (show isWordChar ' ' = false by decide) (by rwa [d.trim_text])
    exact heq (String.toList_inj.mp hname)

end

section

variable (lead gap trail : Blank) (d : Directive)

theorem kind_directive : kind (lead.text ++ d.text gap ++ trail.text) = d.kind := by
  unfold kind
  simp only [d.trim_line]
  by_cases hoperand : d.operand = []
  . cases d with
    | otherwise => rfl
    | endif => rfl
    | define name behind => exact absurd hoperand (name.append_ne_nil behind.text)
    | undef name => exact absurd hoperand name.ne_nil
    | ifdef name => exact absurd hoperand name.ne_nil
    | ifndef name => exact absurd hoperand name.ne_nil
    | elsif name => exact absurd hoperand name.ne_nil
  . simp only [show "`ifdef ".toList = '`' :: ("ifdef".toList ++ [' ']) from rfl,
      show "`ifndef ".toList = '`' :: ("ifndef".toList ++ [' ']) from rfl,
      show "`elsif ".toList = '`' :: ("elsif".toList ++ [' ']) from rfl,
      startsWith_directive gap hoperand "ifdef" (by decide),
      startsWith_directive gap hoperand "ifndef" (by decide),
      startsWith_directive gap hoperand "elsif" (by decide), decide_eq_true_eq]
    rw [d.text_of_operand gap hoperand]
    cases d with
    | ifdef name =>
      rw [if_pos (show (Directive.ifdef name).keyword = "ifdef" from rfl), Directive.kind]
    | ifndef name =>
      rw [if_neg (by simp [Directive.keyword]),
        if_pos (show (Directive.ifndef name).keyword = "ifndef" from rfl), Directive.kind]
    | elsif name =>
      rw [if_neg (by simp [Directive.keyword]), if_neg (by simp [Directive.keyword]),
        if_pos (show (Directive.elsif name).keyword = "elsif" from rfl), Directive.kind]
    | otherwise => exact absurd rfl hoperand
    | endif => exact absurd rfl hoperand
    | _ =>
      rw [if_neg (by simp [Directive.keyword]), if_neg (by simp [Directive.keyword]),
        if_neg (by simp [Directive.keyword])]
      simp [Directive.keyword, Directive.kind, startsWith, List.isPrefixOf]

theorem holds_directive (h : d.kind = .opens ∨ d.kind = .elsif) (st : State)
    : holds st (lead.text ++ d.text gap ++ trail.text) = d.holds st.defines := by
  have hoperand : d.operand ≠ [] := by
    cases d with
    | ifdef name => exact name.ne_nil
    | ifndef name => exact name.ne_nil
    | elsif name => exact name.ne_nil
    | _ => simp [Directive.kind] at h
  unfold holds
  simp only [d.trim_line, show "`ifdef ".toList = '`' :: ("ifdef".toList ++ [' ']) from rfl,
    show "`ifndef ".toList = '`' :: ("ifndef".toList ++ [' ']) from rfl,
    show "`elsif ".toList = '`' :: ("elsif".toList ++ [' ']) from rfl,
    startsWith_directive gap hoperand "ifdef" (by decide),
    startsWith_directive gap hoperand "ifndef" (by decide), decide_eq_true_eq]
  cases d with
  | ifdef name =>
    rw [if_pos (show (Directive.ifdef name).keyword = "ifdef" from rfl),
      argument_directive gap hoperand "ifdef" rfl]
    rfl
  | ifndef name =>
    rw [if_neg (by simp [Directive.keyword]),
      if_pos (show (Directive.ifndef name).keyword = "ifndef" from rfl),
      argument_directive gap hoperand "ifndef" rfl]
    rfl
  | elsif name =>
    rw [if_neg (by simp [Directive.keyword]), if_neg (by simp [Directive.keyword]),
      argument_directive gap hoperand "elsif" rfl]
    rfl
  | _ => simp [Directive.kind] at h

theorem any_isWhitespace_operand (name : MacroName) (behind : Behind)
    : (name.text ++ behind.text).any isWhitespace = true ↔ behind.text ≠ [] := by
  rw [List.any_append, List.any_eq_false.mpr (by simpa using name.isWhitespace_eq_false),
    Bool.false_or]
  have hgap := behind.gap
  cases hbehind : behind.text with
  | nil => simp
  | cons c cs =>
    rw [hbehind, List.head?_cons, Option.all_some] at hgap
    exact iff_of_true (by rw [List.any_cons, hgap, Bool.true_or]) (List.cons_ne_nil _ _)

theorem takeWhile_operand (name : MacroName) (behind : Behind)
    : (name.text ++ behind.text).takeWhile (!isWhitespace ·) = name.text
      ∧ (name.text ++ behind.text).dropWhile (!isWhitespace ·) = behind.text := by
  apply takeWhile_append_of_head
  . simpa using name.isWhitespace_eq_false
  . simpa using behind.gap

theorem keepLine_directive (h : d.kind = .plain) (st : State)
    : keepLine st (lead.text ++ d.text gap ++ trail.text)
        = { st with defines := d.apply st.defines } := by
  have hoperand : d.operand ≠ [] := by
    cases d with
    | define name behind => exact name.append_ne_nil behind.text
    | undef name => exact name.ne_nil
    | _ => simp [Directive.kind] at h
  unfold keepLine
  simp only [d.trim_line, show "`define ".toList = '`' :: ("define".toList ++ [' ']) from rfl,
    show "`undef ".toList = '`' :: ("undef".toList ++ [' ']) from rfl,
    startsWith_directive gap hoperand "define" (by decide),
    startsWith_directive gap hoperand "undef" (by decide), decide_eq_true_eq]
  cases d with
  | define name behind =>
    obtain ⟨htake, hdrop⟩ := takeWhile_operand name behind
    rw [if_pos (show (Directive.define name behind).keyword = "define" from rfl),
      argument_directive gap hoperand "define" rfl, Directive.operand, htake, hdrop,
      trim_of_not_isWhitespace name.isWhitespace_eq_false]
    split
    . rfl
    . next hany =>
      have hnil : behind.text = [] := by
        by_contra hne
        exact hany ((any_isWhitespace_operand name behind).mpr hne)
      rw [if_pos (name.append_ne_nil behind.text), hnil, List.append_nil, Directive.apply, hnil]
      rfl
  | undef name =>
    rw [if_neg (by simp [Directive.keyword]),
      if_pos (show (Directive.undef name).keyword = "undef" from rfl),
      argument_directive gap hoperand "undef" rfl]
    rfl
  | _ => simp [Directive.kind] at h

end

theorem isCode_of_not_mem {line : Text} (h : '`' ∉ line) (defines : Dict Text Text)
    : IsCode line ∧ replaced defines line = line := by
  have hnot : ∀ pat : Text, pat.head? = some '`' → startsWith (trim line) pat = false := by
    intro pat hpat
    by_contra hstarts
    rw [Bool.not_eq_false] at hstarts
    obtain ⟨rest, hrest⟩ := List.isPrefixOf_iff_prefix.mp hstarts
    apply head?_trim_of_not_mem h
    rw [← hrest, List.head?_append, hpat]
    rfl
  have helse : trim line ≠ "`else".toList := by
    intro heq
    have hstarts := hnot "`else".toList rfl
    rw [heq] at hstarts
    exact absurd hstarts (by decide)
  constructor
  . refine ⟨?_, hnot "`define ".toList rfl, hnot "`undef ".toList rfl, hnot "`include ".toList rfl⟩
    simp only [kind, helse, hnot "`ifdef ".toList rfl, hnot "`ifndef ".toList rfl,
      hnot "`elsif ".toList rfl, hnot "`else ".toList rfl, hnot "`else\t".toList rfl,
      hnot "`endif".toList rfl]
    rfl
  . unfold replaced
    rw [hnot "`".toList rfl]
    rfl

theorem replaced_use (lead : Blank) (name : UsedName) (defines : Dict Text Text)
    : IsCode (lead.text ++ '`' :: name.text)
      ∧ replaced defines (lead.text ++ '`' :: name.text)
          = lead.text ++ (defines.get? name.text).getD ('`' :: name.text) := by
  have hdirective : ∀ directive ∈ directives, name.text ≠ directive.toList := by
    have hall : ∀ directive ∈ directives, SvPreprocessor.isDirective directive.toList = true := by
      decide
    intro directive hmem heq
    have hnot := name.notDirective
    rw [heq, hall directive hmem] at hnot
    contradiction
  constructor
  . exact isCode_of_not_endif (name.trim_line lead) name.word rfl hdirective name.notEndif
  . obtain ⟨htake, hdrop⟩ := takeWhile_append_of_head (p := isWhitespace) lead.white
      (show ('`' :: name.text).head?.all (!isWhitespace ·) = true from rfl)
    rw [replaced_eq (name.trim_line lead) name.ne_nil name.word, htake, trimStart, hdrop]
    simp

/-- What the lines say is what pass 1 keeps of the selected ones: the code, and the table. -/
theorem writes_reference
    : Writes SourceLine.reference dialect SourceLine.text
        fun st st' => st' = ⟨SourceLine.codeText st.written, st.defines, []⟩ where
  kind := by
    intro l
    cases l with
    | code line => exact (isCode_of_not_mem line.2 Dict.empty).1.1
    | use lead name => exact (replaced_use lead name Dict.empty).1.1
    | directive lead gap d trail => exact kind_directive lead gap trail d
  holds := by
    rintro l st _ hkind rfl
    cases l with
    | code line => simp [SourceLine.reference] at hkind
    | use lead name => simp [SourceLine.reference] at hkind
    | directive lead gap d trail => exact holds_directive lead gap trail d hkind _
  keep := by
    rintro l st _ hkind rfl
    cases l with
    | code line =>
      obtain ⟨hcode, hreplaced⟩ := isCode_of_not_mem line.2 st.defines
      refine (keepLine_of_isCode hcode _).trans ?_
      simp [hreplaced, SourceLine.reference, SourceLine.keep, SourceLine.codeText, State.pushLine]
    | use lead name =>
      obtain ⟨hcode, hreplaced⟩ := replaced_use lead name st.defines
      refine (keepLine_of_isCode hcode _).trans ?_
      simp [hreplaced, SourceLine.reference, SourceLine.keep, SourceLine.codeText, State.pushLine]
    | directive lead gap d trail =>
      refine (keepLine_directive lead gap trail d hkind _).trans ?_
      simp [SourceLine.reference, SourceLine.keep, SourceLine.codeText]

end Pass1Standard

end HdlGraph
