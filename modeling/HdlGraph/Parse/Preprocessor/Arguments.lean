import HdlGraph.Library.Brackets
import HdlGraph.Parse.Preprocessor.Substitution

/-!
This module contains when the texts of macro arguments and of formal parameters, joined by commas,
are split back into what was joined. The splitter of the arguments takes single quotes for quotes,
knows no escapes and counts parentheses only; the splitter of the parameters splits at every comma.
-/

namespace HdlGraph
namespace SvPreprocessor

open Text Words Brackets

def parens : List (Char × Char) := [('(', ')')]

/-! ## Argument texts -/

def closer? (c : Char) : Option Char :=
  if c = '(' then some ')' else if c = '[' then some ']' else if c = '\x7b' then
    some '\x7d' else none

-- `awaited` are the closing brackets to come. In a string, the flag says that the next character is
-- escaped.
def shapedFrom (awaited : List Char) : Option Bool → Text → Bool
  | none, [] => awaited = []
  | some _, [] => false
  | some true, _ :: cs => shapedFrom awaited (some false) cs
  | some false, c :: cs =>
    if c = '\\' then shapedFrom awaited (some true) cs
    else if c = '"' then shapedFrom awaited none cs
    else shapedFrom awaited (some false) cs
  | none, c :: cs =>
    if c = '"' then shapedFrom awaited (some false) cs
    else
      match closer? c with
      | some d => shapedFrom (d :: awaited) none cs
      | none =>
        if c = ')' || c = ']' || c = '\x7d' then
          match awaited with
          | d :: rest => c = d && shapedFrom rest none cs
          | [] => false
        else if c = ',' then awaited ≠ [] && shapedFrom awaited none cs
        else shapedFrom awaited none cs

/-- An argument text: its brackets and strings are closed, and a comma stands only within them. -/
structure ArgShape (s : Text) : Prop where
  ne_nil : s ≠ []
  trimmed : trim s = s
  shaped : shapedFrom [] none s

def quoteStep (q : Option Char) (ch : Char) : Option Char :=
  if (ch = '"' ∨ ch = '\x27') ∧ q = none then some ch else if q = some ch then none else q

def quoteAfter (q : Option Char) (s : Text) : Option Char := s.foldl quoteStep q

def visible : Option Char → Text → Text
  | _, [] => []
  | q, ch :: cs =>
    if q = none ∧ ch ≠ '"' ∧ ch ≠ '\x27' then ch :: visible q cs else visible (quoteStep q ch) cs

/--
With single and double quotes alike, closed by the same character: each comma of an argument outside
of quotes is within parentheses, and all arguments but the last close their quotes and parentheses.
-/
def Separable (args : List Text) : Prop :=
  (∀ a ∈ args, NoneOutside parens ',' 0 (visible none a))
    ∧ ∀ a ∈ args.dropLast, quoteAfter none a = none ∧ rise parens (visible none a) = 0

instance (args : List Text) : Decidable (Separable args) := inferInstanceAs (Decidable (_ ∧ _))

/-! ## The splitter of the arguments -/

def pieces (current : Text) (depth : Int) (q : Option Char) : Text → List Text
  | [] => if trim current ≠ [] then [trim current] else []
  | ch :: cs =>
    if q = none ∧ ch = ',' ∧ depth = 0 then
      trim current :: pieces [] 0 none cs
    else
      pieces (current ++ [ch]) (if q = none then depth + step parens ch else depth)
        (quoteStep q ch) cs

section

variable {current a r : Text} {depth : Int} {q : Option Char}

theorem step_parens (c : Char)
    : step parens c = if c = '(' then 1 else if c = ')' then -1 else 0 := by
  simp [step, parens]

theorem foldl_step_eq (s : Text) (st : ArgScan)
    : (let st' := s.foldl ArgScan.step st
        if trim st'.current ≠ [] then st'.args ++ [trim st'.current] else st'.args)
      = st.args ++ pieces st.current st.depth st.inQuote s := by
  induction s generalizing st with
  | nil =>
    rw [pieces, List.foldl_nil]
    by_cases hblank : trim st.current = [] <;> simp [hblank]
  | cons ch cs ih =>
    rw [List.foldl_cons, ih]
    obtain ⟨args, current, depth, q⟩ := st
    rw [pieces]
    simp only [ArgScan.step, ArgScan.push, quoteStep, step_parens]
    cases q with
    | none =>
      by_cases hquote : ch = '"' ∨ ch = '\x27'
      . rcases hquote with rfl | rfl <;> simp
      . by_cases hopen : ch = '('
        . subst hopen
          simp
        . by_cases hclose : ch = ')'
          . subst hclose
            simp [Int.sub_eq_add_neg]
          . by_cases hcomma : ch = ',' ∧ depth = 0
            . simp [hcomma]
            . simp [hquote, hopen, hclose, hcomma]
    | some open_ =>
      by_cases hopen : open_ = ch <;> simp [hopen]

theorem parseMacroArgs_eq (s : Text) : parseMacroArgs s = pieces [] 0 none s := by
  have := foldl_step_eq s ⟨[], [], 0, none⟩
  rwa [List.nil_append] at this

theorem pieces_append (h : NoneOutside parens ',' depth (visible q a))
    : pieces current depth q (a ++ r)
        = pieces (current ++ a) (depth + rise parens (visible q a)) (quoteAfter q a) r := by
  induction a generalizing current depth q with
  | nil => simp [visible, quoteAfter]
  | cons ch cs ih =>
    rw [List.cons_append, pieces]
    rw [visible] at h ⊢
    by_cases hplain : q = none ∧ ch ≠ '"' ∧ ch ≠ '\x27'
    . rw [if_pos hplain] at h ⊢
      obtain ⟨rfl, hdouble, hsingle⟩ := hplain
      have hquote : quoteStep none ch = none := by simp [quoteStep, hdouble, hsingle]
      rw [if_neg fun hsplit => h.1 hsplit.2.1 hsplit.2.2, if_pos rfl, hquote, ih h.2, rise_cons,
        Int.add_assoc, List.append_assoc]
      simp only [quoteAfter, List.foldl_cons, hquote, List.singleton_append]
    . rw [if_neg hplain] at h ⊢
      have hno : ¬(q = none ∧ ch = ',' ∧ depth = 0) := by
        rintro ⟨rfl, rfl, _⟩
        exact hplain (by decide)
      have hdepth : (if q = none then depth + step parens ch else depth) = depth := by
        split
        . next hq =>
          have hch : ch = '"' ∨ ch = '\x27' := by
            by_contra hch
            exact hplain ⟨hq, not_or.mp hch⟩
          rcases hch with rfl | rfl <;> simp [step_parens]
        . rfl
      rw [if_neg hno, hdepth, ih h, List.append_assoc]
      rfl

theorem exists_split (h : ¬NoneOutside parens ',' depth (visible q a))
    : ∃ front back, a = front ++ ',' :: back ∧ NoneOutside parens ',' depth (visible q front)
        ∧ quoteAfter q front = none ∧ depth + rise parens (visible q front) = 0 := by
  induction a generalizing depth q with
  | nil => exact absurd trivial h
  | cons ch cs ih =>
    rw [visible] at h
    by_cases hplain : q = none ∧ ch ≠ '"' ∧ ch ≠ '\x27'
    . rw [if_pos hplain] at h
      obtain ⟨rfl, hquotes⟩ := hplain
      by_cases hcomma : ch = ',' → depth ≠ 0
      . obtain ⟨front, back, heq, hfront, hquote, hrise⟩ := ih fun hrest => h ⟨hcomma, hrest⟩
        have hvisible : visible none (ch :: front) = ch :: visible none front := by
          rw [visible, if_pos ⟨rfl, hquotes⟩]
        have hstep : quoteStep none ch = none := by simp [quoteStep, hquotes.1, hquotes.2]
        refine ⟨ch :: front, back, by rw [heq, List.cons_append], ?_, ?_, ?_⟩
        . rw [hvisible]
          exact ⟨hcomma, hfront⟩
        . rw [quoteAfter, List.foldl_cons, hstep]
          exact hquote
        . rw [hvisible, rise_cons, ← Int.add_assoc]
          exact hrise
      . simp only [ne_eq, Classical.not_imp, Decidable.not_not] at hcomma
        obtain ⟨rfl, rfl⟩ := hcomma
        exact ⟨[], cs, rfl, trivial, rfl, rfl⟩
    . rw [if_neg hplain] at h
      obtain ⟨front, back, heq, hfront, hquote, hrise⟩ := ih h
      have hvisible : visible q (ch :: front) = visible (quoteStep q ch) front := by
        rw [visible, if_neg hplain]
      refine ⟨ch :: front, back, by rw [heq, List.cons_append], ?_, ?_, ?_⟩
      . rwa [hvisible]
      . exact hquote
      . rwa [hvisible]

theorem pieces_of_comma (hq : q = none) (hdepth : depth = 0) (s : Text)
    : pieces current depth q (',' :: s) = trim current :: pieces [] 0 none s := by
  rw [pieces, if_pos ⟨hq, rfl, hdepth⟩]

theorem pieces_blank (s : Text) : pieces [] 0 none (' ' :: s) = pieces [' '] 0 none s := by
  rw [pieces, if_neg (by simp)]
  simp [step_parens, quoteStep]

theorem exists_pieces_cons (hcurrent : trim current ≠ []) (depth : Int) (q : Option Char) (s : Text)
    : ∃ more rest, pieces current depth q s = trim (current ++ more) :: rest := by
  induction s generalizing current depth q with
  | nil => exact ⟨[], [], by rw [pieces, if_pos hcurrent, List.append_nil]⟩
  | cons ch cs ih =>
    rw [pieces]
    split
    . exact ⟨[], _, by rw [List.append_nil]⟩
    . obtain ⟨more, rest, heq⟩ := ih (trim_append_ne_nil hcurrent [ch]) _ _
      exact ⟨ch :: more, rest, by rw [heq, List.append_assoc, List.singleton_append]⟩

theorem noneOutside_of_pieces_eq {lead : Text} (hlead : ∀ c ∈ lead, isWhitespace c)
    {rest : List Text} (h : pieces lead 0 none (a ++ r) = a :: rest)
    : NoneOutside parens ',' 0 (visible none a) := by
  by_contra hsplits
  obtain ⟨front, back, heq, hfront, hquote, hrise⟩ := exists_split hsplits
  rw [heq, List.append_assoc, pieces_append hfront, List.cons_append, pieces_of_comma hquote hrise,
    ← heq, List.cons.injEq, trim_append_left _ hlead] at h
  have hle := length_trim_le front
  have hlength := congrArg List.length heq
  rw [h.1] at hle
  simp only [List.length_append, List.length_cons] at hlength
  omega

theorem pieces_cons_iff {lead : Text} (hlead : ∀ c ∈ lead, isWhitespace c) (hne : a ≠ [])
    (ha : trim a = a) {rest : List Text}
    : pieces lead 0 none (a ++ ',' :: r) = a :: rest
        ↔
      NoneOutside parens ',' 0 (visible none a) ∧ quoteAfter none a = none
        ∧ rise parens (visible none a) = 0
        ∧ pieces [] 0 none r = rest := by
  have htrim : trim (lead ++ a) = a := by rw [trim_append_left _ hlead, ha]
  constructor
  . intro h
    have hinside := noneOutside_of_pieces_eq hlead h
    by_cases hcloses : quoteAfter none a = none ∧ rise parens (visible none a) = 0
    . obtain ⟨hquote, hrise⟩ := hcloses
      rw [pieces_append hinside, pieces_of_comma hquote (by rw [hrise]; rfl), htrim,
        List.cons.injEq] at h
      exact ⟨hinside, hquote, hrise, h.2⟩
    . -- the comma is taken into the argument
      rw [pieces_append hinside, Int.zero_add, pieces,
        if_neg fun hsplit => hcloses ⟨hsplit.1, hsplit.2.2⟩] at h
      have hcurrent : trim (lead ++ a ++ [',']) ≠ [] := trim_append_ne_nil (by rwa [htrim]) _
      obtain ⟨more, rest', hmore⟩ := exists_pieces_cons hcurrent
        (if quoteAfter none a = none then rise parens (visible none a) + step parens ','
          else rise parens (visible none a))
        (quoteStep (quoteAfter none a) ',') r
      rw [hmore, List.cons.injEq, List.append_assoc, List.append_assoc, trim_append_left _ hlead,
        List.singleton_append] at h
      obtain ⟨t', ht'⟩ :=
        exists_trim_append_cons hne ha (show isWhitespace ',' = false by decide) more
      have hlength := congrArg List.length (ht'.symm.trans h.1)
      simp only [List.length_append, List.length_cons] at hlength
      omega
  . rintro ⟨hinside, hquote, hrise, hrest⟩
    rw [pieces_append hinside, pieces_of_comma hquote (by rw [hrise]; rfl), htrim, hrest]

theorem pieces_singleton_iff {lead : Text} (hlead : ∀ c ∈ lead, isWhitespace c) (hne : a ≠ [])
    (ha : trim a = a)
    : pieces lead 0 none a = [a] ↔ NoneOutside parens ',' 0 (visible none a) := by
  constructor
  . intro h
    rw [← List.append_nil a] at h
    exact noneOutside_of_pieces_eq hlead (h.trans (by rw [List.append_nil]))
  . intro hinside
    have happend : pieces lead 0 none (a ++ []) = pieces (lead ++ a) _ _ [] := pieces_append hinside
    rw [List.append_nil] at happend
    rw [happend, pieces, trim_append_left _ hlead, ha, if_pos hne]

theorem pieces_join_iff {lead : Text} (hlead : ∀ c ∈ lead, isWhitespace c) {args : List Text}
    (hargs : args ≠ []) (htexts : ∀ a ∈ args, a ≠ [] ∧ trim a = a)
    : pieces lead 0 none (join ", ".toList args) = args ↔ Separable args := by
  induction args generalizing lead with
  | nil => contradiction
  | cons a rest ih =>
    obtain ⟨hne, ha⟩ := htexts a List.mem_cons_self
    cases rest with
    | nil =>
      rw [join, pieces_singleton_iff hlead hne ha]
      simp [Separable]
    | cons b rest =>
      have hblank : ∀ c ∈ [' '], isWhitespace c := by decide
      have ih :=
        ih hblank (List.cons_ne_nil b rest) fun a' ha' => htexts a' (List.mem_cons_of_mem a ha')
      have hjoin : join ", ".toList (a :: b :: rest)
          = a ++ ',' :: ' ' :: join ", ".toList (b :: rest) := by
        change a ++ ", ".toList ++ join ", ".toList (b :: rest) = _
        simp
      rw [hjoin, pieces_cons_iff hlead hne ha, pieces_blank, ih]
      simp only [Separable, List.dropLast_cons_cons, List.forall_mem_cons]
      tauto

end

/-! ## Formal parameters -/

def renderFormal (formal : Text × Option Text) : Text :=
  match formal.2 with
  | some default => formal.1 ++ '=' :: default
  | none => formal.1

def defaultsOf (formals : List (Text × Option Text)) : Dict Text Text :=
  formals.foldl
    (fun defaults (name, default) =>
      match default with
      | some default => defaults.insert name default
      | none => defaults)
    Dict.empty

/-- The name is a word. The default is not blank at its ends and does not end with a comma. -/
structure FormalShape (formal : Text × Option Text) : Prop where
  name : IsWord formal.1
  default : ∀ d, formal.2 = some d → d ≠ [] ∧ trim d = d ∧ d.getLast? ≠ some ','

def addPart (acc : List Text × Dict Text Text) (part : Text) : List Text × Dict Text Text :=
  let part := trim part
  if part = [] then
    acc
  else
    match before? "=".toList part with
    | some front =>
      (acc.1 ++ [trim front], acc.2.insert (trim front) (trim (part.drop (front.length + 1))))
    | none => (acc.1 ++ [part], acc.2)

theorem parseMacroParams_eq (s : Text)
    : parseMacroParams s = (s.splitOn ',').foldl addPart ([], Dict.empty) := rfl

def nonblank (parts : List Text) : Nat := parts.countP fun part => trim part ≠ []

section

variable {formal : Text × Option Text}

theorem length_addPart (acc : List Text × Dict Text Text) (part : Text)
    : (addPart acc part).1.length = acc.1.length + nonblank [part] := by
  unfold addPart nonblank
  by_cases hblank : trim part = []
  . simp [hblank]
  . simp only [hblank, if_false]
    split <;> simp [hblank]

theorem length_foldl_addPart (acc : List Text × Dict Text Text) (parts : List Text)
    : (parts.foldl addPart acc).1.length = acc.1.length + nonblank parts := by
  induction parts generalizing acc with
  | nil => rfl
  | cons part rest ih =>
    rw [List.foldl_cons, ih, length_addPart, Nat.add_assoc]
    congr 1
    simp only [nonblank, List.countP_cons, List.countP_nil]
    omega

theorem FormalShape.trim_render (h : FormalShape formal)
    : trim (renderFormal formal) = renderFormal formal := by
  obtain ⟨name, default⟩ := formal
  have hhead : ∀ (s : Text), ∀ c ∈ (name ++ s).head?, isWhitespace c = false := by
    intro s c hc
    rw [List.head?_append_of_ne_nil _ h.name.1] at hc
    exact isWhitespace_of_isWordChar (h.name.2 c (List.mem_of_head? hc))
  cases default with
  | none =>
    apply trim_eq_self
    . have := hhead []
      rwa [List.append_nil] at this
    . intro c hc
      exact isWhitespace_of_isWordChar (h.name.2 c (List.mem_of_getLast? hc))
  | some d =>
    obtain ⟨hne, htrim, _⟩ := h.default d rfl
    apply trim_eq_self
    . exact hhead ('=' :: d)
    . intro c hc
      have hlast : (name ++ '=' :: d).getLast? = d.getLast? := by
        rw [List.getLast?_append_of_ne_nil _ (List.cons_ne_nil _ _),
          List.getLast?_cons_of_ne_nil hne]
      rw [renderFormal, hlast] at hc
      have hsplit := List.dropLast_append_getLast? c hc
      rw [← hsplit] at htrim
      exact isWhitespace_getLast_of_trim_eq htrim

theorem FormalShape.notMem_name (h : FormalShape formal) {c : Char} (hc : isWordChar c = false)
    : c ∉ formal.1 := by
  intro hmem
  have := h.name.2 c hmem
  simp [hc] at this

theorem addPart_render (h : FormalShape formal) (acc : List Text × Dict Text Text) {part : Text}
    (hpart : trim part = renderFormal formal)
    : addPart acc part
        = (acc.1 ++ [formal.1],
          match formal.2 with
          | some default => acc.2.insert formal.1 default
          | none => acc.2) := by
  have hname : trim formal.1 = formal.1 := by
    apply trim_eq_self
    . intro c hc
      exact isWhitespace_of_isWordChar (h.name.2 c (List.mem_of_head? hc))
    . intro c hc
      exact isWhitespace_of_isWordChar (h.name.2 c (List.mem_of_getLast? hc))
  have hequals : '=' ∉ formal.1 := h.notMem_name (by decide)
  unfold addPart
  rw [hpart]
  unfold renderFormal
  cases hdefault : formal.2 with
  | none =>
    simp only [h.name.1, if_false]
    rw [show "=".toList = ['='] from rfl, before?_eq_none hequals]
  | some d =>
    have hne : formal.1 ++ '=' :: d ≠ [] := by simp
    have hdrop : (formal.1 ++ '=' :: d).drop (formal.1.length + 1) = d := by
      rw [← List.drop_drop, List.drop_left]
      rfl
    simp only [hne, if_false]
    rw [show "=".toList = ['='] from rfl, before?_append hequals]
    simp only [hname, hdrop, (h.default d hdefault).2.1]

theorem foldl_addPart_render {formals : List (Text × Option Text)}
    (h : ∀ formal ∈ formals, FormalShape formal) {parts : List Text}
    (hparts : parts.map trim = formals.map renderFormal) (acc : List Text × Dict Text Text)
    : parts.foldl addPart acc
        = (acc.1 ++ formals.map Prod.fst,
          formals.foldl
            (fun defaults (name, default) =>
              match default with
              | some default => defaults.insert name default
              | none => defaults) acc.2) := by
  induction formals generalizing parts acc with
  | nil =>
    rw [List.map_nil, List.map_eq_nil_iff] at hparts
    simp [hparts]
  | cons formal formals ih =>
    cases parts with
    | nil => simp at hparts
    | cons part parts =>
      rw [List.map_cons, List.map_cons, List.cons.injEq] at hparts
      rw [List.foldl_cons, addPart_render (h formal List.mem_cons_self) acc hparts.1,
        ih (fun f hf => h f (List.mem_cons_of_mem formal hf)) hparts.2]
      simp

/-! The parts between the commas. -/

def partCount (s : Text) : Nat := nonblank (s.splitOn ',')

theorem partCount_append (s t : Text) : partCount (s ++ ',' :: t) = partCount s + partCount t := by
  unfold partCount
  rw [List.splitOn_append_cons_self]
  exact List.countP_append

theorem partCount_of_notMem {s : Text} (h : ',' ∉ s)
    : partCount s = if trim s = [] then 0 else 1 := by
  unfold partCount
  rw [List.splitOn_eq_singleton h]
  simp [nonblank]

theorem partCount_blank (s : Text) : partCount (' ' :: s) = partCount s := by
  have htrim (t : Text) : trim (' ' :: t) = trim t := by
    have hlead : ∀ c ∈ [' '], isWhitespace c := by decide
    have := trim_append_left t hlead
    rwa [List.singleton_append] at this
  induction s using word_induction (fun c => decide (c ≠ ',')) with
  | word w hw =>
    have hnot : ',' ∉ w := fun h => by simpa using hw ',' h
    rw [partCount_of_notMem hnot, partCount_of_notMem (by simpa using hnot), htrim]
  | append w d s hw hd ih =>
    have hnot : ',' ∉ w := fun h => by simpa using hw ',' h
    have hd : d = ',' := by simpa using hd
    rw [hd, ← List.cons_append, partCount_append, partCount_append, partCount_of_notMem hnot,
      partCount_of_notMem (by simpa using hnot), htrim]

theorem partCount_pos {s : Text} {c : Char} (hmem : c ∈ s) (hblank : isWhitespace c = false)
    (hcomma : c ≠ ',')
    : 0 < partCount s := by
  induction s using word_induction (fun c => decide (c ≠ ',')) with
  | word w hw =>
    have hnot : ',' ∉ w := fun h => by simpa using hw ',' h
    have hne : trim w ≠ [] := by
      rw [ne_eq, trim_eq_nil_iff]
      intro hall
      simp [hall c hmem] at hblank
    rw [partCount_of_notMem hnot, if_neg hne]
    exact Nat.one_pos
  | append w d s hw hd ih =>
    have hnot : ',' ∉ w := fun h => by simpa using hw ',' h
    have hd : d = ',' := by simpa using hd
    rw [hd, partCount_append]
    rw [hd, List.mem_append, List.mem_cons] at hmem
    rcases hmem with hmem | heq | hmem
    . have hne : trim w ≠ [] := by
        rw [ne_eq, trim_eq_nil_iff]
        intro hall
        simp [hall c hmem] at hblank
      rw [partCount_of_notMem hnot, if_neg hne]
      omega
    . exact absurd heq hcomma
    . have := ih hmem
      omega

theorem FormalShape.partCount_pos (h : FormalShape formal)
    : 0 < partCount (renderFormal formal) := by
  obtain ⟨c, hc⟩ := List.exists_mem_of_ne_nil _ h.name.1
  have hword := h.name.2 c hc
  have hmem : c ∈ renderFormal formal := by
    unfold renderFormal
    split
    . exact List.mem_append_left _ hc
    . exact hc
  refine SvPreprocessor.partCount_pos hmem (isWhitespace_of_isWordChar hword) ?_
  rintro rfl
  contradiction

theorem FormalShape.one_lt_partCount (h : FormalShape formal) {d : Text}
    (hdefault : formal.2 = some d) (hcomma : ',' ∈ d)
    : 1 < partCount (renderFormal formal) := by
  obtain ⟨hne, htrim, hlast⟩ := h.default d hdefault
  obtain ⟨front, back, hsplit⟩ := List.append_of_mem hcomma
  have hrender : renderFormal formal = (formal.1 ++ '=' :: front) ++ ',' :: back := by
    rw [renderFormal, hdefault, hsplit]
    simp
  obtain ⟨c, hc⟩ := List.exists_mem_of_ne_nil _ h.name.1
  have hword := h.name.2 c hc
  have hfront : 0 < partCount (formal.1 ++ '=' :: front) := by
    refine SvPreprocessor.partCount_pos (List.mem_append_left _ hc)
      (isWhitespace_of_isWordChar hword) ?_
    rintro rfl
    contradiction
  have hback : 0 < partCount back := by
    cases hb : back.getLast? with
    | none =>
      rw [List.getLast?_eq_none_iff] at hb
      rw [hsplit, hb] at hlast
      simp at hlast
    | some e =>
      have hwhole : d.getLast? = some e := by
        rw [hsplit, List.getLast?_append_of_ne_nil _ (List.cons_ne_nil _ _),
          List.getLast?_cons_of_ne_nil (List.ne_nil_of_mem (List.mem_of_getLast? hb)), hb]
      rw [← List.dropLast_append_getLast? e hwhole] at htrim
      refine SvPreprocessor.partCount_pos (List.mem_of_getLast? hb)
        (isWhitespace_getLast_of_trim_eq htrim) ?_
      rintro rfl
      exact hlast hwhole
  rw [hrender, partCount_append]
  omega

theorem join_cons_cons (sep s t : Text) (rest : List Text)
    : join sep (s :: t :: rest) = s ++ sep ++ join sep (t :: rest) := rfl

theorem length_le_partCount {formals : List (Text × Option Text)}
    (h : ∀ formal ∈ formals, FormalShape formal)
    : formals.length ≤ partCount (join ", ".toList (formals.map renderFormal))
        ∧ ((∃ formal ∈ formals, ∃ d, formal.2 = some d ∧ ',' ∈ d) →
          formals.length < partCount (join ", ".toList (formals.map renderFormal))) := by
  induction formals with
  | nil => exact ⟨Nat.zero_le _, by simp⟩
  | cons formal formals ih =>
    have hfirst := h formal List.mem_cons_self
    have hpos := hfirst.partCount_pos
    have hlong := fun d => hfirst.one_lt_partCount (d := d)
    cases formals with
    | nil =>
      refine ⟨hpos, ?_⟩
      rintro ⟨formal', hmem, d, hdefault, hcomma⟩
      rw [List.mem_singleton] at hmem
      exact hlong d (hmem ▸ hdefault) hcomma
    | cons formal' formals =>
      obtain ⟨hle, hlt⟩ := ih fun f hf => h f (List.mem_cons_of_mem formal hf)
      have hjoin : partCount (join ", ".toList ((formal :: formal' :: formals).map renderFormal))
          = partCount (renderFormal formal)
            + partCount (join ", ".toList ((formal' :: formals).map renderFormal)) := by
        rw [List.map_cons, List.map_cons, join_cons_cons, ← List.map_cons, List.append_assoc,
          show ", ".toList ++ join ", ".toList ((formal' :: formals).map renderFormal)
            = ',' :: ' ' :: join ", ".toList ((formal' :: formals).map renderFormal) from rfl,
          partCount_append, partCount_blank]
      rw [hjoin, List.length_cons]
      refine ⟨by omega, ?_⟩
      rintro ⟨f, hmem, d, hdefault, hcomma⟩
      rw [List.mem_cons] at hmem
      rcases hmem with rfl | hmem
      . have := hlong d hdefault hcomma
        omega
      . have := hlt ⟨f, hmem, d, hdefault, hcomma⟩
        omega

theorem map_trim_splitOn_join {parts : List Text} (hne : parts ≠ []) (hparts : ∀ p ∈ parts, ',' ∉ p)
    : ((join ", ".toList parts).splitOn ',').map trim = parts.map trim := by
  induction parts with
  | nil => contradiction
  | cons p parts ih =>
    cases parts with
    | nil =>
      rw [join, List.splitOn_eq_singleton (hparts p List.mem_cons_self)]
    | cons p' parts =>
      have ih := ih (List.cons_ne_nil p' parts) fun q hq => hparts q (List.mem_cons_of_mem p hq)
      have hblank : (((' ' :: join ", ".toList (p' :: parts)).splitOn ',').map trim)
          = ((join ", ".toList (p' :: parts)).splitOn ',').map trim := by
        rw [List.splitOn_cons_eq_if_modifyHead, if_neg (by decide)]
        cases (join ", ".toList (p' :: parts)).splitOn ',' with
        | nil => rfl
        | cons q qs =>
          have hlead : ∀ c ∈ [' '], isWhitespace c := by decide
          have htrim := trim_append_left q hlead
          rw [List.singleton_append] at htrim
          simp [htrim]
      rw [join_cons_cons, List.append_assoc,
        show ", ".toList ++ join ", ".toList (p' :: parts)
          = ',' :: ' ' :: join ", ".toList (p' :: parts) from rfl,
        List.splitOn_append_cons_self_of_not_mem (hparts p List.mem_cons_self),
        List.map_cons, hblank, ih]
      rfl

end

theorem parseMacroParams_join_iff {formals : List (Text × Option Text)}
    (h : ∀ formal ∈ formals, FormalShape formal)
    : parseMacroParams (join ", ".toList (formals.map renderFormal))
        = (formals.map Prod.fst, defaultsOf formals)
        ↔
      ∀ formal ∈ formals, ∀ d, formal.2 = some d → ',' ∉ d := by
  rw [parseMacroParams_eq]
  constructor
  . intro heq formal hmem d hdefault hcomma
    have hlength := congrArg (fun r : List Text × Dict Text Text => r.1.length) heq
    simp only [length_foldl_addPart, List.length_nil, Nat.zero_add, List.length_map] at hlength
    have hlt := (length_le_partCount h).2 ⟨formal, hmem, d, hdefault, hcomma⟩
    unfold partCount at hlt
    omega
  . intro hcommas
    by_cases hnil : formals = []
    . subst hnil
      rfl
    . have hrender : ∀ part ∈ formals.map renderFormal, ',' ∉ part ∧ trim part = part := by
        intro part hpart
        obtain ⟨formal, hmem, rfl⟩ := List.mem_map.mp hpart
        refine ⟨?_, (h formal hmem).trim_render⟩
        have hname := (h formal hmem).notMem_name (show isWordChar ',' = false by decide)
        unfold renderFormal
        split
        . next d hdefault => simp [hname, hcommas formal hmem d hdefault]
        . exact hname
      have hparts :=
        map_trim_splitOn_join (by simpa using hnil) fun part hpart => (hrender part hpart).1
      have htrim : (formals.map renderFormal).map trim = formals.map renderFormal := by
        rw [List.map_congr_left fun part hpart => (hrender part hpart).2, List.map_id']
      rw [htrim] at hparts
      rw [foldl_addPart_render h hparts]
      rfl

/-! ## Joining and splitting -/

theorem shapedFrom_append_comma (awaited : List Char) (inString : Option Bool) (s : Text)
    : shapedFrom awaited inString (s ++ [',']) = false := by
  induction s generalizing awaited inString with
  | nil =>
    cases inString with
    | none =>
      simp only [List.nil_append, shapedFrom]
      cases awaited <;> simp [closer?]
    | some escaped => cases escaped <;> simp [shapedFrom]
  | cons c cs ih =>
    rw [List.cons_append]
    cases inString with
    | none =>
      simp only [shapedFrom, ih]
      split
      . rfl
      . split
        . rfl
        . split
          . split <;> simp
          . split <;> simp
    | some escaped => cases escaped <;> simp [shapedFrom, ih]

theorem ArgShape.getLast? {s : Text} (h : ArgShape s) : s.getLast? ≠ some ',' := by
  intro hlast
  have hshaped := h.shaped
  rw [← List.dropLast_append_getLast? ',' hlast, shapedFrom_append_comma] at hshaped
  contradiction

theorem ArgShape.formalShape {name : Text} (hname : IsWord name) {default : Option Text}
    (hdefault : ∀ d, default = some d → ArgShape d)
    : FormalShape (name, default) where
  name := hname
  default d hd := ⟨(hdefault d hd).ne_nil, (hdefault d hd).trimmed, (hdefault d hd).getLast?⟩

/--
The splitters undo the joining exactly if the arguments are separable, and exactly if no default
contains a comma.
-/
theorem parse_join_iff {args : List Text} (hargs : args ≠ [])
    (htexts : ∀ a ∈ args, a ≠ [] ∧ trim a = a) {formals : List (Text × Option Text)}
    (hformals : ∀ formal ∈ formals, FormalShape formal)
    : (parseMacroArgs (join ", ".toList args) = args ↔ Separable args)
      ∧ (parseMacroParams (join ", ".toList (formals.map renderFormal))
          = (formals.map Prod.fst, defaultsOf formals)
        ↔ ∀ formal ∈ formals, ∀ d, formal.2 = some d → ',' ∉ d) := by
  constructor
  . rw [parseMacroArgs_eq]
    exact pieces_join_iff (by simp) hargs htexts
  . exact parseMacroParams_join_iff hformals

theorem parse_join_call
    : parseMacroArgs "f(a, b), \"x, y\"".toList = ["f(a, b)".toList, "\"x, y\"".toList]
      ∧ parseMacroParams "msg, level=INFO".toList
        = (["msg".toList, "level".toList], Dict.empty.insert "level".toList "INFO".toList) := by
  have hformals : ∀ formal ∈ [("msg".toList, none), ("level".toList, some "INFO".toList)],
      FormalShape formal := by
    intro formal hmem
    rw [List.mem_cons, List.mem_singleton] at hmem
    rcases hmem with rfl | rfl
    . exact ArgShape.formalShape (by decide) nofun
    . refine ArgShape.formalShape (by decide) ?_
      intro d hd
      cases hd
      exact ⟨by decide, by decide, by decide⟩
  have hargs : ["f(a, b)".toList, "\"x, y\"".toList] ≠ [] := by decide
  obtain ⟨hjoin, hparams⟩ := parse_join_iff hargs (by decide) hformals
  exact ⟨hjoin.mpr (by decide), hparams.mpr (by decide)⟩

-- A concatenation, a sized literal, and a default that is a concatenation
theorem parse_splits_concatenation
    : (parseMacroArgs (join ", ".toList ["\x7ba,b\x7d".toList]) = ["\x7ba".toList, "b\x7d".toList]
        ∧ parseMacroArgs (join ", ".toList ["8'hFF".toList, "1".toList]) = ["8'hFF, 1".toList]
        ∧ ¬∀ args : List Text, args ≠ [] → (∀ a ∈ args, ArgShape a) →
          parseMacroArgs (join ", ".toList args) = args)
      ∧ (parseMacroParams
            (join ", ".toList ([("v".toList, some "\x7ba,b\x7d".toList)].map renderFormal))
          = (["v".toList, "b\x7d".toList], Dict.empty.insert "v".toList "\x7ba".toList)
        ∧ ¬∀ formals : List (Text × Option Text),
          (∀ formal ∈ formals, IsWord formal.1 ∧ ∀ d, formal.2 = some d → ArgShape d) →
          parseMacroParams (join ", ".toList (formals.map renderFormal))
            = (formals.map Prod.fst, defaultsOf formals)) := by
  have hconcat : ArgShape "\x7ba,b\x7d".toList := ⟨by decide, by decide, by decide⟩
  have hparams : parseMacroParams
        (join ", ".toList ([("v".toList, some "\x7ba,b\x7d".toList)].map renderFormal))
      = (["v".toList, "b\x7d".toList], Dict.empty.insert "v".toList "\x7ba".toList) := rfl
  refine ⟨⟨by decide, by decide, ?_⟩, hparams, ?_⟩
  . intro h
    have := h ["\x7ba,b\x7d".toList] (by decide) fun a ha => by
      rw [List.mem_singleton.mp ha]; exact hconcat
    exact absurd this (by decide)
  . intro h
    have hsplit := h [("v".toList, some "\x7ba,b\x7d".toList)] fun formal hformal => by
      rw [List.mem_singleton.mp hformal]
      exact ⟨by decide, fun d hd => by cases hd; exact hconcat⟩
    rw [hparams] at hsplit
    exact absurd (congrArg Prod.fst hsplit) (by decide)

end SvPreprocessor
end HdlGraph
