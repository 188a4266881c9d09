import Mathlib.Data.List.Basic

/-!
This module contains the words of a list, which are its maximal runs of word letters, and operations
that rewrite a list word by word.
-/

universe u

namespace Words

variable {α : Type u} (isWord : α → Bool)

-- The runs of word letters between the other letters; some may be empty
def words (s : List α) : List (List α) := s.splitOnP (!isWord ·)

def mapWords (f : List α → List α) (s : List α) : List α := go [] s
where
  go (word : List α) : List α → List α
  | [] => f word
  | c :: cs => if isWord c then go (word ++ [c]) cs else f word ++ c :: go [] cs

def separators (s : List α) : Nat := s.countP (!isWord ·)

variable {isWord} {f g : List α → List α}

variable (isWord) in
theorem word_induction {motive : List α → Prop} (word : ∀ w, (∀ c ∈ w, isWord c) → motive w)
    (append : ∀ w c s, (∀ c ∈ w, isWord c) → isWord c = false → motive s → motive (w ++ c :: s))
    (s : List α)
    : motive s := by
  have hgo : ∀ s w, (∀ c ∈ w, isWord c) → motive (w ++ s) := by
    intro s
    induction s with
    | nil =>
      intro w hw
      rw [List.append_nil]
      exact word w hw
    | cons c cs ih =>
      intro w hw
      cases hc : isWord c with
      | true =>
        have hmore : ∀ d ∈ w ++ [c], isWord d := by
          simp only [List.mem_append, List.mem_singleton]
          rintro d (hd | rfl)
          . exact hw d hd
          . exact hc
        have := ih (w ++ [c]) hmore
        rwa [List.append_assoc, List.singleton_append] at this
      | false => exact append w c cs hw hc (ih [] (by simp))
  exact hgo s [] (by simp)

theorem words_of_word {w : List α} (hw : ∀ c ∈ w, isWord c) : words isWord w = [w] :=
  List.splitOnP_eq_singleton fun c hc => by simp [hw c hc]

theorem words_append {c : α} (hc : isWord c = false) (s t : List α)
    : words isWord (s ++ c :: t) = words isWord s ++ words isWord t :=
  List.splitOnP_append_cons s t (by simp [hc])

theorem words_map {h : α → α} {s : List α} (hh : ∀ c ∈ s, isWord (h c) = isWord c)
    : words isWord (s.map h) = (words isWord s).map (List.map h) := by
  induction s using word_induction isWord with
  | word w hw =>
    rw [words_of_word hw, words_of_word, List.map_singleton]
    intro c hc
    obtain ⟨d, hd, rfl⟩ := List.mem_map.mp hc
    rw [hh d hd, hw d hd]
  | append w c s hw hc ih =>
    simp only [List.forall_mem_append, List.forall_mem_cons] at hh
    have hword : words isWord (w.map h) = [w.map h] := by
      apply words_of_word
      intro c hc
      obtain ⟨d, hd, rfl⟩ := List.mem_map.mp hc
      rw [hh.1 d hd, hw d hd]
    rw [List.map_append, List.map_cons, words_append (by rw [hh.2.1, hc]), words_append hc, hword,
      ih hh.2.2, words_of_word hw]
    rfl

theorem words_congr {isWord' : α → Bool} {s : List α} (h : ∀ c ∈ s, isWord c = isWord' c)
    : words isWord s = words isWord' s := by
  induction s using word_induction isWord with
  | word w hw => rw [words_of_word hw, words_of_word fun c hc => h c hc ▸ hw c hc]
  | append w c s hw hc ih =>
    simp only [List.forall_mem_append, List.forall_mem_cons] at h
    have hword : words isWord' w = [w] := words_of_word fun c hc => h.1 c hc ▸ hw c hc
    rw [words_append hc, words_append (h.2.1 ▸ hc), ih h.2.2, words_of_word hw, hword]

theorem isWord_of_mem_words {s w : List α} (hw : w ∈ words isWord s) : ∀ c ∈ w, isWord c := by
  induction s using word_induction isWord with
  | word w' hw' =>
    rw [words_of_word hw', List.mem_singleton] at hw
    exact hw ▸ hw'
  | append w' c s hw' hc ih =>
    rw [words_append hc, words_of_word hw', List.singleton_append, List.mem_cons] at hw
    cases hw with
    | inl heq => exact heq ▸ hw'
    | inr hw => exact ih hw

theorem go_of_word {w : List α} (hw : ∀ c ∈ w, isWord c) (word : List α)
    : mapWords.go isWord f word w = f (word ++ w) := by
  induction w generalizing word with
  | nil => rw [mapWords.go, List.append_nil]
  | cons c cs ih =>
    rw [mapWords.go, if_pos (hw c List.mem_cons_self),
      ih fun d hd => hw d (List.mem_cons_of_mem c hd)]
    simp

theorem mapWords_of_word {w : List α} (hw : ∀ c ∈ w, isWord c) : mapWords isWord f w = f w :=
  go_of_word hw []

theorem mapWords_append {c : α} (hc : isWord c = false) (s t : List α)
    : mapWords isWord f (s ++ c :: t) = mapWords isWord f s ++ c :: mapWords isWord f t := by
  have hgo : ∀ word, mapWords.go isWord f word (s ++ c :: t)
      = mapWords.go isWord f word s ++ c :: mapWords.go isWord f [] t := by
    induction s with
    | nil =>
      intro word
      simp [mapWords.go, hc]
    | cons d ds ih =>
      intro word
      rw [List.cons_append, mapWords.go, mapWords.go]
      split
      . exact ih _
      . rw [ih, List.append_assoc, List.cons_append]
  exact hgo []

theorem mapWords_id (s : List α) : mapWords isWord (fun w => w) s = s := by
  induction s using word_induction isWord with
  | word w hw => exact mapWords_of_word hw
  | append w c s hw hc ih => rw [mapWords_append hc, mapWords_of_word hw, ih]

theorem mapWords_congr {s : List α} (h : ∀ w ∈ words isWord s, f w = g w)
    : mapWords isWord f s = mapWords isWord g s := by
  induction s using word_induction isWord with
  | word w hw =>
    rw [mapWords_of_word hw, mapWords_of_word hw, h w (by simp [words_of_word hw])]
  | append w c s hw hc ih =>
    rw [words_append hc, words_of_word hw] at h
    rw [mapWords_append hc, mapWords_append hc, mapWords_of_word hw, mapWords_of_word hw,
      h w (by simp), ih fun w' hw' => h w' (by simp [hw'])]

/--
What replaces a word lies between letters that belong to no word, so a second pass finds its words
alone.
-/
theorem mapWords_mapWords (s : List α)
    : mapWords isWord g (mapWords isWord f s)
        = mapWords isWord (fun w => mapWords isWord g (f w)) s := by
  induction s using word_induction isWord with
  | word w hw => rw [mapWords_of_word hw, mapWords_of_word hw]
  | append w c s hw hc ih =>
    rw [mapWords_append hc, mapWords_append hc, mapWords_append hc, mapWords_of_word hw,
      mapWords_of_word hw, ih]

/-! ## Counting -/

@[simp]
theorem separators_append (s t : List α)
    : separators isWord (s ++ t) = separators isWord s + separators isWord t :=
  List.countP_append

theorem separators_cons {c : α} (hc : isWord c = false) (s : List α)
    : separators isWord (c :: s) = separators isWord s + 1 :=
  List.countP_cons_of_pos (by simp [hc])

theorem separators_eq_zero {s : List α} : separators isWord s = 0 ↔ ∀ c ∈ s, isWord c := by
  simp [separators, List.countP_eq_zero]

theorem separators_mapWords_le {s : List α}
    (h : ∀ w ∈ words isWord s, separators isWord (g w) ≤ separators isWord (f w))
    : separators isWord (mapWords isWord g s) ≤ separators isWord (mapWords isWord f s) := by
  induction s using word_induction isWord with
  | word w hw =>
    rw [mapWords_of_word hw, mapWords_of_word hw]
    exact h w (by simp [words_of_word hw])
  | append w c s hw hc ih =>
    rw [words_append hc, words_of_word hw] at h
    have hhead := h w (by simp)
    have htail := ih fun w' hw' => h w' (by simp [hw'])
    simp only [mapWords_append hc, mapWords_of_word hw, separators_append, separators_cons hc]
    omega

theorem separators_le_mapWords (s : List α)
    : separators isWord s ≤ separators isWord (mapWords isWord f s) := by
  have h : ∀ w ∈ words isWord s, separators isWord w ≤ separators isWord (f w) := by
    intro w hw
    rw [separators_eq_zero.mpr (isWord_of_mem_words hw)]
    exact Nat.zero_le _
  have := separators_mapWords_le (g := fun w => w) h
  rwa [mapWords_id] at this

theorem eq_of_append_cons_eq {s s' t t' : List α} {c c' : α} (hc : isWord c = false)
    (hc' : isWord c' = false) (hcount : separators isWord s = separators isWord s')
    (h : s ++ c :: t = s' ++ c' :: t')
    : s = s' ∧ t = t' := by
  induction s generalizing s' with
  | nil =>
    cases s' with
    | nil => exact ⟨rfl, (List.cons.inj h).2⟩
    | cons d ds =>
      rw [List.nil_append, List.cons_append, List.cons.injEq] at h
      rw [← h.1, separators_cons hc] at hcount
      simp [separators] at hcount
  | cons d ds ih =>
    cases s' with
    | nil =>
      rw [List.nil_append, List.cons_append, List.cons.injEq] at h
      rw [h.1, separators_cons hc'] at hcount
      simp [separators] at hcount
    | cons d' ds' =>
      rw [List.cons_append, List.cons_append, List.cons.injEq] at h
      obtain ⟨rfl, h⟩ := h
      have hcount' : separators isWord ds = separators isWord ds' := by
        simp only [separators, List.countP_cons] at hcount ⊢
        omega
      obtain ⟨rfl, rfl⟩ := ih hcount' h
      exact ⟨rfl, rfl⟩

/--
If one rewriting never gives fewer separators than the other, they agree on a list only word by
word.
-/
theorem mapWords_eq_iff {s : List α}
    (h : ∀ w ∈ words isWord s, separators isWord (g w) ≤ separators isWord (f w))
    : mapWords isWord f s = mapWords isWord g s ↔ ∀ w ∈ words isWord s, f w = g w := by
  constructor
  . intro heq
    induction s using word_induction isWord with
    | word w hw =>
      rw [mapWords_of_word hw, mapWords_of_word hw] at heq
      rw [words_of_word hw]
      simpa using heq
    | append w c s hw hc ih =>
      rw [words_append hc, words_of_word hw] at h ⊢
      have hhead := h w (by simp)
      have htail := fun w' (hw' : w' ∈ words isWord s) => h w' (by simp [hw'])
      rw [mapWords_append hc, mapWords_append hc, mapWords_of_word hw, mapWords_of_word hw] at heq
      have hcount := congrArg (separators isWord) heq
      simp only [separators_append, separators_cons hc] at hcount
      have hle := separators_mapWords_le htail
      obtain ⟨hfirst, hrest⟩ := eq_of_append_cons_eq hc hc (by omega) heq
      have := ih htail hrest
      simpa [hfirst] using this
  . exact mapWords_congr

theorem mapWords_eq_self_iff {s : List α} : mapWords isWord f s = s
    ↔ ∀ w ∈ words isWord s, f w = w := by
  have h : ∀ w ∈ words isWord s, separators isWord w ≤ separators isWord (f w) := by
    intro w hw
    rw [separators_eq_zero.mpr (isWord_of_mem_words hw)]
    exact Nat.zero_le _
  have := mapWords_eq_iff (g := fun w => w) h
  rwa [mapWords_id] at this

end Words
