import ErDiagram.WhiteSpace
import Mathlib.Data.List.Basic

/-!
Words between white space. The words of a text are the ones, and the only ones, that it is made of
with white space between them, however much of it and wherever else it stands. So words that one
space joins come back, whatever words they are.
-/

namespace ErDiagram

def IsSpace (text : List Char) : Prop :=
  ∀ c ∈ text, isWhiteSpace c

/-- At least one character, and no white space. -/
def IsUnbroken (word : List Char) : Prop :=
  word ≠ [] ∧ ∀ c ∈ word, isWhiteSpace c = false

theorem isUnbroken_of_all {word : List Char} (hne : word ≠ [])
    (h : word.all fun c => !isWhiteSpace c) : IsUnbroken word :=
  ⟨hne, fun c hc => by simpa using List.all_eq_true.1 h c hc⟩

/-- A text is made of words: white space keeps each from the next, and more of it may stand before
the first one and behind the last. -/
inductive SpacedOut : List (List Char) → List Char → Prop where
  | done {gap : List Char} (hgap : IsSpace gap) : SpacedOut [] gap
  | word {gap word rest : List Char} {words : List (List Char)} (hgap : IsSpace gap)
    (hword : IsUnbroken word) (hapart : ∀ c ∈ rest.head?, isWhiteSpace c)
    (hrest : SpacedOut words rest) : SpacedOut (word :: words) (gap ++ (word ++ rest))

/-! ### What is read of a text -/

theorem wordsFrom_space {gap : List Char} (h : IsSpace gap) (rest : List Char) :
    wordsFrom [] (gap ++ rest) = wordsFrom [] rest := by
  induction gap with
  | nil => rfl
  | cons c gap ih =>
      obtain ⟨hc, hgap⟩ := List.forall_mem_cons.1 h
      rw [List.cons_append, wordsFrom, if_pos hc, if_pos rfl, ih hgap]

theorem wordsFrom_append {word : List Char} (h : ∀ c ∈ word, isWhiteSpace c = false)
    (started rest : List Char) :
    wordsFrom started (word ++ rest) = wordsFrom (started ++ word) rest := by
  induction word generalizing started with
  | nil => rw [List.nil_append, List.append_nil]
  | cons c word ih =>
      obtain ⟨hc, hword⟩ := List.forall_mem_cons.1 h
      rw [List.cons_append, wordsFrom, if_neg (by simp [hc]), ih hword, List.append_assoc]
      rfl

/-- A word that was started ends where white space stands, or at the end. -/
theorem wordsFrom_apart {started rest : List Char} (hstarted : started ≠ [])
    (hapart : ∀ c ∈ rest.head?, isWhiteSpace c) :
    wordsFrom started rest = started :: wordsFrom [] rest := by
  cases rest with
  | nil => rw [wordsFrom, if_neg hstarted, wordsFrom, if_pos rfl]
  | cons c rest =>
      have hc : isWhiteSpace c := hapart c rfl
      rw [wordsFrom, if_pos hc, if_neg hstarted, wordsFrom, if_pos hc, if_pos rfl]

theorem SpacedOut.wordsFrom_eq {words : List (List Char)} {text : List Char}
    (h : SpacedOut words text) : wordsFrom [] text = words := by
  induction h with
  | done hgap => simpa [wordsFrom] using wordsFrom_space hgap []
  | word hgap hword hapart _ ih =>
      rw [wordsFrom_space hgap, wordsFrom_append hword.2, List.nil_append,
        wordsFrom_apart hword.1 hapart, ih]

theorem SpacedOut.cons_space {words : List (List Char)} {text : List Char}
    (h : SpacedOut words text) {c : Char} (hc : isWhiteSpace c) : SpacedOut words (c :: text) := by
  cases h with
  | done hgap => exact .done (List.forall_mem_cons.2 ⟨hc, hgap⟩)
  | word hgap hword hapart hrest =>
      rw [← List.cons_append]
      exact .word (List.forall_mem_cons.2 ⟨hc, hgap⟩) hword hapart hrest

theorem isSpace_nil : IsSpace [] :=
  List.forall_mem_nil _

/-- A word stands in front of white space. -/
theorem SpacedOut.cons {words : List (List Char)} {text word : List Char}
    (h : SpacedOut words text) (hword : IsUnbroken word)
    (hapart : ∀ c ∈ text.head?, isWhiteSpace c) : SpacedOut (word :: words) (word ++ text) :=
  .word isSpace_nil hword hapart h

/-- A word stands on its own. -/
theorem SpacedOut.single {word : List Char} (hword : IsUnbroken word) : SpacedOut [word] word := by
  have hcons := (SpacedOut.done isSpace_nil).cons hword fun c hc => by cases hc
  rwa [List.append_nil] at hcons

/-- What is read of a text, behind a word that was started, makes up the word and the text. -/
theorem spacedOut_wordsFrom {started : List Char} (h : ∀ c ∈ started, isWhiteSpace c = false)
    (text : List Char) : SpacedOut (wordsFrom started text) (started ++ text) := by
  fun_induction wordsFrom started text with
  | case1 => exact .done isSpace_nil
  | case2 started hstarted =>
      rw [List.append_nil]
      exact .single ⟨hstarted, h⟩
  | case3 c rest hc ih => exact (ih h).cons_space hc
  | case4 started c rest hc hstarted ih =>
      have hrest := (ih (List.forall_mem_nil _)).cons_space hc
      exact hrest.cons ⟨hstarted, h⟩ fun d hd => Option.some.inj hd ▸ hc
  | case5 started c rest hc ih =>
      have hword : ∀ d ∈ started ++ [c], isWhiteSpace d = false := by
        intro d hd
        rcases List.mem_append.1 hd with hd | hd
        · exact h d hd
        · rw [List.mem_singleton.1 hd]
          exact Bool.eq_false_iff.2 hc
      simpa only [List.append_assoc, List.singleton_append] using ih hword

/-! ### Words -/

/-- The words of a text are those that it is made of. -/
theorem words_eq_iff {text : String} {ws : List String} :
    words text = ws ↔ SpacedOut (ws.map String.toList) text.toList := by
  have hinverse : String.toList ∘ String.ofList = id := funext fun _ => String.toList_ofList
  constructor
  · rintro rfl
    rw [words, List.map_map, hinverse, List.map_id]
    exact spacedOut_wordsFrom (List.forall_mem_nil _) text.toList
  · intro h
    rw [words, h.wordsFrom_eq, List.map_map]
    simp [Function.comp_def]

theorem spacedOut_intercalate {ws : List (List Char)} (h : ∀ word ∈ ws, IsUnbroken word) :
    SpacedOut ws ([' '].intercalate ws) := by
  induction ws with
  | nil => exact .done isSpace_nil
  | cons word ws ih =>
      obtain ⟨hword, hws⟩ := List.forall_mem_cons.1 h
      have hblank : isWhiteSpace ' ' := by decide
      cases ws with
      | nil =>
          rw [List.intercalate_singleton]
          exact .single hword
      | cons next ws =>
          rw [List.intercalate_cons_cons, List.append_assoc]
          exact ((ih hws).cons_space hblank).cons hword fun c hc => Option.some.inj hc ▸ hblank

/-- Words that one space joins come back. -/
theorem words_intercalate {ws : List String} (h : ∀ word ∈ ws, IsUnbroken word.toList) :
    words (" ".intercalate ws) = ws := by
  rw [words_eq_iff, String.toList_intercalate]
  exact spacedOut_intercalate (List.forall_mem_map.2 h)

end ErDiagram
