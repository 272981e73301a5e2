import ErDiagram.Proofs.Forms
import ErDiagram.Proofs.Lexemes
import ErDiagram.Proofs.Separating

/-!
The two ways to read a classification: from the words of a text, and from tokens. They agree. Tokens
are read as a classification exactly if their texts, joined by one space each, decode to it; and if no
tokens there decode, the first one that no classification goes on with is to blame.
-/

namespace ErDiagram

variable {σ ε α : Type}

/-! ### Words -/

namespace HierarchyType

/-- The words that write a classification. -/
inductive Named : List String → HierarchyType → Prop where
  | plainSubset : Named ["subset"] plainSubset
  | facets (total exclusive : Bool) :
    Named [if total then "total" else "partial", if exclusive then "exclusive" else "overlapped"]
      (ofFacets total exclusive)

/-- Some words can be followed by this one, and perhaps more, to write a classification. -/
def Continues (ws : List String) (word : String) : Prop :=
  ∃ more type, Named (ws ++ word :: more) type

/-- A flag is read from one of two words. -/
theorem flag_eq_some {yes no word : String} (hne : yes ≠ no) {flag : Bool} :
    (if word = yes then some true else if word = no then some false else none) = some flag ↔
      word = if flag then yes else no := by
  constructor
  · intro h
    split_ifs at h with hyes hno
    · cases h
      exact hyes
    · cases h
      exact hno
  · rintro rfl
    cases flag with
    | true => exact if_pos rfl
    | false => exact (if_neg hne.symm).trans (if_pos rfl)

theorem coverage?_eq_some {word : String} {total : Bool} :
    coverage? word = some total ↔ word = if total then "total" else "partial" :=
  flag_eq_some (by decide)

theorem disjointness?_eq_some {word : String} {exclusive : Bool} :
    disjointness? word = some exclusive ↔
      word = if exclusive then "exclusive" else "overlapped" :=
  flag_eq_some (by decide)

theorem ofWords?_iff {ws : List String} {type : HierarchyType} :
    ofWords? ws = some type ↔ Named ws type := by
  constructor
  · intro h
    unfold ofWords? at h
    split at h
    · split_ifs at h with hword
      cases h
      exact hword ▸ .plainSubset
    · obtain ⟨total, htotal, h⟩ := Option.bind_eq_some_iff.1 h
      obtain ⟨exclusive, hexclusive, h⟩ := Option.bind_eq_some_iff.1 h
      cases h
      rw [coverage?_eq_some.1 htotal, disjointness?_eq_some.1 hexclusive]
      exact .facets total exclusive
    · cases h
  · rintro (_ | ⟨total, exclusive⟩)
    · rfl
    · rw [ofWords?, coverage?_eq_some.2 rfl, disjointness?_eq_some.2 rfl]
      rfl

/-- A text decodes if its words write a classification, and only then. -/
theorem ofString_iff {text : String} {type : HierarchyType} :
    ofString text = .ok type ↔ Named (words text) type := by
  rw [← ofWords?_iff, ofString]
  cases ofWords? (words text) <;> simp

namespace Named

variable {ws more : List String} {type other : HierarchyType}

theorem text_eq (h : Named ws type) : type.text = " ".intercalate ws := by
  cases h with
  | plainSubset => decide +kernel
  | facets total exclusive => cases total <;> cases exclusive <;> decide +kernel

theorem isUnbroken (h : Named ws type) : ∀ word ∈ ws, IsUnbroken word.toList := by
  intro word hword
  cases h with
  | plainSubset =>
      rw [List.mem_singleton.1 hword]
      exact isUnbroken_of_all (by decide) (by decide)
  | facets total exclusive =>
      rcases List.mem_pair.1 hword with rfl | rfl
      · cases total <;> exact isUnbroken_of_all (by decide) (by decide)
      · cases exclusive <;> exact isUnbroken_of_all (by decide) (by decide)

/-- What is written comes back. -/
theorem ofString_text (h : Named ws type) : ofString type.text = .ok type := by
  rw [h.text_eq, ofString_iff, words_intercalate h.isUnbroken]
  exact h

/-- No classification is written with the words of another one in front. -/
theorem eq_nil (h : Named ws type) (hmore : Named (ws ++ more) other) : more = [] := by
  generalize hws : ws ++ more = all at hmore
  cases h with
  | plainSubset =>
      cases hmore with
      | plainSubset => simpa using hws
      | facets total exclusive => cases total <;> simp at hws
  | facets total exclusive =>
      cases hmore with
      | plainSubset => simp at hws
      | facets =>
          obtain ⟨-, -, hnil⟩ : _ ∧ _ ∧ more = [] := by simpa using hws
          exact hnil

theorem unique (h : Named ws type) (hother : Named ws other) : type = other :=
  Option.some.inj ((ofWords?_iff.2 h).symm.trans (ofWords?_iff.2 hother))

theorem length_eq (h : Named ws type) : ws.length = 1 ∨ ws.length = 2 := by
  cases h with
  | plainSubset => exact Or.inl rfl
  | facets => exact Or.inr rfl

theorem not_continues (h : Named ws type) (word : String) : ¬Continues ws word := by
  rintro ⟨more, other, hmore⟩
  exact List.cons_ne_nil _ _ (h.eq_nil hmore)

end Named

theorem continues_nil {word : String} :
    Continues [] word ↔ word = "subset" ∨ ∃ total, coverage? word = some total := by
  constructor
  · rintro ⟨more, type, h⟩
    generalize hws : [] ++ word :: more = ws at h
    cases h with
    | plainSubset => exact Or.inl (List.cons.inj hws).1
    | facets total exclusive =>
        exact Or.inr ⟨total, coverage?_eq_some.2 (List.cons.inj hws).1⟩
  · rintro (rfl | ⟨total, hword⟩)
    · exact ⟨[], _, .plainSubset⟩
    · rw [coverage?_eq_some.1 hword]
      exact ⟨_, _, .facets total true⟩

/-- Behind a coverage comes a disjointness. -/
theorem continues_coverage {first word : String} {total : Bool}
    (hfirst : coverage? first = some total) :
    Continues [first] word ↔ ∃ exclusive, disjointness? word = some exclusive := by
  rw [coverage?_eq_some.1 hfirst]
  constructor
  · rintro ⟨more, type, h⟩
    generalize hws : [if total then "total" else "partial"] ++ word :: more = ws at h
    cases h with
    | plainSubset => cases total <;> simp at hws
    | facets total' exclusive =>
        obtain ⟨-, hword, -⟩ : _ ∧ word = _ ∧ _ := by simpa using hws
        exact ⟨exclusive, disjointness?_eq_some.2 hword⟩
  · rintro ⟨exclusive, hword⟩
    rw [disjointness?_eq_some.1 hword]
    exact ⟨_, _, .facets total exclusive⟩

end HierarchyType

/-! ### Tokens -/

open HierarchyType (Named Continues)

def texts (tokens : List Token) : List String :=
  tokens.map (·.text)

/-- What stands behind the word that may announce a classification. -/
def behindType : List Token → List Token
  | [] => []
  | token :: rest => if token.kind = .reserved .type then rest else token :: rest

/-- Some tokens begin a classification, and the first one that it cannot go on with; or they are all
used up while it could go on. -/
inductive SpoiledAt (tokens : List Token) : Option Token → Prop where
  | token {front back : List Token} {spoiler : Token} (htokens : tokens = front ++ spoiler :: back)
    (hfront : ∃ word, Continues (texts front) word)
    (hspoiler : ¬Continues (texts front) spoiler.text) : SpoiledAt tokens (some spoiler)
  | endOfInput (htokens : ∃ word, Continues (texts tokens) word) : SpoiledAt tokens none

/-- What begins a classification and spoils it contains none. -/
theorem SpoiledAt.not_named {tokens front back : List Token} {spoiler : Option Token}
    (h : SpoiledAt tokens spoiler) (htokens : tokens = front ++ back) (type : HierarchyType) :
    ¬Named (texts front) type := by
  intro hnamed
  cases h with
  | @token begun rest spoiler hsplit hbegun hspoiler =>
      obtain ⟨word, more, other, hother⟩ := hbegun
      rw [hsplit] at htokens
      -- the classification ends where the tokens begun end or behind them, or else among them
      rcases List.append_eq_append_iff.1 htokens with ⟨between, rfl, hbetween⟩ | ⟨between, rfl, -⟩
      · cases between with
        | nil => exact hnamed.not_continues word (by simpa using ⟨more, other, hother⟩)
        | cons first between =>
            obtain ⟨rfl, -⟩ := List.cons.inj hbetween
            exact hspoiler ⟨texts between, type, by simpa [texts] using hnamed⟩
      · rw [texts, List.map_append, List.append_assoc] at hother
        simpa using hnamed.eq_nil hother
  | endOfInput hbegun =>
      obtain ⟨word, more, other, hother⟩ := hbegun
      rw [htokens, texts, List.map_append, List.append_assoc] at hother
      simpa using hnamed.eq_nil hother

namespace Reader

def typeWords : Reader σ ε HierarchyType := do
  if ← accept (.reserved .subset) then
    pure .plainSubset
  else
    let total ← decode HierarchyType.coverage? .expectedCoverage
    let exclusive ← decode HierarchyType.disjointness? .expectedDisjointness
    pure (.ofFacets total exclusive)

theorem accept_other {token : Token} {kind : Token.Kind} (hkind : token.kind ≠ kind)
    (rest : List Token) (depth : Int) (state : σ) :
    (accept kind : Reader σ ε Bool) ⟨token :: rest, depth, state⟩ =
      .ok false ⟨token :: rest, depth, state⟩ := by
  simp [accept, Reading.isNext, Reading.next?, hkind]

theorem decode_of_some {value? : String → Option α} {token : Token} {a : α} {keyword : Keyword}
    (hvalue : value? token.text = some a) (hkind : token.kind = .reserved keyword)
    (error : SyntaxError) (rest : List Token) (depth : Int) (state : σ) :
    (decode value? error : Reader σ ε α) ⟨token :: rest, depth, state⟩ =
      .ok a ⟨rest, depth, state⟩ := by
  simp [decode, Reading.next?, hvalue, nesting_reserved hkind]

theorem decode_of_none {value? : String → Option α} {token : Token}
    (hvalue : value? token.text = none) (error : SyntaxError) (rest : List Token) (depth : Int)
    (state : σ) : (decode value? error : Reader σ ε α) ⟨token :: rest, depth, state⟩ =
      .error ⟨.malformed error, some token⟩ ⟨token :: rest, depth, state⟩ := by
  simp [decode, Reading.next?, hvalue]

theorem hierarchyType_eq (tokens : List Token) (depth : Int) (state : σ) :
    (hierarchyType : Reader σ ε HierarchyType) ⟨tokens, depth, state⟩ =
      typeWords ⟨behindType tokens, depth, state⟩ := by
  have hreader : (hierarchyType : Reader σ ε HierarchyType) =
      accept (.reserved .type) >>= fun _ => typeWords := rfl
  rw [hreader]
  cases tokens with
  | nil => rfl
  | cons token rest =>
      by_cases hkind : token.kind = .reserved .type
      · rw [behindType, if_pos hkind]
        exact bind_of_ok (accept_reserved hkind rest depth state)
      · rw [behindType, if_neg hkind]
        exact bind_of_ok (accept_other hkind rest depth state)

/-- What reading a classification comes to: the first tokens write it and are passed over, or the
first one that spoils it is to blame. -/
inductive Classifies (tokens : List Token) (depth : Int) (state : σ) :
    EStateM.Result (Fault ε) (Reading σ) HierarchyType → Prop where
  | named {front back : List Token} {type : HierarchyType} (htokens : tokens = front ++ back)
    (hnamed : Named (texts front) type) :
    Classifies tokens depth state (.ok type ⟨back, depth, state⟩)
  | spoiled {error : SyntaxError} {spoiler : Option Token} {after : Reading σ}
    (hspoiled : SpoiledAt tokens spoiler) :
    Classifies tokens depth state (.error ⟨.malformed error, spoiler⟩ after)

/-- Behind a coverage, a disjointness makes a classification, and nothing else does. -/
theorem classifies_disjointness {first : Token} {total : Bool}
    (htotal : HierarchyType.coverage? first.text = some total) {tokens : List Token}
    (hspelled : ∀ token ∈ tokens, token.Spelled) (depth : Int) (state : σ) :
    Classifies (first :: tokens) depth state
      ((do
        let exclusive ← decode HierarchyType.disjointness? .expectedDisjointness
        pure (.ofFacets total exclusive) : Reader σ ε HierarchyType) ⟨tokens, depth, state⟩) := by
  have hbegun : ∃ word, Continues [first.text] word :=
    ⟨_, (HierarchyType.continues_coverage htotal).2
      ⟨true, HierarchyType.disjointness?_eq_some.2 rfl⟩⟩
  cases tokens with
  | nil => exact .spoiled (.endOfInput hbegun)
  | cons second rest =>
      cases hexclusive : HierarchyType.disjointness? second.text with
      | none =>
          rw [bind_of_error (decode_of_none hexclusive _ rest depth state)]
          refine .spoiled (@SpoiledAt.token _ [first] rest second rfl hbegun fun hcontinues => ?_)
          obtain ⟨exclusive, hsome⟩ := (HierarchyType.continues_coverage htotal).1 hcontinues
          exact Option.some_ne_none _ (hsome.symm.trans hexclusive)
      | some exclusive =>
          have hkind := (disjointness?_iff (hspelled second List.mem_cons_self)).1 hexclusive
          rw [bind_of_ok (decode_of_some hexclusive hkind _ rest depth state)]
          have hnamed : Named (texts [first, second]) (.ofFacets total exclusive) := by
            rw [← HierarchyType.ofWords?_iff]
            simp [texts, HierarchyType.ofWords?, htotal, hexclusive]
          exact .named rfl hnamed

/-- The words of a classification are read, or what spoils it is found. -/
theorem classifies_typeWords {tokens : List Token} (hspelled : ∀ token ∈ tokens, token.Spelled)
    (depth : Int) (state : σ) : Classifies tokens depth state
      ((typeWords : Reader σ ε HierarchyType) ⟨tokens, depth, state⟩) := by
  have hbegun : ∃ word, Continues [] word := ⟨_, HierarchyType.continues_nil.2 (Or.inl rfl)⟩
  cases tokens with
  | nil => exact .spoiled (.endOfInput hbegun)
  | cons first rest =>
      obtain ⟨hfirst, hrest⟩ := List.forall_mem_cons.1 hspelled
      by_cases hsubset : first.kind = .reserved .subset
      · rw [typeWords, bind_of_ok (accept_reserved hsubset rest depth state)]
        have hnamed : Named (texts [first]) .plainSubset := by
          rw [texts, List.map_singleton, text_eq_of_reserved hfirst hsubset rfl]
          exact .plainSubset
        exact .named rfl hnamed
      · rw [typeWords, bind_of_ok (accept_other hsubset rest depth state)]
        simp only [Bool.false_eq_true, if_false]
        cases htotal : HierarchyType.coverage? first.text with
        | none =>
            rw [bind_of_error (decode_of_none htotal _ rest depth state)]
            refine .spoiled (@SpoiledAt.token _ [] rest first rfl hbegun fun hcontinues => ?_)
            rcases HierarchyType.continues_nil.1 hcontinues with htext | ⟨total, hsome⟩
            · exact hsubset (kind_eq_of_text hfirst (Keyword.isToken_of_isSpelled (by decide))
                (congrArg String.toList htext))
            · exact Option.some_ne_none _ (hsome.symm.trans htotal)
        | some total =>
            have hkind := (coverage?_iff hfirst).1 htotal
            rw [bind_of_ok (decode_of_some htotal hkind _ rest depth state)]
            exact classifies_disjointness htotal hrest depth state

end Reader

/-! ### Texts of tokens -/

theorem isWhiteSpace_of_isWordChar {c : Char} (h : isWordChar c) : isWhiteSpace c = false := by
  simp only [isWordChar, isWordStart, Bool.or_eq_true, decide_eq_true_eq, isAlpha_iff,
    UInt32.le_iff_toNat_le] at h
  rcases h with ((h | rfl) | rfl) | hdigit
  · have hrange : 65 ≤ c.toNat ∧ c.toNat ≤ 90 ∨ 97 ≤ c.toNat ∧ c.toNat ≤ 122 := h
    exact isWhiteSpace_of_visible (by omega)
  · decide
  · decide
  · exact isWhiteSpace_of_isDigit hdigit

theorem IsCardinal.isWhiteSpace {text : List Char} (h : IsCardinal text) :
    ∀ c ∈ text, isWhiteSpace c = false := by
  intro c hc
  rcases h.mem hc with hword | rfl
  · exact isWhiteSpace_of_isWordChar hword
  · decide

theorem WordBefore.isWhiteSpace {c : Char} {tail after : List Char} (h : WordBefore c tail after) :
    ∀ d ∈ c :: tail, isWhiteSpace d = false := by
  refine List.forall_mem_cons.2 ⟨isWhiteSpace_of_isWordChar ?_, fun d hd =>
    isWhiteSpace_of_isWordChar (h.inside d hd)⟩
  simp [isWordChar, h.start]

/-- A token that is valid is written without white space. -/
theorem TokenBefore.isWhiteSpace {kind : Token.Kind} {text after : List Char}
    (h : TokenBefore kind text after) (hkind : kind ≠ .invalid) :
    ∀ c ∈ text, isWhiteSpace c = false := by
  cases h with
  | leftParen => exact List.forall_mem_singleton.2 (by decide)
  | rightParen => exact List.forall_mem_singleton.2 (by decide)
  | single hbound => exact IsCardinal.isWhiteSpace (Or.inl hbound.isBound)
  | pair hlower hupper =>
      exact IsCardinal.isWhiteSpace (Or.inr ⟨_, _, rfl, hlower.isBound, hupper.isBound⟩)
  | identifier hword => exact hword.isWhiteSpace
  | reserved hword => exact hword.isWhiteSpace
  | invalid => exact absurd rfl hkind

/-- The tokens that declarations are read from are written without white space. -/
theorem isUnbroken_of_mem_significant {source : String} {token : Token}
    (h : token ∈ Compile.significant (Lexer.tokens source)) : IsUnbroken token.text.toList := by
  rw [Compile.significant_tokens_eq, Compile.significant, List.mem_filter] at h
  obtain ⟨hmem, hkind⟩ := h
  have hvalid : token.kind ≠ .invalid ∧ token.kind ≠ .endOfInput := by simpa using hkind
  obtain ⟨_, after, -, -, hbefore⟩ := exists_tokenBefore_of_mem_scan hmem
  exact ⟨(mem_scan hmem).1.ne_nil, hbefore.isWhiteSpace hvalid.1⟩

/-- Texts of tokens that one space joins decode if they write a classification, and only then. -/
theorem ofString_texts_iff {tokens : List Token}
    (hunbroken : ∀ token ∈ tokens, IsUnbroken token.text.toList) {type : HierarchyType} :
    HierarchyType.ofString (" ".intercalate (texts tokens)) = .ok type ↔
      Named (texts tokens) type := by
  have hwords : words (" ".intercalate (texts tokens)) = texts tokens :=
    words_intercalate (List.forall_mem_map.2 hunbroken)
  rw [HierarchyType.ofString_iff, hwords]

theorem behindType_suffix (tokens : List Token) : behindType tokens <:+ tokens := by
  cases tokens with
  | nil => exact List.suffix_refl _
  | cons first rest =>
      by_cases hkind : first.kind = .reserved .type
      · have hbehind : behindType (first :: rest) = rest := if_pos hkind
        exact ⟨[first], congrArg (first :: ·) hbehind⟩
      · have hbehind : behindType (first :: rest) = first :: rest := if_neg hkind
        exact ⟨[], hbehind⟩

/-- Tokens in front that write a classification are settled by all the tokens. -/
theorem eq_of_named {front back front' back' : List Token} {type type' : HierarchyType}
    (h : front ++ back = front' ++ back') (hnamed : Named (texts front) type)
    (hnamed' : Named (texts front') type') : type = type' ∧ back = back' := by
  obtain rfl : front = front' := by
    rcases List.append_eq_append_iff.1 h with ⟨between, rfl, -⟩ | ⟨between, rfl, -⟩
    · rw [texts, List.map_append] at hnamed'
      rw [List.map_eq_nil_iff.1 (hnamed.eq_nil hnamed'), List.append_nil]
    · rw [texts, List.map_append] at hnamed
      rw [List.map_eq_nil_iff.1 (hnamed'.eq_nil hnamed), List.append_nil]
  exact ⟨hnamed.unique hnamed', List.append_cancel_left h⟩

theorem Reader.classifies_hierarchyType {tokens : List Token}
    (hspelled : ∀ token ∈ tokens, token.Spelled) (depth : Int) (state : σ) :
    Classifies (behindType tokens) depth state
      ((hierarchyType : Reader σ ε HierarchyType) ⟨tokens, depth, state⟩) := by
  rw [hierarchyType_eq]
  exact classifies_typeWords
    (fun token htoken => hspelled token ((behindType_suffix tokens).subset htoken)) depth state

/-- Tokens are read as a classification exactly if their joined texts decode to it. -/
theorem Reader.hierarchyType_iff {tokens front back : List Token}
    (hspelled : ∀ token ∈ tokens, token.Spelled)
    (hunbroken : ∀ token ∈ tokens, IsUnbroken token.text.toList)
    (htokens : behindType tokens = front ++ back) (depth : Int) (state : σ) (type : HierarchyType) :
    (hierarchyType : Reader σ ε HierarchyType) ⟨tokens, depth, state⟩ =
        .ok type ⟨back, depth, state⟩ ↔
      HierarchyType.ofString (" ".intercalate (texts front)) = .ok type := by
  have hfront : ∀ token ∈ front, IsUnbroken token.text.toList := fun token htoken =>
    hunbroken token ((behindType_suffix tokens).subset (htokens ▸ List.mem_append_left _ htoken))
  have hread := @classifies_hierarchyType σ ε tokens hspelled depth state
  rw [ofString_texts_iff hfront]
  generalize (hierarchyType : Reader σ ε HierarchyType) ⟨tokens, depth, state⟩ = result at hread ⊢
  cases hread with
  | @named begun rest found hfound hnamed =>
      have hsplit : begun ++ rest = front ++ back := hfound.symm.trans htokens
      constructor
      · intro h
        obtain ⟨rfl, rfl⟩ : found = type ∧ rest = back := by simpa using h
        exact List.append_cancel_right hsplit ▸ hnamed
      · intro h
        obtain ⟨rfl, rfl⟩ := eq_of_named hsplit hnamed h
        rfl
  | spoiled hspoiled =>
      refine ⟨fun h => by simp at h, fun h => ?_⟩
      exact absurd h (hspoiled.not_named htokens type)

end ErDiagram
