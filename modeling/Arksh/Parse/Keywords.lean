/-
  Subject: Where the parsers of `while`, `until`, `for` and `if` find their keywords.

  A word is taken for the start of a command by what stands in front of it: a line break, an
  operator, or a word that reads `then`, `do` or `else`, whatever that word is. Among the words so
  taken the searches count the blocks that are open, up to the keyword they look for.
-/
import Arksh.Lib.Blocks
import Arksh.Parse.Split

namespace Arksh

open CText Scan List Nat

/-! ## 1. The searches, over words -/

def commandWords (line : Text) : ArkshToken → List ArkshToken → List Text
  | _, [] => []
  | previous, token :: rest =>
    if wordStartsCommand line previous token = true then
      token.text.1 :: commandWords line token rest
    else commandWords line token rest

def isKeywordText (keywords : List String) (word : Text) : Bool :=
  keywords.any fun keyword => word = keyword.toList

/-- A search for keywords, over words: how many compound commands are open at the end, if it meets
    none. -/
def searchWords (wanted : List String) (depth : Nat) (words : List Text) : Option Nat :=
  Blocks.through keywordIsCompoundOpen keywordIsCompoundClose (isKeywordText wanted) depth words

def QuietWords (wanted : List String) (words : List Text) : Prop :=
  Blocks.Quiet keywordIsCompoundOpen keywordIsCompoundClose (isKeywordText wanted) words

variable {words : List Text}

theorem searchWords_iff {wanted : List String} :
    searchWords wanted 0 words = some 0 ↔ QuietWords wanted words := Blocks.through_iff

theorem searchWords_cons (wanted : List String) (depth : Nat) (word : Text) (words : List Text) :
    searchWords wanted depth (word :: words) =
      if depth = 0 ∧ isKeywordText wanted word = true then none
      else searchWords wanted (compoundDepthBehind depth word) words := rfl

def lastToken : ArkshToken → List ArkshToken → ArkshToken
  | previous, [] => previous
  | _, token :: rest => lastToken token rest

variable {line : Text} {c : Char} {behind : List ArkshToken} {keyword : String}

variable {previous token : ArkshToken}

theorem isWord_of_startsCommand (h : wordStartsCommand line previous token = true) (value : String) :
    isWord token value = decide (token.text.1 = value.toList) := by
  have hword : token.kind = .word := by
    simp only [wordStartsCommand, Bool.and_eq_true, decide_eq_true_eq] at h
    exact h.1
  rw [isWord, hword]
  rfl

theorem any_isWord (h : wordStartsCommand line previous token = true) (wanted : List String) :
    wanted.any (isWord token) = isKeywordText wanted token.text.1 := by
  congr 1
  exact funext fun value => isWord_of_startsCommand h value

theorem depthBehind_eq (previous token : ArkshToken) (depth : Nat) :
    depthBehind line previous token depth =
      if wordStartsCommand line previous token = true then compoundDepthBehind depth token.text.1
      else depth := rfl

theorem searchWords_commandWords (wanted : List String) (previous token : ArkshToken) (depth : Nat)
    (tokens : List ArkshToken) :
    searchWords wanted depth (commandWords line previous (token :: tokens)) =
      if wordStartsCommand line previous token = true ∧ depth = 0 ∧
          isKeywordText wanted token.text.1 = true then none
      else searchWords wanted (depthBehind line previous token depth)
        (commandWords line token tokens) := by
  rw [commandWords, depthBehind_eq]
  by_cases hstarts : wordStartsCommand line previous token = true
  · rw [if_pos hstarts, if_pos hstarts, searchWords_cons]; simp only [hstarts, true_and]
  · rw [if_neg hstarts, if_neg hstarts, if_neg fun hmet => hstarts hmet.1]

variable {previous fi a b : ArkshToken} {depth : Nat}

section FindKeyword

variable {wanted : List String}

theorem findKeyword_mem {tokens : List ArkshToken} {found : Found}
    (h : findKeyword line wanted previous depth tokens = some found) : found.token ∈ tokens := by
  induction tokens generalizing previous depth with
  | nil => cases h
  | cons token rest ih =>
    unfold findKeyword at h
    split at h
    · cases h; exact mem_cons_self
    · exact mem_cons_of_mem _ (ih h)

theorem findKeyword_cons (wanted : List String) (previous token : ArkshToken) (depth : Nat)
    (rest : List ArkshToken) : findKeyword line wanted previous depth (token :: rest) =
      if wordStartsCommand line previous token = true ∧ depth = 0 ∧
          isKeywordText wanted token.text.1 = true then some ⟨token, rest⟩
      else findKeyword line wanted token (depthBehind line previous token depth) rest := by
  rw [findKeyword]
  by_cases hstarts : wordStartsCommand line previous token = true
  · rw [any_isWord hstarts]
  · rw [if_neg fun hmet => hstarts hmet.1, if_neg fun hmet => hstarts hmet.1]

theorem findKeyword_append (previous : ArkshToken) (depth : Nat) (tokens rest : List ArkshToken) :
    (∃ d, searchWords wanted depth (commandWords line previous tokens) = some d ∧
        findKeyword line wanted previous depth (tokens ++ rest) =
          findKeyword line wanted (lastToken previous tokens) d rest) ∨
      searchWords wanted depth (commandWords line previous tokens) = none ∧
        ∃ found, findKeyword line wanted previous depth (tokens ++ rest) = some found ∧
          found.token ∈ tokens := by
  induction tokens generalizing previous depth with
  | nil => exact .inl ⟨depth, rfl, rfl⟩
  | cons token tokens ih =>
    rw [searchWords_commandWords, cons_append, findKeyword_cons]
    split
    · exact .inr ⟨rfl, _, rfl, mem_cons_self⟩
    · exact (ih token _).imp_right fun ⟨hnone, found, hfound, hmem⟩ =>
        ⟨hnone, found, hfound, mem_cons_of_mem token hmem⟩

/-- **The search finds a keyword behind tokens exactly where it sees none of these.** -/
theorem findKeyword_iff {keyword : ArkshToken} {tokens rest behind : List ArkshToken}
    (hnodup : (tokens ++ keyword :: rest).Nodup)
    (hstarts : wordStartsCommand line (lastToken previous tokens) keyword = true)
    (hword : wanted.any (isWord keyword) = true) :
    findKeyword line wanted previous 0 (tokens ++ keyword :: rest) = some ⟨keyword, behind⟩ ↔
      QuietWords wanted (commandWords line previous tokens) ∧ behind = rest := by
  obtain ⟨-, hrest, hapart⟩ := nodup_append.mp hnodup
  have hnotRest : keyword ∉ rest := (nodup_cons.mp hrest).1
  have hnotTokens : keyword ∉ tokens := fun hmem =>
    hapart keyword hmem keyword mem_cons_self rfl
  rw [← searchWords_iff]
  rcases findKeyword_append previous 0 tokens (keyword :: rest) with
    ⟨d, hsearch, hpast⟩ | ⟨hsearch, found, hmet, hmem⟩
  · rw [hsearch, hpast, findKeyword]
    cases d with
    | zero =>
      rw [if_pos ⟨hstarts, rfl, hword⟩]
      constructor
      · intro h
        cases h
        exact ⟨rfl, rfl⟩
      · rintro ⟨-, rfl⟩; rfl
    | succ d =>
      -- the keyword is taken for one of a compound command that is open
      rw [if_neg fun hmet => succ_ne_zero d hmet.2.1]
      refine iff_of_false (fun hfound => hnotRest (findKeyword_mem hfound)) fun h => ?_
      exact succ_ne_zero d (Option.some.inj h.1)
  · rw [hsearch]
    refine iff_of_false (fun hfound => ?_) fun h => nomatch h.1
    cases hfound.symm.trans hmet
    exact hnotTokens hmem

end FindKeyword

theorem searchWords_of_more {wanted more : List String} {d : Nat}
    (hmore : ∀ keyword ∈ wanted, keyword ∈ more) (h : searchWords more depth words = some d) :
    searchWords wanted depth words = some d := by
  have hkeyword : ∀ word, isKeywordText wanted word = true → isKeywordText more word = true := by
    intro word hword
    obtain ⟨keyword, hmem, hread⟩ := any_eq_true.mp hword
    exact any_eq_true.mpr ⟨keyword, hmore keyword hmem, hread⟩
  induction words generalizing depth with
  | nil => exact h
  | cons word words ih =>
    rw [searchWords_cons] at h ⊢
    split at h
    · cases h
    · rename_i hseen
      rw [if_neg fun hmet => hseen ⟨hmet.1, hkeyword word hmet.2⟩]
      exact ih h

variable {elseToken : Option ArkshToken}

section FindFi

/-- The keywords that the search for `fi` stops at or remembers. -/
def fiKeywords : List String := ["else", "fi"]

theorem isKeywordText_fiKeywords (word : Text) :
    isKeywordText fiKeywords word = true ↔ word = "else".toList ∨ word = "fi".toList := by
  simp [isKeywordText, fiKeywords]

theorem isKeywordText_fi (word : Text) : isKeywordText ["fi"] word = true ↔ word = "fi".toList := by
  simp [isKeywordText]

theorem findFi_cons (previous : ArkshToken) (depth : Nat) (elseToken : Option ArkshToken)
    (token : ArkshToken) (rest : List ArkshToken) :
    findFi line previous depth elseToken (token :: rest) =
      if wordStartsCommand line previous token = true ∧ depth = 0 ∧
          token.text.1 = "else".toList then findFi line token depth (some token) rest
      else if wordStartsCommand line previous token = true ∧ depth = 0 ∧
          token.text.1 = "fi".toList then some (elseToken, ⟨token, rest⟩)
      else findFi line token (depthBehind line previous token depth) elseToken rest := by
  rw [findFi]
  by_cases hstarts : wordStartsCommand line previous token = true
  · rw [isWord_of_startsCommand hstarts, isWord_of_startsCommand hstarts]
    simp only [decide_eq_true_eq]
  · rw [if_neg fun h => hstarts h.1, if_neg fun h => hstarts h.1, if_neg fun h => hstarts h.1,
      if_neg fun h => hstarts h.1]

variable {tokens : List ArkshToken}

theorem findFi_mem {elseFound : Option ArkshToken} {found : Found}
    (h : findFi line previous depth elseToken tokens = some (elseFound, found)) :
    found.token ∈ tokens ∧ (elseFound = elseToken ∨ ∃ token ∈ tokens, elseFound = some token) := by
  induction tokens generalizing previous depth elseToken with
  | nil => cases h
  | cons token rest ih =>
    rw [findFi_cons] at h
    split at h
    · obtain ⟨hmem, helse⟩ := ih h
      refine ⟨mem_cons_of_mem _ hmem, .inr ?_⟩
      rcases helse with rfl | ⟨other, hother, rfl⟩
      · exact ⟨token, mem_cons_self, rfl⟩
      · exact ⟨other, mem_cons_of_mem _ hother, rfl⟩
    · split at h
      · cases h; exact ⟨mem_cons_self, .inl rfl⟩
      · obtain ⟨hmem, helse⟩ := ih h
        refine ⟨mem_cons_of_mem _ hmem, helse.imp_right ?_⟩
        rintro ⟨other, hother, rfl⟩
        exact ⟨other, mem_cons_of_mem _ hother, rfl⟩

/-- The search stops at a `fi` that it sees; past tokens without one it has seen no `else`, or one
    of theirs. -/
theorem findFi_append (previous : ArkshToken) (depth : Nat) (elseToken : Option ArkshToken)
    (tokens rest : List ArkshToken) :
    (∃ d elseSeen, searchWords ["fi"] depth (commandWords line previous tokens) = some d ∧
        findFi line previous depth elseToken (tokens ++ rest) =
          findFi line (lastToken previous tokens) d elseSeen rest ∧
        (searchWords fiKeywords depth (commandWords line previous tokens) = some d ∧
            elseSeen = elseToken ∨
          searchWords fiKeywords depth (commandWords line previous tokens) = none ∧
            ∃ token ∈ tokens, elseSeen = some token)) ∨
      searchWords ["fi"] depth (commandWords line previous tokens) = none ∧
        ∃ elseFound found, findFi line previous depth elseToken (tokens ++ rest) =
          some (elseFound, found) ∧ found.token ∈ tokens := by
  induction tokens generalizing previous depth elseToken with
  | nil => exact .inl ⟨depth, elseToken, rfl, rfl, .inl ⟨rfl, rfl⟩⟩
  | cons token tokens ih =>
    have hlater : ∀ {other : ArkshToken}, other ∈ tokens → other ∈ token :: tokens :=
      mem_cons_of_mem token
    simp only [searchWords_commandWords, cons_append, findFi_cons, isKeywordText_fi,
      isKeywordText_fiKeywords, lastToken]
    by_cases helse : wordStartsCommand line previous token = true ∧ depth = 0 ∧
        token.text.1 = "else".toList
    · have hsame : depthBehind line previous token depth = depth := by
        rw [depthBehind_eq, if_pos helse.1, helse.2.2]
        rfl
      have hnotFi : token.text.1 ≠ "fi".toList := by rw [helse.2.2]; decide
      rw [if_pos helse, hsame, if_neg fun hmet => hnotFi hmet.2.2,
        if_pos ⟨helse.1, helse.2.1, .inl helse.2.2⟩]
      rcases ih token depth (some token) with
        ⟨d, elseSeen, hsearch, hpast, hseen⟩ | ⟨hsearch, elseFound, found, hfound, hmem⟩
      · refine .inl ⟨d, elseSeen, hsearch, hpast, .inr ⟨rfl, ?_⟩⟩
        rcases hseen with ⟨-, rfl⟩ | ⟨-, other, hother, rfl⟩
        · exact ⟨token, mem_cons_self, rfl⟩
        · exact ⟨other, hlater hother, rfl⟩
      · exact .inr ⟨hsearch, elseFound, found, hfound, hlater hmem⟩
    · rw [if_neg helse]
      by_cases hseen : wordStartsCommand line previous token = true ∧ depth = 0 ∧
          token.text.1 = "fi".toList
      · rw [if_pos hseen, if_pos hseen]; exact .inr ⟨rfl, _, _, rfl, mem_cons_self⟩
      · rw [if_neg hseen, if_neg hseen, if_neg fun hmet => hmet.2.2.elim
          (fun hword => helse ⟨hmet.1, hmet.2.1, hword⟩) fun hword => hseen ⟨hmet.1, hmet.2.1, hword⟩]
        rcases ih token _ elseToken with
          ⟨d, elseSeen, hsearch, hpast, hmore⟩ | ⟨hsearch, elseFound, found, hfound, hmem⟩
        · refine .inl ⟨d, elseSeen, hsearch, hpast, hmore.imp_right ?_⟩
          rintro ⟨hnone, other, hother, rfl⟩
          exact ⟨hnone, other, hlater hother, rfl⟩
        · exact .inr ⟨hsearch, elseFound, found, hfound, hlater hmem⟩

/-- **Behind tokens that it sees no `else` or `fi` of, and only there, the search finds a `fi` and
    no other `else`.** -/
theorem findFi_same {rest behind : List ArkshToken} (hnodup : (tokens ++ fi :: rest).Nodup)
    (helse : ∀ token ∈ tokens, elseToken ≠ some token)
    (hstarts : wordStartsCommand line (lastToken previous tokens) fi = true)
    (hword : fi.text.1 = "fi".toList) :
    findFi line previous depth elseToken (tokens ++ fi :: rest) = some (elseToken, ⟨fi, behind⟩) ↔
      searchWords fiKeywords depth (commandWords line previous tokens) = some 0 ∧
        behind = rest := by
  obtain ⟨-, hrest, hapart⟩ := nodup_append.mp hnodup
  have hnotRest : fi ∉ rest := (nodup_cons.mp hrest).1
  have hnotTokens : fi ∉ tokens := fun hmem => hapart fi hmem fi mem_cons_self rfl
  rcases findFi_append previous depth elseToken tokens (fi :: rest) with
    ⟨d, elseSeen, hsearch, hpast, hseen⟩ | ⟨hsearch, _, found, hmet, hmem⟩
  · have hnotElse : fi.text.1 ≠ "else".toList := by rw [hword]; decide
    rw [hpast, findFi_cons, if_neg fun hmet => hnotElse hmet.2.2]
    cases d with
    | zero =>
      rw [if_pos ⟨hstarts, rfl, hword⟩]
      rcases hseen with ⟨hmore, rfl⟩ | ⟨hmore, token, htoken, rfl⟩
      · rw [hmore]
        constructor
        · intro h
          cases h
          exact ⟨rfl, rfl⟩
        · rintro ⟨-, rfl⟩; rfl
      · -- an `else` of the tokens is taken for that of the command
        rw [hmore]
        refine iff_of_false (fun h => ?_) fun h => nomatch h.1
        exact helse token htoken (Prod.mk.inj (Option.some.inj h)).1.symm
    | succ d =>
      rw [if_neg fun hmet => succ_ne_zero d hmet.2.1]
      refine iff_of_false (fun hfound => hnotRest (findFi_mem hfound).1) fun h => ?_
      rcases hseen with ⟨hmore, -⟩ | ⟨hmore, -⟩
      · exact succ_ne_zero d (Option.some.inj (hmore.symm.trans h.1))
      · cases hmore.symm.trans h.1
  · refine iff_of_false (fun hfound => ?_) fun h => ?_
    · cases hfound.symm.trans hmet; exact hnotTokens hmem
    · have hless : searchWords ["fi"] depth (commandWords line previous tokens) = some 0 :=
        searchWords_of_more (by simp [fiKeywords]) h.1
      cases hsearch.symm.trans hless

/-- **The search finds an `else` and a `fi` exactly where it sees no `fi` in front of the first, and
    none of both between.** -/
theorem findFi_else {elseToken : ArkshToken} {more rest behind : List ArkshToken}
    (hnodup : (tokens ++ elseToken :: (more ++ fi :: rest)).Nodup)
    (hstartsElse : wordStartsCommand line (lastToken previous tokens) elseToken = true)
    (hwordElse : elseToken.text.1 = "else".toList)
    (hstarts : wordStartsCommand line (lastToken elseToken more) fi = true)
    (hword : fi.text.1 = "fi".toList) :
    findFi line previous 0 none (tokens ++ elseToken :: (more ++ fi :: rest)) =
        some (some elseToken, ⟨fi, behind⟩) ↔
      QuietWords ["fi"] (commandWords line previous tokens) ∧
        QuietWords fiKeywords (commandWords line elseToken more) ∧ behind = rest := by
  obtain ⟨-, hlater, hapart⟩ := nodup_append.mp hnodup
  obtain ⟨hnotLater, hnodupLater⟩ := nodup_cons.mp hlater
  rw [← searchWords_iff, ← searchWords_iff]
  rcases findFi_append previous 0 none tokens (elseToken :: (more ++ fi :: rest)) with
    ⟨d, elseSeen, hsearch, hpast, hseen⟩ | ⟨hsearch, _, found, hmet, hmem⟩
  · rw [hsearch, hpast, findFi_cons]
    cases d with
    | zero =>
      rw [if_pos ⟨hstartsElse, rfl, hwordElse⟩]
      have hothers : ∀ token ∈ more, some elseToken ≠ some token := by
        rintro token hmem heq
        cases heq
        exact hnotLater (mem_append_left _ hmem)
      rw [findFi_same hnodupLater hothers hstarts hword]
      simp only [true_and]
    | succ d =>
      have hnotFi : elseToken.text.1 ≠ "fi".toList := by rw [hwordElse]; decide
      rw [if_neg fun hmet => succ_ne_zero d hmet.2.1, if_neg fun hmet => hnotFi hmet.2.2]
      refine iff_of_false (fun hfound => ?_) fun h => succ_ne_zero d (Option.some.inj h.1)
      rcases (findFi_mem hfound).2 with hsame | ⟨token, hmem, hsame⟩
      · -- the `else` that was seen is one of the tokens in front
        rcases hseen with ⟨-, rfl⟩ | ⟨-, token, hmem, rfl⟩
        · cases hsame
        · cases hsame; exact hapart elseToken hmem elseToken mem_cons_self rfl
      · cases hsame; exact hnotLater hmem
  · rw [hsearch]
    refine iff_of_false (fun hfound => ?_) fun h => nomatch h.1
    cases hfound.symm.trans hmet
    refine hapart fi hmem fi (mem_cons_of_mem _ ?_) rfl
    exact mem_append_right _ mem_cons_self

end FindFi

/-! ## 2. The text between two keywords -/

/-- What `trim_compound_segment` takes off the end of a text. -/
def isStripped (c : Char) : Bool := c = ';' || isspace c

/-- A text with no white space around it and no `;` at its end. -/
structure Bare (text : Text) : Prop where
  first : ∀ c ∈ text.head?, isspace c = false
  last : ∀ c ∈ text.getLast?, isStripped c = false

theorem isStripped_of_isspace (h : isspace c = true) : isStripped c = true := by
  rw [isStripped, h, Bool.or_true]

theorem rdropWhile_append_of_pos {p : Char → Bool} {back : Text} (h : ∀ c ∈ back, p c = true)
    (text : Text) : List.rdropWhile p (text ++ back) = List.rdropWhile p text := by
  unfold List.rdropWhile
  rw [reverse_append, dropWhile_append_of_pos fun c hc => h c (mem_reverse.mp hc)]

theorem rdropWhile_trimText (text : Text) : List.rdropWhile isStripped (trimText text) =
      List.rdropWhile isStripped (text.dropWhile isspace) := by
  have hsplit : trimText text ++ List.rtakeWhile isspace (text.dropWhile isspace) =
      text.dropWhile isspace := rdropWhile_append_rtakeWhile
  rw [← hsplit, rdropWhile_append_of_pos]
  exact fun c hc => isStripped_of_isspace (mem_rtakeWhile_imp hc)

/-- **What is left of a text between blanks and separators is the text exactly where it is
    bare.** -/
theorem stripped_eq_iff {front core back : Text} (hcore : core ≠ [])
    (hfront : ∀ c ∈ front, isspace c = true) (hback : ∀ c ∈ back, isStripped c = true) :
    List.rdropWhile isStripped (trimText (front ++ (core ++ back))) = core ↔ Bare core := by
  rw [rdropWhile_trimText, dropWhile_append_of_pos hfront]
  generalize hrest : (core ++ back).dropWhile isspace = rest
  constructor
  · intro h
    refine ⟨fun c hc => ?_, fun c hc => ?_⟩
    · obtain ⟨behind, hsplit⟩ : core <+: rest := h ▸ rdropWhile_prefix _ _
      have hhead : rest.head? = some c := by rw [← hsplit, head?_append_of_ne_nil _ hcore]; exact hc
      exact dropWhile_head? (hrest ▸ hhead)
    · have hne : List.rdropWhile isStripped rest ≠ [] := fun hnil => hcore (h.symm.trans hnil)
      have hlast := rdropWhile_last_not _ _ hne
      rw [Option.mem_def, getLast?_eq_some_getLast hcore, Option.some.injEq] at hc
      subst hc
      simpa only [h, Bool.not_eq_true] using hlast
  · intro h
    obtain ⟨c, core, rfl⟩ := exists_cons_of_ne_nil hcore
    have hspace : ¬ isspace c = true := by simp [h.first c rfl]
    rw [← hrest, cons_append, dropWhile_cons_of_neg hspace, ← cons_append,
      rdropWhile_append_of_pos hback, rdropWhile_eq_self_iff]
    intro hne
    have hlast := h.last _ (getLast?_eq_some_getLast hne)
    simp [hlast]

/-- Behind a token and in front of another, with `;` between them, there are only these and
    blanks. -/
theorem Lossless.separated {stream tokens front separators : List ArkshToken}
    (h : Lossless line stream tokens) (htokens : tokens = front ++ a :: (separators ++ b :: behind))
    (hseparators : ∀ token ∈ separators, token.raw.1 = [';']) {i : Nat}
    (hfrom : a.position + a.raw.1.length ≤ i) (hto : i < b.position) (hget : (line)[i]? = some c) :
    isStripped c = true := by
  by_cases hcovered : ∀ token ∈ tokens, i < token.position ∨ token.position + token.raw.1.length ≤ i
  · exact isStripped_of_isspace (h.gaps i c hget hcovered)
  · simp only [not_forall, not_or, not_lt, not_le] at hcovered
    obtain ⟨token, htoken, hstart, hstop⟩ := hcovered
    have hordered := h.ordered
    rw [htokens] at hordered
    obtain ⟨-, hback, hfront⟩ := pairwise_append.mp hordered
    obtain ⟨-, hlater, -⟩ := pairwise_append.mp (pairwise_cons.mp hback).2
    have hmem : token ∈ separators := by
      rw [htokens] at htoken
      rcases mem_append.mp htoken with hmem | hmem
      · have := hfront token hmem a mem_cons_self; omega
      · rcases mem_cons.mp hmem with rfl | hmem
        · omega
        · rcases mem_append.mp hmem with hmem | hmem
          · exact hmem
          · rcases mem_cons.mp hmem with rfl | hmem
            · omega
            · have := (pairwise_cons.mp hlater).1 token hmem; omega
    have hraw := h.raw token htoken
    rw [hseparators token hmem] at hraw hstop
    have hposition : i = token.position := by rw [length_singleton] at hstop; omega
    have hchar : ((line.drop token.position).take 1).head? = some c := by
      rw [head?_take, if_neg one_ne_zero, head?_drop, ← hposition, hget]
    rw [length_singleton] at hraw
    rw [← hraw] at hchar
    cases hchar
    rfl

/-- **The text taken between two keywords is that of the commands exactly where it is bare.** -/
theorem Lossless.textBetween_iff {stream tokens front commands separators : List ArkshToken}
    (h : Lossless line stream tokens) (hfits : line.length < arkshMaxLine)
    (hraw : ∀ token ∈ tokens, token.raw.1 ≠ [])
    (htokens : tokens = front ++ a :: (commands ++ (separators ++ b :: behind)))
    (hcommands : commands ≠ []) (hseparators : ∀ token ∈ separators, token.raw.1 = [';']) :
    textBetween line a b = commandText line commands ↔ Bare (commandText line commands) := by
  have hsub : commands.Sublist tokens := by
    rw [htokens]
    exact ((sublist_append_left _ _).trans (sublist_cons_self _ _)).trans
      (sublist_append_right _ _)
  obtain ⟨first, last, hfirst, hlast, ⟨rest, hrest⟩, ⟨start, hstart⟩⟩ := command_ends hcommands
  have hfront : tokens = front ++ a :: first :: (rest ++ (separators ++ b :: behind)) := by
    rw [htokens, hrest, cons_append]
  have hback : tokens = (front ++ a :: start) ++ last :: (separators ++ b :: behind) := by
    rw [htokens, hstart]
    simp only [append_assoc, cons_append, nil_append]
  have hbound : b.position + b.raw.1.length ≤ line.length := by
    have hmem : b ∈ tokens := by rw [hback]; simp
    exact h.bound hmem (hraw b hmem)
  have horderFirst : a.position + a.raw.1.length ≤ first.position := by
    have hordered := h.ordered
    rw [hfront] at hordered
    have hlater := (pairwise_append.mp hordered).2.1
    exact ((pairwise_cons.mp hlater).1 first mem_cons_self).2
  have horderLast : last.position + last.raw.1.length ≤ b.position := by
    have hordered := h.ordered
    rw [hback] at hordered
    have hlater := (pairwise_append.mp hordered).2.1
    refine ((pairwise_cons.mp hlater).1 b ?_).2
    exact mem_append_right _ mem_cons_self
  have horder : first.position ≤ last.position + last.raw.1.length :=
    (le_add_right _ _).trans (h.command_order hsub hfirst hlast)
  have hcore : commandText line commands = (line.drop first.position).take
      (last.position + last.raw.1.length - first.position) := by
    rw [commandText, hfirst, hlast]
  have hne := h.commandText_ne_nil hraw hsub hcommands
  show List.rdropWhile isStripped (copyTrimmedSlice line _ _) = _ ↔ _
  rw [copyTrimmedSlice_eq hfits ((le_add_right _ _).trans hbound),
    slice_split line horderFirst horder horderLast, ← hcore]
  refine stripped_eq_iff hne (fun c hc => ?_) fun c hc => ?_
  · obtain ⟨i, hge, hlt, hget⟩ := mem_slice hc; exact h.between hfront hge hlt hget
  · obtain ⟨i, hge, hlt, hget⟩ := mem_slice hc; exact h.separated hback hseparators hge hlt hget

/-! ## 3. The commands -/

/-- The keywords that stand in front of a list of commands. -/
def boundaryWords : List String := ["then", "do", "else"]

def reservedWords : List String := compoundOpenKeywords ++ compoundCloseKeywords ++ boundaryWords

def AtCommand (line : Text) (previous token : ArkshToken) : Prop :=
  newlineBetween line previous token = true ∨ isListControlToken previous.kind = true ∨
    previous.kind = .shellPipe

instance (line : Text) (previous token : ArkshToken) : Decidable (AtCommand line previous token) :=
  inferInstanceAs (Decidable (_ ∨ _ ∨ _))

def placedBehind (line : Text) : ArkshToken → List ArkshToken → List ArkshToken
  | _, [] => []
  | previous, token :: rest =>
    if AtCommand line previous token then token :: placedBehind line token rest
    else placedBehind line token rest

def commandTokens (line : Text) : List ArkshToken → List ArkshToken
  | [] => []
  | first :: rest => first :: placedBehind line first rest

structure IsKeyword (token : ArkshToken) (keyword : String) : Prop where
  kind : token.kind = .word
  text : token.text.1 = keyword.toList
  raw : token.raw.1 = keyword.toList

/-- What stands between two keywords: the first of them, commands, and `;` behind them. -/
structure Segment where
  opening : ArkshToken
  commands : List ArkshToken
  separators : List ArkshToken

namespace Segment

def tokens (s : Segment) : List ArkshToken := s.commands ++ s.separators

structure IsList (line : Text) (s : Segment) : Prop where
  kinds : ∀ token ∈ s.commands, isValueToken token.kind = true ∨
    isRedirectToken token.kind = true ∨ isListControlToken token.kind = true ∨
      token.kind = .shellPipe
  noKeyword : ∀ token ∈ commandTokens line s.commands, ∀ keyword ∈ reservedWords,
    ¬ IsKeyword token keyword

/-- The items of a `for` loop. -/
def IsItems (s : Segment) : Prop := ∀ token ∈ s.commands, isValueToken token.kind = true

def text (line : Text) (s : Segment) : Text := commandText line s.commands

end Segment

structure BlockPart where
  segment : Segment
  keyword : ArkshToken
  wanted : List String

structure BlockPart.Ends (line : Text) (part : BlockPart) : Prop where
  nonempty : part.segment.commands ≠ []
  last : ∀ token ∈ part.segment.commands.getLast?, token.kind ≠ .sequence
  separators : ∀ token ∈ part.segment.separators, token.kind = .sequence
  placed : AtCommand line (lastToken part.segment.opening part.segment.tokens) part.keyword

/-- A command that is made of lists of commands. -/
inductive Block where
  | whileLoop (condition body : Segment)
  | untilLoop (condition body : Segment)
  | forLoop (forToken name : ArkshToken) (items body : Segment)
  | ifThen (condition thenPart : Segment)
  | ifElse (condition thenPart elsePart : Segment)

namespace Block

def tokens (closing : ArkshToken) (rest : List ArkshToken) : Block → List ArkshToken
  | whileLoop front body | untilLoop front body =>
    front.opening :: (front.tokens ++ body.opening :: (body.tokens ++ closing :: rest))
  | forLoop forToken name items body =>
    forToken :: name :: items.opening ::
      (items.tokens ++ body.opening :: (body.tokens ++ closing :: rest))
  | ifThen condition thenPart =>
    condition.opening ::
      (condition.tokens ++ thenPart.opening :: (thenPart.tokens ++ closing :: rest))
  | ifElse condition thenPart elsePart =>
    condition.opening :: (condition.tokens ++ thenPart.opening ::
      (thenPart.tokens ++ elsePart.opening :: (elsePart.tokens ++ closing :: rest)))

def keywords (closing : ArkshToken) : Block → List (ArkshToken × String)
  | whileLoop condition body =>
    [(condition.opening, "while"), (body.opening, "do"), (closing, "done")]
  | untilLoop condition body =>
    [(condition.opening, "until"), (body.opening, "do"), (closing, "done")]
  | forLoop forToken _ items body =>
    [(forToken, "for"), (items.opening, "in"), (body.opening, "do"), (closing, "done")]
  | ifThen condition thenPart =>
    [(condition.opening, "if"), (thenPart.opening, "then"), (closing, "fi")]
  | ifElse condition thenPart elsePart =>
    [ (condition.opening, "if"), (thenPart.opening, "then"), (elsePart.opening, "else"),
      (closing, "fi") ]

/-- The parts of a command. The search for `fi` remembers the last `else` that it meets. -/
def parts (closing : ArkshToken) : Block → List BlockPart
  | whileLoop front body | untilLoop front body | forLoop _ _ front body =>
    [⟨front, body.opening, ["do"]⟩, ⟨body, closing, ["done"]⟩]
  | ifThen condition thenPart =>
    [⟨condition, thenPart.opening, ["then"]⟩, ⟨thenPart, closing, fiKeywords⟩]
  | ifElse condition thenPart elsePart =>
    [ ⟨condition, thenPart.opening, ["then"]⟩, ⟨thenPart, elsePart.opening, ["fi"]⟩,
      ⟨elsePart, closing, fiKeywords⟩ ]

def IsSimple (line : Text) : Block → Prop
  | whileLoop condition body | untilLoop condition body =>
    condition.IsList line ∧ body.IsList line
  | forLoop _ name items body =>
    name.kind = .word ∧ isIdentifierText name.text.1 = true ∧ items.IsItems ∧ body.IsList line
  | ifThen condition thenPart => condition.IsList line ∧ thenPart.IsList line
  | ifElse condition thenPart elsePart =>
    condition.IsList line ∧ thenPart.IsList line ∧ elsePart.IsList line

def kind : Block → CompoundKind
  | whileLoop _ _ => .whileCommand
  | untilLoop _ _ => .untilCommand
  | forLoop _ _ _ _ => .forCommand
  | ifThen _ _ | ifElse _ _ _ => .ifCommand

def ast (line : Text) : Block → ArkshAst ArkshNode
  | whileLoop condition body => .whileCommand (condition.text line) (body.text line)
  | untilLoop condition body => .untilCommand (condition.text line) (body.text line)
  | forLoop _ name items body =>
    .forCommand (copyString arkshMaxName name.text.1) (items.text line) (body.text line)
  | ifThen condition thenPart => .ifCommand (condition.text line) (thenPart.text line) none
  | ifElse condition thenPart elsePart =>
    .ifCommand (condition.text line) (thenPart.text line) (some (elsePart.text line))

/-- The parser finds the keywords of the command, and nothing but EOF behind them. -/
def FoundIn (line : Text) (stream : ArkshTokenStream) (closing : Found) : Block → Prop
  | whileLoop condition body =>
    locateWhile line stream = .ok ⟨⟨condition.opening, body.opening⟩, closing⟩
  | untilLoop condition body =>
    locateUntil line stream = .ok ⟨⟨condition.opening, body.opening⟩, closing⟩
  | forLoop _ name items body =>
    locateFor line stream = .ok (name.text.1, ⟨⟨items.opening, body.opening⟩, closing⟩)
  | ifThen condition thenPart =>
    locateIf line stream = .ok ⟨⟨condition.opening, thenPart.opening, none⟩, closing⟩
  | ifElse condition thenPart elsePart =>
    locateIf line stream =
      .ok ⟨⟨condition.opening, thenPart.opening, some elsePart.opening⟩, closing⟩

end Block

/-- A command whose conditions and bodies are lists of simple commands, with keywords in command
    position between them. -/
structure BlockCommand (text : Text) where
  block : Block
  closing : ArkshToken
  eof : ArkshToken
  stream : ArkshTokenStream
  lexed : arkshLexLine (trimText text) = .ok stream
  tokens_eq : stream.tokens = block.tokens closing [eof]
  eof_kind : eof.kind = .eof
  keywords : ∀ keyword ∈ block.keywords closing, IsKeyword keyword.1 keyword.2
  ends : ∀ part ∈ block.parts closing, part.Ends (trimText text)
  simple : block.IsSimple (trimText text)

/-! ## 4. Where the keywords are found -/

variable {stream : ArkshTokenStream}

/-- **A word is taken for the start of a command in command position, and behind `then`, `do` or
    `else`.** -/
theorem wordStartsCommand_iff : wordStartsCommand line previous token = true ↔ token.kind = .word ∧
      (AtCommand line previous token ∨ previous.kind = .word ∧
        ∃ keyword ∈ boundaryWords, previous.text.1 = keyword.toList) := by
  simp only [wordStartsCommand, tokenStartsCommand, Bool.and_eq_true, decide_eq_true_eq,
    Bool.or_eq_true, AtCommand]
  refine and_congr_right' ?_
  rw [or_assoc]
  refine or_congr_right ?_
  cases previous.kind <;> simp [isListControlToken, boundaryWords, or_assoc]

theorem wordStartsCommand_of_placed (h : AtCommand line previous token) (hword : token.kind = .word) :
    wordStartsCommand line previous token = true :=
  wordStartsCommand_iff.mpr ⟨hword, .inl h⟩

theorem IsKeyword.isWord {token : ArkshToken} (h : IsKeyword token keyword) :
    isWord token keyword = true := by
  simp [Arksh.isWord, h.kind, h.text]

theorem orMissing_ok {α : Type} {found : Option α} {message : String} {a : α} :
    orMissing found message = .ok a ↔ found = some a := by
  cases found <;> simp [orMissing]

/-- The search of a part for its keyword sees nothing in front of it. -/
def BlockPart.Quiet (line : Text) (part : BlockPart) : Prop :=
  QuietWords part.wanted (commandWords line part.segment.opening part.segment.tokens)

/-- **`do` and `done` are found exactly where the searches see nothing in front of them.** -/
theorem locateLoop_iff {head doToken done : ArkshToken} {front body : List ArkshToken}
    (hnodup : (front ++ doToken :: (body ++ done :: behind)).Nodup) (hdo : IsKeyword doToken "do")
    (hdone : IsKeyword done "done") (hdoPlaced : AtCommand line (lastToken head front) doToken)
    (hdonePlaced : AtCommand line (lastToken doToken body) done) :
    locateLoop line keyword head (front ++ doToken :: (body ++ done :: behind)) =
        .ok ⟨⟨head, doToken⟩, ⟨done, behind⟩⟩ ↔
      QuietWords ["do"] (commandWords line head front) ∧
        QuietWords ["done"] (commandWords line doToken body) := by
  have hfindDo : ∀ found, findKeyword line ["do"] head 0 _ = some ⟨doToken, found⟩ ↔ _ :=
    fun found => findKeyword_iff hnodup (wordStartsCommand_of_placed hdoPlaced hdo.kind)
      (by simp [hdo.isWord])
  have hnodupBody := (nodup_cons.mp (nodup_append.mp hnodup).2.1).2
  have hfindDone : findKeyword line ["done"] doToken 0 _ = some ⟨done, behind⟩ ↔ _ :=
    findKeyword_iff hnodupBody (wordStartsCommand_of_placed hdonePlaced hdone.kind)
      (by simp [hdone.isWord])
  unfold locateLoop
  simp only [bind_ok, map_ok, orMissing_ok]
  constructor
  · rintro ⟨doFound, hfound, done, hfoundDone, heq⟩
    cases heq
    obtain ⟨hquiet, hrest⟩ := (hfindDo doFound.behind).mp hfound
    rw [hrest] at hfoundDone
    exact ⟨hquiet, (hfindDone.mp hfoundDone).1⟩
  · rintro ⟨hquiet, hquietBody⟩
    exact ⟨_, (hfindDo _).mpr ⟨hquiet, rfl⟩, _, hfindDone.mpr ⟨hquietBody, rfl⟩, rfl⟩

theorem behindKeywordToken_of_cons {first : ArkshToken} {rest : List ArkshToken}
    (htokens : stream.tokens = first :: rest) (h : IsKeyword first keyword) :
    behindKeywordToken stream keyword = .ok (first, rest) := by
  rw [behindKeywordToken, htokens]
  exact if_pos h.isWord

/-- **`then` is found exactly where its search sees nothing in front of it; the search for `fi`
    starts behind it.** -/
theorem locateIf_iff {opening thenToken : ArkshToken} {condition : List ArkshToken} {fi : Found}
    (htokens : stream.tokens = opening :: (condition ++ thenToken :: behind))
    (hnodup : (condition ++ thenToken :: behind).Nodup) (hif : IsKeyword opening "if")
    (hthen : IsKeyword thenToken "then")
    (hplaced : AtCommand line (lastToken opening condition) thenToken) :
    locateIf line stream = .ok ⟨⟨opening, thenToken, elseToken⟩, fi⟩ ↔
      QuietWords ["then"] (commandWords line opening condition) ∧
        findFi line thenToken 0 none behind = some (elseToken, fi) := by
  have hfindThen : ∀ found, findKeyword line ["then"] opening 0 _ = some ⟨thenToken, found⟩ ↔ _ :=
    fun found => findKeyword_iff hnodup (wordStartsCommand_of_placed hplaced hthen.kind)
      (by simp [hthen.isWord])
  rw [locateIf, behindKeywordToken_of_cons htokens hif]
  show (orMissing _ _).bind _ = _ ↔ _
  simp only [bind_ok, map_ok, orMissing_ok]
  constructor
  · rintro ⟨thenFound, hfound, ⟨elseFound, fiFound⟩, hfi, heq⟩
    cases heq
    obtain ⟨hquiet, hrest⟩ := (hfindThen thenFound.behind).mp hfound
    rw [hrest] at hfi
    exact ⟨hquiet, hfi⟩
  · rintro ⟨hquiet, hfi⟩; exact ⟨_, (hfindThen behind).mpr ⟨hquiet, rfl⟩, _, hfi, rfl⟩

/-- **The keywords of a command are found exactly where every search sees nothing in front of its
    keyword.** -/
theorem Block.foundIn_iff {closing : ArkshToken} (block : Block)
    (htokens : stream.tokens = block.tokens closing behind) (hnodup : stream.tokens.Nodup)
    (hkeywords : ∀ keyword ∈ block.keywords closing, IsKeyword keyword.1 keyword.2)
    (hends : ∀ part ∈ block.parts closing, part.Ends line) (hsimple : block.IsSimple line) :
    block.FoundIn line stream ⟨closing, behind⟩ ↔
      ∀ part ∈ block.parts closing, part.Quiet line := by
  rw [htokens] at hnodup
  cases block with
  | whileLoop front body =>
    simp only [keywords, parts, forall_mem_singleton, forall_mem_cons] at hkeywords hends ⊢
    obtain ⟨hwhile, hdo, hdone⟩ := hkeywords
    obtain ⟨hfront, hbody⟩ := hends
    rw [FoundIn, locateWhile, behindKeywordToken_of_cons htokens hwhile]
    exact locateLoop_iff (nodup_cons.mp hnodup).2 hdo hdone hfront.placed hbody.placed
  | untilLoop front body =>
    simp only [keywords, parts, forall_mem_singleton, forall_mem_cons] at hkeywords hends ⊢
    obtain ⟨huntil, hdo, hdone⟩ := hkeywords
    obtain ⟨hfront, hbody⟩ := hends
    rw [FoundIn, locateUntil, behindKeywordToken_of_cons htokens huntil]
    exact locateLoop_iff (nodup_cons.mp hnodup).2 hdo hdone hfront.placed hbody.placed
  | forLoop forToken name items body =>
    simp only [keywords, parts, forall_mem_singleton, forall_mem_cons] at hkeywords hends ⊢
    obtain ⟨hfor, hin, hdo, hdone⟩ := hkeywords
    obtain ⟨hitems, hbody⟩ := hends
    obtain ⟨hname, hidentifier, -, -⟩ := hsimple
    have hnodup := (nodup_cons.mp (nodup_cons.mp (nodup_cons.mp hnodup).2).2).2
    rw [FoundIn, locateFor, behindKeywordToken_of_cons htokens hfor]
    dsimp only [Except.bind]
    rw [if_neg (by simp [hname, hidentifier]), if_pos hin.isWord]
    have hloop : locateLoop line "for" items.opening _ =
        .ok ⟨⟨items.opening, body.opening⟩, ⟨closing, behind⟩⟩ ↔ _ :=
      locateLoop_iff hnodup hdo hdone hitems.placed hbody.placed
    rw [map_ok]
    constructor
    · rintro ⟨located, hlocated, heq⟩
      cases heq
      exact hloop.mp hlocated
    · intro h; exact ⟨_, hloop.mpr h, rfl⟩
  | ifThen condition thenPart =>
    simp only [keywords, parts, forall_mem_singleton, forall_mem_cons] at hkeywords hends ⊢
    obtain ⟨hif, hthen, hfi⟩ := hkeywords
    obtain ⟨hcondition, hthenPart⟩ := hends
    have hnodup := (nodup_cons.mp hnodup).2
    have hnodupThen := (nodup_cons.mp (nodup_append.mp hnodup).2.1).2
    have hnone : ∀ token ∈ thenPart.tokens, (none : Option ArkshToken) ≠ some token :=
      fun token _ => (Option.some_ne_none token).symm
    rw [FoundIn, locateIf_iff htokens hnodup hif hthen hcondition.placed,
      findFi_same hnodupThen hnone (wordStartsCommand_of_placed hthenPart.placed hfi.kind) hfi.text,
      searchWords_iff]
    simp only [and_true]
    exact Iff.rfl
  | ifElse condition thenPart elsePart =>
    simp only [keywords, parts, forall_mem_singleton, forall_mem_cons] at hkeywords hends ⊢
    obtain ⟨hif, hthen, helse, hfi⟩ := hkeywords
    obtain ⟨hcondition, hthenPart, helsePart⟩ := hends
    have hnodup := (nodup_cons.mp hnodup).2
    have hnodupThen := (nodup_cons.mp (nodup_append.mp hnodup).2.1).2
    rw [FoundIn, locateIf_iff htokens hnodup hif hthen hcondition.placed,
      findFi_else hnodupThen (wordStartsCommand_of_placed hthenPart.placed helse.kind) helse.text
        (wordStartsCommand_of_placed helsePart.placed hfi.kind) hfi.text]
    simp only [and_true]
    exact Iff.rfl

/-! ## 5. The tree -/

theorem finishLoop_iff {what : String} {located : Located LoopParts}
    {node : Text → Text → ArkshAst ArkshNode} {front body : Text}
    (hnode : ∀ {front body front' body'}, node front body = node front' body' →
      front = front' ∧ body = body') (hlast : located.closing.isLast = true) (hfront : front ≠ [])
    (hbody : body ≠ []) :
    finishLoop line keyword what located node = .ok (node front body) ↔
      textBetween line located.parts.head located.parts.doToken = front ∧
        textBetween line located.parts.doToken located.closing.token = body := by
  unfold finishLoop expectEnd
  dsimp only
  rw [if_pos hlast]
  constructor
  · intro h
    split at h
    · cases h
    · exact hnode (Except.ok.inj h)
  · rintro ⟨rfl, rfl⟩; rw [if_neg (not_or.mpr ⟨hfront, hbody⟩)]

theorem parseIf_iff {parts : IfParts} {fi : Found} {condition thenPart : Text}
    {elsePart : Option Text} (hlocated : locateIf line stream = .ok ⟨parts, fi⟩)
    (hlast : fi.isLast = true) (hcondition : condition ≠ []) (hthen : thenPart ≠ []) :
    parseIfCommandTokens line stream = .ok (.ifCommand condition thenPart elsePart) ↔
      textBetween line parts.opening parts.thenToken = condition ∧
        textBetween line parts.thenToken (parts.elseToken.getD fi.token) = thenPart ∧
        (parts.elseToken.map fun elseToken => textBetween line elseToken fi.token).filter
          (· ≠ []) = elsePart := by
  rw [parseIfCommandTokens, hlocated]
  dsimp only [Except.bind, expectEnd]
  rw [if_pos hlast]
  generalize textBetween line parts.opening parts.thenToken = front
  generalize textBetween line parts.thenToken _ = body
  generalize Option.filter _ _ = other
  constructor
  · intro h
    split at h
    · cases h
    · cases h; exact ⟨rfl, rfl, rfl⟩
  · rintro ⟨rfl, rfl, rfl⟩; rw [if_neg (not_or.mpr ⟨hcondition, hthen⟩)]

def BlockPart.Taken (line : Text) (part : BlockPart) : Prop :=
  textBetween line part.segment.opening part.keyword = part.segment.text line

/-- A parser that has found the keywords makes the tree exactly where it takes the texts between
    them. -/
theorem Block.parse_iff {closing : Found} (block : Block)
    (hfound : block.FoundIn line stream closing) (hlast : closing.isLast = true)
    (hnonempty : ∀ part ∈ block.parts closing.token, part.segment.text line ≠ []) :
    block.kind.parser.parse line stream = .ok (block.ast line) ↔
      ∀ part ∈ block.parts closing.token, part.Taken line := by
  cases block with
  | whileLoop front body =>
    simp only [parts, forall_mem_singleton, forall_mem_cons] at hnonempty ⊢
    show parseWhileCommandTokens line stream = _ ↔ _
    rw [parseWhileCommandTokens, hfound]
    dsimp only [Except.bind, ast]
    exact finishLoop_iff ArkshAst.whileCommand.inj hlast hnonempty.1 hnonempty.2
  | untilLoop front body =>
    simp only [parts, forall_mem_singleton, forall_mem_cons] at hnonempty ⊢
    show parseUntilCommandTokens line stream = _ ↔ _
    rw [parseUntilCommandTokens, hfound]
    dsimp only [Except.bind, ast]
    exact finishLoop_iff ArkshAst.untilCommand.inj hlast hnonempty.1 hnonempty.2
  | forLoop forToken name items body =>
    simp only [parts, forall_mem_singleton, forall_mem_cons] at hnonempty ⊢
    show parseForCommandTokens line stream = _ ↔ _
    rw [parseForCommandTokens, hfound]
    dsimp only [Except.bind, ast]
    exact finishLoop_iff (fun h => (ArkshAst.forCommand.inj h).2) hlast hnonempty.1 hnonempty.2
  | ifThen condition thenPart =>
    simp only [parts, forall_mem_singleton, forall_mem_cons] at hnonempty ⊢
    show parseIfCommandTokens line stream = .ok (.ifCommand _ _ none) ↔ _
    rw [parseIf_iff hfound hlast hnonempty.1 hnonempty.2]
    simp only [Option.map_none, Option.filter_none, Option.getD_none, and_true]
    exact Iff.rfl
  | ifElse condition thenPart elsePart =>
    simp only [parts, forall_mem_singleton, forall_mem_cons] at hnonempty ⊢
    obtain ⟨hcondition, hthen, helse⟩ := hnonempty
    show parseIfCommandTokens line stream = .ok (.ifCommand _ _ (some _)) ↔ _
    rw [parseIf_iff hfound hlast hcondition hthen]
    simp only [Option.map_some, Option.getD_some]
    refine and_congr_right' (and_congr_right' ?_)
    rw [Option.filter_eq_some_iff, Option.some_inj]
    exact and_iff_left (by simp [helse])

/-! ## 6. The law -/

variable {part : BlockPart}

section Tokens

variable {closing : ArkshToken} {block : Block}

theorem Block.tokens_concat (rest : List ArkshToken) :
    block.tokens closing rest = block.tokens closing [] ++ rest := by
  cases block <;> simp [tokens]

theorem Block.tokens_part (h : part ∈ block.parts closing) :
    ∃ front behind, block.tokens closing [] = front ++ part.segment.opening ::
      (part.segment.commands ++ (part.segment.separators ++ part.keyword :: behind)) := by
  cases block with
  | whileLoop condition body | untilLoop condition body =>
    simp only [parts, mem_cons, not_mem_nil, or_false] at h
    rcases h with rfl | rfl
    · exact ⟨[], body.tokens ++ [closing], by simp [tokens, Segment.tokens]⟩
    · exact ⟨condition.opening :: condition.tokens, [], by simp [tokens, Segment.tokens]⟩
  | forLoop forToken name items body =>
    simp only [parts, mem_cons, not_mem_nil, or_false] at h
    rcases h with rfl | rfl
    · exact ⟨[forToken, name], body.tokens ++ [closing], by simp [tokens, Segment.tokens]⟩
    · refine ⟨forToken :: name :: items.opening :: items.tokens, [], ?_⟩
      simp [tokens, Segment.tokens]
  | ifThen condition thenPart =>
    simp only [parts, mem_cons, not_mem_nil, or_false] at h
    rcases h with rfl | rfl
    · exact ⟨[], thenPart.tokens ++ [closing], by simp [tokens, Segment.tokens]⟩
    · exact ⟨condition.opening :: condition.tokens, [], by simp [tokens, Segment.tokens]⟩
  | ifElse condition thenPart elsePart =>
    simp only [parts, mem_cons, not_mem_nil, or_false] at h
    rcases h with rfl | rfl | rfl
    · refine ⟨[], thenPart.tokens ++ elsePart.opening :: (elsePart.tokens ++ [closing]), ?_⟩
      simp [tokens, Segment.tokens]
    · refine ⟨condition.opening :: condition.tokens, elsePart.tokens ++ [closing], ?_⟩
      simp [tokens, Segment.tokens]
    · refine ⟨condition.opening :: (condition.tokens ++ thenPart.opening :: thenPart.tokens), [],
        ?_⟩
      simp [tokens, Segment.tokens]

end Tokens

namespace BlockCommand

open JoinedLine (plainToken)

variable {text : Text}

section

variable (c : BlockCommand text)

theorem lossless :
    Lossless (trimText text) c.stream.tokens (c.block.tokens c.closing []) ∧
      ∀ token ∈ c.block.tokens c.closing [], token.raw.1 ≠ [] := by
  obtain ⟨tokens, hlossless, hraw⟩ := lexLine_tokens c.lexed
  obtain ⟨eof, heof, -⟩ := hlossless.eof
  have hsame : tokens ++ [eof] = c.block.tokens c.closing [] ++ [c.eof] :=
    heof.symm.trans (c.tokens_eq.trans (Block.tokens_concat [c.eof]))
  obtain rfl := (append_inj' hsame rfl).1
  exact ⟨hlossless, hraw⟩

theorem nodup : c.stream.tokens.Nodup := by
  obtain ⟨hlossless, -⟩ := c.lossless
  rw [c.tokens_eq, Block.tokens_concat]
  refine nodup_append.mpr ⟨?_, nodup_singleton _, fun token htoken other hother => ?_⟩
  · refine hlossless.ordered.imp fun {a b} h => ?_
    rintro rfl
    exact lt_irrefl _ h.1
  · rw [mem_singleton.mp hother]; exact fun heq => hlossless.before token htoken (heq ▸ c.eof_kind)

theorem text_ne_nil (h : part ∈ c.block.parts c.closing) :
    part.segment.text (trimText text) ≠ [] := by
  obtain ⟨hlossless, hraw⟩ := c.lossless
  obtain ⟨front, behind, hsplit⟩ := Block.tokens_part h
  refine hlossless.commandText_ne_nil hraw ?_ (c.ends part h).nonempty
  rw [hsplit]
  exact ((sublist_append_left _ _).trans (sublist_cons_self _ _)).trans
    (sublist_append_right _ _)

theorem taken_iff (hfits : (trimText text).length < arkshMaxLine)
    (h : part ∈ c.block.parts c.closing) :
    part.Taken (trimText text) ↔ Bare (part.segment.text (trimText text)) := by
  obtain ⟨hlossless, hraw⟩ := c.lossless
  obtain ⟨front, behind, hsplit⟩ := Block.tokens_part h
  have hends := c.ends part h
  refine hlossless.textBetween_iff hfits hraw hsplit hends.nonempty fun token htoken => ?_
  have hmem : token ∈ c.stream.tokens := by
    rw [c.tokens_eq, Block.tokens_concat, hsplit]
    simp [htoken]
  have hkind := hends.separators token htoken
  refine (arkshLexLine_operators c.lexed token hmem ?_).sequence hkind
  rw [hkind]
  rfl

theorem foundIn_iff :
    c.block.FoundIn (trimText text) c.stream ⟨c.closing, [c.eof]⟩ ↔
      ∀ part ∈ c.block.parts c.closing, part.Quiet (trimText text) :=
  c.block.foundIn_iff c.tokens_eq c.nodup c.keywords c.ends c.simple

end

/-- The parser finds the keywords that stand in command position, with nothing behind the last, and
    its tree has the texts of the lists between them. -/
structure KeywordsLaw (c : BlockCommand text) : Prop where
  boundaries : ∃ l : LexedLine text, l.line = trimText text ∧
    c.block.FoundIn l.line l.stream ⟨c.closing, [c.eof]⟩
  texts : arkshParseLine lineParser text = .ok (c.block.ast (trimText text))

/-- Where the parser finds the keywords: the text is one line for it. Of the words in each list
    behind a separator, a line break, `then`, `do` or `else`, those that open compound commands are
    followed by as many that close them, and outside of these no keyword is met that is looked for.
    No list starts with a blank or ends with a blank or `;`. -/
structure KeywordsFit (c : BlockCommand text) : Prop where
  fits : (trimText text).length < arkshMaxLine
  noHeredocs : lineHeredocs (trimText text) = .ok (trimText text, [])
  quiet : ∀ part ∈ c.block.parts c.closing, part.Quiet (trimText text)
  bare : ∀ part ∈ c.block.parts c.closing, Bare (part.segment.text (trimText text))

variable {l : LexedLine text}

/-- The line of a text is the text only where this fits the buffer and has no here-documents. -/
theorem whole_of_line (hline : l.line = trimText text) :
    (trimText text).length < arkshMaxLine ∧
      lineHeredocs (trimText text) = .ok (trimText text, []) := by
  have hcut : (trimCopy arkshMaxLine text).length = min 2047 (trimText text).length := length_take
  have hmax : arkshMaxLine = 2048 := rfl
  have hfound := l.found
  rcases lineHeredocs_cases hfound with ⟨hcopy, hnone⟩ | ⟨-, found, hcollected, hheader, -⟩
  · rw [hnone, ← hcopy, hline] at hfound
    refine ⟨?_, hfound⟩
    rw [← hcopy, hline] at hcut
    omega
  · -- the first line of a text with here-documents is not the whole of it
    have hshort := (collectHeredocs_below hcollected).2
    rw [← hheader, hline] at hshort
    omega

def wholeLine (c : BlockCommand text) (hfits : (trimText text).length < arkshMaxLine)
    (h : lineHeredocs (trimText text) = .ok (trimText text, [])) : LexedLine text where
  line := trimText text
  heredocs := []
  stream := c.stream
  found := by
    have hcopy : trimCopy arkshMaxLine text = trimText text := copyString_of_lt hfits
    rw [hcopy, h]
  lexed := c.lexed

/-- The tree of the line is the one it is to have exactly where the parser of the command makes
    it. -/
theorem parsed_iff (c : BlockCommand text) :
    l.parsed = .ok (c.block.ast (trimText text)) ↔
      c.block.kind.parser.parse l.line l.stream = .ok (c.block.ast (trimText text)) := by
  refine ⟨fun h => ?_, LexedLine.parsed_of_takes⟩
  have hkind : (c.block.ast (trimText text)).kind = c.block.kind.astKind := by
    cases c.block <;> rfl
  refine (LexedLine.parsed_kind h hkind).resolve_right fun hfunction => ?_
  have hother := hfunction.1
  revert hother
  cases c.block <;> exact CompoundKind.noConfusion

/-- **The keywords that stand in command position are found, and the tree has the texts between
    them, exactly where the words taken for the start of a command hide none of them and no list
    ends with what the parser takes off.** -/
theorem keywordsLaw_iff (c : BlockCommand text) : c.KeywordsLaw ↔ c.KeywordsFit := by
  have hlast : Found.isLast ⟨c.closing, [c.eof]⟩ = true := decide_eq_true c.eof_kind
  constructor
  · intro law
    obtain ⟨l, hline, hfound⟩ := law.boundaries
    obtain ⟨hfits, hheredocs⟩ := whole_of_line hline
    rw [l.eq (c.wholeLine hfits hheredocs)] at hfound
    have hparse := c.parsed_iff.mp
      ((c.wholeLine hfits hheredocs).parse_eq.symm.trans law.texts)
    have htaken := (c.block.parse_iff hfound hlast fun _ h => c.text_ne_nil h).mp hparse
    exact
      { fits := hfits
        noHeredocs := hheredocs
        quiet := c.foundIn_iff.mp hfound
        bare := fun part h => (c.taken_iff hfits h).mp (htaken part h) }
  · intro fit
    have hfound := c.foundIn_iff.mpr fit.quiet
    have htaken : ∀ part ∈ c.block.parts c.closing, part.Taken (trimText text) :=
      fun part h => (c.taken_iff fit.fits h).mpr (fit.bare part h)
    have hparse := (c.block.parse_iff hfound hlast fun _ h => c.text_ne_nil h).mpr htaken
    refine ⟨⟨c.wholeLine fit.fits fit.noHeredocs, rfl, hfound⟩, ?_⟩
    exact (c.wholeLine fit.fits fit.noHeredocs).parse_eq.trans (c.parsed_iff.mpr hparse)

/-- `while echo then do; do true; done`: the argument `do` is taken for the keyword. -/
theorem not_keywordsLaw_argument : ¬ ∀ (text : Text) (c : BlockCommand text), c.KeywordsLaw := by
  intro law
  have hlexed : (arkshLexLine (trimText "while echo then do; do true; done".toList)).toOption.map
      (fun stream => stream.tokens.map JoinedLine.parts) =
        some ([ plainToken .word "while".toList 0, plainToken .word "echo".toList 6,
          plainToken .word "then".toList 11, plainToken .word "do".toList 16,
          plainToken .sequence ";".toList 18, plainToken .word "do".toList 20,
          plainToken .word "true".toList 23, plainToken .sequence ";".toList 27,
          plainToken .word "done".toList 29, plainToken .eof [] 33 ].map JoinedLine.parts) := by
    decide
  obtain ⟨stream, hstream, htokens⟩ := Option.map_eq_some_iff.mp hlexed
  have htokens := JoinedLine.parts_injective.list_map htokens
  let condition : Segment :=
    { opening := plainToken .word "while".toList 0
      commands := [ plainToken .word "echo".toList 6, plainToken .word "then".toList 11,
        plainToken .word "do".toList 16 ]
      separators := [plainToken .sequence ";".toList 18] }
  let body : Segment :=
    { opening := plainToken .word "do".toList 20
      commands := [plainToken .word "true".toList 23]
      separators := [plainToken .sequence ";".toList 27] }
  let c : BlockCommand "while echo then do; do true; done".toList :=
    { block := .whileLoop condition body
      closing := plainToken .word "done".toList 29
      eof := plainToken .eof [] 33
      stream := stream
      lexed := toOption_some hstream
      tokens_eq := htokens
      eof_kind := rfl
      keywords := by
        intro keyword hkeyword
        simp only [Block.keywords, mem_cons, not_mem_nil, or_false] at hkeyword
        rcases hkeyword with rfl | rfl | rfl <;> exact ⟨rfl, rfl, rfl⟩
      ends := by
        intro part hpart
        simp only [Block.parts, mem_cons, not_mem_nil, or_false] at hpart
        rcases hpart with rfl | rfl <;> exact ⟨by decide, by decide, by decide, by decide⟩
      simple := by
        have hecho : ∀ keyword ∈ reservedWords, "echo".toList ≠ keyword.toList := by decide
        have htrue : ∀ keyword ∈ reservedWords, "true".toList ≠ keyword.toList := by decide
        refine ⟨⟨by decide, fun token htoken keyword hkeyword h => ?_⟩,
          ⟨by decide, fun token htoken keyword hkeyword h => ?_⟩⟩
        · cases mem_singleton.mp htoken; exact hecho keyword hkeyword h.text
        · cases mem_singleton.mp htoken; exact htrue keyword hkeyword h.text }
  obtain ⟨l, hline, hfound⟩ := (law _ c).boundaries
  rw [l.eq (c.wholeLine (by decide) (whole_of_line hline).2)] at hfound
  have hquiet := c.foundIn_iff.mp hfound ⟨condition, body.opening, ["do"]⟩ mem_cons_self
  have hseen : searchWords ["do"] 0
      (commandWords (trimText "while echo then do; do true; done".toList) condition.opening
        condition.tokens) = none := by
    decide
  cases hseen.symm.trans (searchWords_iff.mpr hquiet)

end BlockCommand

end Arksh
