/-
# Lexemes

A line is cut into lexemes: some blanks, then the characters of one token. `classify` reads a token
from its first character and says how many more belong to it. The lexer works on byte positions
instead; `tokensOfLine_eq` says that it finds the lexemes, each at the place that the characters
before it give. Every reader of the lexer has its equation for that, with the result of the reader
on characters lifted to positions (`lift`).
-/
import Mathlib.Data.List.TakeWhile
import WordAsm.Source.Lexer

namespace WordAsm

open List

/-- A string literal behind its opening quote: the text and the number of
characters up to and with the closing quote, if there is one. -/
def stringLexeme : List Char → Option (List Char × Nat)
  | [] => none
  | '"' :: _ => some ([], 1)
  | ['\\'] => none
  | '\\' :: c :: cs => (stringLexeme cs).map fun (text, n) => (unescape c :: text, n + 2)
  | c :: cs => (stringLexeme cs).map fun (text, n) => (c :: text, n + 1)

/-- A character literal behind its opening quote: the character, if the
literal is well formed, and the number of characters read. -/
def charLexeme : List Char → Option Char × Nat
  | '\\' :: c :: '\'' :: _ => (some (unescape c), 3)
  | '\\' :: _ :: _ => (none, 2)
  | ['\\'] => (none, 1)
  | c :: '\'' :: _ => (some c, 2)
  | _ :: _ => (none, 1)
  | [] => (none, 0)

/-- The token that starts with `c`, which is not blank, in front of `cs`, and
how many characters of `cs` belong to it. -/
def classify (c : Char) (cs : List Char) : TokenKind × Nat :=
  if c = ';' then (.comment (String.ofList cs), cs.length)
  else if let some kind := doubled? c cs.head? then (kind, 1)
  else if let some kind := punctuation? c then (kind, 0)
  else if c = '"' then
    match stringLexeme cs with
    | some (text, n) => (.str (String.ofList text), n)
    | none => (.error "unterminated string", cs.length)
  else if c = '\'' then
    match charLexeme cs with
    | (some value, n) => (.char value, n)
    | (none, n) => (.error "bad character literal", n)
  else if isLetter c || c == '_' || c == '.' then
    let word := cs.takeWhile isWordChar
    let name := String.ofList (c :: word)
    (if c = '.' then .dotted name else .ident name, word.length)
  else if isDigit c then
    let word := cs.takeWhile isWordChar
    (numberToken (c :: word), word.length)
  else (.error (String.ofList [c]), 0)

/-- A token with the characters it covers and the blanks before them. -/
structure Lexeme where
  blanks : List Char
  text : List Char
  kind : TokenKind
  deriving DecidableEq

def lexemes (cs : List Char) : List Lexeme :=
  match _h : cs.dropWhile isBlank with
  | [] => []
  | c :: rest =>
    let token := classify c rest
    ⟨cs.takeWhile isBlank, c :: rest.take token.2, token.1⟩ :: lexemes (rest.drop token.2)
termination_by cs.length
decreasing_by
  have hle := (List.dropWhile_suffix (l := cs) isBlank).length_le
  rw [_h, List.length_cons] at hle
  rw [List.length_drop]
  omega

/-- Gives lexemes their places, from a byte offset and a column on. -/
def locate (line offset column : Nat) : List Lexeme → List Token
  | [] => []
  | l :: rest =>
    let start := offset + utf8Length l.blanks
    let first := column + l.blanks.length
    let length := utf8Length l.text
    ⟨l.kind, ⟨start, line, first, length⟩⟩
      :: locate line (start + length) (first + l.text.length) rest

theorem lexemes_of_blank {cs : List Char} (h : cs.dropWhile isBlank = []) : lexemes cs = [] := by
  rw [lexemes]
  split
  · rfl
  · rename_i heq
    rw [h] at heq
    cases heq

variable {c : Char}

theorem lexemes_of_token {cs rest : List Char} (h : cs.dropWhile isBlank = c :: rest) :
    lexemes cs = ⟨cs.takeWhile isBlank, c :: rest.take (classify c rest).2, (classify c rest).1⟩ ::
      lexemes (rest.drop (classify c rest).2) := by
  rw [lexemes]
  split
  · rename_i heq
    rw [h] at heq
    cases heq
  · rename_i heq
    rw [h] at heq
    cases heq
    rfl

/-! ### The lexer finds the lexemes -/

@[simp] theorem utf8Length_cons (c : Char) (cs : List Char) :
    utf8Length (c :: cs) = c.utf8Size + utf8Length cs := rfl

@[simp] theorem utf8Length_append (cs ds : List Char) :
    utf8Length (cs ++ ds) = utf8Length cs + utf8Length ds := by
  induction cs with
  | nil => simp [utf8Length]
  | cons c cs ih => simp [ih, Nat.add_assoc]

/-- What is read if the first `n` characters of `cs`, which starts at the given place, go on with
a token. -/
def lift (offset column : Nat) (cs : List Char) (kind : TokenKind) (n : Nat) : TokenReading :=
  ⟨kind, offset + utf8Length (cs.take n),
    spots (offset + utf8Length (cs.take n)) (column + (cs.take n).length) (cs.drop n)⟩

theorem lift_length (offset column : Nat) (cs : List Char) (kind : TokenKind) :
    lift offset column cs kind cs.length = ⟨kind, offset + utf8Length cs, []⟩ := by
  simp [lift, spots]

theorem slice_spots (offset column : Nat) (cs ds : List Char) :
    slice (spots offset column (cs ++ ds)) (offset + utf8Length cs) = cs := by
  induction cs generalizing offset column with
  | nil => cases ds <;> simp [slice, spots, utf8Length]
  | cons c cs ih =>
    have hrest := ih (offset + c.utf8Size) (column + 1)
    have hpos := c.utf8Size_pos
    rw [Nat.add_assoc] at hrest
    simp only [slice] at hrest ⊢
    rw [List.cons_append, spots, utf8Length_cons, List.takeWhile_cons_of_pos (by simp; omega),
      List.map_cons, hrest]

/-- The first characters of a token go on with what is read behind them. -/
theorem lift_cons (offset column : Nat) (c : Char) (cs : List Char) (kind : TokenKind) (n : Nat) :
    lift offset column (c :: cs) kind (n + 1) = lift (offset + c.utf8Size) (column + 1) cs kind n := by
  simp [lift, Nat.add_assoc, Nat.add_comm 1]

theorem stringBody_spots (kind : TokenKind) (offset column : Nat) (cs : List Char) :
    stringBody (spots offset column cs) = (stringLexeme cs).map fun (text, n) =>
      (text, (lift offset column cs kind n).stop, (lift offset column cs kind n).rest) := by
  fun_induction stringLexeme cs generalizing offset column with
  | case1 | case3 => rfl
  | case2 cs =>
    have hquote : '"'.utf8Size = 1 := rfl
    simp [spots, stringBody, lift, utf8Length, hquote]
  | case4 c cs ih =>
    rw [spots, spots, stringBody, ih]
    simp [lift_cons, Function.comp_def]
  | case5 c cs hquote hlast hescape ih =>
    have hbackslash : c ≠ '\\' := fun hc => by cases cs <;> grind
    rw [spots, stringBody, ih]
    · simp [lift_cons, Function.comp_def]
    · grind
    · grind
    · grind

theorem readString_spots (offset column : Nat) (cs : List Char) :
    readString (offset + utf8Length cs) (spots offset column cs) =
      match stringLexeme cs with
      | some (text, n) => lift offset column cs (.str (String.ofList text)) n
      | none => lift offset column cs (.error "unterminated string") cs.length := by
  unfold readString
  rw [stringBody_spots (.str "")]
  cases stringLexeme cs with
  | none => exact (lift_length ..).symm
  | some r => rfl

theorem closeChar_spots (value : Char) (offset column : Nat) (cs : List Char) :
    closeChar (offset + utf8Length cs) (some value) (spots offset column cs) =
      if cs.head? = some '\'' then lift offset column cs (.char value) 1
      else lift offset column cs (.error "bad character literal") 0 := by
  have hquote : '\''.utf8Size = 1 := rfl
  cases cs with
  | nil => rfl
  | cons c cs =>
    by_cases hc : c = '\''
    · simp [hc, spots, closeChar, lift, utf8Length, hquote]
    · rw [spots, closeChar]
      · simp [hc, lift, spots, utf8Length]
      · grind

theorem readChar_spots (offset column : Nat) (cs : List Char) :
    readChar (offset + utf8Length cs) (spots offset column cs) =
      match charLexeme cs with
      | (some value, n) => lift offset column cs (.char value) n
      | (none, n) => lift offset column cs (.error "bad character literal") n := by
  unfold readChar
  fun_cases charLexeme cs <;> dsimp only
  case case1 c rest =>
    rw [lift_cons, lift_cons, utf8Length_cons, utf8Length_cons, ← Nat.add_assoc, ← Nat.add_assoc]
    exact (closeChar_spots (unescape c) _ _ _).trans (if_pos rfl)
  case case2 c rest hclosed =>
    rw [lift_cons, lift_cons, utf8Length_cons, utf8Length_cons, ← Nat.add_assoc, ← Nat.add_assoc]
    refine (closeChar_spots (unescape c) _ _ _).trans (if_neg fun hhead => ?_)
    obtain ⟨more, rfl⟩ := List.head?_eq_some_iff.mp hhead
    exact hclosed _ rfl
  case case3 => rfl
  case case4 c rest hescape hbackslash =>
    rw [lift_cons, utf8Length_cons, ← Nat.add_assoc, spots, charBody]
    · exact (closeChar_spots c _ _ _).trans (if_pos rfl)
    all_goals grind [spots]
  case case5 c rest hescape hmore hlast hclosed =>
    rw [lift_cons, utf8Length_cons, ← Nat.add_assoc, spots, charBody]
    · refine (closeChar_spots c _ _ _).trans (if_neg fun hhead => ?_)
      obtain ⟨more, rfl⟩ := List.head?_eq_some_iff.mp hhead
      exact hclosed _ rfl
    all_goals cases rest <;> grind [spots]
  case case6 => rfl

theorem takeWord_spots (offset column : Nat) (cs : List Char) :
    takeWord offset (spots offset column cs) =
      ((lift offset column cs (.str "") (cs.takeWhile isWordChar).length).stop,
       (lift offset column cs (.str "") (cs.takeWhile isWordChar).length).rest) := by
  induction cs generalizing offset column with
  | nil => rfl
  | cons c cs ih =>
    rw [spots, takeWord]
    by_cases hc : isWordChar c = true
    · simp [hc, ih, lift_cons]
    · simp [hc, lift, utf8Length, spots]

theorem readWord_spots (kind : List Char → TokenKind) (hc : c.utf8Size = 1) (offset column : Nat)
    (cs : List Char) :
    readWord kind ⟨offset, column, c⟩ (spots (offset + c.utf8Size) (column + 1) cs) =
      lift (offset + c.utf8Size) (column + 1) cs (kind (c :: cs.takeWhile isWordChar))
        (cs.takeWhile isWordChar).length := by
  have hslice := slice_spots offset column (c :: cs.takeWhile isWordChar) (cs.dropWhile isWordChar)
  have htake : cs.take (cs.takeWhile isWordChar).length = cs.takeWhile isWordChar :=
    (prefix_iff_eq_take.mp ( takeWhile_prefix isWordChar)).symm
  rw [List.cons_append, List.takeWhile_append_dropWhile, spots, utf8Length_cons, ← Nat.add_assoc]
    at hslice
  rw [hc] at hslice ⊢
  unfold readWord
  simp only [takeWord_spots, lift, htake, hslice]

theorem utf8Size_startsWord (h : (isLetter c || c == '_' || c == '.') = true ∨ isDigit c = true) :
    c.utf8Size = 1 := by
  have hascii : c.toNat ≤ 127 := by
    simp only [isLetter, isDigit, Bool.or_eq_true, Bool.and_eq_true, decide_eq_true_eq, beq_iff_eq,
      Char.le_def, UInt32.le_iff_toNat_le] at h
    rcases h with (((⟨-, h⟩ | ⟨-, h⟩) | rfl) | rfl) | ⟨-, h⟩
    all_goals first | exact h.trans (by decide) | decide
  exact Char.utf8Size_eq_one_iff.mpr (UInt32.le_iff_toNat_le.mpr hascii)

theorem utf8Size_punctuation {kind : TokenKind} (h : punctuation? c = some kind) :
    c.utf8Size = 1 := by
  unfold punctuation? at h
  split at h <;> first | rfl | cases h

theorem utf8Size_doubled {cs : List Char} {kind : TokenKind} (h : doubled? c cs.head? = some kind) :
    c.utf8Size = 1 ∧ ∃ d rest, cs = d :: rest ∧ d.utf8Size = 1 := by
  cases cs with
  | nil => cases h
  | cons d rest =>
    refine (?_ : c.utf8Size = 1 ∧ d.utf8Size = 1).imp_right fun hd => ⟨d, rest, rfl, hd⟩
    simp only [head?_cons, doubled?] at h
    split at h
    · rename_i hpair
      rw [hpair.1, hpair.2]
      exact ⟨rfl, rfl⟩
    · split at h
      · rename_i hpair
        rw [hpair.1, hpair.2]
        exact ⟨rfl, rfl⟩
      · cases h

/-- **The lexer reads a token** as its characters classify it, whatever way its end is found. -/
theorem readToken_spots (c : Char) (offset column : Nat) (cs : List Char) :
    readToken (offset + utf8Length (c :: cs)) ⟨offset, column, c⟩
        (spots (offset + c.utf8Size) (column + 1) cs) =
      lift (offset + c.utf8Size) (column + 1) cs (classify c cs).1 (classify c cs).2 := by
  have hhead : (spots (offset + c.utf8Size) (column + 1) cs).head?.map Spot.char = cs.head? := by
    cases cs <;> rfl
  rw [utf8Length_cons, ← Nat.add_assoc]
  unfold readToken classify
  simp only [hhead]
  by_cases hcomment : c = ';'
  · have hslice := slice_spots (offset + c.utf8Size) (column + 1) cs []
    rw [append_nil] at hslice
    simp only [hcomment, ↓reduceIte] at hslice ⊢
    rw [hslice, lift_length]
  simp only [hcomment, ↓reduceIte]
  cases hdoubled : doubled? c cs.head? with
  | some kind =>
    obtain ⟨hc, d, rest, rfl, hd⟩ := utf8Size_doubled hdoubled
    simp [lift, spots, utf8Length, hc, hd]
  | none =>
    simp only
    cases hpunctuation : punctuation? c with
    | some kind =>
      simp only [lift, utf8Size_punctuation hpunctuation]
      rfl
    | none =>
      simp only
      by_cases hstring : c = '"'
      · simp only [hstring, ↓reduceIte, readString_spots]
        cases stringLexeme cs <;> rfl
      by_cases hchar : c = '\''
      · simp only [hchar, ↓reduceIte, readChar_spots]
        rcases charLexeme cs with ⟨_ | _, _⟩ <;> rfl
      simp only [hstring, hchar, ↓reduceIte]
      by_cases hname : (isLetter c || c == '_' || c == '.') = true
      · simp only [hname, ↓reduceIte, readWord_spots _ (utf8Size_startsWord (.inl hname)), nameToken]
      by_cases hdigit : isDigit c = true
      · simp only [hname, hdigit, ↓reduceIte, readWord_spots _ (utf8Size_startsWord (.inr hdigit))]
        rfl
      · simp only [hname, hdigit]
        rfl

theorem dropWhile_spots (offset column : Nat) (cs : List Char) :
    (spots offset column cs).dropWhile (isBlank ·.char) =
      spots (offset + utf8Length (cs.takeWhile isBlank)) (column + (cs.takeWhile isBlank).length)
        (cs.dropWhile isBlank) := by
  induction cs generalizing offset column with
  | nil => rfl
  | cons c cs ih =>
    by_cases hc : isBlank c = true
    · simp [spots, hc, ih, Nat.add_assoc, Nat.add_comm 1]
    · simp [spots, hc, utf8Length]

theorem tokensFrom_of_blank {line : SourceLine} {size : Nat} {rest : List Spot}
    (h : rest.dropWhile (isBlank ·.char) = []) : tokensFrom line size rest = [] := by
  rw [tokensFrom]
  split
  · rfl
  · rename_i heq
    rw [h] at heq
    cases heq

theorem tokensFrom_of_token {line : SourceLine} {size : Nat} {rest more : List Spot} {s : Spot}
    (h : rest.dropWhile (isBlank ·.char) = s :: more) : tokensFrom line size rest =
      ⟨(readToken size s more).kind, ⟨line.offset + s.offset, line.index, s.column,
        (readToken size s more).stop - s.offset⟩⟩ ::
        tokensFrom line size (readToken size s more).rest := by
  rw [tokensFrom]
  split
  · rename_i heq
    rw [h] at heq
    cases heq
  · rename_i heq
    rw [h] at heq
    cases heq
    rfl

theorem tokensFrom_spots (line : SourceLine) (offset column : Nat) (cs : List Char) :
    tokensFrom line (offset + utf8Length cs) (spots offset column cs) =
      locate line.index (line.offset + offset) column (lexemes cs) := by
  fun_induction lexemes cs generalizing offset column with
  | case1 cs h =>
    have hspots := dropWhile_spots offset column cs
    rw [h, spots] at hspots
    rw [tokensFrom_of_blank hspots, locate]
  | case2 cs c rest h token ih =>
    have hspots := dropWhile_spots offset column cs
    have hcs : utf8Length cs = utf8Length (cs.takeWhile isBlank) + utf8Length (c :: rest) := by
      rw [← h, ← utf8Length_append, takeWhile_append_dropWhile]
    have hrest : utf8Length rest = utf8Length (rest.take token.2) + utf8Length (rest.drop token.2) := by
      rw [← utf8Length_append, take_append_drop]
    rw [h, spots] at hspots
    rw [tokensFrom_of_token hspots, hcs, ← Nat.add_assoc, readToken_spots, utf8Length_cons, hrest]
    simp only [lift, locate, utf8Length_cons, length_cons]
    refine congrArg₂ cons ?_ ?_
    · simp only [token, Token.mk.injEq, Location.mk.injEq, true_and]
      omega
    · simpa only [Nat.add_assoc, Nat.add_comm 1] using ih (offset + utf8Length (cs.takeWhile isBlank) +
        c.utf8Size + utf8Length (rest.take token.2))
        (column + (cs.takeWhile isBlank).length + 1 + (rest.take token.2).length)

/-- **The tokens of a line** are its lexemes, each at its place. -/
theorem tokensOfLine_eq (line : SourceLine) :
    tokensOfLine line = locate line.index line.offset 0 (lexemes line.text) := by
  have h := tokensFrom_spots line 0 0 line.text
  rwa [Nat.zero_add] at h

end WordAsm
