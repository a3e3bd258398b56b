/-
# From lines to tokens

A line is read character by character, each with its position in bytes. A token
ends where its kind says: a comment and an open string with the line, a literal
behind its closing quote, a name and a number behind their last character.
-/
import WordAsm.Source.Number
import WordAsm.Source.Token
import WordAsm.Text.Blank
import WordAsm.Text.Lines

namespace WordAsm

/-- A character of a line, with the bytes and the characters before it. -/
structure Spot where
  offset : Nat
  column : Nat
  char : Char

/-- The characters `cs` with their places, from a byte offset and a column on. -/
def spots (offset column : Nat) : List Char → List Spot
  | [] => []
  | c :: cs => ⟨offset, column, c⟩ :: spots (offset + c.utf8Size) (column + 1) cs

/-- The characters from the first place of `rest` up to the byte `stop`. -/
def slice (rest : List Spot) (stop : Nat) : List Char :=
  (rest.takeWhile fun s => decide (s.offset < stop)).map Spot.char

/-- The character that a backslash and `c` stand for. -/
def unescape (c : Char) : Char :=
  if c = 'n' then '\n' else if c = 't' then '\t' else if c = '0' then '\x00' else c

def isLetter (c : Char) : Bool := ('a' ≤ c && c ≤ 'z') || ('A' ≤ c && c ≤ 'Z')

def isDigit (c : Char) : Bool := '0' ≤ c && c ≤ '9'

/-- The characters that go on with a name or a number. -/
def isWordChar (c : Char) : Bool := isLetter c || isDigit c || c == '_'

def punctuation? : Char → Option TokenKind
  | '+' => some .plus
  | '-' => some .minus
  | '*' => some .star
  | '/' => some .slash
  | '%' => some .percent
  | '&' => some .amp
  | '|' => some .pipe
  | '^' => some .caret
  | '~' => some .tilde
  | '$' => some .dollar
  | ':' => some .colon
  | ',' => some .comma
  | '(' => some .leftParen
  | ')' => some .rightParen
  | _ => none

def doubled? (c : Char) : Option Char → Option TokenKind
  | some d =>
    if c = '<' ∧ d = '<' then some .shiftLeft
    else if c = '>' ∧ d = '>' then some .shiftRight
    else none
  | none => none

/-- The token of a name, which starts with `c`. -/
def nameToken (c : Char) (name : List Char) : TokenKind :=
  if c = '.' then .dotted (String.ofList name) else .ident (String.ofList name)

/-- The token that a run of word characters starting with a digit stands for.
Underscores only space the digits. -/
def numberToken (word : List Char) : TokenKind :=
  let digits := word.filter (· != '_')
  match parseNumber? digits with
  | some value => .number value
  | none => .error ("invalid number `" ++ String.ofList digits ++ "`")

/-- A token that was read: its kind, the byte of the line behind it, and what
is left of the line. -/
structure TokenReading where
  kind : TokenKind
  stop : Nat
  rest : List Spot

/-- A string literal behind its opening quote: the text, the byte behind the
closing quote, and what is left. There is none without a closing quote. -/
def stringBody : List Spot → Option (List Char × Nat × List Spot)
  | [] => none
  | ⟨i, _, '"'⟩ :: rest => some ([], i + 1, rest)
  | [⟨_, _, '\\'⟩] => none
  | ⟨_, _, '\\'⟩ :: s :: rest => (stringBody rest).map fun (text, r) => (unescape s.char :: text, r)
  | s :: rest => (stringBody rest).map fun (text, r) => (s.char :: text, r)

def readString (size : Nat) (rest : List Spot) : TokenReading :=
  match stringBody rest with
  | some (text, stop, rest) => ⟨.str (String.ofList text), stop, rest⟩
  | none => ⟨.error "unterminated string", size, []⟩

/-- The character behind an opening quote, and what is left. -/
def charBody : List Spot → Option Char × List Spot
  | ⟨_, _, '\\'⟩ :: s :: rest => (some (unescape s.char), rest)
  | [⟨_, _, '\\'⟩] => (none, [])
  | s :: rest => (some s.char, rest)
  | [] => (none, [])

/-- The end of a character literal, with the character read. What is read of a
bad one ends where the next character starts, or with the line. -/
def closeChar (size : Nat) : Option Char → List Spot → TokenReading
  | some value, ⟨i, _, '\''⟩ :: rest => ⟨.char value, i + 1, rest⟩
  | _, rest => ⟨.error "bad character literal", (rest.head?.map Spot.offset).getD size, rest⟩

def readChar (size : Nat) (rest : List Spot) : TokenReading :=
  closeChar size (charBody rest).1 (charBody rest).2

/-- Takes word characters: the byte behind the last of them, or `stop` if there
is none, and what is left. -/
def takeWord (stop : Nat) : List Spot → Nat × List Spot
  | [] => (stop, [])
  | s :: rest =>
    if isWordChar s.char then takeWord (s.offset + s.char.utf8Size) rest else (stop, s :: rest)

/-- A name or a number that starts at `s`. -/
def readWord (kind : List Char → TokenKind) (s : Spot) (rest : List Spot) : TokenReading :=
  let (stop, left) := takeWord (s.offset + 1) rest
  ⟨kind (slice (s :: rest) stop), stop, left⟩

/-- The token that starts at `s`, which is not blank, on a line of `size` bytes. -/
def readToken (size : Nat) (s : Spot) (rest : List Spot) : TokenReading :=
  let c := s.char
  if c = ';' then ⟨.comment (String.ofList (slice rest size)), size, []⟩
  else if let some kind := doubled? c (rest.head?.map Spot.char) then
    ⟨kind, s.offset + 2, rest.tail⟩
  else if let some kind := punctuation? c then ⟨kind, s.offset + 1, rest⟩
  else if c = '"' then readString size rest
  else if c = '\'' then readChar size rest
  else if isLetter c || c == '_' || c == '.' then
    readWord (nameToken c) s rest
  else if isDigit c then readWord numberToken s rest
  else ⟨.error (String.ofList [c]), s.offset + c.utf8Size, rest⟩

theorem length_stringBody {rest : List Spot} :
    ∀ r ∈ stringBody rest, r.2.2.length ≤ rest.length := by
  fun_induction stringBody rest with
  | case1 | case3 => simp
  | case2 => simp
  | case4 _ _ _ _ ih | case5 _ _ _ _ _ ih =>
    intro r hr
    obtain ⟨body, hbody, rfl⟩ := Option.map_eq_some_iff.mp hr
    have hle := ih body hbody
    simp only [List.length_cons]
    omega

theorem length_readString (size : Nat) (rest : List Spot) :
    (readString size rest).rest.length ≤ rest.length := by
  unfold readString
  split
  · exact length_stringBody _ ‹_›
  · exact Nat.zero_le _

theorem length_closeChar (size : Nat) (value : Option Char) (rest : List Spot) :
    (closeChar size value rest).rest.length ≤ rest.length := by
  unfold closeChar
  split
  · exact Nat.le_succ _
  · exact Nat.le_refl _

theorem length_readChar (size : Nat) (rest : List Spot) :
    (readChar size rest).rest.length ≤ rest.length := by
  refine Nat.le_trans (length_closeChar ..) ?_
  unfold charBody
  split <;> simp only [List.length_cons, List.length_nil] <;> omega

theorem length_readWord (kind : List Char → TokenKind) (s : Spot) (rest : List Spot) :
    (readWord kind s rest).rest.length ≤ rest.length := by
  suffices ∀ stop, (takeWord stop rest).2.length ≤ rest.length from this _
  intro stop
  fun_induction takeWord stop rest <;> simp only [List.length_cons] <;> omega

theorem length_readToken (size : Nat) (s : Spot) (rest : List Spot) :
    (readToken size s rest).rest.length ≤ rest.length := by
  unfold readToken
  dsimp only
  repeat' split
  · exact Nat.zero_le _
  · simp
  · exact Nat.le_refl _
  · exact length_readString size rest
  · exact length_readChar size rest
  · exact length_readWord _ s rest
  · exact length_readWord _ s rest
  · exact Nat.le_refl _

/-- The tokens of what is left of a line. -/
def tokensFrom (line : SourceLine) (size : Nat) (rest : List Spot) : List Token :=
  match _h : rest.dropWhile (isBlank ·.char) with
  | [] => []
  | s :: more =>
    let token := readToken size s more
    ⟨token.kind, ⟨line.offset + s.offset, line.index, s.column, token.stop - s.offset⟩⟩
      :: tokensFrom line size token.rest
termination_by rest.length
decreasing_by
  have hle := (List.dropWhile_suffix (l := rest) (isBlank ·.char)).length_le
  rw [_h, List.length_cons] at hle
  exact Nat.lt_of_le_of_lt (length_readToken size s more) hle

def tokensOfLine (line : SourceLine) : List Token :=
  tokensFrom line (utf8Length line.text) (spots 0 0 line.text)

end WordAsm
