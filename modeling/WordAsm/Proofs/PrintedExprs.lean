/-
# Printed expressions read back

The text of an expression has parentheses around every binary operator and a blank on
both sides of it, so that its tokens are seen from its characters: a sign, a parenthesis
or `$` is a token whatever follows, a name or a number is one if what follows is no
letter, digit or underscore (`Breaks`). The tokens are those of a writing with enough
parentheses (`Expr.printed`), and so the parser finds the expression again.
-/
import WordAsm.Proofs.IncludeScan
import WordAsm.Proofs.Numerals

namespace WordAsm

open List

variable {c : Char} {e : Expr}

/-! ### Tokens at the front of a line -/

def kindsOf (cs : List Char) : List TokenKind := (lexemes cs).map Lexeme.kind

theorem kindsOf_nil : kindsOf [] = [] := by
  rw [kindsOf, lexemes_nil, map_nil]

theorem kindsOf_blank (hc : isBlank c = true) (cs : List Char) :
    kindsOf (c :: cs) = kindsOf cs := by
  unfold kindsOf
  have hdrop : (c :: cs).dropWhile isBlank = cs.dropWhile isBlank := by simp [hc]
  cases hcs : cs.dropWhile isBlank with
  | nil => rw [lexemes_of_blank (hdrop.trans hcs), lexemes_of_blank hcs]
  | cons d ds => simp [lexemes_of_token (hdrop.trans hcs), lexemes_of_token hcs]

theorem kindsOf_token (hc : isBlank c = false) (cs : List Char) :
    kindsOf (c :: cs) = (classify c cs).1 :: kindsOf (cs.drop (classify c cs).2) := by
  unfold kindsOf
  have hdrop : (c :: cs).dropWhile isBlank = c :: cs := by simp [hc]
  rw [lexemes_of_token hdrop, map_cons]

/-- **A mark** is a token of its own. -/
theorem kindsOf_punctuation {kind : TokenKind} (h : punctuation? c = some kind) (cs : List Char) :
    kindsOf (c :: cs) = kind :: kindsOf cs := by
  have hclass : isBlank c = false ∧ classify c cs = (kind, 0) := by
    unfold punctuation? at h
    split at h <;> cases h <;> cases cs <;> exact ⟨rfl, rfl⟩
  rw [kindsOf_token hclass.1, hclass.2, drop_zero]

theorem kindsOf_operator (op : BinaryOp) (cs : List Char) :
    kindsOf (op.text.toList ++ cs) = op.token :: kindsOf cs := by
  cases op with
  | shl => exact kindsOf_token (c := '<') rfl ('<' :: cs)
  | shr => exact kindsOf_token (c := '>') rfl ('>' :: cs)
  | _ => exact kindsOf_punctuation rfl cs

def startsName (c : Char) : Bool := isLetter c || c == '_' || c == '.'

theorem isBlank_startsName (h : startsName c = true) : isBlank c = false := by
  have hcode : (97 ≤ c.toNat ∧ c.toNat ≤ 122) ∨ (65 ≤ c.toNat ∧ c.toNat ≤ 90) ∨ c.toNat = 95 ∨
      c.toNat = 46 := by
    simp only [startsName, isLetter, Bool.or_eq_true, Bool.and_eq_true, decide_eq_true_eq,
      beq_iff_eq] at h
    rcases h with ((⟨hlow, hhigh⟩ | ⟨hlow, hhigh⟩) | rfl) | rfl
    · exact .inl ⟨hlow, hhigh⟩
    · exact .inr (.inl ⟨hlow, hhigh⟩)
    · decide
    · decide
  simp only [isBlank, Bool.or_eq_false_iff, Bool.and_eq_false_iff, decide_eq_false_iff_not]
  omega

theorem classify_startsName (h : startsName c = true) (cs : List Char) :
    classify c cs = (if c = '.' then .dotted (String.ofList (c :: cs.takeWhile isWordChar))
      else .ident (String.ofList (c :: cs.takeWhile isWordChar)),
        (cs.takeWhile isWordChar).length) := by
  have hne : ∀ d, startsName d = false → c ≠ d := by
    rintro d hd rfl
    simp [h] at hd
  have hdoubled : doubled? c cs.head? = none := by
    unfold doubled?
    cases cs with
    | nil => rfl
    | cons d ds => simp [hne '<' (by decide), hne '>' (by decide)]
  have hpunctuation : punctuation? c = none := by
    unfold punctuation?
    split <;> first | rfl | exact absurd h (by decide)
  unfold classify
  rw [if_neg (hne ';' (by decide)), hdoubled, hpunctuation]
  simp only [if_neg (hne '"' (by decide)), if_neg (hne '\'' (by decide))]
  unfold startsName at h
  rw [if_pos h]

/-- **A name** in front of a break is a token. -/
theorem kindsOf_name {word rest : List Char} (hc : startsName c = true)
    (hword : ∀ d ∈ word, isWordChar d = true) (hrest : Breaks rest) :
    kindsOf (c :: (word ++ rest)) =
      (if c = '.' then .dotted (String.ofList (c :: word))
        else .ident (String.ofList (c :: word))) :: kindsOf rest := by
  rw [kindsOf_token (isBlank_startsName hc), classify_startsName hc, takeWhile_word hword hrest]
  simp

/-- **A number** in front of a break is a token. -/
theorem kindsOf_number {n : ℕ} (hn : n < numberBound) {rest : List Char} (hrest : Breaks rest) :
    kindsOf (Nat.toDigits 10 n ++ rest) = .number (Int64.ofNat n) :: kindsOf rest := by
  have hnumber := lexemes_number [] (forall_mem_nil _) hn hrest
  rw [nil_append] at hnumber
  rw [kindsOf, hnumber, map_cons]
  rfl

/-! ### The text of an expression -/

/-- A name that is read as it stands: not that of a register, or behind a point. -/
def isLexable (name : String) : Bool :=
  match name.toList with
  | [] => false
  | c :: cs =>
    cs.all isWordChar && (c == '.' || (isLetter c || c == '_') && (Register.ofName? name).isNone)

theorem lexable_cases {name : String} (h : isLexable name = true) :
    ∃ c word, name.toList = c :: word ∧ (∀ d ∈ word, isWordChar d = true) ∧ startsName c = true ∧
      (c ≠ '.' → Register.ofName? name = none) := by
  unfold isLexable at h
  split at h
  · cases h
  · rename_i c word hname
    simp only [Bool.and_eq_true, all_eq_true, Bool.or_eq_true, beq_iff_eq,
      Option.isNone_iff_eq_none] at h
    obtain ⟨hword, hstart⟩ := h
    refine ⟨c, word, hname, hword, ?_, fun hne => ?_⟩
    · simp only [startsName, Bool.or_eq_true, beq_iff_eq]
      tauto
    · exact (hstart.resolve_left hne).2

theorem isLocalName_eq {name : String} {word : List Char} (h : name.toList = c :: word) :
    isLocalName name = (c == '.') := by
  simp [isLocalName, h]

namespace Expr

def isPrintable : Expr → Bool
  | number v => 0 ≤ v.toInt
  | ident name => isLexable name
  | current => true
  | unary _ e => e.isPrintable
  | binary _ l r => l.isPrintable && r.isPrintable

/-- An expression with the parentheses that its text has. -/
def printed : Expr → Writing
  | number v => .number v
  | ident name => if isLocalName name then .dotted name else .name name
  | current => .current
  | unary op e => .unary op e.printed
  | binary op l r => .parens (.binary op l.printed r.printed)

theorem tree_printed (e : Expr) : e.printed.tree = e := by
  induction e with
  | number | current => rfl
  | ident name =>
    unfold printed
    split <;> rfl
  | unary op e ih => rw [printed, Writing.tree, ih]
  | binary op l r ihl ihr => rw [printed, Writing.tree, Writing.tree, ihl, ihr]

theorem six_le_level_printed (e : Expr) : 6 ≤ e.printed.level := by
  cases e with
  | ident name =>
    unfold printed
    split <;> simp [Writing.level]
  | _ => simp [printed, Writing.level]

theorem enough_printed (h : e.isPrintable = true) : e.printed.Enough := by
  induction e with
  | number | current => trivial
  | ident name =>
    obtain ⟨c, word, hname, -, -, hregister⟩ := lexable_cases h
    unfold printed
    rw [isLocalName_eq hname]
    split
    · trivial
    · rename_i hc
      exact hregister (by simpa using hc)
  | unary op e ih => exact ⟨e.six_le_level_printed, ih h⟩
  | binary op l r ihl ihr =>
    obtain ⟨hl, hr⟩ := Bool.and_eq_true_iff.mp h
    have hlt := op.level_lt
    have hleft := l.six_le_level_printed
    have hright := r.six_le_level_printed
    exact ⟨by omega, by omega, ihl hl, ihr hr⟩

theorem toList_text_number {v : Int64} {n : ℕ} (hn : v.toInt = n) :
    (number v).text.toList = Nat.toDigits 10 n := by
  have hdigits : (toString n).toList = Nat.toDigits 10 n := by
    rw [Nat.toString_eq_repr, Nat.toList_repr]
  rw [text, hn]
  exact hdigits

theorem toList_text_binary (op : BinaryOp) (l r : Expr) :
    (binary op l r).text.toList = '(' :: (l.text.toList ++
      ' ' :: (op.text.toList ++ ' ' :: (r.text.toList ++ [')']))) := by
  simp [text]

/-- **The tokens of a text** are those of the printed writing. -/
theorem kindsOf_text (h : e.isPrintable = true) {rest : List Char} (hrest : Breaks rest) :
    kindsOf (e.text.toList ++ rest) = e.printed.tokens ++ kindsOf rest := by
  induction e generalizing rest with
  | number v =>
    have hsign : 0 ≤ v.toInt := by simpa [isPrintable] using h
    obtain ⟨n, hn⟩ := Int.eq_ofNat_of_zero_le hsign
    have hbound : n < numberBound := by
      have hlt := v.toInt_lt
      rw [hn] at hlt
      unfold numberBound
      omega
    have hv : Int64.ofNat n = v := by
      rw [← Int64.ofInt_eq_ofNat, ← hn, Int64.ofInt_toInt]
    rw [toList_text_number hn, kindsOf_number hbound hrest, hv]
    rfl
  | ident name =>
    obtain ⟨c, word, hname, hword, hc, -⟩ := lexable_cases h
    have hofList : String.ofList (c :: word) = name := by rw [← hname, String.ofList_toList]
    rw [text, hname, cons_append, kindsOf_name hc hword hrest, hofList, printed,
      isLocalName_eq hname]
    by_cases hdot : c = '.'
    · simp [hdot, Writing.tokens]
    · simp [hdot, Writing.tokens]
  | current => exact kindsOf_punctuation rfl rest
  | unary op e ih =>
    cases op with
    | neg | not =>
      rw [text, String.toList_append]
      exact (kindsOf_punctuation rfl _).trans (congrArg (_ :: ·) (ih h hrest))
  | binary op l r ihl ihr =>
    obtain ⟨hl, hr⟩ := Bool.and_eq_true_iff.mp h
    have hspace : ∀ cs, Breaks (' ' :: cs) := by
      intro cs c hc
      cases hc
      decide
    have hclose : Breaks (')' :: rest) := by
      intro c hc
      cases hc
      decide
    have htext : (binary op l r).text.toList ++ rest = '(' :: (l.text.toList ++
        ' ' :: (op.text.toList ++ ' ' :: (r.text.toList ++ ')' :: rest))) := by
      simp [toList_text_binary]
    calc kindsOf ((binary op l r).text.toList ++ rest)
        = .leftParen :: (l.printed.tokens ++
            kindsOf (' ' :: (op.text.toList ++ ' ' :: (r.text.toList ++ ')' :: rest)))) := by
          rw [htext, kindsOf_punctuation rfl, ihl hl (hspace _)]
      _ = .leftParen :: (l.printed.tokens ++
            op.token :: (r.printed.tokens ++ kindsOf (')' :: rest))) := by
          rw [kindsOf_blank rfl, kindsOf_operator, kindsOf_blank rfl, ihr hr hclose]
      _ = (binary op l r).printed.tokens ++ kindsOf rest := by
          rw [kindsOf_punctuation rfl]
          simp [printed, Writing.tokens]

theorem noLineEnd_text (h : e.isPrintable = true) : ∀ c ∈ e.text.toList, isLineEnd c = false := by
  have hne : ∀ c, c ≠ '\n' → c ≠ '\r' → isLineEnd c = false := by
    intro c hfeed hreturn
    simp [isLineEnd, hfeed, hreturn]
  have hword : ∀ c, isWordChar c = true ∨ startsName c = true → isLineEnd c = false := by
    intro c hc
    refine hne c ?_ ?_ <;> (rintro rfl; revert hc; decide)
  induction e with
  | number v =>
    have hsign : 0 ≤ v.toInt := by simpa [isPrintable] using h
    obtain ⟨n, hn⟩ := Int.eq_ofNat_of_zero_le hsign
    rw [toList_text_number hn]
    exact fun c hc => ((spells_toDigits n).decimal c hc).2.2.1
  | ident name =>
    obtain ⟨c, word, hname, hchars, hc, -⟩ := lexable_cases h
    rw [text, hname]
    exact forall_mem_cons.mpr ⟨hword c (.inr hc), fun d hd => hword d (.inl (hchars d hd))⟩
  | current => simp [text, isLineEnd]
  | unary op e ih =>
    have hrest := ih h
    cases op with
    | neg | not => simpa [text, isLineEnd] using hrest
  | binary op l r ihl ihr =>
    obtain ⟨hl, hr⟩ := Bool.and_eq_true_iff.mp h
    have hop : ∀ c ∈ op.text.toList, isLineEnd c = false := by
      cases op <;> simp [BinaryOp.text, isLineEnd]
    rw [toList_text_binary]
    simp only [forall_mem_cons, forall_mem_append]
    exact ⟨rfl, ihl hl, rfl, hop, rfl, ihr hr, rfl, by simp⟩

end Expr

/-! ### A list of one expression -/

theorem expectExprs_single {ts : List Token} (h : Derives 0 (ts.map Token.kind) e) :
    expectExprs ts = .ok ([e], []) := by
  obtain ⟨hr, hread⟩ := (exact_parseWithin ts.length ts (within_length ts) e []).mpr
    ⟨ts, by simp, h, stops_nil 0⟩
  unfold expectExprs
  rw [expectExprsWithin]
  simp only [hread]

theorem expectDirective_word (relaxed : Bool) (location : Location) {ts : List Token}
    (h : Derives 0 (ts.map Token.kind) e) :
    expectDirective relaxed ".word" location ts = .ok (.statement (.words [e]), []) := by
  have hlower : ".word".toLower = ".word" := by decide +kernel
  unfold expectDirective
  rw [hlower]
  simp only [expectExprs_single h, bind, Except.bind]
  rfl

theorem tokensOfLine_printed (h : e.isPrintable = true) :
    ∃ ts, tokensOfLine ⟨0, 0, ".word".toList ++ ' ' :: e.text.toList⟩ =
      ⟨.dotted ".word", ⟨0, 0, 0, 5⟩⟩ :: ts ∧ Derives 0 (ts.map Token.kind) e := by
  have hlexemes : lexemes (".word".toList ++ ' ' :: e.text.toList) =
      ⟨[], ".word".toList, .dotted ".word"⟩ :: lexemes (' ' :: e.text.toList) := by
    have hdrop : (".word".toList ++ ' ' :: e.text.toList).dropWhile isBlank =
        '.' :: 'w' :: 'o' :: 'r' :: 'd' :: ' ' :: e.text.toList := rfl
    rw [lexemes_of_token hdrop]
    rfl
  have hkinds : (lexemes (' ' :: e.text.toList)).map Lexeme.kind = e.printed.tokens := by
    calc kindsOf (' ' :: e.text.toList)
        = kindsOf (e.text.toList ++ []) := by rw [kindsOf_blank rfl, append_nil]
      _ = e.printed.tokens ++ kindsOf [] := e.kindsOf_text h breaks_nil
      _ = e.printed.tokens := by rw [kindsOf_nil, append_nil]
  have hderives : Derives 0 e.printed.tokens e := by
    have hprinted := (e.enough_printed h).derives.mono (Nat.zero_le _)
    rwa [e.tree_printed] at hprinted
  refine ⟨locate 0 5 5 (lexemes (' ' :: e.text.toList)), ?_, ?_⟩
  · rw [tokensOfLine_eq, hlexemes]
    rfl
  · rwa [map_kind_locate, hkinds]

/-- **Printed expressions read back**: the text of an expression, as the words of a source, is
read without remarks as that expression. -/
theorem parseSource_printed (switches : Switches) {e : Expr} (h : e.isPrintable = true) :
    parseSource switches (".word " ++ e.text) =
      ([{ id := 0, statement := .words [e], location := ⟨0, 0, 0, 5⟩ }], []) := by
  have htext : (".word " ++ e.text).toList = ".word".toList ++ ' ' :: e.text.toList := by
    rw [String.toList_append]
    rfl
  have hends : ∀ c ∈ (".word " ++ e.text).toList, isLineEnd c = false := by
    have hname : ∀ c ∈ ".word".toList, isLineEnd c = false := by simp [isLineEnd]
    rw [htext]
    exact forall_mem_append.mpr ⟨hname, forall_mem_cons.mpr ⟨rfl, e.noLineEnd_text h⟩⟩
  obtain ⟨ts, htokens, hderives⟩ := tokensOfLine_printed h
  rw [← htext] at htokens
  have hplain : ∀ t ∈ ts, t.kind.inExpr = true :=
    fun t ht => hderives.inExpr _ (mem_map_of_mem ht)
  exact parseSource_directive switches (by rw [htext]; simp) hends htokens hplain
    (expectDirective_word _ _ hderives)

/-- `(-(.loop << 3) + ~--$)`, with a sign in front of each kind of operand. -/
theorem parseSource_printed_signs :
    parseSource {} ".word (-(.loop << 3) + ~--$)" =
      ([{ id := 0
          statement := .words [.binary .add
            (.unary .neg (.binary .shl (.ident ".loop") (.number 3)))
            (.unary .not (.unary .neg (.unary .neg .current)))]
          location := ⟨0, 0, 0, 5⟩ }], []) := by
  obtain ⟨e, he⟩ : ∃ e : Expr, e = .binary .add
      (.unary .neg (.binary .shl (.ident ".loop") (.number 3)))
      (.unary .not (.unary .neg (.unary .neg .current))) := ⟨_, rfl⟩
  have hprintable : e.isPrintable = true := by
    rw [he]
    decide +kernel
  have htext : ".word " ++ e.text = ".word (-(.loop << 3) + ~--$)" := by
    rw [he]
    decide +kernel
  have hread := parseSource_printed {} hprintable
  rwa [htext, he] at hread

end WordAsm
