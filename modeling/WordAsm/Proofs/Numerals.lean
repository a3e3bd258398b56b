/-
# Number literals

A number literal is digits of a base, perhaps behind the mark of that base. Digits are stated as
the characters that numbers are printed with, in either letter case, and their value as
`Nat.ofDigits` (`Spells`). A word that starts with a digit is one token, and the number is read
from the word without its underscores (`number_literals_have_value`). In particular the digits of
a number are read as that number.

The text of an origin at a number has that origin for its one statement (`parseSource_origin`).
The text is followed all the way from its characters, as one line of two tokens. What does not
depend on the directive is said for any text of one line (`parseSource_directive`).
-/
import WordAsm.Proofs.ExprGrammar
import WordAsm.Proofs.TokenPlaces
import WordAsm.Source.Parser
import Mathlib.Data.List.Forall2
import Mathlib.Data.Nat.Digits.Defs
import Mathlib.Tactic.IntervalCases
import Mathlib.Tactic.Ring

namespace WordAsm

open List

variable {rest cs word : List Char} {radix n v : ℕ} {c : Char}

/-! ### Digits -/

/-- The character is the digit of value `v`, in either letter case. -/
def IsDigitOf (radix : ℕ) (c : Char) (v : ℕ) : Prop :=
  v < radix ∧ (c = Nat.digitChar v ∨ c = (Nat.digitChar v).toUpper)

theorem isDigitOf_iff (hradix : radix ≤ 16) :
    IsDigitOf radix c v ↔ digitValue? c = some v ∧ v < radix := by
  constructor
  · rintro ⟨hv, h⟩
    have hlt : v < 16 := by omega
    refine ⟨?_, hv⟩
    rcases h with rfl | rfl <;> interval_cases v <;> decide
  · rintro ⟨h, hv⟩
    refine ⟨hv, ?_⟩
    have hlt : v < 16 := by omega
    have hcode : c.toNat = v + 48 ∧ v ≤ 9 ∨ c.toNat = v + 87 ∧ 10 ≤ v ∨
        c.toNat = v + 55 ∧ 10 ≤ v := by
      unfold digitValue? at h
      split_ifs at h with hdigit hlow hhigh <;> cases h
      · have hl : 48 ≤ c.toNat := hdigit.1
        have hh : c.toNat ≤ 57 := hdigit.2
        omega
      · have hl : 97 ≤ c.toNat := hlow.1
        omega
      · have hl : 65 ≤ c.toNat := hhigh.1
        omega
    rw [← c.ofNat_toNat]
    rcases hcode with ⟨hc, hv⟩ | ⟨hc, hv⟩ | ⟨hc, hv⟩ <;> rw [hc] <;> interval_cases v <;> decide

/-- The characters are digits, one or more, and `n` is their value in the base `radix`. -/
def Spells (radix : ℕ) (cs : List Char) (n : ℕ) : Prop :=
  cs ≠ [] ∧ ∃ vs, Forall₂ (IsDigitOf radix) cs vs ∧ Nat.ofDigits radix vs.reverse = n

theorem digitsFrom?_iff (hradix : radix ≤ 16) {acc : ℕ} : digitsFrom? radix acc cs = some n ↔
    ∃ vs, Forall₂ (IsDigitOf radix) cs vs ∧
      Nat.ofDigits radix vs.reverse + radix ^ cs.length * acc = n := by
  induction cs generalizing acc with
  | nil => simp [digitsFrom?]
  | cons c cs ih =>
    have hstep : digitsFrom? radix acc (c :: cs) = some n ↔
        ∃ v, IsDigitOf radix c v ∧ digitsFrom? radix (acc * radix + v) cs = some n := by
      simp only [isDigitOf_iff hradix, digitsFrom?]
      cases digitValue? c with
      | none => simp
      | some v => by_cases hv : v < radix <;> simp [hv]
    have hvalue : ∀ v vs, Forall₂ (IsDigitOf radix) cs vs →
        Nat.ofDigits radix (v :: vs).reverse + radix ^ (c :: cs).length * acc =
          Nat.ofDigits radix vs.reverse + radix ^ cs.length * (acc * radix + v) := by
      intro v vs hvs
      rw [reverse_cons, Nat.ofDigits_append, Nat.ofDigits_singleton, length_reverse,
        ← hvs.length_eq, length_cons]
      ring
    simp only [hstep, ih, forall₂_cons_left_iff]
    constructor
    · rintro ⟨v, hv, vs, hvs, rfl⟩
      exact ⟨_, ⟨v, vs, hv, hvs, rfl⟩, hvalue v vs hvs⟩
    · rintro ⟨_, ⟨v, vs, hv, hvs, rfl⟩, rfl⟩
      exact ⟨v, hv, vs, hvs, (hvalue v vs hvs).symm⟩

theorem digitsValue?_iff (hradix : radix ≤ 16) :
    digitsValue? radix cs = some n ↔ Spells radix cs n := by
  cases cs with
  | nil => simp [digitsValue?, Spells]
  | cons c cs => simp [digitsValue?, Spells, digitsFrom?_iff hradix]

theorem Spells.forall_mem {P : Char → Prop} (h : Spells radix cs n)
    (hP : ∀ c v, IsDigitOf radix c v → P c) : ∀ c ∈ cs, P c := by
  obtain ⟨-, vs, hvs, -⟩ := h
  induction hvs with
  | nil => exact forall_mem_nil _
  | cons hv _ ih => exact forall_mem_cons.mpr ⟨hP _ _ hv, ih⟩

theorem IsDigitOf.decimal (h : IsDigitOf 10 c v) : isDigit c = true ∧ isWordChar c = true ∧
    isLineEnd c = false ∧ c ∉ ['_', 'b', 'B', 'o', 'O', 'x', 'X'] := by
  obtain ⟨hlt, rfl | rfl⟩ := h <;> interval_cases v <;> decide

theorem Spells.decimal (h : Spells 10 cs n) : ∀ c ∈ cs, isDigit c = true ∧ isWordChar c = true ∧
    isLineEnd c = false ∧ c ∉ ['_', 'b', 'B', 'o', 'O', 'x', 'X'] :=
  h.forall_mem fun _ _ hv => hv.decimal

/-- **The digits of a number spell it.** -/
theorem spells_toDigits (n : ℕ) : Spells 10 (Nat.toDigits 10 n) n := by
  refine ⟨Nat.toDigits_ne_nil, ?_⟩
  induction n using Nat.strongRecOn with
  | ind n ih =>
    have hdigit : IsDigitOf 10 (Nat.digitChar (n % 10)) (n % 10) :=
      ⟨Nat.mod_lt _ (by omega), .inl rfl⟩
    rw [Nat.toDigits_eq_if (by omega)]
    split
    · rename_i hn
      rw [Nat.mod_eq_of_lt hn] at hdigit
      exact ⟨[n], .cons hdigit .nil, Nat.ofDigits_singleton ..⟩
    · obtain ⟨vs, hvs, hvalue⟩ := ih (n / 10) (by omega)
      refine ⟨vs ++ [n % 10], rel_append hvs (.cons hdigit .nil), ?_⟩
      rw [reverse_concat, Nat.ofDigits_cons, hvalue]
      exact Nat.mod_add_div n 10

/-! ### Literals -/

/-- The bases of number literals, with what stands in front of the digits. -/
def baseMarks : List (ℕ × List Char) :=
  [(10, []), (2, ['0', 'b']), (2, ['0', 'B']), (8, ['0', 'o']), (8, ['0', 'O']), (16, ['0', 'x']),
    (16, ['0', 'X'])]

/-- The characters are a number literal of value `n`. -/
def IsLiteral (cs : List Char) (n : ℕ) : Prop :=
  ∃ base ∈ baseMarks, ∃ digits, cs = base.2 ++ digits ∧ Spells base.1 digits n

theorem radix_le {base : ℕ × List Char} (h : base ∈ baseMarks) : base.1 ≤ 16 := by
  revert base
  decide

theorem IsDigitOf.wordChar (hradix : radix ≤ 16) (h : IsDigitOf radix c v) :
    isWordChar c = true := by
  obtain ⟨hv, h⟩ := h
  have hlt : v < 16 := by omega
  rcases h with rfl | rfl <;> interval_cases v <;> decide

theorem IsLiteral.wordChars (h : IsLiteral cs n) : ∀ c ∈ cs, isWordChar c = true := by
  obtain ⟨base, hbase, digits, rfl, hdigits⟩ := h
  have hmarks : ∀ base ∈ baseMarks, base.2.all isWordChar = true := by decide
  exact forall_mem_append.mpr ⟨all_eq_true.mp (hmarks base hbase),
    hdigits.forall_mem fun _ _ hv => hv.wordChar (radix_le hbase)⟩

theorem signedValue?_of_word (h : ∀ c ∈ cs, isWordChar c = true) : signedValue? radix cs =
      (digitsValue? radix cs).bind fun n => if n < numberBound then some (.ofNat n) else none := by
  unfold signedValue?
  split
  · exact absurd (h _ mem_cons_self) (by decide)
  · exact absurd (h _ mem_cons_self) (by decide)
  · rfl

theorem parseNumber?_of_literal (h : IsLiteral cs n) :
    parseNumber? cs = if n < numberBound then some (.ofNat n) else none := by
  obtain ⟨base, hbase, digits, rfl, hdigits⟩ := h
  have hvalue : signedValue? base.1 digits = if n < numberBound then some (.ofNat n) else none := by
    rw [signedValue?_of_word (hdigits.forall_mem fun _ _ hv => hv.wordChar (radix_le hbase)),
      (digitsValue?_iff (radix_le hbase)).mpr hdigits, Option.bind_some]
  rw [← hvalue]
  simp only [baseMarks, mem_cons, not_mem_nil, or_false] at hbase
  rcases hbase with rfl | rfl | rfl | rfl | rfl | rfl | rfl
  · -- behind a digit there is a digit, and no mark of another base
    unfold parseNumber?
    split
    · rename_i mark cs heq
      have hsame : digits = '0' :: mark :: cs := heq
      have hmark := (hdigits.decimal mark (by simp [hsame])).2.2.2
      simp only [mem_cons, not_or] at hmark
      simp only [hmark, or_self, if_false]
      rw [← heq]
      rfl
    · rfl
  all_goals rfl

theorem isLiteral_of_parseNumber? (hcs : ∀ c ∈ cs, isWordChar c = true) {value : Int64}
    (h : parseNumber? cs = some value) : ∃ n, IsLiteral cs n := by
  have hread : ∀ base ∈ baseMarks, ∀ digits, cs = base.2 ++ digits →
      signedValue? base.1 digits = some value → ∃ n, IsLiteral cs n := by
    intro base hbase digits hsplit hsigned
    rw [signedValue?_of_word fun c hc => hcs c (hsplit ▸ mem_append_right _ hc)] at hsigned
    obtain ⟨n, hn, -⟩ := Option.bind_eq_some_iff.mp hsigned
    exact ⟨n, base, hbase, digits, hsplit, (digitsValue?_iff (radix_le hbase)).mp hn⟩
  unfold parseNumber? at h
  split at h
  · split_ifs at h with hb ho hx
    · rcases hb with rfl | rfl <;> exact hread (2, ['0', _]) (by decide) _ rfl h
    · rcases ho with rfl | rfl <;> exact hread (8, ['0', _]) (by decide) _ rfl h
    · rcases hx with rfl | rfl <;> exact hread (16, ['0', _]) (by decide) _ rfl h
    · exact hread (10, []) (by decide) _ rfl h
  · exact hread (10, []) (by decide) _ rfl h

/-! ### Numbers among characters -/

theorem lexemes_nil : lexemes [] = [] := lexemes_of_blank rfl

/-- A name or number in front of these characters ends there. -/
def Breaks (cs : List Char) : Prop := ∀ c ∈ cs.head?, isWordChar c = false

theorem breaks_nil : Breaks [] := by simp [Breaks]

theorem takeWhile_word (hword : ∀ c ∈ word, isWordChar c = true) (hrest : Breaks rest) :
    (word ++ rest).takeWhile isWordChar = word := by
  rw [takeWhile_append_of_pos hword]
  cases rest with
  | nil => simp
  | cons c rest =>
    have hc : isWordChar c = false := hrest c rfl
    simp [hc]

theorem classify_digit (hc : isDigit c = true) (cs : List Char) : isBlank c = false ∧
    classify c cs = (numberToken (c :: cs.takeWhile isWordChar),
      (cs.takeWhile isWordChar).length) := by
  have hvalue : digitValue? c = some (c.toNat - 48) := by
    unfold isDigit at hc
    rw [digitValue?, if_pos (by simpa using hc)]
  have hlt : c.toNat - 48 < 10 := by
    have hle : c.toNat ≤ 57 := (by simpa [isDigit] using hc : '0' ≤ c ∧ c ≤ '9').2
    omega
  obtain ⟨-, h⟩ := (isDigitOf_iff (by omega)).mpr ⟨hvalue, hlt⟩
  generalize c.toNat - 48 = k at hlt h
  rcases h with rfl | rfl <;> interval_cases k <;> cases cs <;> exact ⟨rfl, rfl⟩

/-- **A word that starts with a digit** is one token. -/
theorem lexemes_word {blanks : List Char} (hblanks : ∀ c ∈ blanks, isBlank c = true)
    (hc : isDigit c = true) (hword : ∀ d ∈ word, isWordChar d = true) (hrest : Breaks rest) :
    lexemes (blanks ++ c :: (word ++ rest)) =
      ⟨blanks, c :: word, numberToken (c :: word)⟩ :: lexemes rest := by
  obtain ⟨hblank, hclass⟩ := classify_digit hc (word ++ rest)
  rw [takeWhile_word hword hrest] at hclass
  have hdrop : (blanks ++ c :: (word ++ rest)).dropWhile isBlank = c :: (word ++ rest) := by
    rw [dropWhile_append_of_pos hblanks, dropWhile_cons_of_neg (by simp [hblank])]
  have htake : (blanks ++ c :: (word ++ rest)).takeWhile isBlank = blanks := by
    rw [takeWhile_append_of_pos hblanks, takeWhile_cons_of_neg (by simp [hblank]), append_nil]
  rw [lexemes_of_token hdrop, htake, hclass, take_left, drop_left]

theorem numberToken_of_literal (h : IsLiteral (word.filter (· != '_')) n) :
    numberToken word = if n < numberBound then .number (.ofNat n)
      else .error ("invalid number `" ++ String.ofList (word.filter (· != '_')) ++ "`") := by
  unfold numberToken
  simp only [parseNumber?_of_literal h]
  split_ifs <;> rfl

theorem lexemes_number (blanks : List Char) (hblanks : ∀ c ∈ blanks, isBlank c = true)
    (hn : n < numberBound) (hrest : Breaks rest) :
    lexemes (blanks ++ (Nat.toDigits 10 n ++ rest)) =
      ⟨blanks, Nat.toDigits 10 n, .number (Int64.ofNat n)⟩ :: lexemes rest := by
  have hdigits := (spells_toDigits n).decimal
  have hspace : (Nat.toDigits 10 n).filter (· != '_') = Nat.toDigits 10 n :=
    filter_eq_self.mpr fun c hc => bne_iff_ne.mpr fun he =>
      (hdigits c hc).2.2.2 (he ▸ mem_cons_self)
  have htoken : numberToken (Nat.toDigits 10 n) = .number (Int64.ofNat n) := by
    rw [numberToken_of_literal (n := n), if_pos hn]
    exact ⟨(10, []), by decide, _, hspace, spells_toDigits n⟩
  rw [← htoken]
  obtain ⟨c, word, heq⟩ := exists_cons_of_ne_nil (Nat.toDigits_ne_nil (n := n) (b := 10))
  rw [heq] at hdigits ⊢
  exact lexemes_word hblanks (hdigits c mem_cons_self).1
    (fun d hd => (hdigits d (mem_cons_of_mem _ hd)).2.1) hrest

theorem IsLiteral.spaced (h : IsLiteral (word.filter (· != '_')) n)
    (hfirst : word.head? ≠ some '_') :
    ∃ c more, word = c :: more ∧ isDigit c = true ∧ ∀ d ∈ more, isWordChar d = true := by
  have hword : ∀ d ∈ word, isWordChar d = true := by
    intro d hd
    by_cases hspace : d = '_'
    · subst hspace
      decide
    · exact h.wordChars d (mem_filter.mpr ⟨hd, bne_iff_ne.mpr hspace⟩)
  obtain ⟨base, hbase, digits, hsplit, hdigits⟩ := h
  have hstart : ∃ c cs, base.2 ++ digits = c :: cs ∧ isDigit c = true := by
    simp only [baseMarks, mem_cons, not_mem_nil, or_false] at hbase
    rcases hbase with rfl | rfl | rfl | rfl | rfl | rfl | rfl
    · obtain ⟨c, cs, rfl⟩ := exists_cons_of_ne_nil hdigits.1
      exact ⟨c, cs, rfl, (hdigits.decimal c mem_cons_self).1⟩
    all_goals exact ⟨_, _, rfl, rfl⟩
  obtain ⟨c, cs, hcs, hc⟩ := hstart
  cases word with
  | nil => cases hsplit.trans hcs
  | cons d more =>
    have hd : (d != '_') = true := bne_iff_ne.mpr fun he => hfirst (he ▸ rfl)
    rw [filter_cons_of_pos (p := (· != '_')) hd, hcs] at hsplit
    exact ⟨d, more, rfl, (cons.inj hsplit).1 ▸ hc, fun e he => hword e (mem_cons_of_mem _ he)⟩

/-- **Number literals have their positional value.** A literal of any base, with underscores
behind its first character, is one token: the number if it is below `2 ^ 63`, and an error
otherwise. Every other word that starts with a digit is one token too, an error. -/
theorem number_literals_have_value :
    (∀ (n : ℕ) (blanks word rest : List Char), IsLiteral (word.filter (· != '_')) n →
      word.head? ≠ some '_' → (∀ c ∈ blanks, isBlank c = true) → Breaks rest →
      ∃ message, lexemes (blanks ++ (word ++ rest)) = ⟨blanks, word,
        if n < 2 ^ 63 then .number (.ofNat n) else .error message⟩ :: lexemes rest) ∧
    ∀ (c : Char) (blanks word rest : List Char), isDigit c = true →
      (∀ d ∈ word, isWordChar d = true) → (∀ n, ¬ IsLiteral ((c :: word).filter (· != '_')) n) →
      (∀ c ∈ blanks, isBlank c = true) → Breaks rest →
      ∃ message, lexemes (blanks ++ c :: (word ++ rest)) =
        ⟨blanks, c :: word, .error message⟩ :: lexemes rest := by
  constructor
  · intro n blanks word rest hliteral hfirst hblanks hrest
    obtain ⟨c, more, rfl, hc, hmore⟩ := hliteral.spaced hfirst
    rw [cons_append, lexemes_word hblanks hc hmore hrest, numberToken_of_literal hliteral]
    exact ⟨_, rfl⟩
  · intro c blanks word rest hc hword hnone hblanks hrest
    have hchars : ∀ d ∈ (c :: word).filter (· != '_'), isWordChar d = true := fun d hd =>
      forall_mem_cons.mpr ⟨by simp [isWordChar, hc], hword⟩ d (mem_of_mem_filter hd)
    have hparse : parseNumber? ((c :: word).filter (· != '_')) = none := by
      refine Option.eq_none_iff_forall_ne_some.mpr fun value hvalue => ?_
      obtain ⟨n, hn⟩ := isLiteral_of_parseNumber? hchars hvalue
      exact hnone n hn
    rw [lexemes_word hblanks hc hword hrest, numberToken]
    simp only [hparse]
    exact ⟨_, rfl⟩

/-- `0X_01f_F` is 511 in front of a parenthesis, and `9_z` is no number. -/
theorem number_literals_have_value_spaced :
    (∃ message, lexemes "0X_01f_F)".toList = ⟨[], "0X_01f_F".toList,
      if 511 < 2 ^ 63 then .number 511 else .error message⟩ :: lexemes [')']) ∧
    ∃ message, lexemes " 9_z".toList = [⟨[' '], "9_z".toList, .error message⟩] := by
  constructor
  · refine number_literals_have_value.1 511 [] "0X_01f_F".toList [')'] ?_ (by decide)
      (forall_mem_nil _) (by simp [Breaks]; decide)
    refine ⟨(16, ['0', 'X']), by decide, ['0', '1', 'f', 'F'], by decide, by decide,
      [0, 1, 15, 15], ?_, by decide⟩
    simp [IsDigitOf]
    decide
  · have hnone : ∀ n, ¬ IsLiteral ("9_z".toList.filter (· != '_')) n := by
      rintro n ⟨base, hbase, digits, hsplit, hdigits⟩
      simp only [baseMarks, mem_cons, not_mem_nil, or_false] at hbase
      rcases hbase with rfl | rfl | rfl | rfl | rfl | rfl | rfl
      · obtain rfl : ['9', 'z'] = digits := hsplit
        exact absurd (hdigits.decimal 'z' (by decide)).1 (by decide)
      all_goals cases hsplit
    obtain ⟨message, h⟩ := number_literals_have_value.2 '9' [' '] ['_', 'z'] [] (by decide)
      (all_eq_true.mp rfl) hnone (all_eq_true.mp rfl) breaks_nil
    exact ⟨message, h.trans (by rw [lexemes_nil]; rfl)⟩

/-! ### Texts of one line -/

theorem sourceLines_single {text : String} (hne : text.toList ≠ [])
    (h : ∀ c ∈ text.toList, isLineEnd c = false) : sourceLines text = [⟨0, 0, text.toList⟩] := by
  have hfeed : text.toList.dropWhile (· != '\n') = [] := by
    refine dropWhile_eq_nil_iff.mpr fun c hc => ?_
    have hend := h c hc
    unfold isLineEnd at hend
    rw [Bool.or_eq_false_iff] at hend
    simp [bne, hend.1]
  have hpieces : splitLines text.toList = [text.toList] := by
    rw [splitLines]
    split
    · simp [hne]
    · rename_i heq
      rw [hfeed] at heq
      cases heq
  have hstrip : stripLineEnds text.toList = text.toList := by
    unfold stripLineEnds
    have hback : text.toList.reverse.dropWhile isLineEnd = text.toList.reverse := by
      cases hrev : text.toList.reverse with
      | nil => rfl
      | cons c cs =>
        have hc := h c (mem_reverse.mp (hrev ▸ mem_cons_self))
        rw [dropWhile_cons_of_neg (by simp [hc])]
    rw [hback, reverse_reverse]
  unfold sourceLines
  rw [hpieces, numberLines, hstrip, numberLines]

theorem readTokens_directive {switches : Switches} {nested : Option LineReader} {st : ParserState}
    {eol location : Location} {name : String} {ts : List Token} {s : Statement}
    (hplain : ∀ t ∈ ts, t.kind.inExpr = true)
    (h : expectDirective (switches.has .relaxedParsing) name location ts = .ok (.statement s, [])) :
    readTokens switches nested st eol (⟨.dotted name, location⟩ :: ts) =
      (st, [.statement s location]) := by
  have herror : (⟨.dotted name, location⟩ :: ts).find? (fun t => t.kind.isError) = none := by
    refine List.find?_eq_none.mpr (forall_mem_cons.mpr ⟨by simp [TokenKind.isError], ?_⟩)
    intro t ht
    simp [(TokenKind.of_inExpr (hplain t ht)).1]
  have hlabel : label? (⟨.dotted name, location⟩ :: ts) = none := by
    unfold label?
    split
    · rename_i heq
      cases heq
    · rename_i heq
      obtain ⟨-, rfl⟩ := List.cons.inj heq
      exact absurd rfl (TokenKind.of_inExpr (hplain _ mem_cons_self)).2.2
    · rfl
  simp only [readTokens, herror, hlabel, readBody, readStatement, readDirective, h, tailItems,
    append_nil]

/-- **A text of one directive**, with operands that expressions are made of, has its statement and
no remarks. -/
theorem parseSource_directive (switches : Switches) {text : String} (hne : text.toList ≠ [])
    (hends : ∀ c ∈ text.toList, isLineEnd c = false) {name : String} {location : Location}
    {ts : List Token} (htokens : tokensOfLine ⟨0, 0, text.toList⟩ = ⟨.dotted name, location⟩ :: ts)
    (hplain : ∀ t ∈ ts, t.kind.inExpr = true) {s : Statement}
    (h : expectDirective (switches.has .relaxedParsing) name location ts = .ok (.statement s, [])) :
    parseSource switches text = ([{ id := 0, statement := s, location }], []) := by
  have hcomment : (⟨.dotted name, location⟩ :: ts).filter (fun t => !t.kind.isComment) =
      ⟨.dotted name, location⟩ :: ts := by
    refine filter_eq_self.mpr (forall_mem_cons.mpr ⟨rfl, fun t ht => ?_⟩)
    simp [(TokenKind.of_inExpr (hplain t ht)).2.1]
  unfold parseSource readSource
  simp only [sourceLines_single hne hends, readLines, maxExpansion, readLine, readLineWith, htokens,
    hcomment, readTokens_directive hplain h]
  rfl

/-! ### The text of an origin -/

theorem lexemes_origin (hn : n < numberBound) :
    lexemes (".org".toList ++ ' ' :: Nat.toDigits 10 n) =
      [⟨[], ".org".toList, .dotted ".org"⟩,
        ⟨[' '], Nat.toDigits 10 n, .number (Int64.ofNat n)⟩] := by
  have hdrop : (".org".toList ++ ' ' :: Nat.toDigits 10 n).dropWhile isBlank =
      '.' :: 'o' :: 'r' :: 'g' :: ' ' :: Nat.toDigits 10 n := rfl
  have hclass : classify '.' ('o' :: 'r' :: 'g' :: ' ' :: Nat.toDigits 10 n) =
      (.dotted ".org", 3) := rfl
  have hnumber := lexemes_number [' '] (forall_mem_singleton.mpr rfl) hn breaks_nil
  rw [append_nil, lexemes_nil] at hnumber
  rw [lexemes_of_token hdrop, hclass, ← hnumber]
  rfl

theorem expectExpr_number (v : Int64) (location : Location) :
    expectExpr [⟨.number v, location⟩] = .ok (.number v, []) := by
  simp [expectExpr, parseExpr, parseWithin, Precedence.levels, parseLevels, parseUnary, sign?,
    parsePrimary, parseChain]

theorem expectDirective_origin (relaxed : Bool) (location : Location) {v : Int64}
    {place : Location} :
    expectDirective relaxed ".org" location [⟨.number v, place⟩] =
      .ok (.statement (.origin (.number v)), []) := by
  have hlower : ".org".toLower = ".org" := by decide +kernel
  unfold expectDirective
  rw [hlower]
  simp only [expectExpr_number, bind, Except.bind]
  rfl

/-- **The text of an origin at a number** has that origin for its one statement. -/
theorem parseSource_origin (switches : Switches) (hn : n < numberBound) :
    ∃ location, parseSource switches (".org " ++ toString n) =
      ([{ id := 0, statement := .origin (.number (Int64.ofNat n)), location }], []) := by
  have htext : (".org " ++ toString n).toList = ".org".toList ++ ' ' :: Nat.toDigits 10 n := by
    rw [String.toList_append, Nat.toString_eq_repr, Nat.toList_repr]
    rfl
  have hdigits : ∀ c ∈ Nat.toDigits 10 n, isLineEnd c = false := fun c hc =>
    ((spells_toDigits n).decimal c hc).2.2.1
  have hends : ∀ c ∈ (".org " ++ toString n).toList, isLineEnd c = false := by
    rw [htext]
    have hname : ∀ c ∈ ".org".toList, isLineEnd c = false := by
      simp [isLineEnd]
    exact forall_mem_append.mpr ⟨hname, forall_mem_cons.mpr ⟨rfl, hdigits⟩⟩
  obtain ⟨location, place, htokens⟩ : ∃ location place,
      tokensOfLine ⟨0, 0, (".org " ++ toString n).toList⟩ =
        [⟨.dotted ".org", location⟩, ⟨.number (Int64.ofNat n), place⟩] := by
    rw [tokensOfLine_eq, htext, lexemes_origin hn]
    exact ⟨_, _, rfl⟩
  exact ⟨location, parseSource_directive switches (by rw [htext]; simp) hends htokens
    (forall_mem_singleton.mpr rfl) (expectDirective_origin _ location)⟩

end WordAsm
