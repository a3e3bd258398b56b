/-
# Tokens tile the source

A text is cut into lines, and what ends a line is not part of it; a line is cut into tokens, with
blanks between them. Nothing is lost on the way and nothing is met twice: the pieces put together
are the text (`LinesTile`, `Tiles`). Both relations have the text `ahead` of a piece among their
arguments, and every place is stated by it: its length in bytes, its line feeds, and the number of
its characters on the line.
-/
import Mathlib.Data.List.DropRight
import WordAsm.Proofs.Lexemes

namespace WordAsm

open List

variable {ahead front cs : List Char}

theorem count_feed (h : '\n' ∉ cs) : (ahead ++ cs).count '\n' = ahead.count '\n' := by
  rw [count_append, count_eq_zero_of_not_mem h, Nat.add_zero]

theorem utf8Length_pos (h : cs ≠ []) : 0 < utf8Length cs := by
  obtain ⟨c, rest, rfl⟩ := exists_cons_of_ne_nil h
  exact Nat.add_pos_left c.utf8Size_pos (utf8Length rest)

theorem line_of_mem_locate {line : ℕ} {ls : List Lexeme} {offset column : ℕ} :
    ∀ t ∈ locate line offset column ls, t.location.line = line := by
  induction ls generalizing offset column with
  | nil => exact forall_mem_nil _
  | cons l ls ih => exact forall_mem_cons.mpr ⟨rfl, ih⟩

/-! ### Lines -/

/-- The tokens `ts` and the characters `cs` that they are read from, behind `front` on a line that
has the text `ahead` before it: blanks and tokens in turn. -/
inductive Tiles (ahead : List Char) : List Char → List Char → List Token → Prop
  | blank {front cs : List Char} (h : ∀ c ∈ cs, isBlank c = true) : Tiles ahead front cs []
  | token {front blanks text cs : List Char} {t : Token} {ts : List Token}
    (hblanks : ∀ c ∈ blanks, isBlank c = true) (htext : text ≠ [])
    (hplace : t.location = ⟨utf8Length (ahead ++ front ++ blanks),
      (ahead ++ front ++ blanks).count '\n', (front ++ blanks).length, utf8Length text⟩)
    (hrest : Tiles ahead (front ++ blanks ++ text) cs ts) :
    Tiles ahead front (blanks ++ text ++ cs) (t :: ts)

/-- **The tokens of a line** and the blanks between them make up the line. -/
theorem tiles_locate (ahead front : List Char) (hfeed : '\n' ∉ front ++ cs) : Tiles ahead front cs
    (locate (ahead.count '\n') (utf8Length (ahead ++ front)) front.length (lexemes cs)) := by
  induction cs using lexemes.induct generalizing front with
  | case1 cs h =>
    rw [lexemes_of_blank h]
    exact .blank fun c hc => dropWhile_eq_nil_iff.mp h c hc
  | case2 cs c rest h token ih =>
    have hcs : cs = cs.takeWhile isBlank ++ (c :: rest.take token.2) ++ rest.drop token.2 := by
      rw [append_assoc, cons_append, take_append_drop, ← h, takeWhile_append_dropWhile]
    have hblanks : ∀ d ∈ cs.takeWhile isBlank, isBlank d = true := fun d hd => mem_takeWhile_imp hd
    have hrest := ih (front ++ cs.takeWhile isBlank ++ c :: rest.take token.2)
      (by rwa [append_assoc, append_assoc, ← append_assoc (cs.takeWhile isBlank), ← hcs])
    have hbefore : '\n' ∉ front ++ cs.takeWhile isBlank := fun hin =>
      hfeed (append_subset.mpr ⟨subset_append_left _ _, fun d hd =>
        mem_append_right _ (( takeWhile_prefix _).subset hd)⟩ hin)
    rw [lexemes_of_token h, locate]
    generalize cs.takeWhile isBlank = blanks at hcs hblanks hrest hbefore ⊢
    rw [hcs]
    refine .token hblanks (cons_ne_nil _ _) ?_ ?_
    · rw [append_assoc, count_feed hbefore]
      simp [token, Nat.add_assoc]
    · simpa [Nat.add_assoc] using hrest

theorem Tiles.ascending {ts : List Token} (h : Tiles ahead front cs ts) :
    (∀ t ∈ ts, 0 < t.location.length ∧ utf8Length (ahead ++ front) ≤ t.location.offset ∧
      t.location.offset + t.location.length ≤ utf8Length (ahead ++ front ++ cs)) ∧
      ts.Pairwise fun a b => a.location.offset + a.location.length ≤ b.location.offset := by
  induction h with
  | blank => exact ⟨forall_mem_nil _, .nil⟩
  | token _ htext hplace _ ih =>
    obtain ⟨hwithin, hascending⟩ := ih
    simp only [utf8Length_append] at hplace hwithin ⊢
    refine ⟨forall_mem_cons.mpr ⟨?_, fun t ht => ?_⟩,
      pairwise_cons.mpr ⟨fun t ht => ?_, hascending⟩⟩
    · simp only [hplace]
      exact ⟨utf8Length_pos htext, by omega, by omega⟩
    · obtain ⟨hpos, hfrom, hto⟩ := hwithin t ht
      exact ⟨hpos, by omega, by omega⟩
    · have hfrom := (hwithin t ht).2.1
      simp only [hplace]
      omega

/-! ### Texts -/

/-- The lines and the characters `cs` that they are cut from, with `ahead` before them. -/
inductive LinesTile : List Char → List Char → List SourceLine → Prop
  | nil (ahead : List Char) : LinesTile ahead [] []
  | cons {ahead ends cs : List Char} {line : SourceLine} {lines : List SourceLine}
    (hfeed : '\n' ∉ line.text) (hends : ∀ c ∈ ends, isLineEnd c = true)
    (hoffset : line.offset = utf8Length ahead) (hindex : line.index = ahead.count '\n')
    (htokens : Tiles ahead [] line.text (tokensOfLine line))
    (hrest : LinesTile (ahead ++ (line.text ++ ends)) cs lines) :
    LinesTile ahead (line.text ++ ends ++ cs) (line :: lines)

theorem LinesTile.of_mem {lines : List SourceLine} (h : LinesTile ahead cs lines) :
    ∀ line ∈ lines, '\n' ∉ line.text ∧ ∃ before, line.offset = utf8Length before ∧
      Tiles before [] line.text (tokensOfLine line) := by
  induction h with
  | nil => exact forall_mem_nil _
  | cons hfeed _ hoffset _ htokens _ ih =>
    exact forall_mem_cons.mpr ⟨⟨hfeed, _, hoffset, htokens⟩, ih⟩

theorem stripLineEnds_feed (cs : List Char) : stripLineEnds (cs ++ ['\n']) = stripLineEnds cs := by
  unfold stripLineEnds
  rw [reverse_append]
  rfl

theorem stripLineEnds_isPrefixOf (cs : List Char) : stripLineEnds cs <+: cs :=
  rdropWhile_prefix isLineEnd cs

theorem LinesTile.piece {piece : List Char} {lines : List SourceLine}
    (hfeed : '\n' ∉ stripLineEnds piece) (hrest : LinesTile (ahead ++ piece) cs lines) :
    LinesTile ahead (piece ++ cs)
      (⟨ahead.count '\n', utf8Length ahead, stripLineEnds piece⟩ :: lines) := by
  have hpiece : stripLineEnds piece ++ (piece.reverse.takeWhile isLineEnd).reverse = piece := by
    rw [stripLineEnds, ← reverse_append, takeWhile_append_dropWhile, reverse_reverse]
  have hends : ∀ c ∈ (piece.reverse.takeWhile isLineEnd).reverse, isLineEnd c = true := fun c hc =>
    mem_takeWhile_imp (mem_reverse.mp hc)
  let line : SourceLine := ⟨ahead.count '\n', utf8Length ahead, stripLineEnds piece⟩
  have htiles : Tiles ahead [] line.text (tokensOfLine line) := by
    have htokens := tiles_locate ahead [] hfeed
    rw [append_nil] at htokens
    rwa [tokensOfLine_eq]
  have hrest : LinesTile (ahead ++ (line.text ++ _)) cs lines := hpiece.symm ▸ hrest
  have hline := LinesTile.cons hfeed hends rfl rfl htiles hrest
  rwa [hpiece] at hline

theorem linesTile_splitLines (ahead cs : List Char) : LinesTile ahead cs
    (numberLines (ahead.count '\n') (utf8Length ahead) (splitLines cs)) := by
  fun_induction splitLines cs generalizing ahead with
  | case1 cs _ hempty =>
    rw [isEmpty_iff.mp hempty]
    exact .nil _
  | case2 cs hnone _ =>
    have hfeed : '\n' ∉ stripLineEnds cs := fun hin => by
      simpa using dropWhile_eq_nil_iff.mp hnone _ ((stripLineEnds_isPrefixOf cs).subset hin)
    simpa [numberLines] using LinesTile.piece hfeed (.nil (ahead ++ cs))
  | case3 cs c rest hcons ih =>
    obtain rfl : c = '\n' := by
      have hhead := head?_dropWhile_not (· != '\n') cs
      rw [hcons] at hhead
      simpa using hhead
    have hfeed : '\n' ∉ stripLineEnds (cs.takeWhile (· != '\n') ++ ['\n']) := by
      rw [stripLineEnds_feed]
      exact fun hin => by simpa using mem_takeWhile_imp ((stripLineEnds_isPrefixOf _).subset hin)
    have hcs : cs.takeWhile (· != '\n') ++ ['\n'] ++ rest = cs := by
      rw [append_assoc, singleton_append, ← hcons, takeWhile_append_dropWhile]
    have hrest := ih (ahead ++ (cs.takeWhile (· != '\n') ++ ['\n']))
    have hcount : (cs.takeWhile (· != '\n')).count '\n' = 0 :=
      count_eq_zero_of_not_mem fun hin => by simpa using mem_takeWhile_imp hin
    have hlines := LinesTile.piece hfeed hrest
    rw [hcs] at hlines
    simpa [numberLines, hcount, Nat.add_assoc] using hlines

theorem linesTile_sourceLines (text : String) : LinesTile [] text.toList (sourceLines text) :=
  linesTile_splitLines [] text.toList

theorem tokensOfLine_ascending {text : String} {line : SourceLine} (h : line ∈ sourceLines text) :
    (∀ t ∈ tokensOfLine line, 0 < t.location.length ∧ line.offset ≤ t.location.offset ∧
      t.location.offset + t.location.length ≤ line.offset + utf8Length line.text) ∧
      (tokensOfLine line).Pairwise fun a b =>
        a.location.offset + a.location.length ≤ b.location.offset := by
  obtain ⟨-, before, hoffset, htokens⟩ := (linesTile_sourceLines text).of_mem line h
  simpa [← hoffset] using htokens.ascending

/-- **Tokens tile the source**: lines and their ends make up the text, tokens and blanks make up a
line, and every line and token is at the place that the text ahead of it says. So tokens are not
empty, lie within their line, and none reaches into the next. -/
theorem tokens_tile_source (text : String) :
    LinesTile [] text.toList (sourceLines text) ∧
      ∀ line ∈ sourceLines text,
        (∀ t ∈ tokensOfLine line, 0 < t.location.length ∧ line.offset ≤ t.location.offset ∧
          t.location.offset + t.location.length ≤ line.offset + utf8Length line.text) ∧
          (tokensOfLine line).Pairwise fun a b =>
            a.location.offset + a.location.length ≤ b.location.offset :=
  ⟨linesTile_sourceLines text, fun _ => tokensOfLine_ascending⟩

end WordAsm
