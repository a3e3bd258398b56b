/-
# Where macro definitions end

While a macro is being defined, a line either ends the definition or is added to the body as
it is. Which of the two is decided by the first five characters behind the blanks, but the
lexer decides about the same thing: those characters are `.endm` in some letter case exactly
if the first token of the line is a dotted name that starts so (`closesMacro_iff`). The name
may go on behind them, so that a line with `.endmacro` ends a definition too.
-/
import WordAsm.Proofs.IncludeScan
import WordAsm.Proofs.LenientReading
import WordAsm.Proofs.PrintedExprs
import WordAsm.Proofs.Spelling

namespace WordAsm

open List

variable {cs : List Char} {st : ParserState} {m : OpenMacro} {switches : Switches} {depth : ℕ}

/-! ### The first token of a line -/

theorem readLines_append (read : LineReader) (st : ParserState) (front back : List SourceLine) :
    readLines read st (front ++ back) =
      ((readLines read (readLines read st front).1 back).1,
        (readLines read st front).2 ++ (readLines read (readLines read st front).1 back).2) := by
  induction front generalizing st with
  | nil => simp [readLines]
  | cons line front ih => simp [readLines, ih]

theorem readLines_single (read : LineReader) (st : ParserState) (line : SourceLine) :
    readLines read st [line] = read st line := by
  simp [readLines]

theorem toLower_cases (c : Char) : isLetter c = true ∧ isLetter c.toLower = true ∨
    isLetter c = false ∧ c.toLower = c := by
  delta Char.toLower
  split
  · rename_i h
    have hlow : 65 ≤ c.val.toNat := h.1
    have hhigh : c.val.toNat ≤ 90 := h.2
    have hshift : (c.val + ('a'.val - 'A'.val)).toNat = c.val.toNat + 32 := by
      rw [UInt32.toNat_add]
      exact Nat.mod_eq_of_lt (by change _ + 32 < _; omega)
    simp only [isLetter, Char.le_def, UInt32.le_iff_toNat_le, hshift, Bool.or_eq_true,
      Bool.and_eq_true, decide_eq_true_eq]
    exact .inl ⟨.inr h, .inl ⟨Nat.add_le_add_right hlow 32, Nat.add_le_add_right hhigh 32⟩⟩
  · cases isLetter c <;> simp

theorem toList_toLower (s : String) : s.toLower.toList = s.toList.map Char.toLower :=
  String.toList_map

theorem isWordChar_of_toLower {c : Char} (h : isLetter c.toLower = true) : isWordChar c = true := by
  rcases toLower_cases c with ⟨hc, -⟩ | ⟨-, hc⟩
  · simp [isWordChar, hc]
  · rw [hc] at h
    simp [isWordChar, h]

/-- Where only characters of a word are mapped to those at the front, it is a word that starts
so. -/
theorem prefix_map_takeWhile {f : Char → Char} {p : Char → Bool} {front : List Char}
    (h : ∀ c, f c ∈ front → p c = true) :
    front <+: cs.map f ↔ front <+: (cs.takeWhile p).map f := by
  induction front generalizing cs with
  | nil => simp
  | cons d front ih =>
    cases cs with
    | nil => simp
    | cons c cs =>
      rw [map_cons, cons_prefix_cons, ih fun c hc => h c (mem_cons_of_mem _ hc)]
      constructor
      · rintro ⟨rfl, hfront⟩
        rw [takeWhile_cons_of_pos (h c mem_cons_self), map_cons]
        exact cons_prefix_cons.mpr ⟨rfl, hfront⟩
      · intro hfront
        by_cases hc : p c = true
        · rw [takeWhile_cons_of_pos hc, map_cons] at hfront
          exact cons_prefix_cons.mp hfront
        · rw [takeWhile_cons_of_neg hc] at hfront
          simp at hfront

theorem head?_kindsOf (cs : List Char) :
    (kindsOf cs).head? = (trimStart cs).head?.map fun c => (classify c (trimStart cs).tail).1 := by
  unfold kindsOf trimStart
  cases hcs : cs.dropWhile isBlank with
  | nil => simp [lexemes_of_blank hcs]
  | cons c rest => simp [lexemes_of_token hcs]

/-- **A line ends a definition** exactly if its first token is a dotted name that starts with
`.endm`, in any letter case. -/
theorem closesMacro_iff (cs : List Char) : closesMacro cs = true ↔
    ∃ name more, (kindsOf cs).head? = some (.dotted name) ∧ name.toLower = ".endm" ++ more := by
  have hword : ∀ c : Char, c.toLower ∈ ['e', 'n', 'd', 'm'] → isWordChar c = true := by
    intro c hc
    refine isWordChar_of_toLower ?_
    simp only [mem_cons, not_mem_nil, or_false] at hc
    rcases hc with hc | hc | hc | hc <;> rw [hc] <;> decide
  have hcloses : closesMacro cs = true ↔
      ['.', 'e', 'n', 'd', 'm'] <+: (trimStart cs).map Char.toLower := by
    rw [closesMacro, beq_iff_eq, map_take, eq_comm, prefix_iff_eq_take]
    rfl
  rw [hcloses, head?_kindsOf]
  cases trimStart cs with
  | nil => simp
  | cons c rest =>
    rw [map_cons, cons_prefix_cons, prefix_map_takeWhile hword]
    simp only [head?_cons, tail_cons, Option.map_some, Option.some.injEq]
    constructor
    · rintro ⟨hpoint, more, hmore⟩
      obtain rfl : c = '.' := by
        rcases toLower_cases c with ⟨-, hc⟩ | ⟨-, hc⟩
        · rw [← hpoint] at hc
          exact absurd hc (by decide)
        · exact hc.symm.trans hpoint.symm
      refine ⟨_, String.ofList more, congrArg Prod.fst (classify_startsName rfl rest), ?_⟩
      rw [← String.toList_inj]
      simp [toList_toLower, ← hmore]
    · rintro ⟨name, more, hkind, hname⟩
      rcases classify_cases c rest with ⟨hcomment, -⟩ | ⟨-, -, hdotted⟩
      · rw [hkind] at hcomment
        cases hcomment
      · obtain ⟨rfl, rfl⟩ := hdotted name hkind
        have hlower := congrArg String.toList hname
        simp only [toList_toLower, String.toList_ofList, map_cons,
          String.toList_append] at hlower
        exact ⟨rfl, more.toList, (List.cons.inj hlower).2.symm⟩

/-! ### Lines of a definition -/

theorem readLine_of_pending (switches : Switches) (depth : ℕ) (hm : st.pending = some m)
    (line : SourceLine) : readLine switches depth st line = collectLine st m line.text := by
  cases depth <;> simp only [readLine, readLineWith, hm]

def OpenMacro.extended (m : OpenMacro) (lines : List SourceLine) : OpenMacro :=
  { m with body := m.body ++ lines.map fun line => String.ofList line.text }

/-- **Lines that do not end the definition** are added to it one after the other. -/
theorem readLines_of_open (hm : st.pending = some m) {lines : List SourceLine}
    (hopen : ∀ line ∈ lines, closesMacro line.text = false) :
    readLines (readLine switches depth) st lines =
      ({ st with pending := some (m.extended lines) }, []) := by
  induction lines generalizing st m with
  | nil =>
    cases st
    simp_all [readLines, OpenMacro.extended]
  | cons line lines ih =>
    obtain ⟨hline, hlines⟩ := forall_mem_cons.mp hopen
    rw [readLines, readLine_of_pending switches depth hm, collectLine, hline,
      if_neg Bool.false_ne_true]
    simp only
    rw [ih rfl hlines]
    simp [OpenMacro.extended]

/-- The first token of the line is a dotted name that starts with `.endm`, in any letter case. -/
def SourceLine.EndsMacro (line : SourceLine) : Prop :=
  ∃ t name more, (tokensOfLine line).head? = some t ∧ t.kind = .dotted name ∧
    name.toLower = ".endm" ++ more

theorem SourceLine.endsMacro_iff (line : SourceLine) :
    line.EndsMacro ↔ closesMacro line.text = true := by
  have hhead : (kindsOf line.text).head? = (tokensOfLine line).head?.map Token.kind := by
    rw [kindsOf, ← map_kind_tokensOfLine, head?_map]
  rw [closesMacro_iff, hhead]
  simp only [Option.map_eq_some_iff, SourceLine.EndsMacro]
  constructor
  · rintro ⟨t, name, more, ht, hkind, hname⟩
    exact ⟨name, more, ⟨t, ht, hkind⟩, hname⟩
  · rintro ⟨name, more, ⟨t, ht, hkind⟩, hname⟩
    exact ⟨t, name, more, ht, hkind, hname⟩

/-- **A macro definition ends** at the first line whose first token is a dotted name that starts
with `.endm`, in any letter case. The lines ahead of that one are its body, unchanged. A name
that is longer than `.endm` ends a definition as well. -/
theorem macro_ends_at_endm (switches : Switches) (depth : ℕ) (hm : st.pending = some m) :
    (∀ line : SourceLine,
      (line.EndsMacro → readLine switches depth st line =
        (⟨(m.name, m.body) :: st.macros, none⟩,
          [.statement (.macroDef m.name m.body) m.location])) ∧
      (¬ line.EndsMacro → readLine switches depth st line =
        ({ st with pending := some { m with body := m.body ++ [String.ofList line.text] } }, []))) ∧
    (∀ lines : List SourceLine, (∀ line ∈ lines, ¬ line.EndsMacro) →
      readLines (readLine switches depth) st lines =
        ({ st with pending := some (m.extended lines) }, [])) ∧
    ∀ (body : List SourceLine) (last : SourceLine) (behind : List SourceLine),
      (∀ line ∈ body, ¬ line.EndsMacro) → last.EndsMacro →
      readLines (readLine switches depth) st (body ++ last :: behind) =
        let after := readLines (readLine switches depth)
          ⟨(m.name, (m.extended body).body) :: st.macros, none⟩ behind
        (after.1, .statement (.macroDef m.name (m.extended body).body) m.location :: after.2) := by
  have hline : ∀ {st : ParserState} {m : OpenMacro}, st.pending = some m → ∀ line : SourceLine,
      line.EndsMacro → readLine switches depth st line = (⟨(m.name, m.body) :: st.macros, none⟩,
        [.statement (.macroDef m.name m.body) m.location]) := by
    intro st m hm line hends
    rw [readLine_of_pending switches depth hm, collectLine, if_pos (line.endsMacro_iff.mp hends)]
  have hlines : ∀ lines : List SourceLine, (∀ line ∈ lines, ¬ line.EndsMacro) →
      readLines (readLine switches depth) st lines =
        ({ st with pending := some (m.extended lines) }, []) := fun lines hopen =>
    readLines_of_open hm fun line hmem =>
      Bool.eq_false_iff.mpr fun hcloses => hopen line hmem (line.endsMacro_iff.mpr hcloses)
  refine ⟨fun line => ⟨hline hm line, fun hopen => ?_⟩, hlines, fun body last behind hopen hends => ?_⟩
  · rw [readLine_of_pending switches depth hm, collectLine,
      if_neg fun hcloses => hopen (line.endsMacro_iff.mpr hcloses)]
  · rw [readLines_append, hlines body hopen, ← singleton_append, readLines_append,
      readLines_single, hline rfl last hends]
    rfl

/-- A definition that goes on behind a label, a comment and a longer word ends at `.EndM`. -/
theorem macro_ends_at_endm_spelled :
    ∃ (body : List SourceLine) (last : SourceLine),
      body.map SourceLine.text = ["endm: nop".toList, "; .endm".toList, "_.endm".toList] ∧
      last.text = "\t.EndM ; done".toList ∧
      readLines (readLine {} 0) { pending := some ⟨"M", ⟨0, 0, 0, 6⟩, []⟩ } (body ++ [last]) =
        ({ macros := [("M", ["endm: nop", "; .endm", "_.endm"])] },
          [.statement (.macroDef "M" ["endm: nop", "; .endm", "_.endm"]) ⟨0, 0, 0, 6⟩]) := by
  refine ⟨[⟨1, 9, "endm: nop".toList⟩, ⟨2, 19, "; .endm".toList⟩, ⟨3, 27, "_.endm".toList⟩],
    ⟨4, 34, "\t.EndM ; done".toList⟩, rfl, rfl, ?_⟩
  refine ((macro_ends_at_endm {} 0 rfl).2.2 _ _ [] ?_ ?_).trans (by decide +kernel)
  · simp only [SourceLine.endsMacro_iff]
    decide +kernel
  · rw [SourceLine.endsMacro_iff]
    decide +kernel

/-- The directive `.endmacro` is none, but it ends the definition, and `.endm` is left alone. -/
theorem longer_name_ends_macro :
    kindsOf ".endmacro".toList = [.dotted ".endmacro"] ∧
      (parseSource {} ".macro M\n.endmacro\nnop\n.endm\n").1.map Node.statement =
        [.macroDef "M" [], .instruction .nop .zero none] ∧
      (parseSource {} ".macro M\n.endmacro\nnop\n.endm\n").2.map Marker.message =
        ["`.endm` without `.macro`"] := by
  decide +kernel

end WordAsm
