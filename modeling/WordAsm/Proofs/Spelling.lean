/-
# Names as sources spell them

The lexer knows two kinds of names: words, and words behind a point. So a label that is no
word is a local one, and equations and macros have words for names (`Statement.Spelled`). The
name of a macro is seen to when its definition is opened, which is the only way that a name
comes to be known (`ParserState.Named`).
-/
import Mathlib.Data.List.TakeWhile
import WordAsm.Proofs.IncludeScan

namespace WordAsm

open List

variable {cs : List Char} {name : String}

/-- Whether the lexer takes a name for one: a letter or an underscore, then word characters. -/
def isWord (name : String) : Bool :=
  match name.toList with
  | [] => false
  | c :: cs => (isLetter c || c == '_') && cs.all isWordChar

theorem point_of_isWord (h : isWord name = true) : '.' ∉ name.toList := by
  unfold isWord at h
  split at h
  · cases h
  · rename_i c word hname
    simp only [Bool.and_eq_true, all_eq_true] at h
    rw [hname]
    intro hpoint
    rcases mem_cons.mp hpoint with rfl | hpoint
    · exact absurd h.1 (by decide)
    · exact absurd (h.2 _ hpoint) (by decide)

/-! ### Tokens -/

def TokenKind.Spelled : TokenKind → Prop
  | ident name => isWord name = true
  | dotted name => isLocalName name = true
  | _ => True

theorem spelled_classify (c : Char) (cs : List Char) : (classify c cs).1.Spelled := by
  cases hkind : (classify c cs).1
  case ident name =>
    rcases classify_cases c cs with ⟨hcomment, -⟩ | ⟨-, hword, -⟩
    · rw [hkind] at hcomment
      cases hcomment
    · obtain ⟨hfirst, rfl⟩ := hword name hkind
      simp only [TokenKind.Spelled, isWord, String.toList_ofList, hfirst, Bool.true_and,
        all_eq_true]
      exact fun _ hd => mem_takeWhile_imp hd
  case dotted name =>
    rcases classify_cases c cs with ⟨hcomment, -⟩ | ⟨-, -, hpoint⟩
    · rw [hkind] at hcomment
      cases hcomment
    · obtain ⟨-, rfl⟩ := hpoint name hkind
      simp [TokenKind.Spelled, isLocalName]
  all_goals trivial

theorem spelled_lexemes : ∀ l ∈ lexemes cs, l.kind.Spelled := by
  fun_induction lexemes cs with
  | case1 => exact forall_mem_nil _
  | case2 cs c rest _ token ih => exact forall_mem_cons.mpr ⟨spelled_classify c rest, ih⟩

theorem SourceLine.spelled {line : SourceLine} {t : Token} (ht : t ∈ line.spoken) :
    t.kind.Spelled := by
  have hkind : t.kind ∈ (lexemes line.text).map Lexeme.kind := by
    rw [← map_kind_tokensOfLine]
    exact mem_map_of_mem (mem_of_mem_filter ht)
  obtain ⟨l, hl, hlt⟩ := mem_map.mp hkind
  exact hlt ▸ spelled_lexemes l hl

/-! ### Statements -/

def Statement.Spelled : Statement → Prop
  | label name => isLocalName name = true ∨ isWord name = true
  | equation name _ | macroDef name _ => isWord name = true
  | _ => True

def Item.Spelled : Item → Prop
  | statement s _ => s.Spelled
  | marker _ => True

/-- The macros known, and the one being defined, have words for names that are no mnemonics. -/
structure ParserState.Named (st : ParserState) : Prop where
  macros : ∀ entry ∈ st.macros, isWord entry.1 = true ∧ Opcode.ofMnemonic? entry.1 = none
  pending : ∀ m, st.pending = some m → isWord m.name = true ∧ Opcode.ofMnemonic? m.name = none

theorem named_new : ({} : ParserState).Named :=
  ⟨by simp, fun m hm => by cases hm⟩

theorem ParserState.Named.collectLine {st : ParserState} {m : OpenMacro} (h : st.Named)
    (hm : st.pending = some m) (text : List Char) : (collectLine st m text).1.Named := by
  unfold WordAsm.collectLine
  split
  · exact ⟨forall_mem_cons.mpr ⟨h.pending m hm, h.macros⟩, fun m' hm' => by cases hm'⟩
  · refine ⟨h.macros, fun m' hm' => ?_⟩
    cases hm'
    exact h.pending m hm

/-- **Lines, however deep their macros nest**, spell names as the lexer does. -/
theorem upholding_named : Upholding (fun _ => True) ParserState.Named Item.Spelled where
  marker _ _ _ := trivial
  label hts hlabel := by
    obtain ⟨kind, place, rfl, hkind⟩ := label?_eq_some hlabel
    have hspelled := SourceLine.spelled (hts.subset mem_cons_self)
    rcases hkind with rfl | rfl
    · exact .inr hspelled
    · exact .inl hspelled
  instruction _ hok := by
    obtain ⟨a, b, rfl, -⟩ := expectInstruction_eq hok
    trivial
  directive _ hts _ hok := by
    rcases expectDirective_cases hok with ⟨_, he⟩ | ⟨_, _, ⟨t, ht, hkind⟩, he⟩ |
      ⟨-, _, _, -, -, he⟩ | ⟨_, -, he⟩ | ⟨_, -, -, he⟩ | he <;> cases he
    case inr.inl =>
      have hspelled := SourceLine.spelled (hts.subset (mem_cons_of_mem _ ht))
      rwa [hkind] at hspelled
    all_goals trivial
  opens hts hok hst := by
    rcases expectDirective_cases hok with ⟨_, he⟩ | ⟨_, _, -, he⟩ | ⟨-, _, _, -, -, he⟩ |
      ⟨_, -, he⟩ | ⟨_, ⟨t, ht, hkind⟩, hfree, he⟩ | he <;> cases he
    have hspelled := SourceLine.spelled (hts.subset (mem_cons_of_mem _ ht))
    rw [hkind] at hspelled
    refine ⟨hst.macros, fun m hm => ?_⟩
    cases hm
    exact ⟨hspelled, hfree⟩
  collects hst hm _ := hst.collectLine hm _
  definition hst hm := (hst.pending _ hm).1
  bodies _ _ _ _ := trivial

/-- **Names of symbols** are spelled as their kinds ask for. -/
theorem SourceUnit.source_spelled (switches : Switches) (tree : FileTree) (u : SourceUnit) :
    ∀ n ∈ u.source switches tree, n.statement.Spelled := by
  intro n hn
  unfold source at hn
  split at hn
  · obtain ⟨location, hitem⟩ := mem_nodesFrom hn
    exact upholding_named.readSource named_new (fun _ _ => trivial) _ hitem
  · cases hn

end WordAsm
