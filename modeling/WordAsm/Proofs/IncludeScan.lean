/-
# Includes that are parsed are found by the scan

A source is read twice: once token by token, for the paths it includes, and once
statement by statement. The scan may find more, but it misses nothing: an include that
the parser reads stands in some line of the text as `.include` and a string behind it
(`Mentions`), and the scan finds every such place.

Macros are why a line matters and not its place: the body of a macro is read where it
is called, but its lines are lines of the text (`ParserState.Within`).
-/
import WordAsm.Proofs.Lexemes
import WordAsm.Proofs.Queue
import WordAsm.Proofs.Sources

namespace WordAsm

open List

variable {path : String}

/-- The tokens have `.include`, in any case, with the string `path` right behind it. -/
def MentionedIn (path : String) (kinds : List TokenKind) : Prop :=
  ∃ name, name.toLower = ".include" ∧ [TokenKind.dotted name, .str path] <:+: kinds

/-- The line has an include of `path` in it. -/
def Mentions (text : List Char) (path : String) : Prop :=
  MentionedIn path ((lexemes text).map Lexeme.kind)

/-! ### The scan -/

theorem map_kind_locate (line offset column : ℕ) (ls : List Lexeme) :
    (locate line offset column ls).map Token.kind = ls.map Lexeme.kind := by
  induction ls generalizing offset column with
  | nil => rfl
  | cons l ls ih => rw [locate, map_cons, map_cons, ih]

theorem map_kind_tokensOfLine (line : SourceLine) :
    (tokensOfLine line).map Token.kind = (lexemes line.text).map Lexeme.kind := by
  rw [tokensOfLine_eq, map_kind_locate]

theorem scanTokens_keeps (found : Declared) (ts : List Token) :
    found.includes ⊆ (scanTokens found ts).includes := by
  fun_induction scanTokens found ts with
  | case1 found name location t ts path hkind hname ih =>
    exact fun entry hentry => ih (mem_append_left _ hentry)
  | case2 found name location t ts v hkind hname hnone ih => exact ih
  | case3 found name location t ts v hkind hname hsome ih => exact ih
  | case4 found name location t ts _ _ ih => exact ih
  | case5 found t ts _ ih => exact ih
  | case6 found => exact List.Subset.refl _

theorem mentionedIn_cons {kind : TokenKind} {kinds : List TokenKind} :
    MentionedIn path (kind :: kinds) ↔
      (∃ name rest, name.toLower = ".include" ∧ kind = .dotted name ∧ kinds = .str path :: rest) ∨
        MentionedIn path kinds := by
  constructor
  · rintro ⟨name, hname, hinfix⟩
    rcases infix_cons_iff.mp hinfix with hprefix | hinfix
    · obtain ⟨rest, hrest⟩ := hprefix
      obtain ⟨rfl, rfl⟩ := List.cons.inj hrest
      exact .inl ⟨name, rest, hname, rfl, rfl⟩
    · exact .inr ⟨name, hname, hinfix⟩
  · rintro (⟨name, rest, hname, rfl, rfl⟩ | ⟨name, hname, hinfix⟩)
    · exact ⟨name, hname, ⟨[], rest, rfl⟩⟩
    · exact ⟨name, hname, infix_cons hinfix⟩

/-- **The scan of a line** finds every path that the line mentions. The tokens it skips
behind a directive are strings and numbers, so none of them starts a mention. -/
theorem scanTokens_finds (found : Declared) (ts : List Token)
    (h : MentionedIn path (ts.map Token.kind)) :
    path ∈ (scanTokens found ts).includes.map Prod.fst := by
  fun_induction scanTokens found ts with
  | case1 found name location t ts p hkind hname ih =>
    rw [map_cons, map_cons, mentionedIn_cons, mentionedIn_cons, hkind] at h
    rcases h with ⟨_, _, -, -, hnext⟩ | ⟨_, _, -, hdotted, -⟩ | h
    · obtain ⟨hp, -⟩ := List.cons.inj hnext
      cases hp
      refine mem_map.mpr ⟨(path, location), ?_, rfl⟩
      exact scanTokens_keeps _ ts (mem_append_right _ (mem_singleton_self _))
    · cases hdotted
    · exact ih h
  | case2 found name location t ts v hkind hname hnone ih =>
    rw [map_cons, map_cons, mentionedIn_cons, mentionedIn_cons, hkind] at h
    rcases h with ⟨_, _, -, -, hnext⟩ | ⟨_, _, -, hdotted, -⟩ | h
    · cases (List.cons.inj hnext).1
    · cases hdotted
    · exact ih h
  | case3 found name location t ts v hkind hname hsome ih =>
    rw [map_cons, map_cons, mentionedIn_cons, hkind] at h
    rcases h with ⟨_, _, -, -, hnext⟩ | h
    · cases (List.cons.inj hnext).1
    · refine ih ?_
      rw [map_cons, hkind]
      exact h
  | case4 found name location t ts hinclude horg ih =>
    rw [map_cons, mentionedIn_cons] at h
    rcases h with ⟨name', _, hname', hdotted, hnext⟩ | h
    · cases hdotted
      exact absurd (List.cons.inj hnext).1 (hinclude path hname')
    · exact ih h
  | case5 found t ts hlone ih =>
    rw [map_cons, mentionedIn_cons] at h
    rcases h with ⟨name, rest, -, hdotted, hnext⟩ | h
    · obtain ⟨next, ts', rfl, -, -⟩ := map_eq_cons_iff.mp hnext
      exact absurd rfl (hlone name t.location next ts' (by rw [← hdotted]))
    · exact ih h
  | case6 found =>
    obtain ⟨name, -, hinfix⟩ := h
    exact absurd (eq_nil_of_infix_nil hinfix) (cons_ne_nil _ _)

/-- **The scan of a text** finds every path that a line of it mentions. -/
theorem scanSource_finds {text : String} (h : ∃ line ∈ sourceLines text, Mentions line.text path) :
    path ∈ (scanSource text).includes.map Prod.fst := by
  have hkeeps : ∀ (lines : List SourceLine) (found : Declared), found.includes ⊆
      (lines.foldl (fun found line => scanTokens found (tokensOfLine line)) found).includes := by
    intro lines
    induction lines with
    | nil => exact fun found => List.Subset.refl _
    | cons line lines ih =>
      exact fun found => List.Subset.trans (scanTokens_keeps found _) (ih _)
  obtain ⟨line, hline, hmentions⟩ := h
  unfold scanSource
  obtain ⟨front, back, hsplit⟩ := append_of_mem hline
  rw [hsplit, foldl_append, foldl_cons]
  generalize front.foldl (fun found line => scanTokens found (tokensOfLine line)) {} = found
  have hhere : path ∈ (scanTokens found (tokensOfLine line)).includes.map Prod.fst := by
    refine scanTokens_finds found _ ?_
    rw [map_kind_tokensOfLine]
    exact hmentions
  obtain ⟨entry, hentry, hpath⟩ := mem_map.mp hhere
  exact mem_map.mpr ⟨entry, hkeeps back _ hentry, hpath⟩

/-! ### The tokens of a statement -/

/-- A comment takes the rest of its line, and a name starts with a letter, an underscore or a
point. -/
theorem classify_cases (c : Char) (cs : List Char) :
    (classify c cs).1.isComment = true ∧ (classify c cs).2 = cs.length ∨
      (classify c cs).1.isComment = false ∧
        (∀ name, (classify c cs).1 = .ident name → (isLetter c || c == '_') = true ∧
          name = String.ofList (c :: cs.takeWhile isWordChar)) ∧
        ∀ name, (classify c cs).1 = .dotted name →
          c = '.' ∧ name = String.ofList ('.' :: cs.takeWhile isWordChar) := by
  unfold classify
  split
  · exact .inl ⟨rfl, rfl⟩
  · refine .inr ?_
    split
    · rename_i kind hdoubled
      unfold doubled? at hdoubled
      split at hdoubled
      · split at hdoubled
        · cases hdoubled
          exact ⟨rfl, nofun, nofun⟩
        · split at hdoubled <;> cases hdoubled
          exact ⟨rfl, nofun, nofun⟩
      · cases hdoubled
    · split
      · rename_i kind hpunctuation
        unfold punctuation? at hpunctuation
        split at hpunctuation <;> cases hpunctuation <;> exact ⟨rfl, nofun, nofun⟩
      · split
        · split <;> exact ⟨rfl, nofun, nofun⟩
        · split
          · split <;> exact ⟨rfl, nofun, nofun⟩
          · split
            · rename_i hstart
              split
              · rename_i hpoint
                refine ⟨rfl, nofun, fun name hname => ?_⟩
                cases hname
                exact ⟨hpoint, hpoint ▸ rfl⟩
              · rename_i hpoint
                refine ⟨rfl, fun name hname => ?_, nofun⟩
                cases hname
                simpa [hpoint] using hstart
            · split
              · simp only [numberToken]
                split <;> exact ⟨rfl, nofun, nofun⟩
              · exact ⟨rfl, nofun, nofun⟩

theorem lexemes_before_comment (cs : List Char) :
    ((lexemes cs).map Lexeme.kind).filter (fun kind => !kind.isComment) <+:
      (lexemes cs).map Lexeme.kind := by
  fun_induction lexemes cs with
  | case1 cs h => exact prefix_refl _
  | case2 cs c rest h token ih =>
    rw [map_cons, filter_cons]
    split
    · exact prefix_cons_inj _ |>.mpr ih
    · rename_i hcomment
      have hall : token.2 = rest.length := by
        rcases classify_cases c rest with ⟨-, hall⟩ | ⟨hno, -⟩
        · exact hall
        · exact absurd hno (by simpa using hcomment)
      have hnothing : lexemes (rest.drop token.2) = [] := by
        rw [hall, drop_length, lexemes]
        rfl
      rw [hnothing]
      exact nil_prefix

theorem mentions_of_suffix {line : SourceLine} {ts : List Token}
    (hts : ts <:+ (tokensOfLine line).filter fun t => !t.kind.isComment)
    (h : MentionedIn path (ts.map Token.kind)) : Mentions line.text path := by
  obtain ⟨name, hname, hinfix⟩ := h
  refine ⟨name, hname, hinfix.trans ?_⟩
  have hkinds : ((tokensOfLine line).filter fun t => !t.kind.isComment).map Token.kind =
      ((lexemes line.text).map Lexeme.kind).filter fun kind => !kind.isComment := by
    rw [← map_kind_tokensOfLine, filter_map]
    rfl
  have hfront : ts.map Token.kind <:+:
      ((lexemes line.text).map Lexeme.kind).filter fun kind => !kind.isComment :=
    hkinds ▸ (hts.map Token.kind).isInfix
  exact hfront.trans (lexemes_before_comment line.text).isInfix

/-! ### Lines of the text -/

def Item.Within (lines : List (List Char)) (i : Item) : Prop :=
  ∀ path location, i = .statement (.includes path) location → ∃ text ∈ lines, Mentions text path

/-- The macros known, and the one being defined, are made up of the lines. -/
structure ParserState.Within (lines : List (List Char)) (st : ParserState) : Prop where
  macros : ∀ entry ∈ st.macros, ∀ text ∈ entry.2, text.toList ∈ lines
  pending : ∀ m, st.pending = some m → ∀ text ∈ m.body, text.toList ∈ lines

section Lines

variable {lines : List (List Char)}

theorem mentioned_of_expectDirective {relaxed : Bool} {name path : String} {location : Location}
    {ts rest : List Token}
    (h : expectDirective relaxed name location ts = .ok (.statement (.includes path), rest)) :
    MentionedIn path (.dotted name :: ts.map Token.kind) := by
  rcases expectDirective_cases h with ⟨_, he⟩ | ⟨_, _, -, he⟩ | ⟨hname, t, p, rfl, hkind, he⟩ |
    ⟨_, -, he⟩ | ⟨_, -, -, he⟩ | he <;> cases he
  exact mentionedIn_cons.mpr (.inl ⟨name, _, hname, rfl, by rw [map_cons, hkind]⟩)

theorem ParserState.Within.collectLine {st : ParserState} (hst : st.Within lines) {m : OpenMacro}
    (hm : st.pending = some m) {text : List Char} (htext : text ∈ lines) :
    (collectLine st m text).1.Within lines := by
  unfold WordAsm.collectLine
  split
  · refine ⟨fun entry hentry => ?_, fun m' hm' => by cases hm'⟩
    rcases mem_cons.mp hentry with rfl | hentry
    · exact hst.pending m hm
    · exact hst.macros entry hentry
  · refine ⟨hst.macros, fun m' hm' t ht => ?_⟩
    cases hm'
    rcases mem_append.mp ht with ht | ht
    · exact hst.pending m hm t ht
    · rw [mem_singleton.mp ht, String.toList_ofList]
      exact htext

/-- **Reading adds nothing to the lines.** -/
theorem upholding_within (lines : List (List Char)) :
    Upholding (· ∈ lines) (·.Within lines) (·.Within lines) where
  marker _ _ _ _ _ he := by cases he
  label _ _ _ _ he := by cases he
  instruction _ hok _ _ he := by
    obtain ⟨a, b, rfl, -⟩ := expectInstruction_eq hok
    cases he
  directive hline hts hkind hok path place he := by
    cases he
    refine ⟨_, hline, mentions_of_suffix hts ?_⟩
    rw [map_cons, hkind]
    exact mentioned_of_expectDirective hok
  opens _ _ hst := ⟨hst.macros, fun m hm => by cases hm; simp⟩
  collects hst hm htext := hst.collectLine hm htext
  definition _ _ _ _ he := by cases he
  bodies hst hbody := hst.macros _ (mem_of_lookup hbody)

end Lines

/-! ### Texts -/

theorem within_new (lines : List (List Char)) : ({} : ParserState).Within lines :=
  ⟨by simp, fun m hm => by cases hm⟩

/-- **An include that is read** is mentioned in a line of the text. -/
theorem readSource_within (switches : Switches) (text : String) :
    ∀ i ∈ readSource switches text, i.Within ((sourceLines text).map SourceLine.text) :=
  (upholding_within _).readSource (within_new _) fun _ hline => mem_map_of_mem hline

/-- **What is parsed was scanned**: the scan finds the path of every include that the
parser reads, whatever the switches. -/
theorem scanned_of_parsed {switches : Switches} {text : String} {n : Node}
    (hn : n ∈ (parseSource switches text).1) (hs : n.statement = .includes path) :
    path ∈ (scanSource text).includes.map Prod.fst := by
  obtain ⟨location, hitem⟩ := mem_nodesFrom hn
  rw [hs] at hitem
  obtain ⟨line, hline, hmentions⟩ := readSource_within switches text _ hitem path location rfl
  obtain ⟨l, hl, rfl⟩ := mem_map.mp hline
  exact scanSource_finds ⟨l, hl, hmentions⟩

end WordAsm
