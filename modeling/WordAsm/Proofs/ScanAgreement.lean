/-
# The scan and the parser agree

Units are put in order by what the scan finds in their tokens, and built from what the
parser reads. On a source that is read without remarks and defines no macros the two
agree, line by line (`readLines_stated`): no macro is ever open, since it would be
defined later or missed at the end.

The includes are the same, with their places. An origin is declared by the number right
behind it, so what counts is how its operand is written: `.org 256` declares an address,
`.org (256)` does not, although it is read as the same number. What the scan makes of an
operand that begins with a number and goes on (`Node.runsOn`) is not part of the
agreement. How an operand is written is looked up in the text, at the place of its
statement (`operandsAt`).
-/
import WordAsm.Proofs.StatedLines
import WordAsm.Proofs.TokenPlaces

namespace WordAsm

open List

variable {n : Node} {text : String}

/-! ### Comments and places -/

theorem isChain_of_marks {ts : List Token} (h : ∀ t ∈ ts, t.kind.isMark = true) :
    (ts.map Token.kind).IsChain Apart := by
  induction ts with
  | nil => exact .nil
  | cons t ts ih =>
    obtain ⟨ht, hts⟩ := forall_mem_cons.mp h
    exact isChain_mark_cons ht (ih hts)

theorem scanTokens_append_comments (found : Declared) (ts : List Token) {back : List Token}
    (hback : ∀ t ∈ back, t.kind.isComment = true) :
    scanTokens found (ts ++ back) = scanTokens found ts := by
  have hmark : ∀ t ∈ back, t.kind.isMark = true := by
    intro t ht
    have hcomment := hback t ht
    cases hkind : t.kind <;> simp_all [TokenKind.isComment, TokenKind.isMark]
  fun_induction scanTokens found ts with
  | case1 found name location t ts path hkind hname ih =>
    rw [cons_append, cons_append, scanTokens]
    simp only [hname, hkind, ih]
  | case2 found name location t ts v hkind hname hnone ih =>
    rw [cons_append, cons_append, scanTokens]
    simp only [hname, hkind, hnone, if_true, ih]
  | case3 found name location t ts v hkind hname hsome ih =>
    rw [cons_append, cons_append, scanTokens]
    simp only [hname, hkind, hsome]
    exact ih
  | case4 found name location t ts hinclude horg ih =>
    rw [cons_append, cons_append, scanTokens]
    split
    · rename_i path hname hkind
      exact absurd hkind (hinclude path hname)
    · rename_i v hname hkind
      exact absurd hkind (horg v hname)
    · exact ih
  | case5 found t ts hlone ih =>
    rw [cons_append, scanTokens_cons found, ih]
    intro name hkind
    right
    cases ts with
    | nil => exact fun t' ht' => hmark t' (mem_of_mem_head? ht')
    | cons next ts => exact absurd rfl (hlone name t.location next ts (by rw [← hkind]))
  | case6 found => exact scanTokens_of_apart found (isChain_of_marks hmark)

theorem append_of_filter_prefix {p : TokenKind → Bool} (ts : List Token)
    (h : (ts.map Token.kind).filter p <+: ts.map Token.kind) :
    ∃ back, ts = (ts.filter fun t => p t.kind) ++ back ∧ ∀ t ∈ back, p t.kind = false := by
  induction ts with
  | nil => exact ⟨[], rfl, by simp⟩
  | cons t ts ih =>
    rw [map_cons] at h
    by_cases hp : p t.kind = true
    · rw [filter_cons_of_pos hp, prefix_cons_inj] at h
      obtain ⟨back, hts, hback⟩ := ih h
      refine ⟨back, ?_, hback⟩
      rw [filter_cons, if_pos hp, cons_append, ← hts]
    · -- what is left passes the filter, so it cannot start with this token
      rw [filter_cons_of_neg hp] at h
      have hnone : (ts.map Token.kind).filter p = [] := by
        cases hleft : (ts.map Token.kind).filter p with
        | nil => rfl
        | cons kind kinds =>
          rw [hleft] at h
          obtain ⟨rfl, -⟩ := cons_prefix_cons.mp h
          have hmem : t.kind ∈ (ts.map Token.kind).filter p := hleft ▸ mem_cons_self
          exact absurd (mem_filter.mp hmem).2 hp
      have hall : ∀ t' ∈ t :: ts, p t'.kind = false := by
        refine forall_mem_cons.mpr ⟨by simpa using hp, fun t' ht' => ?_⟩
        have hnot := filter_eq_nil_iff.mp hnone _ (mem_map_of_mem ht')
        simpa using hnot
      refine ⟨t :: ts, ?_, hall⟩
      have hfilter : (t :: ts).filter (fun t => p t.kind) = [] := by
        refine filter_eq_nil_iff.mpr fun t' ht' => ?_
        simp [hall t' ht']
      rw [hfilter, nil_append]

def readableTokens (line : SourceLine) : List Token :=
  (tokensOfLine line).filter fun t => !t.kind.isComment

theorem scanTokens_readable (found : Declared) (line : SourceLine) :
    scanTokens found (tokensOfLine line) = scanTokens found (readableTokens line) := by
  have hprefix : ((tokensOfLine line).map Token.kind).filter (fun kind => !kind.isComment) <+:
      (tokensOfLine line).map Token.kind := by
    rw [map_kind_tokensOfLine]
    exact lexemes_before_comment line.text
  obtain ⟨back, hline, hback⟩ := append_of_filter_prefix _ hprefix
  have hcomments : ∀ t ∈ back, t.kind.isComment = true := fun t ht => by simpa using hback t ht
  calc scanTokens found (tokensOfLine line)
      = scanTokens found (readableTokens line ++ back) := congrArg _ hline
    _ = scanTokens found (readableTokens line) := scanTokens_append_comments found _ hcomments

theorem getElem?_numberLines {first offset : ℕ} {pieces : List (List Char)} :
    ∀ line ∈ numberLines first offset pieces,
      ∃ i, line.index = first + i ∧ (numberLines first offset pieces)[i]? = some line := by
  induction pieces generalizing first offset with
  | nil => simp [numberLines]
  | cons piece pieces ih =>
    refine forall_mem_cons.mpr ⟨⟨0, rfl, rfl⟩, fun line hline => ?_⟩
    obtain ⟨i, hindex, hget⟩ := ih line hline
    exact ⟨i + 1, by omega, hget⟩

/-- The tokens behind a place, on its line and without the comment. -/
def operandsAt (text : String) (location : Location) : List TokenKind :=
  match (sourceLines text)[location.line]? with
  | none => []
  | some line =>
    (((readableTokens line).dropWhile fun t => t.location ≠ location).drop 1).map Token.kind

theorem behind_operandsAt {line : SourceLine} (hline : line ∈ sourceLines text) :
    Behind (operandsAt text) (readableTokens line) := by
  intro front head args hts
  have hhead : head ∈ tokensOfLine line := by
    have hmem : head ∈ readableTokens line := by simp [hts]
    exact mem_of_mem_filter hmem
  have hget : (sourceLines text)[head.location.line]? = some line := by
    obtain ⟨i, hindex, hget⟩ := getElem?_numberLines line hline
    rw [Nat.zero_add] at hindex
    rw [line_of_mem_locate head (tokensOfLine_eq line ▸ hhead), hindex]
    exact hget
  obtain ⟨hwithin, hascending⟩ := tokensOfLine_ascending hline
  replace hascending : (readableTokens line).Pairwise _ := hascending.filter _
  rw [hts] at hascending
  have hfront : ∀ t ∈ front, decide (t.location ≠ head.location) = true := by
    intro t ht
    have hlt := (pairwise_append.mp hascending).2.2 t ht head mem_cons_self
    have hne : t.location ≠ head.location := by
      intro heq
      have hpos := (hwithin head hhead).1
      rw [heq] at hlt
      omega
    simpa using hne
  unfold operandsAt
  simp only [hget, hts]
  rw [dropWhile_append_of_pos hfront]
  simp

/-! ### Whole sources -/

section Lines

variable {switches : Switches} {nested : Option LineReader} {st : ParserState}

theorem readLines_pending (hpending : st.pending.isSome = true) (lines : List SourceLine) :
    (readLines (readLineWith switches nested) st lines).1.pending.isSome = true ∨
      ∃ name body location, .statement (.macroDef name body) location ∈
        (readLines (readLineWith switches nested) st lines).2 := by
  induction lines generalizing st with
  | nil => exact .inl hpending
  | cons line lines ih =>
    obtain ⟨m, hm⟩ := Option.isSome_iff_exists.mp hpending
    have hline : readLineWith switches nested st line = collectLine st m line.text := by
      unfold readLineWith
      rw [hm]
    rw [readLines]
    simp only [hline]
    by_cases hcloses : closesMacro line.text = true
    · right
      refine ⟨m.name, m.body, m.location, mem_append_left _ ?_⟩
      rw [collectLine, if_pos hcloses]
      exact mem_singleton_self _
    · have hnext : (collectLine st m line.text).1.pending.isSome = true := by
        rw [collectLine, if_neg hcloses]
        rfl
      rcases ih hnext with hopen | ⟨name, body, location, hmem⟩
      · exact .inl hopen
      · exact .inr ⟨name, body, location, mem_append_right _ hmem⟩

/-- **Line by line**, without remarks and macros, the scan finds what is read. -/
theorem readLines_stated {text : String} {lines : List SourceLine}
    (hlines : ∀ line ∈ lines, line ∈ sourceLines text) (hmacros : st.macros = [])
    (hpending : st.pending = none)
    (hquiet : markersOf (readLines (readLineWith switches nested) st lines).2 = [])
    (hplain : ∀ name body location, .statement (.macroDef name body) location ∉
      (readLines (readLineWith switches nested) st lines).2)
    (hdone : (readLines (readLineWith switches nested) st lines).1.pending = none)
    (found : Declared) :
    ∃ ps, (readLines (readLineWith switches nested) st lines).2 = itemsOf ps ∧
      lines.foldl (fun found line => scanTokens found (tokensOfLine line)) found =
        { includes := found.includes ++ includesOf ps
          origin := found.origin.or (originOf (operandsAt text) ps) } ∧
      ∀ e location, (.origin e, location) ∈ ps → Derives 0 (operandsAt text location) e := by
  induction lines generalizing found with
  | nil => exact ⟨[], rfl, by simp [includesOf, originOf], by simp⟩
  | cons line lines ih =>
    obtain ⟨hline, hlines⟩ := forall_mem_cons.mp hlines
    have hread : readLineWith switches nested st line =
        readTokens switches nested st line.endLocation (readableTokens line) := by
      unfold readLineWith
      rw [hpending]
      rfl
    rw [readLines] at hquiet hplain hdone ⊢
    simp only [hread] at hquiet hplain hdone ⊢
    obtain ⟨hfirst, hrest⟩ := append_eq_nil_iff.mp ((markersOf_append _ _).symm.trans hquiet)
    rcases readTokens_stated hmacros hfirst with hopen | ⟨hstate, ps, hitems, hstated⟩
    · -- a macro that is opened here is defined later, or open at the end
      exfalso
      rcases readLines_pending hopen lines with hopen | ⟨name, body, location, hmem⟩
      · rw [hdone] at hopen
        cases hopen
      · exact hplain name body location (mem_append_right _ hmem)
    · rw [hstate] at hrest hplain hdone ⊢
      have hbehind := behind_operandsAt hline
      obtain ⟨qs, hmore, hscan, hderives⟩ := ih hlines hrest
        (fun name body location hmem =>
          hplain name body location (mem_append_right _ hmem)) hdone
        (scanTokens found (tokensOfLine line))
      refine ⟨ps ++ qs, ?_, ?_, ?_⟩
      · rw [hitems, hmore, itemsOf, itemsOf, itemsOf, map_append]
      · rw [foldl_cons, hscan, scanTokens_readable, hstated.scan hbehind, includesOf_append,
          originOf_append, append_assoc, Option.or_assoc]
      · intro e location hmem
        rcases mem_append.mp hmem with hmem | hmem
        · exact hstated.derives hbehind e location hmem
        · exact hderives e location hmem

end Lines

def SyntaxTree.located (tree : SyntaxTree) : Located := tree.map fun n => (n.statement, n.location)

theorem located_nodesFrom (id : NodeId) (ps : Located) :
    SyntaxTree.located (nodesFrom id (itemsOf ps)) = ps := by
  induction ps generalizing id with
  | nil => rfl
  | cons p ps ih =>
    exact congrArg (p :: ·) (ih (id + 1))

theorem exists_mem_nodesFrom {items : List Item} {s : Statement} {location : Location}
    (h : .statement s location ∈ items) (id : NodeId) :
    ∃ n ∈ nodesFrom id items, n.statement = s := by
  induction items generalizing id with
  | nil => cases h
  | cons item items ih =>
    cases item with
    | statement s' location' =>
      rcases mem_cons.mp h with heq | h
      · cases heq
        exact ⟨_, mem_cons_self, rfl⟩
      · obtain ⟨n, hn, hs⟩ := ih h (id + 1)
        exact ⟨n, mem_cons_of_mem _ hn, hs⟩
    | marker m =>
      rcases mem_cons.mp h with heq | h
      · cases heq
      · exact ih h id

/-- **The scan of a source** that is read without remarks and macros. -/
theorem scanSource_of_quiet {switches : Switches} (hquiet : (parseSource switches text).2 = [])
    (hplain : ∀ n ∈ (parseSource switches text).1, ∀ name body, n.statement ≠ .macroDef name body) :
    scanSource text =
      { includes := includesOf (SyntaxTree.located (parseSource switches text).1)
        origin := originOf (operandsAt text) (SyntaxTree.located (parseSource switches text).1) } ∧
      ∀ e location, (.origin e, location) ∈ SyntaxTree.located (parseSource switches text).1 →
        Derives 0 (operandsAt text location) e := by
  obtain ⟨nested, hread⟩ :
      ∃ nested, readLine switches maxExpansion = readLineWith switches nested := ⟨_, rfl⟩
  unfold parseSource readSource at hquiet hplain ⊢
  simp only [hread] at hquiet hplain ⊢
  obtain ⟨hitems, hend⟩ := append_eq_nil_iff.mp ((markersOf_append _ _).symm.trans hquiet)
  have hdone :
      (readLines (readLineWith switches nested) {} (sourceLines text)).1.pending = none := by
    unfold unfinished at hend
    split at hend
    · cases hend
    · assumption
  have hunfinished :
      unfinished (readLines (readLineWith switches nested) {} (sourceLines text)).1 = [] := by
    unfold unfinished
    rw [hdone]
  rw [hunfinished, append_nil] at hplain ⊢
  have hnone : ∀ name body location, .statement (.macroDef name body) location ∉
      (readLines (readLineWith switches nested) {} (sourceLines text)).2 := by
    intro name body location hmem
    obtain ⟨n, hn, hs⟩ := exists_mem_nodesFrom hmem 0
    exact hplain n hn name body hs
  obtain ⟨ps, hps, hscan, hderives⟩ := readLines_stated (fun line hline => hline) rfl rfl hitems
    hnone hdone {}
  rw [hps, located_nodesFrom]
  refine ⟨?_, hderives⟩
  unfold scanSource
  rw [hscan]
  simp

theorem forall_ne_macroDef {tree : SyntaxTree} {ss : List Statement}
    (h : tree.map Node.statement = ss) (hss : ∀ s ∈ ss, ∀ name body, s ≠ .macroDef name body) :
    ∀ n ∈ tree, ∀ name body, n.statement ≠ .macroDef name body := fun _ hn =>
  hss _ (h ▸ mem_map_of_mem hn)

/-- **The scan and the parser see the same includes.** The path of every include that is read is
found by the scan, whatever the switches, macros and faults. If the source is read without remarks
and defines no macros, the scan finds the includes that are read, with their places, in order. -/
theorem includes_scanned_as_parsed (switches : Switches) (text : String) :
    (∀ n ∈ (parseSource switches text).1, ∀ path, n.statement = .includes path →
      path ∈ (scanSource text).includes.map Prod.fst) ∧
    ((parseSource switches text).2 = [] →
      (∀ n ∈ (parseSource switches text).1, ∀ name body, n.statement ≠ .macroDef name body) →
        ((parseSource switches text).1.filterMap fun n => n.statement.path?.map (·, n.location)) =
          (scanSource text).includes) := by
  refine ⟨fun n hn path hpath => scanned_of_parsed hn hpath, fun hquiet hplain => ?_⟩
  obtain ⟨hscan, -⟩ := scanSource_of_quiet hquiet hplain
  rw [hscan, includesOf, SyntaxTree.located, filterMap_map]
  rfl

/-- Two includes, one behind a label, and a name that only looks like one. -/
theorem includes_scanned_as_parsed_labelled :
    ∃ text : String,
      text = "start: .include \"a.rk\" ; first\n.word .include\n.INCLUDE \"b.rk\"" ∧
      (parseSource {} text).2 = [] ∧
      (parseSource {} text).1.map Node.statement =
        [.label "start", .includes "a.rk", .words [.ident ".include"], .includes "b.rk"] ∧
      ((parseSource {} text).1.filterMap fun n => n.statement.path?.map (·, n.location)) =
        [("a.rk", ⟨7, 0, 7, 8⟩), ("b.rk", ⟨46, 2, 0, 8⟩)] := by
  refine ⟨_, rfl, ?_⟩
  generalize htext :
    "start: .include \"a.rk\" ; first\n.word .include\n.INCLUDE \"b.rk\"" = text
  have hfacts : (parseSource {} text).2 = [] ∧ (parseSource {} text).1.map Node.statement =
        [.label "start", .includes "a.rk", .words [.ident ".include"], .includes "b.rk"] ∧
      (scanSource text).includes = [("a.rk", ⟨7, 0, 7, 8⟩), ("b.rk", ⟨46, 2, 0, 8⟩)] := by
    rw [← htext]
    decide +kernel
  obtain ⟨hquiet, hstatements, hscan⟩ := hfacts
  have hplain := forall_ne_macroDef hstatements (by simp)
  refine ⟨hquiet, hstatements, ?_⟩
  rw [(includes_scanned_as_parsed {} text).2 hquiet hplain, hscan]

/-! ### Origins -/

/-- The address of an origin that is written as a number and nothing else. -/
def Node.literal? (text : String) (n : Node) : Option Address :=
  match n.statement.origin?, operandsAt text n.location with
  | some _, [.number v] => addressOf? v
  | _, _ => none

/-- The node is an origin whose operand begins with an address and goes on. -/
def Node.runsOn (text : String) (n : Node) : Bool :=
  n.statement.origin?.isSome && (leadingAddress (operandsAt text n.location)).isSome &&
    (operandsAt text n.location).length != 1

def Node.declared? (text : String) (n : Node) : Option Address :=
  n.statement.origin?.bind fun _ => leadingAddress (operandsAt text n.location)

theorem Statement.origin?_eq_some {s : Statement} {e : Expr} (h : s.origin? = some e) :
    s = .origin e := by
  cases s <;> cases h
  rfl

theorem Node.literal?_eq_some {a : Address} (h : n.literal? text = some a) :
    ∃ e v, n.statement = .origin e ∧ operandsAt text n.location = [.number v] ∧
      addressOf? v = some a := by
  unfold Node.literal? at h
  split at h
  · rename_i e v hs hoperands
    exact ⟨e, v, Statement.origin?_eq_some hs, hoperands, h⟩
  · cases h

theorem Node.declared?_of_literal? {a : Address} (h : n.literal? text = some a) :
    n.declared? text = some a := by
  obtain ⟨e, v, hs, hoperands, hv⟩ := Node.literal?_eq_some h
  simp [Node.declared?, hs, Statement.origin?, hoperands, leadingAddress, hv]

theorem Node.declared?_eq_none (hliteral : n.literal? text = none) (hruns : n.runsOn text = false) :
    n.declared? text = none := by
  by_contra hdeclared
  obtain ⟨a, ha⟩ := Option.ne_none_iff_exists'.mp hdeclared
  obtain ⟨e, he, ha⟩ := Option.bind_eq_some_iff.mp ha
  have hlength : (operandsAt text n.location).length = 1 := by
    simpa [Node.runsOn, he, ha] using hruns
  obtain ⟨kind, hoperands⟩ := length_eq_one_iff.mp hlength
  rw [hoperands] at ha
  unfold leadingAddress at ha
  split at ha
  · rename_i v ks heq
    obtain ⟨rfl, -⟩ := List.cons.inj heq
    simp [Node.literal?, he, hoperands, ha] at hliteral
  · cases ha

theorem findSome?_of_takeWhile {α β : Type} {f g : α → Option β} {l : List α}
    (hgf : ∀ x b, g x = some b → f x = some b)
    (h : ∀ x ∈ l.takeWhile fun x => (g x).isNone, f x = none) :
    l.findSome? f = l.findSome? g := by
  induction l with
  | nil => rfl
  | cons x l ih =>
    cases hg : g x with
    | some b => simp [hg, hgf x b hg]
    | none =>
      rw [takeWhile_cons_of_pos (by simp [hg])] at h
      obtain ⟨hx, hl⟩ := forall_mem_cons.mp h
      rw [findSome?_cons, findSome?_cons, hx, hg, ih hl]

/-- **The declared origin is the first that is written as a number**, in a source that is read
without remarks and defines no macros, if no origin in front of it runs on. What is written as a
number is also read as that number. -/
theorem origin_scanned_as_written {switches : Switches} {text : String}
    (hquiet : (parseSource switches text).2 = [])
    (hplain : ∀ n ∈ (parseSource switches text).1, ∀ name body, n.statement ≠ .macroDef name body)
    (hruns : ∀ n ∈ (parseSource switches text).1.takeWhile fun n => (n.literal? text).isNone,
      n.runsOn text = false) :
    (scanSource text).origin = (parseSource switches text).1.findSome? (Node.literal? text) ∧
      ∀ n ∈ (parseSource switches text).1, ∀ a, n.literal? text = some a →
        ∃ v, n.statement = .origin (.number v) ∧ addressOf? v = some a := by
  obtain ⟨hscan, hderives⟩ := scanSource_of_quiet hquiet hplain
  constructor
  · have hdeclared : (scanSource text).origin =
        (parseSource switches text).1.findSome? (Node.declared? text) := by
      rw [hscan, originOf, SyntaxTree.located, findSome?_map]
      rfl
    rw [hdeclared]
    refine findSome?_of_takeWhile (fun n a => Node.declared?_of_literal?) fun n hn => ?_
    have hliteral : n.literal? text = none := by simpa using mem_takeWhile_imp hn
    exact Node.declared?_eq_none hliteral (hruns n hn)
  · intro n hn a ha
    obtain ⟨e, v, hs, hoperands, hv⟩ := Node.literal?_eq_some ha
    have hmem : (.origin e, n.location) ∈ SyntaxTree.located (parseSource switches text).1 :=
      mem_map.mpr ⟨n, hn, by rw [hs]⟩
    have he := hderives e n.location hmem
    rw [hoperands] at he
    rw [hs, he.unique (Derives.number v |>.mono (Nat.zero_le _))]
    exact ⟨v, rfl, hv⟩

/-- Origins at a name, beyond memory, in parentheses, at a number, and one that runs on. -/
theorem origin_scanned_as_written_fourth :
    ∃ text : String,
      text = ".org START\n.org 65536\n.org (16)\nmain: .ORG 0x40 ; here\n.org 5 + 1" ∧
      (parseSource {} text).2 = [] ∧
      (parseSource {} text).1.map Node.statement =
        [.origin (.ident "START"), .origin (.number 65536), .origin (.number 16), .label "main",
          .origin (.number 0x40), .origin (.binary .add (.number 5) (.number 1))] ∧
      (scanSource text).origin = some 0x40 := by
  refine ⟨_, rfl, ?_⟩
  generalize htext :
    ".org START\n.org 65536\n.org (16)\nmain: .ORG 0x40 ; here\n.org 5 + 1" = text
  have hfacts : (parseSource {} text).2 = [] ∧ (parseSource {} text).1.map Node.statement =
        [.origin (.ident "START"), .origin (.number 65536), .origin (.number 16), .label "main",
          .origin (.number 0x40), .origin (.binary .add (.number 5) (.number 1))] ∧
      (∀ n ∈ (parseSource {} text).1.takeWhile fun n => (n.literal? text).isNone,
        n.runsOn text = false) ∧
      (parseSource {} text).1.findSome? (Node.literal? text) = some 0x40 := by
    rw [← htext]
    decide +kernel
  obtain ⟨hquiet, hstatements, hruns, hliteral⟩ := hfacts
  have hplain := forall_ne_macroDef hstatements (by simp)
  refine ⟨hquiet, hstatements, ?_⟩
  rw [(origin_scanned_as_written hquiet hplain hruns).1, hliteral]

/-- The first origin that is read as a plain number in the range of addresses. -/
def plainOrigin (tree : SyntaxTree) : Option Address :=
  tree.findSome? fun n => (n.statement.origin?.bind Expr.asNumber?).bind addressOf?

/-- **The scan may differ from what is read**: a number in parentheses is not declared, and of a sum
the first number is. -/
theorem scanned_origin_may_differ :
    ((parseSource {} ".org (256)").2 = [] ∧
      (parseSource {} ".org (256)").1.map Node.statement = [.origin (.number 256)] ∧
      plainOrigin (parseSource {} ".org (256)").1 = some 256 ∧
      (scanSource ".org (256)").origin = none) ∧
    (parseSource {} ".org 256 + 4").2 = [] ∧
      (parseSource {} ".org 256 + 4").1.map Node.statement =
        [.origin (.binary .add (.number 256) (.number 4))] ∧
      plainOrigin (parseSource {} ".org 256 + 4").1 = none ∧
      (scanSource ".org 256 + 4").origin = some 256 := by
  decide +kernel

end WordAsm
