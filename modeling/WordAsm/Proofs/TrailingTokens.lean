/-
# Tokens behind a statement

Readers take what they need from the front of the tokens, so whatever follows is left to them
(`Leaves`), if it cannot go on with what was read: a name or a number cannot. Where left-over
tokens are let pass, a statement with such tokens behind it is read as it is without them, and one
warning is given.

There is one reader that looks further. An operand is a register if its name is the last token;
with a token behind it, it is read as an expression, in which registers are refused. So a statement
that ends with a register is lost when anything follows it.
-/
import WordAsm.Proofs.ExprGrammar
import WordAsm.Proofs.LenientReading
import WordAsm.Proofs.Sources

namespace WordAsm

open List

/-- A name or a number, which no statement goes on with. -/
def Token.startsAnew (t : Token) : Bool :=
  match t.kind with
  | .ident _ | .number _ => true
  | _ => false

/-- What stands behind the tokens that `read` takes is left. -/
def Leaves {α : Type} (extra : List Token) (read : List Token → Except Fault (α × List Token)) :
    Prop :=
  ∀ {ts a rest}, read ts = .ok (a, rest) → read (ts ++ extra) = .ok (a, rest ++ extra)

def Statement.endsInRegister : Statement → Bool
  | .instruction _ _ (some (.register _)) => true
  | _ => false

section First

variable (extra : List Token)

theorem leaves_expectIdent : Leaves extra expectIdent := by
  rintro (_ | ⟨t, ts⟩) a rest h
  · cases h
  · rw [cons_append]
    simp only [expectIdent] at h ⊢
    split at h <;> simp_all

theorem leaves_expectInclude : Leaves extra expectInclude := by
  rintro (_ | ⟨t, ts⟩) a rest h
  · cases h
  · rw [cons_append]
    simp only [expectInclude] at h ⊢
    split at h <;> simp_all

theorem leaves_expectRegister : Leaves extra expectRegister := by
  rintro (_ | ⟨t, ts⟩) a rest h
  · cases h
  · rw [cons_append]
    simp only [expectRegister] at h ⊢
    split at h
    · split at h <;> simp_all
    · cases h

variable {ts : List Token}

theorem expectComma_append {rest : List Token} (h : expectComma ts = .ok rest) :
    expectComma (ts ++ extra) = .ok (rest ++ extra) := by
  cases ts with
  | nil => cases h
  | cons t ts =>
    rw [cons_append]
    simp only [expectComma] at h ⊢
    split at h <;> simp_all

theorem skipComma_append (h : ts ≠ []) : skipComma (ts ++ extra) = skipComma ts ++ extra := by
  cases ts with
  | nil => exact absurd rfl h
  | cons t ts =>
    rw [cons_append, skipComma, skipComma]
    split <;> rfl

end First

section Behind

variable {t : Token} (ht : t.startsAnew = true) (more : List Token)

include ht

theorem Token.not_operator (op : BinaryOp) : t.kind ≠ op.token := by
  intro hkind
  rw [Token.startsAnew, hkind] at ht
  cases op <;> cases ht

theorem Token.ne_comma : t.kind ≠ .comma ∧ t.kind ≠ .colon := by
  constructor
  all_goals
    intro hkind
    rw [Token.startsAnew, hkind] at ht
    cases ht

theorem Stops.append {rest : List Token} (h : Stops 0 rest) : Stops 0 (rest ++ t :: more) := by
  cases rest with
  | nil => exact stops_zero_iff.mpr fun op hop => Token.not_operator ht op (Option.some.inj hop)
  | cons => exact h

theorem parseWithin_append {n m : ℕ} {rest : List Token} {e : Expr} {h : ts.length ≤ n} {hr}
    (hread : parseWithin n ts h = .ok (e, ⟨rest, hr⟩)) (h' : (ts ++ t :: more).length ≤ m) :
    ∃ hr', parseWithin m (ts ++ t :: more) h' = .ok (e, ⟨rest ++ t :: more, hr'⟩) := by
  obtain ⟨front, hts, hderives, hstops⟩ := (exact_parseWithin n ts h e rest).mp ⟨hr, hread⟩
  exact (exact_parseWithin m _ h' e _).mpr
    ⟨front, by rw [hts, append_assoc], hderives, hstops.append ht more⟩

theorem leaves_expectExpr : Leaves (t :: more) expectExpr := by
  intro ts e rest h
  unfold expectExpr at h ⊢
  split at h
  · cases h
  · rename_i e' rest' hread
    cases h
    obtain ⟨hr, hread'⟩ := parseWithin_append ht more hread (within_length _)
    rw [parseExpr, hread']

theorem expectExprsWithin_append {n m : ℕ} {rest : List Token} {es : List Expr} {h : ts.length ≤ n}
    (hread : expectExprsWithin n ts h = .ok (es, rest)) (h' : (ts ++ t :: more).length ≤ m) :
    expectExprsWithin m (ts ++ t :: more) h' = .ok (es, rest ++ t :: more) := by
  fun_induction expectExprsWithin n ts h generalizing es with
  | case1 | case3 => cases hread
  | case2 ts h e hr hx =>
    cases hread
    obtain ⟨hr', hx'⟩ := parseWithin_append ht more hx h'
    rw [expectExprsWithin]
    simp only [hx', nil_append, if_neg (Token.ne_comma ht).1]
  | case4 ts h e c behind hr hx hcomma es' rest' hmore ih =>
    cases hread
    obtain ⟨hr', hx'⟩ := parseWithin_append ht more hx h'
    have hnext := ih hmore (by simp at h' hr' ⊢; omega)
    rw [expectExprsWithin]
    simp only [hx', cons_append, if_pos hcomma, hnext]
  | case5 ts h e c behind hr hx hcomma =>
    cases hread
    obtain ⟨hr', hx'⟩ := parseWithin_append ht more hx h'
    rw [expectExprsWithin]
    simp only [hx', cons_append, if_neg hcomma]

theorem leaves_expectExprs : Leaves (t :: more) expectExprs := by
  intro ts es rest h
  exact expectExprsWithin_append ht more h (within_length _)

theorem expectArgument_append {rest : List Token} {b : Argument} {op : Opcode} {a : Register}
    (h : expectArgument ts = .ok (b, rest))
    (hb : (Statement.instruction op a (some b)).endsInRegister = false) :
    expectArgument (ts ++ t :: more) = .ok (b, rest ++ t :: more) := by
  unfold expectArgument at h
  split at h
  · cases h
    cases hb
  · obtain ⟨⟨e', behind⟩, hread, h⟩ := bind_eq_ok h
    cases h
    have hlone : expectArgument.loneRegister? (ts ++ t :: more) = none := by
      rcases ts with _ | ⟨⟨kind, location⟩, _ | _⟩
      · cases hread
      all_goals cases kind <;> rfl
    unfold expectArgument
    rw [hlone, leaves_expectExpr ht more hread]
    rfl

theorem expectInstruction_append {op : Opcode} {rest : List Token} {s : Statement}
    (h : expectInstruction op ts = .ok (s, rest)) (hs : s.endsInRegister = false) :
    expectInstruction op (ts ++ t :: more) = .ok (s, rest ++ t :: more) := by
  unfold expectInstruction at h ⊢
  split at h
  · cases h
    rfl
  · obtain ⟨⟨b, behind⟩, hb, h⟩ := bind_eq_ok h
    cases h
    rw [expectArgument_append ht more hb hs]
    rfl
  · obtain ⟨⟨a, behind⟩, ha, h⟩ := bind_eq_ok h
    obtain ⟨args, hcomma, h⟩ := bind_eq_ok h
    obtain ⟨⟨b, behind'⟩, hb, h⟩ := bind_eq_ok h
    cases h
    rw [leaves_expectRegister _ ha]
    show (expectComma _ >>= _) = _
    rw [expectComma_append _ hcomma]
    show (expectArgument _ >>= _) = _
    rw [expectArgument_append ht more hb hs]
    rfl

theorem expectDirective_append {name : String} {location : Location} {rest : List Token}
    {d : Directive} (h : expectDirective false name location ts = .ok (d, rest)) (relaxed : Bool) :
    expectDirective relaxed name location (ts ++ t :: more) = .ok (d, rest ++ t :: more) := by
  unfold expectDirective at h ⊢
  split at h
  · obtain ⟨⟨e, behind⟩, he, h⟩ := bind_eq_ok h
    cases h
    rw [leaves_expectExpr ht more he]
    rfl
  · obtain ⟨⟨symbol, behind⟩, hident, h⟩ := bind_eq_ok h
    obtain ⟨⟨e, behind'⟩, he, h⟩ := bind_eq_ok h
    cases h
    rw [leaves_expectIdent _ hident]
    show (expectExpr (skipComma _) >>= _) = _
    rw [skipComma_append _ (by rintro rfl; cases he), leaves_expectExpr ht more he]
    rfl
  · exact leaves_expectInclude _ h
  · obtain ⟨⟨es, behind⟩, hes, h⟩ := bind_eq_ok h
    cases h
    rw [leaves_expectExprs ht more hes]
    rfl
  · obtain ⟨⟨symbol, behind⟩, hident, h⟩ := bind_eq_ok h
    rw [leaves_expectIdent _ hident]
    simp only at h
    split at h
    · cases h
    · rename_i hop
      cases h
      simp only [bind, Except.bind, hop]
      rfl
  · cases h
  · cases h

theorem label?_append {head : Token} (h : label? (head :: ts) = none) :
    label? (head :: ts ++ t :: more) = none := by
  refine Option.eq_none_iff_forall_ne_some.mpr fun l hl => ?_
  obtain ⟨name, location, rest⟩ := l
  obtain ⟨kind, place, heq, hkind⟩ := label?_eq_some hl
  cases ts with
  | nil =>
    cases heq
    exact (Token.ne_comma ht).2 rfl
  | cons c ts =>
    cases heq
    rcases hkind with rfl | rfl <;> cases h

end Behind

/-! ### Lines -/

/-- The token that the statement of a line begins with, behind its label. -/
def statementHead? (ts : List Token) : Option Token :=
  match label? ts with
  | none => ts.head?
  | some (_, _, rest) => rest.head?

/-- A directive or an instruction begins with the token. -/
def Token.opensStatement (t : Token) : Bool :=
  match t.kind with
  | .dotted _ => true
  | .ident name => (Opcode.ofMnemonic? name).isSome
  | _ => false

def Item.bearsMore : Item → Bool
  | statement s _ => !s.endsInRegister
  | marker _ => false

/-- The remark about tokens that are left over, from `t` on. -/
def trailingItem (t : Token) : Item :=
  .marker ((Marker.warning ("Ignoring trailing " ++ t.kind.describe)).located t.location)

theorem rest_of_bearsMore {s : Switches} {eol : Location} {rest : Except Fault (List Token)}
    (h : ∀ i ∈ tailItems s eol rest, i.bearsMore = true) : rest = .ok [] := by
  match rest with
  | .ok [] => rfl
  | .error fault => cases h _ (mem_singleton_self _)
  | .ok (t :: ts) =>
    rw [tailItems] at h
    split at h <;> cases h _ (mem_singleton_self _)

section Lines

variable {s s' : Switches} {nested nested' : Option LineReader} {st : ParserState}
  {eol eol' : Location} {t head : Token} {ts : List Token} (more : List Token)
  (ht : t.startsAnew = true) (hstrict : s.has .relaxedParsing = false)
  (hrelaxed : s'.has .relaxedParsing = true)

include ht hstrict hrelaxed

theorem readBody_trailing (hopens : head.opensStatement = true)
    (hbears : ∀ i ∈ (readBody s nested st eol (head :: ts)).2, i.bearsMore = true) :
    readBody s' nested' st eol' (head :: ts ++ t :: more) =
      ((readBody s nested st eol (head :: ts)).1,
        (readBody s nested st eol (head :: ts)).2 ++ [trailingItem t]) := by
  rw [readBody] at hbears
  have hrest := rest_of_bearsMore fun i hi => hbears i (mem_append_right _ hi)
  rw [cons_append, readBody, readBody]
  simp only [hrest, tailItems, append_nil]
  unfold readStatement Token.opensStatement at *
  split at hopens
  · rename_i name hkind
    simp only [hkind, readDirective, hstrict] at hrest ⊢
    cases hread : expectDirective false name head.location ts with
    | error fault => simp [hread] at hrest
    | ok r =>
      obtain ⟨d, rest⟩ := r
      obtain rfl : rest = [] := by
        rw [hread] at hrest
        cases d <;> exact Except.ok.inj hrest
      rw [expectDirective_append ht more hread]
      cases d <;> simp [hrelaxed, trailingItem]
  · rename_i name hkind
    obtain ⟨op, hop⟩ := Option.isSome_iff_exists.mp hopens
    simp only [hkind, hop] at hrest hbears ⊢
    cases hread : expectInstruction op ts with
    | error fault => simp [hread] at hrest
    | ok r =>
      rw [hread] at hrest hbears
      obtain ⟨stmt, rest⟩ := r
      cases hrest
      have hend : stmt.endsInRegister = false := by
        simpa [Item.bearsMore] using hbears (.statement stmt head.location) (by simp)
      rw [expectInstruction_append ht more hread hend]
      simp [hrelaxed, trailingItem]
  · cases hopens

variable (hlabels : s.has .localLabels = true → s'.has .localLabels = true)

include hlabels

theorem readTokens_trailing (hplain : ∀ x ∈ ts ++ t :: more, x.kind.isError = false)
    (hopens : (statementHead? ts).any Token.opensStatement = true)
    (hbears : ∀ i ∈ (readTokens s nested st eol ts).2, i.bearsMore = true) :
    readTokens s' nested' st eol' (ts ++ t :: more) = ((readTokens s nested st eol ts).1,
      (readTokens s nested st eol ts).2 ++ [trailingItem t]) := by
  have hfind : (ts ++ t :: more).find? (·.kind.isError) = none :=
    find?_eq_none.mpr fun x hx => by simp [hplain x hx]
  have hnone : ts.find? (·.kind.isError) = none :=
    find?_eq_none.mpr fun x hx => by simp [hplain x (mem_append_left _ hx)]
  unfold readTokens at hbears ⊢
  unfold statementHead? at hopens
  simp only [hfind]
  simp only [hnone] at hbears ⊢
  cases hlabel : label? ts with
  | none =>
    rw [hlabel] at hopens hbears
    cases ts with
    | nil => cases hopens
    | cons head ts =>
      rw [label?_append ht more hlabel]
      exact readBody_trailing more ht hstrict hrelaxed (by simpa using hopens) hbears
  | some l =>
    obtain ⟨name, location, rest⟩ := l
    obtain ⟨kind, place, rfl, hkind⟩ := label?_eq_some hlabel
    have hlabel' : label? (⟨kind, location⟩ :: ⟨.colon, place⟩ :: rest ++ t :: more) =
        some (name, location, rest ++ t :: more) := by
      rcases hkind with rfl | rfl <;> rfl
    simp only [hlabel] at hopens hbears
    simp only [hlabel']
    split at hbears
    · cases hbears _ (mem_singleton_self _)
    · rename_i hlocal
      rw [if_neg hlocal, if_neg (label_allowed hlabels hlocal)]
      cases rest with
      | nil => cases hopens
      | cons head rest =>
        rw [readBody_trailing more ht hstrict hrelaxed (by simpa using hopens) fun i hi =>
          hbears i (mem_cons_of_mem _ hi)]
        rfl

/-- **Trailing tokens are ignored** where they are let pass: behind every directive or instruction
of a line that is accepted without remarks, and whose operand is no register. The same statements
are read, and there is one warning. The tokens may end in a comment. -/
theorem trailing_tokens_ignored (depth : ℕ) (hpending : st.pending = none) {line line' : SourceLine}
    (htokens : tokensOfLine line' = tokensOfLine line ++ t :: more)
    (hplain : ∀ x ∈ tokensOfLine line', x.kind.isError = false)
    (hcomment : ∀ x ∈ tokensOfLine line, x.kind.isComment = false)
    (hopens : (statementHead? (tokensOfLine line)).any Token.opensStatement = true)
    (hbears : ∀ i ∈ (readLine s depth st line).2, i.bearsMore = true) :
    readLine s' depth st line' =
      ((readLine s depth st line).1, (readLine s depth st line).2 ++ [trailingItem t]) := by
  have hread : ∀ (s : Switches) (line : SourceLine), ∃ nested, readLine s depth st line =
      readTokens s nested st line.endLocation
        ((tokensOfLine line).filter fun x => !x.kind.isComment) := by
    intro s line
    cases depth with
    | zero | succ =>
      simp only [readLine, readLineWith, hpending]
      exact ⟨_, rfl⟩
  have hline : (tokensOfLine line).filter (fun x => !x.kind.isComment) = tokensOfLine line :=
    filter_eq_self.mpr fun x hx => by simp [hcomment x hx]
  -- only a comment at the end of the appended tokens is dropped
  have hline' : (tokensOfLine line').filter (fun x => !x.kind.isComment) =
      tokensOfLine line ++ t :: more.filter fun x => !x.kind.isComment := by
    rw [htokens, filter_append, hline, filter_cons_of_pos]
    unfold Token.startsAnew at ht
    split at ht <;> simp_all [TokenKind.isComment]
  obtain ⟨nested, hfirst⟩ := hread s line
  obtain ⟨nested', hsecond⟩ := hread s' line'
  rw [hfirst, hline] at hbears ⊢
  rw [hsecond, hline']
  refine readTokens_trailing _ ht hstrict hrelaxed hlabels (fun x hx => hplain x ?_) hopens hbears
  exact (mem_filter.mp (hline' ▸ hx)).1

end Lines

/-- Behind a list of words. -/
theorem trailing_tokens_ignored_words :
    readLine ⟨[.relaxedParsing]⟩ maxExpansion {} ⟨0, 0, "a: .word 1, x foo 2".toList⟩ =
      ({}, [.statement (.label "a") ⟨0, 0, 0, 1⟩,
        .statement (.words [.number 1, .ident "x"]) ⟨3, 0, 3, 5⟩,
        trailingItem ⟨.ident "foo", ⟨14, 0, 14, 3⟩⟩]) := by
  have htokens : tokensOfLine ⟨0, 0, "a: .word 1, x foo 2".toList⟩ =
      tokensOfLine ⟨0, 0, "a: .word 1, x".toList⟩ ++
        ⟨.ident "foo", ⟨14, 0, 14, 3⟩⟩ :: [⟨.number 2, ⟨18, 0, 18, 1⟩⟩] := by
    decide +kernel
  refine (trailing_tokens_ignored (s := {}) _ (by decide) (by decide) (by decide) (by decide) _ rfl
    htokens (by decide +kernel) (by decide +kernel) (by decide +kernel) (by decide +kernel)).trans (by decide +kernel)

/-- A register is refused where something follows it, and the instruction is lost. -/
theorem register_bears_nothing_behind :
    (parseSource {} "ld t0, sp").1.map Node.statement =
        [.instruction .ld .t0 (some (.register .sp))] ∧
      (parseSource {} "ld t0, sp").2 = [] ∧
      parseSource ⟨[.relaxedParsing]⟩ "ld t0, sp foo" = ([], [(Marker.error
        "Register `sp` cannot be used in an expression").located ⟨7, 0, 7, 2⟩]) := by
  decide +kernel

end WordAsm
