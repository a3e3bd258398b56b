/-
# What a line says

A line that is read without remarks, while no macros are known, is a label, a statement,
both or nothing. `Stated` says which tokens it has and what is read from them; for the
operands it says no more than what the scan may come across. The scan finds a directive
where a string or a number stands right behind a name with a point, and in such a line
that is the case only at the head of an include or an origin: in an expression a name is
followed by an operator, a parenthesis or nothing (`Derives.apart`).

So the scan is computed from what is read (`Stated.scan`), and what is read without
remarks is stated (`readTokens_stated`).
-/
import Mathlib.Data.List.Chain
import WordAsm.Proofs.ExprGrammar
import WordAsm.Proofs.IncludeScan

namespace WordAsm

open List

variable {e : Expr} {operands : Location → List TokenKind} {rest ts : List Token} {name : String}
  {location : Location}

/-! ### Tokens from which the scan takes nothing -/

/-- The scan takes nothing from `a` with `b` right behind it. -/
def Apart (a b : TokenKind) : Prop :=
  ∀ name, a = .dotted name → (∀ path, b ≠ .str path) ∧ ∀ v, b ≠ .number v

/-- A token that is apart from every other, on both sides. -/
def TokenKind.isMark : TokenKind → Bool
  | dotted _ | str _ | number _ => false
  | _ => true

theorem apart_of_isMark {a b : TokenKind} (h : a.isMark = true ∨ b.isMark = true) : Apart a b := by
  rintro name rfl
  rcases h with h | h
  · cases h
  · constructor
    · rintro path rfl
      cases h
    · rintro v rfl
      cases h

theorem isChain_mark {ls rs : List TokenKind} (kind : TokenKind) (hkind : kind.isMark = true)
    (hl : ls.IsChain Apart) (hr : rs.IsChain Apart) : (ls ++ kind :: rs).IsChain Apart := by
  refine isChain_append.mpr ⟨hl, isChain_cons.mpr ⟨?_, hr⟩, ?_⟩
  · exact fun b _ => apart_of_isMark (.inl hkind)
  · intro a _ b hb
    cases hb
    exact apart_of_isMark (.inr hkind)

/-- **In an expression** no name has a string or a number right behind it. -/
theorem Derives.apart {k : ℕ} {ks : List TokenKind} (h : Derives k ks e) : ks.IsChain Apart := by
  induction h with
  | parens h ih =>
    have hinside := isChain_mark .rightParen rfl ih .nil
    exact isChain_mark .leftParen rfl .nil hinside
  | unary op h ih =>
    have hop : op.token.isMark = true := by cases op <;> rfl
    exact isChain_mark op.token hop .nil ih
  | plus h ih => exact isChain_mark .plus rfl .nil ih
  | binary op hl hr ihl ihr =>
    have hop : op.token.isMark = true := by cases op <;> rfl
    exact isChain_mark op.token hop ihl ihr
  | tighter h ih => exact ih
  | _ => exact .singleton _

theorem scanTokens_of_apart (found : Declared) (h : (ts.map Token.kind).IsChain Apart) :
    scanTokens found ts = found := by
  fun_induction scanTokens found ts with
  | case1 found name location t ts path hkind hname ih =>
    have hfirst := (isChain_cons.mp h).1 t.kind rfl
    exact absurd hkind ((hfirst name rfl).1 path)
  | case2 _ name _ t _ v hkind | case3 _ name _ t _ v hkind =>
    have hfirst := (isChain_cons.mp h).1 t.kind rfl
    exact absurd hkind ((hfirst name rfl).2 v)
  | case4 found name location t ts hinclude horg ih => exact ih (isChain_cons.mp h).2
  | case5 found t ts hlone ih => exact ih (isChain_cons.mp h).2
  | case6 found => rfl

/-! ### What a line says -/

namespace Statement

def path? : Statement → Option String
  | includes path => some path
  | _ => none

def origin? : Statement → Option Expr
  | origin e => some e
  | _ => none

end Statement

abbrev Located := List (Statement × Location)

/-- The tokens of a line that is read without remarks, and what is read from them. -/
inductive Stated : List Token → Located → Prop
  | blank : Stated [] []
  | origin {name : String} {location : Location} {args : List Token} {e : Expr}
    (hname : name.toLower = ".org") (h : Derives 0 (args.map Token.kind) e) :
    Stated (⟨.dotted name, location⟩ :: args) [(.origin e, location)]
  | includes {name path : String} {location place : Location} (hname : name.toLower = ".include") :
    Stated [⟨.dotted name, location⟩, ⟨.str path, place⟩] [(.includes path, location)]
  | other {head : Token} {args : List Token} {s : Statement}
    (hhead : ∀ name, head.kind = .dotted name → name.toLower ≠ ".org" ∧ name.toLower ≠ ".include")
    (hargs : (args.map Token.kind).IsChain Apart) (hpath : s.path? = none)
    (horigin : s.origin? = none) : Stated (head :: args) [(s, head.location)]
  | label {kind : TokenKind} {name : String} {location place : Location} {ts : List Token}
    {ps : Located} (hkind : kind = .ident name ∨ kind = .dotted name) (h : Stated ts ps) :
    Stated (⟨kind, location⟩ :: ⟨.colon, place⟩ :: ts) ((.label name, location) :: ps)

/-- The includes among statements. -/
def includesOf (ps : Located) : List (String × Location) :=
  ps.filterMap fun p => p.1.path?.map (·, p.2)

/-- The address at the front of an operand. -/
def leadingAddress : List TokenKind → Option Address
  | .number v :: _ => addressOf? v
  | _ => none

/-- The first address that leads the operand of an origin, where `operands` says what stands behind
a place. -/
def originOf (operands : Location → List TokenKind) (ps : Located) : Option Address :=
  ps.findSome? fun p => p.1.origin?.bind fun _ => leadingAddress (operands p.2)

def Behind (operands : Location → List TokenKind) (ts : List Token) : Prop :=
  ∀ front head args, ts = front ++ head :: args → operands head.location = args.map Token.kind

theorem Behind.tail {t : Token} (h : Behind operands (t :: ts)) : Behind operands ts := by
  intro front head args hts
  exact h (t :: front) head args (by rw [hts, cons_append])

theorem includesOf_append (ps qs : Located) :
    includesOf (ps ++ qs) = includesOf ps ++ includesOf qs := filterMap_append

theorem originOf_append (operands : Location → List TokenKind) (ps qs : Located) :
    originOf operands (ps ++ qs) = (originOf operands ps).or (originOf operands qs) :=
  findSome?_append

theorem scanTokens_cons (found : Declared) {head : Token} {args : List Token}
    (h : ∀ name, head.kind = .dotted name →
      (name.toLower ≠ ".org" ∧ name.toLower ≠ ".include") ∨
        ∀ t ∈ args.head?, t.kind.isMark = true) :
    scanTokens found (head :: args) = scanTokens found args := by
  obtain ⟨kind, location⟩ := head
  cases kind with
  | dotted name =>
    cases args with
    | nil => simp [scanTokens]
    | cons t ts =>
      have hname := h name rfl
      rw [scanTokens]
      split
      · rename_i path hinclude hkind
        rcases hname with ⟨-, hne⟩ | hmark
        · exact absurd hinclude hne
        · simpa [hkind, TokenKind.isMark] using hmark t rfl
      · rename_i v horg hkind
        rcases hname with ⟨hne, -⟩ | hmark
        · exact absurd horg hne
        · simpa [hkind, TokenKind.isMark] using hmark t rfl
      · rfl
  | _ => simp [scanTokens]

theorem scanTokens_origin (found : Declared) (hname : name.toLower = ".org") {args : List Token}
    (h : (args.map Token.kind).IsChain Apart) :
    scanTokens found (⟨.dotted name, location⟩ :: args) =
      { found with origin := found.origin.or (leadingAddress (args.map Token.kind)) } := by
  cases args with
  | nil => simp [scanTokens, leadingAddress]
  | cons t ts =>
    have hrest : (ts.map Token.kind).IsChain Apart := (isChain_cons.mp h).2
    rw [scanTokens]
    split
    · rename_i hinclude _
      rw [hname] at hinclude
      exact absurd hinclude (by decide)
    · rename_i v _ hkind
      rw [map_cons, hkind, leadingAddress]
      by_cases hnone : found.origin.isNone = true
      · rw [if_pos hnone, scanTokens_of_apart _ hrest, Option.isNone_iff_eq_none.mp hnone,
          Option.none_or]
      · obtain ⟨a, ha⟩ := Option.ne_none_iff_exists'.mp (mt Option.isNone_iff_eq_none.mpr hnone)
        rw [if_neg hnone, scanTokens_of_apart found h, ha, Option.some_or, ← ha]
    · rename_i hnumber
      have hlead : leadingAddress ((t :: ts).map Token.kind) = none := by
        unfold leadingAddress
        split
        · rename_i v ks heq
          exact absurd (List.cons.inj heq).1 (hnumber v hname)
        · rfl
      rw [scanTokens_of_apart found h, hlead, Option.or_none]

theorem scanTokens_includes (found : Declared) {path : String} (hname : name.toLower = ".include")
    {place : Location} :
    scanTokens found [⟨.dotted name, location⟩, ⟨.str path, place⟩] =
      { found with includes := found.includes ++ [(path, location)] } := by
  simp only [hname, scanTokens]

/-- **The scan of a line** finds what the line says. -/
theorem Stated.scan {ps : Located} (h : Stated ts ps) (hbehind : Behind operands ts)
    (found : Declared) :
    scanTokens found ts =
      { includes := found.includes ++ includesOf ps
        origin := found.origin.or (originOf operands ps) } := by
  induction h with
  | blank => simp [scanTokens, includesOf, originOf]
  | origin hname h =>
    rw [scanTokens_origin found hname h.apart]
    simp [includesOf, originOf, Statement.path?, Statement.origin?, hbehind [] _ _ rfl]
  | includes hname =>
    rw [scanTokens_includes found hname]
    simp [includesOf, originOf, Statement.path?, Statement.origin?]
  | other hhead hargs hpath horigin =>
    rw [scanTokens_cons found (fun name hname => Or.inl (hhead name hname)),
      scanTokens_of_apart found hargs]
    simp [includesOf, originOf, hpath, horigin]
  | label hkind h ih =>
    rw [scanTokens_cons found, scanTokens_cons found, ih hbehind.tail.tail]
    · simp [includesOf, originOf, Statement.path?, Statement.origin?]
    · rintro name hname
      cases hname
    · exact fun name _ => .inr fun t ht => by cases ht; rfl

theorem Stated.derives {ps : Located} (h : Stated ts ps) (hbehind : Behind operands ts) :
    ∀ e location, (.origin e, location) ∈ ps → Derives 0 (operands location) e := by
  intro e location hmem
  induction h with
  | blank => cases hmem
  | origin hname h =>
    cases mem_singleton.mp hmem
    rw [hbehind [] _ _ rfl]
    exact h
  | includes hname => cases mem_singleton.mp hmem
  | other hhead hargs hpath horigin =>
    cases mem_singleton.mp hmem
    cases horigin
  | label hkind h ih =>
    rcases mem_cons.mp hmem with heq | hmem
    · cases heq
    · exact ih hbehind.tail.tail hmem

/-! ### What is read -/

theorem derives_of_expectExpr (h : expectExpr ts = .ok (e, rest)) :
    ∃ front, ts = front ++ rest ∧ Derives 0 (front.map Token.kind) e := by
  unfold expectExpr at h
  split at h
  · cases h
  · rename_i e' rest' hread
    cases h
    obtain ⟨front, hts, hderives, -⟩ :=
      (exact_parseWithin ts.length ts (within_length ts) e rest').mp ⟨rest'.2, hread⟩
    exact ⟨front, hts, hderives⟩

theorem apart_of_expectExprsWithin {n : ℕ} {h : ts.length ≤ n} {es : List Expr}
    (hread : expectExprsWithin n ts h = .ok (es, rest)) :
    ∃ front, ts = front ++ rest ∧ (front.map Token.kind).IsChain Apart := by
  fun_induction expectExprsWithin n ts h generalizing es with
  | case1 | case3 => cases hread
  | case2 ts h e hr hexpr =>
    cases hread
    obtain ⟨front, hts, hderives, -⟩ := (exact_parseWithin n ts h e []).mp ⟨hr, hexpr⟩
    exact ⟨front, hts, hderives.apart⟩
  | case4 ts h e t rest' hr hexpr hcomma es' rest'' hmore ih =>
    cases hread
    obtain ⟨front, hts, hderives, -⟩ := (exact_parseWithin n ts h e (t :: rest')).mp ⟨hr, hexpr⟩
    obtain ⟨more, hrest, hapart⟩ := ih hmore
    refine ⟨front ++ t :: more, by simp [hts, hrest], ?_⟩
    rw [map_append, map_cons]
    exact isChain_mark t.kind (by rw [hcomma]; rfl) hderives.apart hapart
  | case5 ts h e t rest' hr hexpr hcomma =>
    cases hread
    obtain ⟨front, hts, hderives, -⟩ := (exact_parseWithin n ts h e (t :: rest')).mp ⟨hr, hexpr⟩
    exact ⟨front, hts, hderives.apart⟩

theorem apart_of_expectArgument {a : Argument} (h : expectArgument ts = .ok (a, rest)) :
    ∃ front, ts = front ++ rest ∧ (front.map Token.kind).IsChain Apart := by
  unfold expectArgument at h
  split at h
  · rename_i r hregister
    cases h
    unfold expectArgument.loneRegister? at hregister
    split at hregister
    · exact ⟨_, (append_nil _).symm, .singleton _⟩
    · cases hregister
  · obtain ⟨⟨e, rest'⟩, hexpr, h⟩ := bind_eq_ok h
    cases h
    obtain ⟨front, hts, hderives⟩ := derives_of_expectExpr hexpr
    exact ⟨front, hts, hderives.apart⟩

theorem mark_of_expectIdent (h : expectIdent ts = .ok (name, rest)) :
    ∃ t, ts = t :: rest ∧ t.kind.isMark = true := by
  unfold expectIdent at h
  split at h
  · cases h
  · rename_i t ts
    split at h
    · rename_i hkind
      cases h
      exact ⟨t, rfl, by rw [hkind]; rfl⟩
    · cases h

theorem mark_of_expectRegister {r : Register} (h : expectRegister ts = .ok (r, rest)) :
    ∃ t, ts = t :: rest ∧ t.kind.isMark = true := by
  unfold expectRegister at h
  split at h
  · cases h
  · rename_i t ts
    split at h
    · rename_i hkind
      split at h
      · cases h
        exact ⟨t, rfl, by rw [hkind]; rfl⟩
      · cases h
    · cases h

theorem mark_of_expectComma (h : expectComma ts = .ok rest) :
    ∃ t, ts = t :: rest ∧ t.kind.isMark = true := by
  unfold expectComma at h
  split at h
  · cases h
  · rename_i t ts
    split at h
    · rename_i hkind
      cases h
      exact ⟨t, rfl, by rw [hkind]; rfl⟩
    · cases h

theorem isChain_mark_cons {t : Token} (ht : t.kind.isMark = true)
    (h : (ts.map Token.kind).IsChain Apart) : ((t :: ts).map Token.kind).IsChain Apart :=
  isChain_mark t.kind ht .nil h

/-- **An instruction** declares nothing, and neither do its operands. -/
theorem apart_of_expectInstruction {op : Opcode} {s : Statement}
    (h : expectInstruction op ts = .ok (s, rest)) :
    (∃ front, ts = front ++ rest ∧ (front.map Token.kind).IsChain Apart) ∧ s.path? = none ∧
      s.origin? = none := by
  unfold expectInstruction at h
  split at h
  · cases h
    exact ⟨⟨[], rfl, .nil⟩, rfl, rfl⟩
  · obtain ⟨⟨b, rest'⟩, hargument, h⟩ := bind_eq_ok h
    cases h
    exact ⟨apart_of_expectArgument hargument, rfl, rfl⟩
  · obtain ⟨⟨a, behind⟩, hregister, h⟩ := bind_eq_ok h
    obtain ⟨behind', hcomma, h⟩ := bind_eq_ok h
    obtain ⟨⟨b, rest'⟩, hargument, h⟩ := bind_eq_ok h
    cases h
    obtain ⟨t, rfl, ht⟩ := mark_of_expectRegister hregister
    obtain ⟨comma, rfl, hmark⟩ := mark_of_expectComma hcomma
    obtain ⟨front, rfl, hapart⟩ := apart_of_expectArgument hargument
    refine ⟨⟨t :: comma :: front, rfl, ?_⟩, rfl, rfl⟩
    exact isChain_mark_cons ht (isChain_mark_cons hmark hapart)

theorem apart_of_skipComma (h : expectExpr (skipComma ts) = .ok (e, rest)) :
    ∃ front, ts = front ++ rest ∧ (front.map Token.kind).IsChain Apart := by
  obtain ⟨front, hts, hderives⟩ := derives_of_expectExpr h
  cases ts with
  | nil => exact ⟨front, hts, hderives.apart⟩
  | cons t ts =>
    rw [skipComma] at hts
    split at hts
    · rename_i hcomma
      have ht : t.kind.isMark = true := by
        rw [hcomma]
        rfl
      exact ⟨t :: front, by rw [hts, cons_append], isChain_mark_cons ht hderives.apart⟩
    · exact ⟨front, hts, hderives.apart⟩

theorem not_declaring {lower : String} (hname : name.toLower = lower)
    (hlower : lower ≠ ".org" ∧ lower ≠ ".include") :
    ∀ name', (⟨.dotted name, location⟩ : Token).kind = .dotted name' →
      name'.toLower ≠ ".org" ∧ name'.toLower ≠ ".include" := by
  rintro name' hname'
  cases hname'
  rwa [hname]

/-- **A directive that makes a statement**, with the tokens that it took. -/
theorem stated_of_expectDirective {relaxed : Bool} {s : Statement}
    (h : expectDirective relaxed name location ts = .ok (.statement s, rest)) :
    ∃ front, ts = front ++ rest ∧ Stated (⟨.dotted name, location⟩ :: front) [(s, location)] := by
  unfold expectDirective at h
  split at h
  · rename_i hname
    obtain ⟨⟨e, rest'⟩, hexpr, h⟩ := bind_eq_ok h
    cases h
    obtain ⟨front, hts, hderives⟩ := derives_of_expectExpr hexpr
    exact ⟨front, hts, .origin hname hderives⟩
  · rename_i hname
    obtain ⟨⟨symbol, behind⟩, hident, h⟩ := bind_eq_ok h
    obtain ⟨⟨e, rest'⟩, hexpr, h⟩ := bind_eq_ok h
    cases h
    obtain ⟨t, rfl, ht⟩ := mark_of_expectIdent hident
    obtain ⟨front, hfront, hapart⟩ := apart_of_skipComma hexpr
    refine ⟨t :: front, by rw [hfront, cons_append], ?_⟩
    exact .other (not_declaring hname (by decide)) (isChain_mark_cons ht hapart) rfl rfl
  · rename_i hname
    unfold expectInclude at h
    split at h
    · cases h
    · rename_i t ts
      split at h
      · rename_i path hkind
        cases h
        obtain ⟨kind, place⟩ := t
        cases hkind
        exact ⟨[⟨.str path, place⟩], rfl, .includes hname⟩
      · cases h
  · rename_i hname
    obtain ⟨⟨es, rest'⟩, hexprs, h⟩ := bind_eq_ok h
    cases h
    obtain ⟨front, hts, hapart⟩ := apart_of_expectExprsWithin hexprs
    exact ⟨front, hts, .other (not_declaring hname (by decide)) hapart rfl rfl⟩
  · obtain ⟨⟨symbol, behind⟩, -, h⟩ := bind_eq_ok h
    simp only at h
    split at h <;> cases h
  · cases h
  · split at h <;> cases h

/-! ### Lines without remarks -/

def itemsOf (ps : Located) : List Item := ps.map fun p => .statement p.1 p.2

theorem markersOf_append (items more : List Item) :
    markersOf (items ++ more) = markersOf items ++ markersOf more := by
  induction items with
  | nil => rfl
  | cons item items ih =>
    cases item with
    | statement s location => exact ih
    | marker m => rw [cons_append, markersOf, markersOf, ih, cons_append]

theorem rest_of_quiet {switches : Switches} {eol : Location} {items : List Item}
    {rest : Except Fault (List Token)}
    (h : markersOf (items ++ tailItems switches eol rest) = []) : rest = .ok [] := by
  rw [markersOf_append, append_eq_nil_iff] at h
  have htail := h.2
  unfold tailItems at htail
  split at htail
  · cases htail
  · rfl
  · split at htail <;> cases htail

section Reading

variable {eol : Location} {switches : Switches} {nested : Option LineReader} {st : ParserState}

/-- What a line leaves behind: an open macro, or the state as it was and what its tokens state. -/
def LineStated (st : ParserState) (ts : List Token) (r : ParserState × List Item) : Prop :=
  r.1.pending.isSome = true ∨ r.1 = st ∧ ∃ ps, r.2 = itemsOf ps ∧ Stated ts ps

theorem readDirective_stated (hrest : (readDirective switches st name location ts).rest = .ok [])
    (hquiet : markersOf (readDirective switches st name location ts).items = []) :
    LineStated st (⟨.dotted name, location⟩ :: ts)
      ((readDirective switches st name location ts).state,
        (readDirective switches st name location ts).items) := by
  unfold readDirective at hrest hquiet ⊢
  split at hrest
  · cases hrest
  · rename_i s rest hdirective
    cases hrest
    obtain ⟨front, hts, hstated⟩ := stated_of_expectDirective hdirective
    rw [append_nil] at hts
    subst hts
    exact .inr ⟨rfl, _, rfl, hstated⟩
  · exact .inl rfl
  · rename_i rest hdirective
    rw [hdirective] at hquiet
    cases hquiet

/-- **A statement that leaves no remark**, where no macros are known. -/
theorem readStatement_stated {head : Token} (hmacros : st.macros = [])
    (hrest : (readStatement switches nested st head ts).rest = .ok [])
    (hquiet : markersOf (readStatement switches nested st head ts).items = []) :
    LineStated st (head :: ts) ((readStatement switches nested st head ts).state,
      (readStatement switches nested st head ts).items) := by
  obtain ⟨kind, location⟩ := head
  unfold readStatement at hrest hquiet ⊢
  cases kind with
  | dotted name => exact readDirective_stated hrest hquiet
  | ident name =>
    simp only [hmacros, lookup_nil] at hrest ⊢
    split at hrest
    · split at hrest
      · cases hrest
      · rename_i s rest hinstruction
        cases hrest
        obtain ⟨⟨front, hts, hapart⟩, hpath, horigin⟩ := apart_of_expectInstruction hinstruction
        rw [append_nil] at hts
        subst hts
        refine .inr ⟨rfl, [(s, location)], rfl, ?_⟩
        exact .other (fun name' hname' => by cases hname') hapart hpath horigin
    · cases hrest
  | _ => cases hrest

theorem readBody_stated (hmacros : st.macros = [])
    (hquiet : markersOf (readBody switches nested st eol ts).2 = []) :
    LineStated st ts (readBody switches nested st eol ts) := by
  cases ts with
  | nil => exact .inr ⟨rfl, [], rfl, .blank⟩
  | cons head ts =>
    have hrest := rest_of_quiet hquiet
    rw [readBody] at hquiet ⊢
    simp only [hrest, tailItems, append_nil] at hquiet ⊢
    exact readStatement_stated hmacros hrest hquiet

theorem readTokens_stated (hmacros : st.macros = [])
    (hquiet : markersOf (readTokens switches nested st eol ts).2 = []) :
    LineStated st ts (readTokens switches nested st eol ts) := by
  unfold readTokens at hquiet ⊢
  split
  · rename_i t hfind
    rw [hfind] at hquiet
    cases hquiet
  · rename_i hfind
    simp only [hfind] at hquiet
    split
    · rename_i hlabel
      rw [hlabel] at hquiet
      exact readBody_stated hmacros hquiet
    · rename_i name location rest hlabel
      rw [hlabel] at hquiet
      simp only at hquiet
      split
      · rename_i hlocal
        rw [if_pos hlocal] at hquiet
        cases hquiet
      · rename_i hlocal
        rw [if_neg hlocal] at hquiet
        rcases readBody_stated hmacros hquiet with hopen | ⟨hstate, ps, hitems, hstated⟩
        · exact .inl hopen
        · refine .inr ⟨hstate, (.label name, location) :: ps, ?_, ?_⟩
          · simp only [hitems]
            rfl
          · obtain ⟨kind, place, rfl, hkind⟩ := label?_eq_some hlabel
            exact .label hkind hstated

end Reading

end WordAsm
