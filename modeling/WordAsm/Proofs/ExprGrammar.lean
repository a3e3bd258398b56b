/-
# The grammar of expressions

Expressions have eight levels: six of binary operators, loosest first, then signs, then
what stands for itself or in parentheses. `Derives k ks e` says that the tokens `ks` are
an expression of level `k` with the tree `e`; it is a grammar and says nothing about how
tokens are read. The parser reads exactly this grammar (`exact_parseWithin`): it takes
the front of its tokens if they are derived and what follows is no operator that would
go on with them (`Stops`).

The parser is built up in layers, and `Exact p k` is what each of them hands to the
next: a level of operators reads level `k` exactly if its operands are read exactly at
`k + 1`, signs if the inside of parentheses is, and the bound on the number of tokens
carries the parentheses.

`Writing` is the way back, an expression as someone writes it, with as many parentheses
as it pleases them. If these are enough, the parser finds the tree again.
-/
import Mathlib.Data.Nat.Notation
import WordAsm.Source.ExprParser

namespace WordAsm

open List

variable {ks : List TokenKind} {e lhs : Expr} {kind : TokenKind} {rest ts : List Token} {t : Token}
  {k : ℕ}

/-! ### The grammar -/

def BinaryOp.token : BinaryOp → TokenKind
  | add => .plus
  | sub => .minus
  | mul => .star
  | div => .slash
  | mod => .percent
  | and => .amp
  | or => .pipe
  | xor => .caret
  | shl => .shiftLeft
  | shr => .shiftRight

/-- How tightly a binary operator binds, from 0 for the loosest. Signs have level 6, and
operands without a sign level 7. -/
def BinaryOp.level : BinaryOp → ℕ
  | or => 0
  | xor => 1
  | and => 2
  | shl => 3
  | shr => 3
  | add => 4
  | sub => 4
  | mul => 5
  | div => 5
  | mod => 5

def UnaryOp.token : UnaryOp → TokenKind
  | neg => .minus
  | not => .tilde

theorem BinaryOp.level_lt (op : BinaryOp) : op.level < 6 := by
  cases op <;> decide

/-- The tokens are an expression of this level with this tree. Binary operators group to
the left; a plus sign and parentheses leave no trace. -/
inductive Derives : ℕ → List TokenKind → Expr → Prop
  | number (v : Int64) : Derives 7 [.number v] (.number v)
  | char (c : Char) : Derives 7 [.char c] (.number (Int64.ofNat c.toNat))
  | name {name : String} (h : Register.ofName? name = none) : Derives 7 [.ident name] (.ident name)
  | dotted (name : String) : Derives 7 [.dotted name] (.ident name)
  | current : Derives 7 [.dollar] .current
  | parens {ks : List TokenKind} {e : Expr} (h : Derives 0 ks e) :
    Derives 7 (.leftParen :: (ks ++ [.rightParen])) e
  | unary (op : UnaryOp) {ks : List TokenKind} {e : Expr} (h : Derives 6 ks e) :
    Derives 6 (op.token :: ks) (.unary op e)
  | plus {ks : List TokenKind} {e : Expr} (h : Derives 6 ks e) : Derives 6 (.plus :: ks) e
  | binary (op : BinaryOp) {ls rs : List TokenKind} {l r : Expr} (hl : Derives op.level ls l)
    (hr : Derives (op.level + 1) rs r) :
    Derives op.level (ls ++ op.token :: rs) (.binary op l r)
  | tighter {k : ℕ} {ks : List TokenKind} {e : Expr} (h : Derives (k + 1) ks e) : Derives k ks e

theorem Derives.ne_nil (h : Derives k ks e) : ks ≠ [] := by
  induction h <;> simp_all

theorem Derives.level_le (h : Derives k ks e) : k ≤ 7 := by
  induction h with
  | binary op =>
    have hlt := op.level_lt
    omega
  | tighter h ih => omega
  | _ => omega

/-- The tokens that expressions are made of. -/
def TokenKind.inExpr : TokenKind → Bool
  | colon | comma | str _ | comment _ | error _ => false
  | _ => true

theorem TokenKind.of_inExpr (h : kind.inExpr = true) :
    kind.isError = false ∧ kind.isComment = false ∧ kind ≠ .colon := by
  cases kind <;> simp_all [inExpr, isError, isComment]

theorem BinaryOp.inExpr_token (op : BinaryOp) : op.token.inExpr = true := by
  cases op <;> rfl

theorem Derives.inExpr (h : Derives k ks e) : ∀ kind ∈ ks, kind.inExpr = true := by
  induction h with
  | unary op h ih => cases op <;> simpa [UnaryOp.token, TokenKind.inExpr] using ih
  | binary op hl hr ihl ihr =>
    intro kind hkind
    rcases mem_append.mp hkind with hleft | hright
    · exact ihl kind hleft
    · rcases mem_cons.mp hright with rfl | hright
      · exact op.inExpr_token
      · exact ihr kind hright
  | tighter h ih => exact ih
  | parens h ih =>
    intro kind hkind
    simp only [mem_cons, mem_append, not_mem_nil, or_false] at hkind
    rcases hkind with rfl | hkind | rfl
    · rfl
    · exact ih kind hkind
    · rfl
  | _ => simp_all [TokenKind.inExpr]

theorem Derives.mono {j : ℕ} (h : Derives k ks e) (hjk : j ≤ k) : Derives j ks e := by
  obtain ⟨d, rfl⟩ := Nat.exists_eq_add_of_le hjk
  induction d with
  | zero => exact h
  | succ d ih => exact ih h.tighter (by omega)

/-- No operator of level `k`, or a tighter one, is at the front. -/
def Stops (k : ℕ) (ts : List Token) : Prop :=
  ∀ op : BinaryOp, k ≤ op.level → ts.head?.map Token.kind ≠ some op.token

theorem BinaryOp.token_injective {op op' : BinaryOp} (h : op.token = op'.token) : op = op' := by
  cases op <;> cases op' <;> first | rfl | cases h

theorem stops_nil (k : ℕ) : Stops k [] := by simp [Stops]

theorem Stops.mono {j : ℕ} (h : Stops j ts) (hjk : j ≤ k) : Stops k ts :=
  fun op hop => h op (by omega)

theorem stops_operator {op : BinaryOp} (ts : List Token) (ht : t.kind = op.token)
    (hop : op.level < k) : Stops k (t :: ts) := by
  intro op' hop' hhead
  have hkind : op.token = op'.token := by simpa [ht] using hhead
  rw [BinaryOp.token_injective hkind] at hop
  omega

theorem stops_rightParen (ht : t.kind = .rightParen) (ts : List Token) : Stops 0 (t :: ts) := by
  intro op _ hhead
  rw [head?_cons, Option.map_some, ht] at hhead
  cases op <;> cases hhead

theorem stops_six (ts : List Token) : Stops 6 ts := by
  intro op hop
  have hlt := op.level_lt
  omega

/-! ### Levels of binary operators -/

/-- The parser reads an expression of level `k` wherever there is one, and nothing else. -/
def Exact {n : ℕ} (p : ParserUpTo n) (k : ℕ) : Prop :=
  ∀ (ts : List Token) (h : ts.length ≤ n) (e : Expr) (rest : List Token),
    (∃ hr, p ts h = .ok (e, ⟨rest, hr⟩)) ↔
      ∃ front, ts = front ++ rest ∧ Derives k (front.map Token.kind) e ∧ Stops k rest

def Lists (ops : TokenKind → Option BinaryOp) (k : ℕ) : Prop :=
  ∀ kind op, ops kind = some op ↔ kind = op.token ∧ op.level = k

section Level

variable {n k : ℕ} {operand q : ParserUpTo n} {ops : TokenKind → Option BinaryOp}
  {tighter : List (TokenKind → Option BinaryOp)} {rest' : List Token}

theorem Stops.of_none (hops : Lists ops k) (hnone : ops t.kind = none) (h : Stops (k + 1) (t :: ts)) :
    Stops k (t :: ts) := by
  intro op hop
  by_cases hk : op.level = k
  · intro hhead
    have hkind : t.kind = op.token := by simpa using hhead
    have hsome := (hops t.kind op).mpr ⟨hkind, hk⟩
    simp [hnone] at hsome
  · exact h op (by omega)

/-- **The operators of a level**: what a chain reads behind the operand `lhs` goes on with its
derivation. -/
theorem derives_of_parseChain (hq : Exact q (k + 1)) (hops : Lists ops k) {h : ts.length ≤ n}
    {hr : rest.length ≤ ts.length} (hread : parseChain q ops lhs ts h = .ok (e, ⟨rest, hr⟩))
    (hlhs : Derives k ks lhs) (hts : Stops (k + 1) ts) :
    ∃ front, ts = front ++ rest ∧ Derives k (ks ++ front.map Token.kind) e ∧ Stops k rest := by
  fun_induction parseChain q ops lhs ts h generalizing ks with
  | case1 lhs h =>
    cases hread
    exact ⟨[], rfl, by simpa using hlhs, stops_nil k⟩
  | case2 lhs t ts h hnone =>
    cases hread
    exact ⟨[], rfl, by simpa using hlhs, hts.of_none hops hnone⟩
  | case3 | case4 => cases hread
  | case5 lhs t ts h op hop rhs next hnext hrhs e' rest' hr' hchain _ ih =>
    cases hread
    obtain ⟨hkind, hlevel⟩ := (hops t.kind op).mp hop
    subst hlevel
    obtain ⟨right, hright, hderives, hstops⟩ := (hq ts _ rhs next).mp ⟨hnext, hrhs⟩
    obtain ⟨front, hfront, hwhole, hstop⟩ := ih hchain (hlhs.binary op hderives) hstops
    refine ⟨t :: (right ++ front), ?_, ?_, hstop⟩
    · rw [hright, hfront, cons_append, append_assoc]
    · simpa [hkind, append_assoc] using hwhole

theorem parseChain_operator (hq : Exact q (k + 1)) (hops : Lists ops k) {op : BinaryOp}
    (hlevel : op.level = k) (ht : t.kind = op.token) {right : List Token} {rhs : Expr}
    (hright : Derives (k + 1) (right.map Token.kind) rhs) (hrest : Stops (k + 1) rest)
    {h : rest.length ≤ n} (hall : (t :: (right ++ rest)).length ≤ n)
    (hchain : ∃ hr, parseChain q ops (.binary op lhs rhs) rest h = .ok (e, ⟨rest', hr⟩)) :
    ∃ hr, parseChain q ops lhs (t :: (right ++ rest)) hall = .ok (e, ⟨rest', hr⟩) := by
  have hop : ops t.kind = some op := (hops t.kind op).mpr ⟨ht, hlevel⟩
  obtain ⟨hr, hread⟩ := (hq (right ++ rest) (Nat.le_of_succ_le hall) rhs rest).mpr
    ⟨right, rfl, hright, hrest⟩
  obtain ⟨hr', hchain⟩ := hchain
  refine ⟨Nat.le_trans hr' (Nat.le_succ_of_le (Nat.le_of_lt hr)), ?_⟩
  rw [parseChain]
  simp only [hop, hread, hchain]

/-- **The other way**: where level `k` is derived, the parser arrives behind it with its tree, and
goes on from there. The induction is on the operators to the left. -/
theorem parseLevels_of_derives (hq : Exact (parseLevels operand tighter) (k + 1))
    (hops : Lists ops k) {j : ℕ} (hderives : Derives j ks lhs) (hj : j = k) (hk : k < 6)
    {front : List Token} (hts : ts = front ++ rest) (hfront : front.map Token.kind = ks)
    (hrest : Stops (k + 1) rest) {h : rest.length ≤ n}
    (hchain : ∃ hr, parseChain (parseLevels operand tighter) ops lhs rest h = .ok (e, ⟨rest', hr⟩))
    (hall : ts.length ≤ n) :
    ∃ hr, parseLevels operand (ops :: tighter) ts hall = .ok (e, ⟨rest', hr⟩) := by
  induction hderives generalizing front rest e with
  | binary op hl hr ihl ihr =>
    subst hj
    obtain ⟨left, behind, rfl, hleft, hbehind⟩ := map_eq_append_iff.mp hfront
    obtain ⟨t, right, rfl, ht, hright⟩ := map_eq_cons_iff.mp hbehind
    have hassoc : ts = left ++ t :: (right ++ rest) := by simp [hts]
    have hlength : (t :: (right ++ rest)).length ≤ n := by
      rw [hassoc, length_append] at hall
      omega
    have hnext := parseChain_operator hq hops rfl ht (hright ▸ hr) hrest hlength hchain
    exact ihl rfl hassoc hleft (stops_operator _ ht (by omega)) hnext
  | tighter hnext ih =>
    subst hj hts
    obtain ⟨hr, hread⟩ := (hq (front ++ rest) hall _ rest).mpr ⟨front, rfl, hfront ▸ hnext, hrest⟩
    obtain ⟨hr', hchain⟩ := hchain
    refine ⟨Nat.lt_of_le_of_lt hr' hr, ?_⟩
    simp only [parseLevels, hread, hchain]
  | _ => omega

theorem parseChain_of_stops (hops : Lists ops k) {h : ts.length ≤ n} (hts : Stops k ts) :
    ∃ hr, parseChain q ops lhs ts h = .ok (lhs, ⟨ts, hr⟩) := by
  cases ts with
  | nil => exact ⟨Nat.le_refl _, by rw [parseChain]⟩
  | cons t ts =>
    have hnone : ops t.kind = none := by
      cases hop : ops t.kind with
      | none => rfl
      | some op =>
        obtain ⟨hkind, hlevel⟩ := (hops t.kind op).mp hop
        exact absurd (by simp [hkind]) (hts op (by omega))
    refine ⟨Nat.le_refl _, ?_⟩
    rw [parseChain]
    simp only [hnone]

/-- **A level of operators** is read exactly if its operands are. -/
theorem exact_parseLevels (hq : Exact (parseLevels operand tighter) (k + 1)) (hops : Lists ops k)
    (hk : k < 6) : Exact (parseLevels operand (ops :: tighter)) k := by
  intro ts h e rest
  constructor
  · rintro ⟨hr, hread⟩
    rw [parseLevels] at hread
    split at hread
    · cases hread
    · rename_i lhs next hnext hlhs
      split at hread
      · cases hread
      · rename_i e' rest' hr' hchain
        cases hread
        obtain ⟨left, hleft, hderives, hstops⟩ := (hq ts h lhs next).mp ⟨hnext, hlhs⟩
        obtain ⟨front, hfront, hwhole, hstop⟩ :=
          derives_of_parseChain hq hops hchain hderives.tighter hstops
        refine ⟨left ++ front, ?_, ?_, hstop⟩
        · rw [hleft, hfront, append_assoc]
        · rwa [map_append]
  · rintro ⟨front, hts, hderives, hstops⟩
    have hlength : rest.length ≤ n := by
      rw [hts, length_append] at h
      omega
    exact parseLevels_of_derives hq hops hderives rfl hk hts rfl (hstops.mono (by omega))
      (parseChain_of_stops (h := hlength) hops hstops) h

end Level

theorem lists_levels {ops : TokenKind → Option BinaryOp} (h : Precedence.levels[k]? = some ops) :
    Lists ops k := by
  have hk : k < 6 := (List.getElem?_eq_some_iff.mp h).1
  intro kind op
  obtain rfl | rfl | rfl | rfl | rfl | rfl : k = 0 ∨ k = 1 ∨ k = 2 ∨ k = 3 ∨ k = 4 ∨ k = 5 := by
    omega
  all_goals
    cases h
    constructor
    · intro hop
      cases kind <;> cases hop <;> exact ⟨rfl, rfl⟩
    · rintro ⟨rfl, hlevel⟩
      cases op <;> first | rfl | cases hlevel

/-- **All levels of operators**, over operands with signs. -/
theorem exact_levels {n : ℕ} {operand : ParserUpTo n} (h : Exact operand 6) :
    Exact (parseLevels operand Precedence.levels) 0 := by
  have hsigned : Exact (parseLevels operand []) 6 := by
    intro ts hts e rest
    simpa only [parseLevels] using h ts hts e rest
  have hproduct := exact_parseLevels hsigned (lists_levels (k := 5) rfl) (by omega)
  have hsum := exact_parseLevels hproduct (lists_levels (k := 4) rfl) (by omega)
  have hshift := exact_parseLevels hsum (lists_levels (k := 3) rfl) (by omega)
  have hand := exact_parseLevels hshift (lists_levels (k := 2) rfl) (by omega)
  have hxor := exact_parseLevels hand (lists_levels (k := 1) rfl) (by omega)
  exact exact_parseLevels hxor (lists_levels (k := 0) rfl) (by omega)

/-! ### Signs and parentheses -/

section Signs

variable {n : ℕ} {inner : ParserUpTo n} {op : Option UnaryOp}

theorem front_single {front : List Token} (hts : t :: ts = front ++ rest)
    (hfront : front.map Token.kind = [kind]) :
    t.kind = kind ∧ ts = rest := by
  obtain ⟨t', rfl, hkind⟩ := map_eq_singleton_iff.mp hfront
  obtain ⟨rfl, rfl⟩ := List.cons.inj hts
  exact ⟨hkind, rfl⟩

theorem derives_single (hkind : t.kind = kind) (h : Derives 7 [kind] e) :
    Derives 7 ([t].map Token.kind) e := by
  rw [map_singleton, hkind]
  exact h

theorem exact_parsePrimary (hinner : Exact inner 0) (t : Token) (ts : List Token)
    (h : ts.length ≤ n) (e : Expr) (rest : List Token) :
    (∃ hr, parsePrimary inner t ts h = .ok (e, ⟨rest, hr⟩)) ↔
      ∃ front, t :: ts = front ++ rest ∧ Derives 7 (front.map Token.kind) e := by
  constructor
  · rintro ⟨hr, hread⟩
    -- the other kinds are no operands
    cases hkind : t.kind <;> simp only [parsePrimary, hkind, reduceCtorEq] at hread
    case number v =>
      cases hread
      exact ⟨[t], rfl, derives_single hkind (.number v)⟩
    case char c =>
      cases hread
      exact ⟨[t], rfl, derives_single hkind (.char c)⟩
    case ident name =>
      split at hread
      · cases hread
      · rename_i e' hname
        cases hread
        unfold namedOperand at hname
        split at hname
        · cases hname
        · rename_i hregister
          cases hname
          exact ⟨[t], rfl, derives_single hkind (.name hregister)⟩
    case dotted name =>
      cases hread
      exact ⟨[t], rfl, derives_single hkind (.dotted name)⟩
    case dollar =>
      cases hread
      exact ⟨[t], rfl, derives_single hkind .current⟩
    case leftParen =>
      split at hread
      · cases hread
      · cases hread
      · rename_i e' close rest' hr' hinside
        split at hread
        · rename_i hclose
          cases hread
          obtain ⟨inside, hts, hderives, -⟩ := (hinner ts h e (close :: rest)).mp ⟨hr', hinside⟩
          refine ⟨t :: (inside ++ [close]), by simp [hts], ?_⟩
          simpa [hkind, hclose] using hderives.parens
        · cases hread
  · rintro ⟨front, hts, hderives⟩
    generalize hseven : 7 = k at hderives
    generalize hfront : front.map Token.kind = ks at hderives
    cases hderives with
    | number | char | dotted | current =>
      obtain ⟨hkind, rfl⟩ := front_single hts hfront
      exact ⟨Nat.lt_succ_self _, by simp only [parsePrimary, hkind]⟩
    | name hregister =>
      obtain ⟨hkind, rfl⟩ := front_single hts hfront
      exact ⟨Nat.lt_succ_self _, by simp only [parsePrimary, hkind, namedOperand, hregister]⟩
    | parens hderives =>
      obtain ⟨t', behind, rfl, hkind, hbehind⟩ := map_eq_cons_iff.mp hfront
      obtain ⟨inside, last, rfl, hinside, hlast⟩ := map_eq_append_iff.mp hbehind
      obtain ⟨close, rfl, hclose⟩ := map_eq_singleton_iff.mp hlast
      obtain ⟨rfl, rfl⟩ := List.cons.inj hts
      have hstops : Stops 0 (close :: rest) := stops_rightParen hclose rest
      obtain ⟨hr, hread⟩ := (hinner _ h e (close :: rest)).mpr
        ⟨inside, by simp, hinside ▸ hderives, hstops⟩
      refine ⟨Nat.lt_succ_of_lt (Nat.lt_of_succ_lt hr), ?_⟩
      simp only [parsePrimary, hkind, hread, hclose, if_true]
    | unary | plus => omega
    | binary op =>
      have hlt := op.level_lt
      omega
    | tighter hderives =>
      have hle := hderives.level_le
      omega

theorem derives_of_sign (hsign : sign? kind = some op) (h : Derives 6 ks e) :
    Derives 6 (kind :: ks) (op.elim e (.unary · e)) := by
  unfold sign? at hsign
  split at hsign
  · cases hsign
    exact h.unary .neg
  · cases hsign
    exact h.unary .not
  · cases hsign
    exact h.plus
  · cases hsign

theorem Derives.sign?_eq_none (h : Derives 7 (kind :: ks) e) : sign? kind = none := by
  generalize hseven : 7 = k at h
  generalize hks : kind :: ks = ks' at h
  cases h with
  | number | char | name | dotted | current | parens =>
    obtain ⟨rfl, -⟩ := List.cons.inj hks
    rfl
  | unary | plus => omega
  | binary op =>
    have hlt := op.level_lt
    omega
  | tighter h =>
    have hle := h.level_le
    omega

theorem parseUnary_sign {h : (t :: ts).length ≤ n + 1} (hsign : sign? t.kind = some op)
    (hread : ∃ hr, parseUnary inner ts (Nat.le_of_succ_le h) = .ok (e, ⟨rest, hr⟩)) :
    ∃ hr, parseUnary inner (t :: ts) h = .ok (op.elim e (.unary · e), ⟨rest, hr⟩) := by
  obtain ⟨hr, hread⟩ := hread
  refine ⟨Nat.lt_succ_of_lt hr, ?_⟩
  simp only [parseUnary, hsign, hread]

/-- **Operands with signs**: each sign takes a token, and the first token that is none starts the
operand itself. -/
theorem exact_parseUnary (hinner : Exact inner 0) : Exact (parseUnary inner) 6 := by
  intro ts h e rest
  constructor
  · rintro ⟨hr, hread⟩
    induction ts generalizing e with
    | nil => cases hread
    | cons t ts ih =>
      rw [parseUnary] at hread
      split at hread
      · rename_i op hsign
        split at hread
        · cases hread
        · rename_i e' rest' hr' hoperand
          cases hread
          obtain ⟨front, hts, hderives, hstops⟩ := ih _ _ _ hoperand
          refine ⟨t :: front, by rw [hts, cons_append], ?_, hstops⟩
          exact derives_of_sign hsign hderives
      · obtain ⟨front, hts, hderives⟩ :=
          (exact_parsePrimary hinner t ts _ e rest).mp ⟨hr, hread⟩
        exact ⟨front, hts, hderives.tighter, stops_six rest⟩
  · rintro ⟨front, hts, hderives, -⟩
    generalize hsix : 6 = k at hderives
    generalize hfront : front.map Token.kind = ks at hderives
    induction hderives generalizing ts front with
    | unary op hderives ih =>
      obtain ⟨t, behind, rfl, hkind, hbehind⟩ := map_eq_cons_iff.mp hfront
      subst hts
      have hsign : sign? t.kind = some (some op) := by
        rw [hkind]
        cases op <;> rfl
      exact parseUnary_sign hsign (ih _ _ behind rfl rfl hbehind)
    | plus hderives ih =>
      obtain ⟨t, behind, rfl, hkind, hbehind⟩ := map_eq_cons_iff.mp hfront
      subst hts
      have hsign : sign? t.kind = some none := by
        rw [hkind]
        rfl
      exact parseUnary_sign hsign (ih _ _ behind rfl rfl hbehind)
    | binary op =>
      have hlt := op.level_lt
      omega
    | tighter hderives ih =>
      subst hsix hts hfront
      cases front with
      | nil => exact absurd rfl hderives.ne_nil
      | cons t front =>
        have hsign : sign? t.kind = none := hderives.sign?_eq_none
        obtain ⟨hr, hread⟩ := (exact_parsePrimary hinner t (front ++ rest)
          (Nat.le_of_succ_le_succ h) _ rest).mpr ⟨t :: front, rfl, hderives⟩
        refine ⟨hr, ?_⟩
        simp only [cons_append, parseUnary, hsign, hread]
    | _ => omega

end Signs

/-- **The parser reads the grammar**, whatever bound it goes by. -/
theorem exact_parseWithin (n : ℕ) : Exact (parseWithin n) 0 := by
  induction n with
  | zero =>
    intro ts h e rest
    constructor
    · rintro ⟨hr, hread⟩
      cases hread
    · rintro ⟨front, hts, hderives, -⟩
      have hne : front ≠ [] := by simpa using hderives.ne_nil
      have hpos := length_pos_iff.mpr hne
      rw [hts, length_append] at h
      omega
  | succ n ih => exact exact_levels (exact_parseUnary ih)

theorem Derives.unique {e' : Expr} (h : Derives 0 ks e) (h' : Derives 0 ks e') : e = e' := by
  let ts : List Token := ks.map (⟨·, ⟨0, 0, 0, 0⟩⟩)
  have hkinds : ts.map Token.kind = ks := by simp [ts, Function.comp_def]
  obtain ⟨hr, hread⟩ := (exact_parseWithin ts.length ts (within_length ts) e []).mpr
    ⟨ts, by simp, hkinds ▸ h, stops_nil 0⟩
  obtain ⟨hr', hread'⟩ := (exact_parseWithin ts.length ts (within_length ts) e' []).mpr
    ⟨ts, by simp, hkinds ▸ h', stops_nil 0⟩
  rw [hread] at hread'
  cases hread'
  rfl

/-! ### Expressions as they are written -/

/-- An expression as it is written, with its parentheses. -/
inductive Writing
  | number (v : Int64)
  | char (c : Char)
  | name (symbol : String)
  | dotted (symbol : String)
  | current
  | unary (op : UnaryOp) (w : Writing)
  | binary (op : BinaryOp) (l r : Writing)
  | parens (w : Writing)
  deriving DecidableEq

namespace Writing

variable {w : Writing}

def tokens : Writing → List TokenKind
  | number v => [.number v]
  | char c => [.char c]
  | name symbol => [.ident symbol]
  | dotted symbol => [.dotted symbol]
  | current => [.dollar]
  | unary op w => op.token :: w.tokens
  | binary op l r => l.tokens ++ op.token :: r.tokens
  | parens w => .leftParen :: (w.tokens ++ [.rightParen])

/-- The expression that is meant. -/
def tree : Writing → Expr
  | number v => .number v
  | char c => .number (Int64.ofNat c.toNat)
  | name symbol => .ident symbol
  | dotted symbol => .ident symbol
  | current => .current
  | unary op w => .unary op w.tree
  | binary op l r => .binary op l.tree r.tree
  | parens w => w.tree

def level : Writing → ℕ
  | unary _ _ => 6
  | binary op _ _ => op.level
  | _ => 7

/-- There are parentheses wherever the levels need them, and maybe more. No name is that of a
register. -/
def Enough : Writing → Prop
  | name symbol => Register.ofName? symbol = none
  | unary _ w => 6 ≤ w.level ∧ w.Enough
  | binary op l r => op.level ≤ l.level ∧ op.level < r.level ∧ l.Enough ∧ r.Enough
  | parens w => w.Enough
  | _ => True

/-- **With enough parentheses**, the tokens are derived with the tree that is meant. -/
theorem Enough.derives (h : w.Enough) : Derives w.level w.tokens w.tree := by
  induction w with
  | number v => exact .number v
  | char c => exact .char c
  | name symbol => exact .name h
  | dotted symbol => exact .dotted symbol
  | current => exact .current
  | unary op w ih =>
    obtain ⟨hlevel, hw⟩ := h
    exact .unary op ((ih hw).mono hlevel)
  | binary op l r ihl ihr =>
    obtain ⟨hleft, hright, hl, hr⟩ := h
    exact .binary op ((ihl hl).mono hleft) ((ihr hr).mono hright)
  | parens w ih => exact .parens ((ih h).mono (Nat.zero_le _))

/-- Puts parentheses around what is looser than `k`. -/
def within (k : ℕ) (w : Writing) : Writing := if k ≤ w.level then w else parens w

theorem tree_within (k : ℕ) (w : Writing) : (w.within k).tree = w.tree := by
  unfold within
  split <;> rfl

theorem le_level_within (hk : k ≤ 7) (w : Writing) : k ≤ (w.within k).level := by
  unfold within
  split
  · assumption
  · exact hk

theorem Enough.within (h : w.Enough) (k : ℕ) : (w.within k).Enough := by
  unfold Writing.within
  split <;> exact h

end Writing

/-- An expression with no more parentheses than it needs. -/
def Expr.written : Expr → Writing
  | number v => .number v
  | ident name => if Register.ofName? name = none then .name name else .dotted name
  | current => .current
  | unary op e => .unary op (e.written.within 6)
  | binary op l r => .binary op (l.written.within op.level) (r.written.within (op.level + 1))

theorem Expr.tree_written (e : Expr) : e.written.tree = e := by
  induction e with
  | number | current => rfl
  | ident name =>
    unfold Expr.written
    split <;> rfl
  | unary op e ih => rw [Expr.written, Writing.tree, Writing.tree_within, ih]
  | binary op l r ihl ihr =>
    rw [Expr.written, Writing.tree, Writing.tree_within, Writing.tree_within, ihl, ihr]

theorem Expr.enough_written (e : Expr) : e.written.Enough := by
  induction e with
  | number | current => trivial
  | ident name =>
    unfold Expr.written
    split
    · assumption
    · trivial
  | unary op e ih => exact ⟨Writing.le_level_within (by omega) _, ih.within 6⟩
  | binary op l r ihl ihr =>
    have hlt := op.level_lt
    exact ⟨Writing.le_level_within (by omega) _, Writing.le_level_within (by omega) _,
      ihl.within _, ihr.within _⟩

/-! ### The parser -/

theorem stops_zero_iff : Stops 0 ts ↔ ∀ op : BinaryOp, ts.head?.map Token.kind ≠ some op.token :=
  ⟨fun h op => h op (Nat.zero_le _), fun h op _ => h op⟩

/-- **The parser accepts exactly the grammar.** It reads `e` and leaves `rest` just if the tokens
before `rest` are derived with the tree `e` and `rest` does not go on with an operator. So an
expression that is written with enough parentheses is read as what was meant, and every expression
can be written so. -/
theorem parseExpr_exact :
    (∀ (ts : List Token) (e : Expr) (rest : List Token),
      (∃ hr, parseExpr ts = .ok (e, ⟨rest, hr⟩)) ↔
        ∃ front, ts = front ++ rest ∧ Derives 0 (front.map Token.kind) e ∧
          ∀ op : BinaryOp, rest.head?.map Token.kind ≠ some op.token) ∧
    (∀ (w : Writing) (front rest : List Token), w.Enough → front.map Token.kind = w.tokens →
      (∀ op : BinaryOp, rest.head?.map Token.kind ≠ some op.token) →
        ∃ hr, parseExpr (front ++ rest) = .ok (w.tree, ⟨rest, hr⟩)) ∧
    ∀ e : Expr, e.written.Enough ∧ e.written.tree = e := by
  have hexact : ∀ (ts : List Token) (e : Expr) (rest : List Token),
      (∃ hr, parseExpr ts = .ok (e, ⟨rest, hr⟩)) ↔
        ∃ front, ts = front ++ rest ∧ Derives 0 (front.map Token.kind) e ∧
          ∀ op : BinaryOp, rest.head?.map Token.kind ≠ some op.token := by
    intro ts e rest
    have hwithin := exact_parseWithin ts.length ts (within_length ts) e rest
    simpa only [parseExpr, stops_zero_iff] using hwithin
  refine ⟨hexact, ?_, fun e => ⟨e.enough_written, e.tree_written⟩⟩
  intro w front rest hw hfront hrest
  have hderives : Derives 0 (front.map Token.kind) w.tree :=
    hfront ▸ hw.derives.mono (Nat.zero_le _)
  exact (hexact _ _ _).mpr ⟨front, rfl, hderives, hrest⟩

/-- `-a * (b - 1) << c - 2` in front of a comma. -/
theorem parseExpr_exact_mixed :
    ∃ hr, parseExpr ([.minus, .ident "a", .star, .leftParen, .ident "b", .minus, .number 1,
      .rightParen, .shiftLeft, .ident "c", .minus, .number 2, .comma].map (⟨·, ⟨0, 0, 0, 0⟩⟩)) =
      .ok (.binary .shl
        (.binary .mul (.unary .neg (.ident "a")) (.binary .sub (.ident "b") (.number 1)))
        (.binary .sub (.ident "c") (.number 2)), ⟨[⟨.comma, ⟨0, 0, 0, 0⟩⟩], hr⟩) := by
  have hnames : Register.ofName? "a" = none ∧ Register.ofName? "b" = none ∧
      Register.ofName? "c" = none := by decide +kernel
  obtain ⟨ha, hb, hc⟩ := hnames
  let w : Writing := .binary .shl
    (.binary .mul (.unary .neg (.name "a")) (.parens (.binary .sub (.name "b") (.number 1))))
    (.binary .sub (.name "c") (.number 2))
  have hw : w.Enough := by simp [w, Writing.Enough, Writing.level, BinaryOp.level, ha, hb, hc]
  have hrest : ∀ op : BinaryOp, ([⟨.comma, ⟨0, 0, 0, 0⟩⟩] : List Token).head?.map Token.kind ≠
      some op.token := by
    intro op hop
    cases op <;> cases hop
  exact parseExpr_exact.2.1 w (w.tokens.map (⟨·, ⟨0, 0, 0, 0⟩⟩)) [⟨.comma, ⟨0, 0, 0, 0⟩⟩] hw rfl
    hrest

end WordAsm
