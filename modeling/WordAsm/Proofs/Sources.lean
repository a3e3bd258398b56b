/-
# What is read from a source

Lines are read one after the other, and a macro call reads lines again. What holds of every
item that is read, and of the macros known on the way, follows from what holds of single
statements and single lines (`Upholding.readSource`).

So, whatever a source text says, the statements read from it are well formed
(`Statement.Sound`): an instruction has the operand its opcode asks for, and a
list of words has at least one member. Faults of the text become error or
warning markers, never reports of a breakdown, and these point at no node.
-/
import WordAsm.Proofs.Encoding
import WordAsm.Build.Declaration

namespace WordAsm

open List

variable {rest ts : List Token} {items : List Item} {n : Node} {location : Location} {id : NodeId}
  {name : String}

/-- A statement is well formed; a marker reports a fault of the text, and points at no
node, since there is none yet. -/
def Item.Sound : Item → Prop
  | statement s _ => s.Sound
  | marker m => m.kind ≠ .genericError ∧ m.node = none

/-! ### Statements -/

theorem expectExprsWithin_ne_nil {n : ℕ} {h : ts.length ≤ n} {es : List Expr}
    (hok : expectExprsWithin n ts h = .ok (es, rest)) : es ≠ [] := by
  rw [expectExprsWithin] at hok
  split at hok
  · cases hok
  · cases hok
    simp
  · split at hok
    · split at hok
      · cases hok
      · cases hok
        simp
    · cases hok
      simp

theorem expectInstruction_eq {op : Opcode} {s : Statement}
    (h : expectInstruction op ts = .ok (s, rest)) :
    ∃ a b, s = .instruction op a b ∧ (op.shape = .bare ↔ b = none) := by
  unfold expectInstruction at h
  split at h
  · rename_i hshape
    cases h
    exact ⟨_, _, rfl, fun _ => rfl, fun _ => hshape⟩
  · rename_i hshape
    obtain ⟨⟨b, behind⟩, -, h⟩ := bind_eq_ok h
    cases h
    exact ⟨_, _, rfl, by simp [hshape]⟩
  · rename_i hshape
    obtain ⟨⟨a, behind⟩, -, h⟩ := bind_eq_ok h
    obtain ⟨behind, -, h⟩ := bind_eq_ok h
    obtain ⟨⟨b, behind⟩, -, h⟩ := bind_eq_ok h
    cases h
    exact ⟨_, _, rfl, by simp [hshape]⟩

theorem expectIdent_mem (h : expectIdent ts = .ok (name, rest)) : ∃ t ∈ ts, t.kind = .ident name := by
  unfold expectIdent at h
  split at h
  · cases h
  · split at h
    · rename_i hkind
      cases h
      exact ⟨_, mem_cons_self, hkind⟩
    · cases h

theorem expectDirective_cases {relaxed : Bool} {d : Directive}
    (h : expectDirective relaxed name location ts = .ok (d, rest)) :
    (∃ e, d = .statement (.origin e)) ∨
      (∃ symbol e, (∃ t ∈ ts, t.kind = .ident symbol) ∧ d = .statement (.equation symbol e)) ∨
      (name.toLower = ".include" ∧
        ∃ t path, ts = t :: rest ∧ t.kind = .str path ∧ d = .statement (.includes path)) ∨
      (∃ es, es ≠ [] ∧ d = .statement (.words es)) ∨
      (∃ symbol, (∃ t ∈ ts, t.kind = .ident symbol) ∧ Opcode.ofMnemonic? symbol = none ∧
        d = .openMacro symbol) ∨ d = .ignored := by
  unfold expectDirective at h
  split at h
  · obtain ⟨⟨e, behind⟩, -, h⟩ := bind_eq_ok h
    cases h
    exact .inl ⟨e, rfl⟩
  · obtain ⟨⟨symbol, behind⟩, hident, h⟩ := bind_eq_ok h
    obtain ⟨⟨e, behind⟩, -, h⟩ := bind_eq_ok h
    cases h
    exact .inr (.inl ⟨symbol, e, expectIdent_mem hident, rfl⟩)
  · rename_i hname
    unfold expectInclude at h
    split at h
    · cases h
    · split at h
      · rename_i hkind
        cases h
        exact .inr (.inr (.inl ⟨hname, _, _, rfl, hkind, rfl⟩))
      · cases h
  · obtain ⟨⟨es, behind⟩, hes, h⟩ := bind_eq_ok h
    cases h
    exact .inr (.inr (.inr (.inl ⟨es, expectExprsWithin_ne_nil hes, rfl⟩)))
  · obtain ⟨⟨symbol, behind⟩, hident, h⟩ := bind_eq_ok h
    simp only at h
    split at h
    · cases h
    · rename_i hfree
      cases h
      exact .inr (.inr (.inr (.inr (.inl ⟨symbol, expectIdent_mem hident, hfree, rfl⟩))))
  · cases h
  · split at h <;> cases h
    exact .inr (.inr (.inr (.inr (.inr rfl))))

theorem label?_eq_some (h : label? ts = some (name, location, rest)) :
    ∃ kind place, ts = ⟨kind, location⟩ :: ⟨.colon, place⟩ :: rest ∧
      (kind = .ident name ∨ kind = .dotted name) := by
  unfold label? at h
  split at h
  · cases h
    exact ⟨_, _, rfl, .inl rfl⟩
  · cases h
    exact ⟨_, _, rfl, .inr rfl⟩
  · cases h

theorem label?_suffix (h : label? ts = some (name, location, rest)) : rest <:+ ts := by
  obtain ⟨kind, place, rfl, -⟩ := label?_eq_some h
  exact ⟨[_, _], rfl⟩

/-! ### Lines -/

def SourceLine.spoken (line : SourceLine) : List Token :=
  (tokensOfLine line).filter fun t => !t.kind.isComment

/-- A reader that keeps `I` of what is known and whose items are all `P`, where the lines are
all `L`. -/
def LineReader.Upholds (L : List Char → Prop) (I : ParserState → Prop) (P : Item → Prop)
    (read : LineReader) : Prop :=
  ∀ st line, I st → L line.text → I (read st line).1 ∧ ∀ i ∈ (read st line).2, P i

/-- What has to hold of single lines and statements for that. -/
structure Upholding (L : List Char → Prop) (I : ParserState → Prop) (P : Item → Prop) : Prop where
  marker : ∀ m : Marker, m.kind ≠ .genericError → m.node = none → P (.marker m)
  label : ∀ {line : SourceLine} {ts name location rest}, ts <:+ line.spoken →
    label? ts = some (name, location, rest) → P (.statement (.label name) location)
  instruction : ∀ {op ts s rest} location, expectInstruction op ts = .ok (s, rest) →
    P (.statement s location)
  directive : ∀ {line : SourceLine} {head ts name relaxed s rest}, L line.text →
    head :: ts <:+ line.spoken → head.kind = .dotted name →
    expectDirective relaxed name head.location ts = .ok (.statement s, rest) →
    P (.statement s head.location)
  opens : ∀ {line : SourceLine} {head ts name relaxed symbol rest} {st : ParserState},
    head :: ts <:+ line.spoken →
    expectDirective relaxed name head.location ts = .ok (.openMacro symbol, rest) → I st →
    I { st with pending := some ⟨symbol, head.location, []⟩ }
  collects : ∀ {st m text}, I st → st.pending = some m → L text → I (collectLine st m text).1
  definition : ∀ {st : ParserState} {m}, I st → st.pending = some m →
    P (.statement (.macroDef m.name m.body) m.location)
  bodies : ∀ {st name body}, I st → st.macros.lookup name = some body → ∀ text ∈ body, L text.toList

theorem Fault.marker_located (fault : Fault) (eol : Location) :
    (fault.marker eol).kind ≠ .genericError ∧ (fault.marker eol).node = none := by
  cases fault <;> exact ⟨(nomatch ·), rfl⟩

section Reading

variable {L : List Char → Prop} {I : ParserState → Prop} {P : Item → Prop} {switches : Switches}
  {nested : Option LineReader} {st : ParserState}

theorem readLines_upholds {read : LineReader} (h : read.Upholds L I P) {lines : List SourceLine}
    (hst : I st) (hlines : ∀ line ∈ lines, L line.text) :
    I (readLines read st lines).1 ∧ ∀ i ∈ (readLines read st lines).2, P i := by
  induction lines generalizing st with
  | nil => exact ⟨hst, forall_mem_nil _⟩
  | cons line lines ih =>
    obtain ⟨hnext, hitems⟩ := h st line hst (hlines line mem_cons_self)
    obtain ⟨hend, hmore⟩ := ih hnext fun l hl => hlines l (mem_cons_of_mem _ hl)
    exact ⟨hend, forall_mem_append.mpr ⟨hitems, hmore⟩⟩

namespace Upholding

variable (h : Upholding L I P) {line : SourceLine}

include h

theorem fault (fault : Fault) (eol : Location) : ∀ i ∈ [Item.marker (fault.marker eol)], P i :=
  forall_mem_singleton.mpr
    (h.marker _ (fault.marker_located eol).1 (fault.marker_located eol).2)

theorem tailItems (eol : Location) (rest : Except Fault (List Token)) :
    ∀ i ∈ tailItems switches eol rest, P i := by
  unfold WordAsm.tailItems
  split
  · exact h.fault _ eol
  · exact forall_mem_nil _
  · split
    · exact forall_mem_singleton.mpr (h.marker _ (nomatch ·) rfl)
    · exact h.fault _ eol

variable (hn : ∀ read, nested = some read → LineReader.Upholds L I P read)

include hn

theorem readStatement (hst : I st) (hline : L line.text) {head : Token}
    (hts : head :: ts <:+ line.spoken) :
    I (readStatement switches nested st head ts).state ∧
      ∀ i ∈ (readStatement switches nested st head ts).items, P i := by
  unfold WordAsm.readStatement
  split
  · rename_i name hkind
    unfold readDirective
    split
    · exact ⟨hst, forall_mem_nil _⟩
    · exact ⟨hst, forall_mem_singleton.mpr (h.directive hline hts hkind ‹_›)⟩
    · exact ⟨h.opens hts ‹_› hst, forall_mem_nil _⟩
    · exact ⟨hst, forall_mem_singleton.mpr (h.marker _ (nomatch ·) rfl)⟩
  · split
    · split
      · exact ⟨hst, forall_mem_nil _⟩
      · exact ⟨hst, forall_mem_singleton.mpr (h.instruction _ ‹_›)⟩
    · split
      · rename_i body hbody
        unfold readCall
        split
        · exact ⟨hst, forall_mem_nil _⟩
        · -- the lines of the macro are read one level further down
          rename_i read
          refine readLines_upholds (hn read rfl) hst fun line hline => ?_
          obtain ⟨text, htext, rfl⟩ := mem_map.mp hline
          exact h.bodies hst hbody text htext
      · exact ⟨hst, forall_mem_nil _⟩
  · exact ⟨hst, forall_mem_nil _⟩

theorem readBody (hst : I st) (eol : Location) (hline : L line.text) (hts : ts <:+ line.spoken) :
    I (readBody switches nested st eol ts).1 ∧
      ∀ i ∈ (readBody switches nested st eol ts).2, P i := by
  cases ts with
  | nil => exact ⟨hst, forall_mem_nil _⟩
  | cons head ts =>
    obtain ⟨hstate, hitems⟩ := h.readStatement hn hst hline hts
    exact ⟨hstate, forall_mem_append.mpr ⟨hitems, h.tailItems eol _⟩⟩

theorem readTokens (hst : I st) (eol : Location) (hline : L line.text) (hts : ts <:+ line.spoken) :
    I (readTokens switches nested st eol ts).1 ∧
      ∀ i ∈ (readTokens switches nested st eol ts).2, P i := by
  unfold WordAsm.readTokens
  split
  · exact ⟨hst, h.fault _ eol⟩
  · split
    · exact h.readBody hn hst eol hline hts
    · rename_i hlabel
      split
      · exact ⟨hst, h.fault _ eol⟩
      · obtain ⟨hstate, hitems⟩ := h.readBody hn hst eol hline ((label?_suffix hlabel).trans hts)
        exact ⟨hstate, forall_mem_cons.mpr ⟨h.label hts hlabel, hitems⟩⟩

theorem readLineWith : LineReader.Upholds L I P (readLineWith switches nested) := by
  intro st line hst hline
  unfold WordAsm.readLineWith
  split
  · rename_i m hm
    refine ⟨h.collects hst hm hline, ?_⟩
    unfold collectLine
    split
    · exact forall_mem_singleton.mpr (h.definition hst hm)
    · exact forall_mem_nil _
  · exact h.readTokens hn hst _ hline (suffix_refl line.spoken)

omit hn

theorem readLine (depth : ℕ) : LineReader.Upholds L I P (readLine switches depth) := by
  induction depth with
  | zero => exact h.readLineWith fun read hread => by cases hread
  | succ depth ih => exact h.readLineWith fun read hread => by cases hread; exact ih

/-- **What reading upholds** holds of every item of a text. -/
theorem readSource (hstart : I {}) {text : String}
    (hlines : ∀ line ∈ sourceLines text, L line.text) : ∀ i ∈ readSource switches text, P i := by
  obtain ⟨-, hitems⟩ := readLines_upholds (h.readLine maxExpansion) hstart hlines
  refine forall_mem_append.mpr ⟨hitems, ?_⟩
  unfold unfinished
  split
  · exact forall_mem_singleton.mpr (h.marker _ (nomatch ·) rfl)
  · exact forall_mem_nil _

end Upholding

end Reading

/-! ### Texts -/

theorem upholding_sound : Upholding (fun _ => True) (fun _ => True) Item.Sound where
  marker _ hkind hnode := ⟨hkind, hnode⟩
  label _ _ := trivial
  instruction _ hok := by
    obtain ⟨a, b, rfl, hshape⟩ := expectInstruction_eq hok
    exact hshape
  directive _ _ _ hok := by
    rcases expectDirective_cases hok with ⟨e, he⟩ | ⟨symbol, e, -, he⟩ | ⟨-, _, _, -, -, he⟩ |
      ⟨es, hes, he⟩ | ⟨_, -, -, he⟩ | he <;> cases he
    · trivial
    · trivial
    · trivial
    · exact hes
  opens _ _ _ := trivial
  collects _ _ _ := trivial
  definition _ _ := trivial
  bodies _ _ _ _ := trivial

theorem readSource_sound (switches : Switches) (text : String) :
    ∀ i ∈ readSource switches text, i.Sound :=
  upholding_sound.readSource trivial fun _ _ => trivial

theorem mem_nodesFrom (h : n ∈ nodesFrom id items) :
    ∃ location, Item.statement n.statement location ∈ items := by
  induction items generalizing id with
  | nil => cases h
  | cons item items ih =>
    cases item with
    | statement s location =>
      rcases mem_cons.mp h with rfl | h
      · exact ⟨location, mem_cons_self⟩
      · obtain ⟨l, hl⟩ := ih h
        exact ⟨l, mem_cons_of_mem _ hl⟩
    | marker m =>
      obtain ⟨l, hl⟩ := ih h
      exact ⟨l, mem_cons_of_mem _ hl⟩

theorem eq_of_mem_nodesFrom (h : n ∈ nodesFrom id items) :
    n = { id := n.id, statement := n.statement, location := n.location } := by
  induction items generalizing id with
  | nil => cases h
  | cons item items ih =>
    cases item with
    | statement s location =>
      rcases mem_cons.mp h with rfl | h
      · rfl
      · exact ih h
    | marker m => exact ih h

theorem unplaced_of_mem_nodesFrom (h : n ∈ nodesFrom id items) :
    n.address = none ∧ n.inlined = false := by
  rw [eq_of_mem_nodesFrom h]
  exact ⟨rfl, rfl⟩

theorem mem_markersOf {m : Marker} (h : m ∈ markersOf items) : Item.marker m ∈ items := by
  induction items with
  | nil => cases h
  | cons item items ih =>
    cases item with
    | statement s location => exact mem_cons_of_mem _ (ih h)
    | marker m' =>
      rcases mem_cons.mp h with rfl | h
      · exact mem_cons_self
      · exact mem_cons_of_mem _ (ih h)

/-- **Every statement that is read is well formed.** -/
theorem parseSource_sound (switches : Switches) (text : String) :
    ∀ n ∈ (parseSource switches text).1, n.statement.Sound := by
  intro n hn
  obtain ⟨location, hitem⟩ := mem_nodesFrom hn
  exact readSource_sound switches text _ hitem

theorem parseSource_markers (switches : Switches) (text : String) :
    ∀ m ∈ (parseSource switches text).2, m.kind ≠ .genericError ∧ m.node = none := fun _ hm =>
  readSource_sound switches text _ (mem_markersOf hm)

/-- The nodes of a unit as its source has them; none if it cannot be read. -/
def SourceUnit.source (switches : Switches) (tree : FileTree) (u : SourceUnit) : SyntaxTree :=
  match u.resource.readText tree with
  | .ok text => (parseSource switches text).1
  | .error _ => []

theorem SourceUnit.source_eq {switches : Switches} {tree : FileTree} {u : SourceUnit}
    {text : String} (h : u.resource.readText tree = .ok text) :
    u.source switches tree = (parseSource switches text).1 := by
  unfold source
  rw [h]

theorem SourceUnit.source_sound (switches : Switches) (tree : FileTree) (u : SourceUnit) :
    ∀ n ∈ u.source switches tree, n.statement.Sound := by
  intro n hn
  unfold source at hn
  split at hn
  · exact parseSource_sound switches _ n hn
  · cases hn

theorem SourceUnit.unplaced_of_mem_source {switches : Switches} {tree : FileTree} {u : SourceUnit}
    (hn : n ∈ u.source switches tree) : n.address = none := by
  unfold source at hn
  split at hn
  · exact (unplaced_of_mem_nodesFrom hn).1
  · cases hn

theorem SourceUnit.source_congr {u v : SourceUnit} (h : v.resource = u.resource)
    (switches : Switches) (tree : FileTree) : v.source switches tree = u.source switches tree := by
  unfold SourceUnit.source
  rw [h]

end WordAsm
