/-
# Reading leniently

Two switches let the parser go on where it would find fault: unknown directives and tokens left
over at the end of a line are passed with a warning, and local labels are taken. Each place where
they matter is one where the stricter parser leaves an error marker. So what it reads without
errors, a more lenient parser reads in the same way, line by line, with the same macros known
after each line, and also inside the macros that a line calls.

The readers of the lines of macro bodies are built one from the other. `Outreads` is the relation
between a reader and a more lenient one that goes from each level of nesting to the next.
-/
import Mathlib.Data.Nat.Notation
import WordAsm.Source.Parser

namespace WordAsm

open List

variable {items : List Item} {ts : List Token} {eol : Location} {st : ParserState}

/-- The switches `s'` ask for no more than `s`: some things that `s` forbids may pass. What is
included, inlined and noted for relocation stays the same. -/
structure Switches.Eases (s s' : Switches) : Prop where
  parsing : s.has .relaxedParsing = true → s'.has .relaxedParsing = true
  labels : s.has .localLabels = true → s'.has .localLabels = true
  validation : s.has .relaxedValidation = true → s'.has .relaxedValidation = true
  includes : s'.has .ignoreIncludes = s.has .ignoreIncludes
  inlining : s'.has .disableInlining = s.has .disableInlining
  relocation : s'.has .relocationInformation = s.has .relocationInformation

def Clean (items : List Item) : Prop := ∀ m, .marker m ∈ items → m.isError = false

theorem clean_append {more : List Item} : Clean (items ++ more) ↔ Clean items ∧ Clean more := by
  constructor
  · intro h
    exact ⟨fun m hm => h m (mem_append_left _ hm),
      fun m hm => h m (mem_append_right _ hm)⟩
  · rintro ⟨hitems, hmore⟩ m hm
    rcases mem_append.mp hm with hm | hm
    · exact hitems m hm
    · exact hmore m hm

theorem not_clean_of_error {m : Marker} (h : m.isError = true) : ¬ Clean [.marker m] := by
  intro hclean
  have hnone := hclean m (mem_singleton_self _)
  rw [h] at hnone
  cases hnone

@[simp] theorem Fault.isError_marker (fault : Fault) (eol : Location) :
    (fault.marker eol).isError = true := by
  cases fault <;> rfl

/-- The reader `read'` reads whatever `read` reads without errors, with the same result. -/
def Outreads (read read' : LineReader) : Prop :=
  ∀ st line, Clean (read st line).2 → read' st line = read st line

section Lines

variable {s s' : Switches} {read read' : LineReader} {nested nested' : Option LineReader}
  {location : Location} {name : String}

/-- **Line by line**, each with the macros that are known by then. -/
theorem readLines_eases (h : Outreads read read') (lines : List SourceLine) (st : ParserState)
    (hclean : Clean (readLines read st lines).2) :
    readLines read' st lines = readLines read st lines := by
  induction lines generalizing st with
  | nil => rfl
  | cons line lines ih =>
    obtain ⟨hfirst, hrest⟩ := clean_append.mp hclean
    have hline : read' st line = read st line := h st line hfirst
    have hlines := ih (read st line).1 hrest
    rw [readLines, readLines]
    simp only [hline, hlines]

theorem label_allowed (hlabels : s.has .localLabels = true → s'.has .localLabels = true)
    (hlocal : ¬ (isLocalName name && !s.has .localLabels) = true) :
    ¬ (isLocalName name && !s'.has .localLabels) = true := by
  cases hhas : s.has .localLabels with
  | false => simp_all
  | true => simp [hlabels hhas]

theorem expectDirective_eases {relaxed relaxed' : Bool} (h : relaxed = true → relaxed' = true)
    {r : Directive × List Token} (hread : expectDirective relaxed name location ts = .ok r) :
    expectDirective relaxed' name location ts = .ok r := by
  by_cases hrelaxed : relaxed = true
  · rwa [h hrelaxed, ← hrelaxed]
  · -- strictly, an unknown directive is a fault
    rw [Bool.eq_false_iff.mpr hrelaxed] at hread
    unfold expectDirective at hread ⊢
    split at hread
    case h_7 => cases hread
    all_goals
      rename_i hname
      simpa only [hname] using hread

/-- What a statement contributes, and the end of its line. -/
def Contribution.whole (s : Switches) (eol : Location) (c : Contribution) : List Item :=
  c.items ++ tailItems s eol c.rest

theorem not_clean_of_fault {c : Contribution} {fault : Fault} (h : c.rest = .error fault) :
    ¬ Clean (c.whole s eol) := by
  intro hclean
  have htail := (clean_append.mp hclean).2
  rw [h] at htail
  exact not_clean_of_error (fault.isError_marker eol) htail

/-- Two ways to read the bodies of macros: with no nesting left on both sides, or with a more
lenient reader on the second. -/
def OutreadsNested : Option LineReader → Option LineReader → Prop
  | none, none => True
  | some read, some read' => Outreads read read'
  | _, _ => False

theorem readCall_eases (h : OutreadsNested nested nested') {body : List String}
    (hclean : Clean (readCall nested st name body location ts).items) :
    readCall nested' st name body location ts = readCall nested st name body location ts := by
  match nested, nested', h with
  | none, none, _ => rfl
  | some read, some read', h =>
    have hbody : readLines read' st (bodyLines location body) =
        readLines read st (bodyLines location body) := readLines_eases h _ _ hclean
    unfold readCall
    simp only [hbody]

section Eases

variable (h : s.Eases s')

include h

theorem tailItems_eases {rest : Except Fault (List Token)} (hclean : Clean (tailItems s eol rest)) :
    tailItems s' eol rest = tailItems s eol rest := by
  cases rest with
  | error fault => rfl
  | ok ts =>
    cases ts with
    | nil => rfl
    | cons t ts =>
      by_cases hrelaxed : s.has .relaxedParsing = true
      · rw [tailItems, tailItems, if_pos hrelaxed, if_pos (h.parsing hrelaxed)]
      · rw [tailItems, if_neg hrelaxed] at hclean
        exact absurd hclean (not_clean_of_error (Fault.isError_marker _ eol))

theorem readDirective_eases (hclean : Clean ((readDirective s st name location ts).whole s eol)) :
    readDirective s' st name location ts = readDirective s st name location ts := by
  cases hread : expectDirective (s.has .relaxedParsing) name location ts with
  | error fault =>
    have hfault : (readDirective s st name location ts).rest = .error fault := by
      unfold readDirective
      rw [hread]
    exact absurd hclean (not_clean_of_fault hfault)
  | ok r =>
    have hread' := expectDirective_eases h.parsing hread
    unfold readDirective
    rw [hread, hread']

section Nested

variable (hnested : OutreadsNested nested nested')

include hnested

/-- **A statement that leaves no error**, on its line, is read alike. -/
theorem readStatement_eases {head : Token}
    (hclean : Clean ((readStatement s nested st head ts).whole s eol)) :
    readStatement s' nested' st head ts = readStatement s nested st head ts := by
  unfold readStatement at hclean ⊢
  split
  · rename_i name hkind
    rw [hkind] at hclean
    exact readDirective_eases h hclean
  · rename_i name hkind
    rw [hkind] at hclean
    simp only at hclean
    split
    · rfl
    · rename_i hop
      rw [hop] at hclean
      split
      · rename_i body hbody
        rw [hbody] at hclean
        exact readCall_eases hnested (clean_append.mp hclean).1
      · rfl
  · rfl

theorem readBody_eases (hclean : Clean (readBody s nested st eol ts).2) :
    readBody s' nested' st eol ts = readBody s nested st eol ts := by
  cases ts with
  | nil => rfl
  | cons head ts =>
    have hwhole : Clean ((readStatement s nested st head ts).whole s eol) := hclean
    have hstatement := readStatement_eases h hnested hwhole
    have htail := tailItems_eases h (clean_append.mp hwhole).2
    rw [readBody, readBody]
    simp only [hstatement, htail]

theorem readTokens_eases (hclean : Clean (readTokens s nested st eol ts).2) :
    readTokens s' nested' st eol ts = readTokens s nested st eol ts := by
  unfold readTokens at hclean ⊢
  split
  · rfl
  · rename_i hfind
    rw [hfind] at hclean
    split
    · rename_i hlabel
      rw [hlabel] at hclean
      exact readBody_eases h hnested hclean
    · rename_i name location rest hlabel
      rw [hlabel] at hclean
      simp only at hclean
      by_cases hlocal : (isLocalName name && !s.has .localLabels) = true
      · rw [if_pos hlocal] at hclean
        exact absurd hclean (not_clean_of_error (Fault.isError_marker _ eol))
      · -- the label is global, or local labels are taken on both sides
        rw [if_neg hlocal] at hclean
        rw [if_neg hlocal, if_neg (label_allowed h.labels hlocal)]
        have hrest : Clean (readBody s nested st eol rest).2 :=
          fun m hm => hclean m (mem_cons_of_mem _ hm)
        simp only [readBody_eases h hnested hrest]

theorem outreads_readLineWith : Outreads (readLineWith s nested) (readLineWith s' nested') := by
  intro st line hclean
  unfold readLineWith at hclean ⊢
  split
  · rfl
  · rename_i hpending
    rw [hpending] at hclean
    exact readTokens_eases h hnested hclean

end Nested

/-- **A line, however deep its macros nest**: by induction on the depth. -/
theorem outreads_readLine (depth : ℕ) : Outreads (readLine s depth) (readLine s' depth) := by
  induction depth with
  | zero => exact outreads_readLineWith h trivial
  | succ depth ih => exact outreads_readLineWith h ih

end Eases

end Lines

theorem mem_markersOf_of_mem {m : Marker} (h : .marker m ∈ items) : m ∈ markersOf items := by
  induction items with
  | nil => cases h
  | cons item items ih =>
    cases item with
    | statement s location =>
      rcases mem_cons.mp h with h | h
      · cases h
      · exact ih h
    | marker m' =>
      rcases mem_cons.mp h with h | h
      · cases h
        exact mem_cons_self
      · exact mem_cons_of_mem _ (ih h)

/-- **What is read without errors is read alike** under more lenient switches. -/
theorem parseSource_eases {s s' : Switches} (h : s.Eases s') {text : String}
    (hclean : ∀ m ∈ (parseSource s text).2, m.isError = false) :
    parseSource s' text = parseSource s text := by
  have hitems : Clean (readSource s text) := fun m hm =>
    hclean m (mem_markersOf_of_mem hm)
  have hlines := readLines_eases (outreads_readLine h maxExpansion) (sourceLines text) {}
    (clean_append.mp hitems).1
  have hsource : readSource s' text = readSource s text := by
    unfold readSource
    rw [hlines]
  unfold parseSource
  rw [hsource]

end WordAsm
