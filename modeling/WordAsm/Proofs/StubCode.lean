/-
# The machine code of the stub

The stub is assembled from its source, and so is known only when a build has run.
This module runs that build.

A build of one text parses it, and as long as the queue stays at one unit a phase is
over when that unit is done (`runPhase_lone`). What is left is a computation on what
the parser has made of the text (`assembleText_eq`). The characters of the source are
given as a list (`parseSource_of_toList`); taking them out of the text one by one
would cost far more than all the rest.
-/
import WordAsm.Image.Stub
import WordAsm.Proofs.Parsing

namespace WordAsm

/-! ### Builds of one unit -/

/-- **A phase over a lone unit** that it leaves alone and without errors is what it
does to that unit. -/
theorem runPhase_lone {cfg : Settings} {slot : Slot} {b c : Build} {id : UnitId}
    {unit done : SourceUnit} (hdebug : cfg.switches.has .debugMode = false)
    (horder : b.order = [id]) (hunit : b.get? id = some unit)
    (haccepts : slot.phase.accepts unit = true)
    (hrun : slot.phase.run cfg unit ((b.tell (.phaseStart slot.name)).tell
      (.unitStart slot.name unit.identifier)) = (.ok (), c))
    (hlone : c.order = [id]) (hdone : c.get? id = some done)
    (hclean : done.hasErrors = false) :
    runPhase cfg slot b = (false, (c.tell (.unitSuccess slot.name done.identifier)).tell
      (.phaseSuccess slot.name)) := by
  have hsteps : ∃ steps, queueBound cfg b = steps + 1 := by
    unfold queueBound
    rw [horder, List.length_singleton, Nat.add_assoc, Nat.add_comm]
    exact ⟨_, rfl⟩
  obtain ⟨steps, hsteps⟩ := hsteps
  have hfirst : (b.tell (.phaseStart slot.name)).order[0]? = some id := by
    show b.order[0]? = some id
    rw [horder]
    rfl
  have hget : (b.tell (.phaseStart slot.name)).get? id = some unit := hunit
  -- there is no second unit to go on with
  have hend : ∀ e, runUnits cfg slot steps 1 false (c.tell e) = (false, c.tell e) := by
    intro e
    have hnone : (c.tell e).order[1]? = none := by
      show c.order[1]? = none
      rw [hlone]
      rfl
    exact runUnits_of_none hnone
  unfold runPhase
  rw [hsteps, runUnits]
  simp only [hfirst, hget, haccepts, runUnit, hrun, hdone, hclean, traceUnit, hdebug,
    Option.getD_some, Bool.not_true, Bool.false_eq_true, if_false, hend]

/-- A build of one text, before its first phase. -/
def opened (name text : String) : Build where
  program := (Program.ofResources [.text name text]).reset
  tree := {}
  notices := [.event (.start 1 1)]

def codeOf (b : Build) : Option Bytes :=
  (b.get? 0).bind fun unit => unit.code.bind fun code =>
    (code.resource.readBytes b.tree).toOption

theorem codeOf_tell (b : Build) (e : Event) : codeOf (b.tell e) = codeOf b := rfl

theorem assembleText_eq_codeOf (name text : String) :
    assembleText name text = codeOf (runPipeline {} .standard (opened name text)).2 := by
  obtain ⟨e, e', hcompile⟩ : ∃ e e', (compile {} (.ofResources [.text name text]) {}).2 =
      ((runPipeline {} .standard (opened name text)).2.tell e).tell e' := ⟨_, _, rfl⟩
  have hcode : assembleText name text =
      codeOf (compile {} (.ofResources [.text name text]) {}).2 := by
    unfold assembleText
    generalize compile {} (.ofResources [.text name text]) {} = result
    rfl
  rw [hcode, hcompile, codeOf_tell, codeOf_tell]

/-- **An assembly of one text** is what the later phases do once it has been parsed. -/
theorem assembleText_eq {name text : String} {c : Build} {unit : SourceUnit}
    (hrun : declareUnit {} { id := 0, resource := .text name text } (parseSource {} text)
      (((opened name text).tell (.phaseStart "parse")).tell (.unitStart "parse" name)) =
        (.ok (), c))
    (hlone : c.order = [0]) (hunit : c.get? 0 = some unit)
    (hclean : unit.hasErrors = false) :
    assembleText name text = codeOf (runPipeline {} Pipeline.standard.tail
      ((c.tell (.unitSuccess "parse" unit.identifier)).tell (.phaseSuccess "parse"))).2 := by
  have hphase : runPhase {} { phase := parsePhase } (opened name text) = (false,
      (c.tell (.unitSuccess "parse" unit.identifier)).tell (.phaseSuccess "parse")) :=
    runPhase_lone rfl rfl rfl rfl ((parseUnit_eq {} rfl).trans hrun) hlone hunit hclean
  have hpipeline : (runPipeline {} .standard (opened name text)).2 =
      (runPipeline {} Pipeline.standard.tail
        (runPhase {} { phase := parsePhase } (opened name text)).2).2 := by
    rw [Pipeline.standard, runPipeline]
    simp
  rw [assembleText_eq_codeOf, hpipeline, hphase]

/-! ### The stub -/

theorem parseSource_of_toList (switches : Switches) {text : String} {cs : List Char}
    (h : text.toList = cs) :
    parseSource switches text =
      let (st, items) := readLines (readLine switches maxExpansion) {}
        (numberLines 0 0 (splitLines cs))
      (nodesFrom 0 (items ++ unfinished st), markersOf (items ++ unfinished st)) := by
  rw [parseSource, readSource, sourceLines, h]

def stubWords : List Word :=
  [0x0702, 0x0f21, 0x074c, 0x0b50, 0x0019, 0x3b8d, 0x0b61, 0x07cd, 0x0bce, 0x068c, 0x0a90,
    0x000f, 0x06cc, 0x0ad0, 0x0018, 0x478b, 0x3a0d, 0x0a0f, 0x3a48, 0x0a4f, 0x3e48, 0x0b61,
    0x0fa1, 0x400a, 0x400f]

set_option maxRecDepth 10000 in
theorem exists_parsed_stub :
    ∃ c, declareUnit {} { id := 0, resource := .text "stub.rk" stubSource }
      (parseSource {} stubSource) (((opened "stub.rk" stubSource).tell
        (.phaseStart "parse")).tell (.unitStart "parse" "stub.rk")) = (.ok (), c) ∧
      c.order = [0] ∧
      ((c.get? 0).any fun u => u.identifier = "stub.rk" ∧ u.hasErrors = false) ∧
      codeOf (runPipeline {} Pipeline.standard.tail
        ((c.tell (.unitSuccess "parse" "stub.rk")).tell (.phaseSuccess "parse"))).2 =
          some (bytesOfWords stubWords) := by
  have hchars : stubSource.toList = _ :=
    (congrArg String.toList (show stubSource = String.ofList _ from rfl)).trans String.toList_ofList
  rw [parseSource_of_toList {} hchars]
  exact ⟨_, Prod.ext (by decide +kernel) rfl, by decide +kernel⟩

/-- **The stub** is its 25 words. -/
theorem stub_eq : stub = bytesOfWords stubWords := by
  obtain ⟨c, hrun, hlone, hunit, hcode⟩ := exists_parsed_stub
  rw [Option.any_eq_true] at hunit
  obtain ⟨unit, hunit, hdone⟩ := hunit
  obtain ⟨hname, hclean⟩ := of_decide_eq_true hdone
  rw [stub, assembleText_eq hrun hlone hunit hclean, hname, hcode]
  rfl

end WordAsm
