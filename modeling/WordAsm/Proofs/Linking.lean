/-
# Linking a self-relocating image

A link may say things on the way, but what it comes to does not depend on that:
`Logged.Gives` leaves the log out, and goes through the steps of a link like the
steps themselves (`Logged.gives_bind`).

Modules can be put into one image if they do not overlap and their relocation
entries can be counted (`Linkable`), and cannot otherwise. The program is then the
modules poured from address 0 on, and the merged table has the place of each word
that a module has recorded (`IndexedImage`).
-/
import WordAsm.Image.Link
import WordAsm.Proofs.RelocationTables
import WordAsm.Proofs.Segments
import WordAsm.Proofs.Sources
import Mathlib.Algebra.GroupWithZero.Nat
import Mathlib.Data.List.Chain

namespace WordAsm

open List

/-! ### What logged work comes to -/

namespace Logged

variable {α β : Type} {x : Logged α} {r : Except Error α} {f : α → Logged β}
  {q : α → Except Error β}

/-- The work comes to `r`, whatever has been said. -/
def Gives (x : Logged α) (r : Except Error α) : Prop := ∀ log, (x.run.run log).1 = r

theorem gives_pure (a : α) : Gives (pure a) (.ok a) := fun _ => rfl

theorem gives_throw (e : Error) : Gives (throw e : Logged α) (.error e) := fun _ => rfl

theorem gives_quietly (r : Except Error α) : Gives (quietly r) r := by
  intro log
  cases r <;> rfl

theorem gives_say (level : LogLevel) (message : String) : Gives (say level message) (.ok ()) :=
  fun _ => rfl

theorem Gives.run (h : x.Gives r) (log : List LogLine) : ∃ log', x.run.run log = (r, log') :=
  ⟨_, Prod.ext (h log) rfl⟩

theorem run_bind (x : Logged α) (f : α → Logged β) (log : List LogLine) :
    (x >>= f).run.run log = match x.run.run log with
      | (.ok a, log) => (f a).run.run log
      | (.error e, log) => (.error e, log) := by
  rw [ExceptT.run_bind, StateT.run_bind]
  rcases x.run.run log with ⟨_ | _, _⟩ <;> rfl

@[simp] theorem run_quietly (r : Except Error α) (log : List LogLine) :
    (quietly r).run.run log = (r, log) := by
  cases r <;> rfl

theorem bind_run_ok {b : β} {log log' : List LogLine} (h : (x >>= f).run.run log = (.ok b, log')) :
    ∃ a said, x.run.run log = (.ok a, said) ∧ (f a).run.run said = (.ok b, log') := by
  rw [run_bind] at h
  split at h
  · rename_i a said hx
    exact ⟨a, said, hx, h⟩
  · cases h

theorem bind_run_error {e : Error} {log log' : List LogLine}
    (h : (x >>= f).run.run log = (.error e, log')) :
    x.run.run log = (.error e, log') ∨
      ∃ a said, x.run.run log = (.ok a, said) ∧ (f a).run.run said = (.error e, log') := by
  rw [run_bind] at h
  split at h
  · rename_i a said hx
    exact .inr ⟨a, said, hx, h⟩
  · rename_i e' said hx
    cases h
    exact .inl hx

/-- **Leaving the log out goes through binds.** -/
theorem gives_bind_of (hx : x.Gives r) (hf : ∀ a, r = .ok a → (f a).Gives (q a)) :
    (x >>= f).Gives (r >>= q) := by
  intro log
  obtain ⟨log', hrun⟩ := hx.run log
  rw [run_bind, hrun]
  cases r with
  | ok a => exact hf a rfl log'
  | error e => rfl

theorem gives_bind (hx : x.Gives r) (hf : ∀ a, (f a).Gives (q a)) : (x >>= f).Gives (r >>= q) :=
  gives_bind_of hx fun a _ => hf a

theorem gives_bind_ok {a : α} {r : Except Error β} (hx : x.Gives (.ok a)) (hf : (f a).Gives r) :
    (x >>= f).Gives r :=
  gives_bind_of (q := fun _ => r) hx fun b hb => by
    cases hb
    exact hf

end Logged

/-! ### Modules with their words -/

/-- The object code of the module reads as the words `ws`. They fit into memory, and
all entries of the relocation table are places of words. -/
structure ObjectModule.Loads (m : ObjectModule) (ws : List Word) : Prop where
  reads : ∀ tree, m.code.resource.readBytes tree = .ok (bytesOfWords ws)
  fits : m.start.toNat + ws.length ≤ 65536
  recorded : ∀ e ∈ m.relocation.entries, e.toNat < ws.length

def moduleSegment (x : ObjectModule × List Word) : Segment Word := ⟨x.1.start.toNat, x.2⟩

theorem bytesOfWords_append (ws ws' : List Word) :
    bytesOfWords (ws ++ ws') = bytesOfWords ws ++ bytesOfWords ws' :=
  flatMap_append

theorem bytesOfWords_zeros (n : ℕ) :
    bytesOfWords (List.replicate n 0) = List.replicate (2 * n) 0 := by
  induction n with
  | zero => rfl
  | succ n ih =>
    rw [replicate_succ, bytesOfWords, flatMap_cons, ← bytesOfWords, ih,
      show 2 * (n + 1) = 2 + 2 * n by omega, replicate_add]
    rfl

section Place

variable (linker : Linker) (units : Units) (hself : linker.selfRelocating = true)

include hself

/-- There are zeros up to a module that starts behind the one before, and a module
that starts too early cannot be placed. -/
theorem gives_gapBefore (previous : Option UnitId) (stop : ℕ) (m : ObjectModule) :
    (gapBefore linker units previous (some stop) m).Gives
      (if stop ≤ m.start.toNat then
        .ok (bytesOfWords (List.replicate (m.start.toNat - stop) 0))
      else .error (.overlappingModules ((previous.map units.nameOf).getD "") stop
        (units.nameOf m.unit) m.start)) := by
  unfold gapBefore
  simp only [hself, Bool.true_and, decide_eq_true_eq]
  rcases Nat.lt_trichotomy stop m.start.toNat with hlt | heq | hgt
  · rw [if_neg (by omega), if_pos hlt, if_pos (Nat.le_of_lt hlt), bytesOfWords_zeros]
    exact Logged.gives_bind (Logged.gives_say _ _) fun _ => Logged.gives_pure _
  · rw [if_neg (by omega), if_neg (by omega), if_neg (by omega), if_pos (Nat.le_of_eq heq), heq,
      Nat.sub_self]
    exact Logged.gives_pure _
  · rw [if_pos hgt, if_neg (by omega)]
    exact Logged.gives_throw _

theorem gives_placeModules_cons (previous : Option UnitId) {stop : ℕ} {x : ObjectModule × List Word}
    (hle : stop ≤ x.1.start.toNat) {rest : List (ObjectModule × Bytes)} {r : Except Error Bytes}
    (hrest : Logged.Gives
      (placeModules linker units (some x.1.unit) (some (moduleSegment x).stop) rest) r) :
    (placeModules linker units previous (some stop) ((x.1, bytesOfWords x.2) :: rest)).Gives do
      return bytesOfWords (List.replicate (x.1.start.toNat - stop) 0) ++
        (bytesOfWords x.2 ++ (← r)) := by
  have hnext : x.1.start.toNat + (bytesOfWords x.2).length / 2 = (moduleSegment x).stop := by
    rw [length_bytesOfWords, Nat.mul_div_cancel_left _ (by decide)]
    rfl
  have hgap := gives_gapBefore linker units hself previous stop x.1
  rw [if_pos hle] at hgap
  rw [← hnext] at hrest
  exact Logged.gives_bind_ok hgap (Logged.gives_bind hrest fun _ => Logged.gives_pure _)

/-- **Modules that do not overlap** are poured from `stop` on. -/
theorem placeModules_ok (ms : List (ObjectModule × List Word)) (previous : Option UnitId) (stop : ℕ)
    (h : Ascend stop (ms.map moduleSegment)) :
    (placeModules linker units previous (some stop)
      (ms.map fun x => (x.1, bytesOfWords x.2))).Gives
      (.ok (bytesOfWords (pour 0 stop (ms.map moduleSegment)))) := by
  induction ms generalizing previous stop with
  | nil => exact Logged.gives_pure _
  | cons x ms ih =>
    rw [map_cons, map_cons, pour, bytesOfWords_append, bytesOfWords_append]
    exact gives_placeModules_cons linker units hself previous h.1 (ih (some x.1.unit) _ h.2)

/-- **Modules that overlap** cannot be placed. -/
theorem placeModules_overlap (ms : List (ObjectModule × List Word)) (previous : Option UnitId)
    (stop : ℕ) (h : ¬ Ascend stop (ms.map moduleSegment)) :
    ∃ e, (placeModules linker units previous (some stop)
      (ms.map fun x => (x.1, bytesOfWords x.2))).Gives (.error e) := by
  induction ms generalizing previous stop with
  | nil => exact absurd trivial h
  | cons x ms ih =>
    by_cases hle : stop ≤ x.1.start.toNat
    · obtain ⟨e, he⟩ := ih (some x.1.unit) (moduleSegment x).stop fun hrest => h ⟨hle, hrest⟩
      exact ⟨e, gives_placeModules_cons linker units hself previous hle he⟩
    · have hgap := gives_gapBefore linker units hself previous stop x.1
      rw [if_neg hle] at hgap
      exact ⟨_, Logged.gives_bind_of (q := fun _ => .ok []) hgap fun _ h => by cases h⟩

end Place

/-! ### The merged table -/

theorem ObjectModule.Loads.size_le {m : ObjectModule} {ws : List Word} (h : m.Loads ws) :
    m.relocation.size ≤ ws.length :=
  m.relocation.size_le_of_lt h.recorded

/-- Merging goes through, and adds an entry for each entry of a module. If the modules
lie behind all entries and do not overlap, the number of entries goes up by all of
theirs. -/
theorem foldlM_merge (ms : List (ObjectModule × List Word)) (h : ∀ x ∈ ms, x.1.Loads x.2)
    (t : RelocationTable) :
    ∃ t', (ms.map Prod.fst).foldlM (fun t m => do
        (t.merge m.relocation m.start).1
        return (t.merge m.relocation m.start).2) t = .ok t' ∧
      (∀ a, a ∈ t'.entries ↔ a ∈ t.entries ∨ ∃ x ∈ ms, ∃ e ∈ x.1.relocation.entries,
        a.toNat = x.1.start.toNat + e.toNat) ∧
      ∀ pos, Ascend pos (ms.map moduleSegment) → (∀ a ∈ t.entries, a.toNat < pos) →
        t'.size = t.size + (ms.map fun x => x.1.relocation.size).sum := by
  induction ms generalizing t with
  | nil => exact ⟨t, rfl, by simp, by simp⟩
  | cons x ms ih =>
    have hx := h x mem_cons_self
    have hfits := hx.fits
    have hmovable : x.1.relocation.Fits x.1.start := fun e he => by
      have hlt := hx.recorded e he
      omega
    obtain ⟨merged, hmerge, hmem, hsize⟩ := hmovable.merge (t := t)
    obtain ⟨t', hfold, hmem', hsize'⟩ := ih (fun y hy => h y (mem_cons_of_mem _ hy)) merged
    refine ⟨t', ?_, fun a => ?_, fun pos hasc hlow => ?_⟩
    · rw [map_cons, foldlM_cons, hmerge]
      exact hfold
    · rw [hmem', hmem, or_assoc, exists_mem_cons_iff]
      simp only [Nat.add_comm]
    · have hpos : pos ≤ x.1.start.toNat := hasc.1
      have hstop : (moduleSegment x).stop = x.1.start.toNat + x.2.length := rfl
      rw [hsize' _ hasc.2, hsize, map_cons, sum_cons, Nat.add_assoc]
      · intro a ha e _
        have hlt := hlow a ha
        omega
      · intro a ha
        rcases (hmem a).mp ha with ha | ⟨e, he, ha⟩
        · have hlt := hlow a ha
          omega
        · have hlt := hx.recorded e he
          omega

/-- **The merged table** has an entry for each entry of a module, and as many entries
as all modules together if the modules do not overlap. -/
theorem mergeTables_eq {ms : List (ObjectModule × List Word)} (h : ∀ x ∈ ms, x.1.Loads x.2) :
    ∃ table, mergeTables (ms.map Prod.fst) = .ok table ∧
      (∀ a, a ∈ table.entries ↔ ∃ x ∈ ms, ∃ e ∈ x.1.relocation.entries,
        a.toNat = x.1.start.toNat + e.toNat) ∧
      (Ascend 0 (ms.map moduleSegment) →
        table.size = (ms.map fun x => x.1.relocation.size).sum) := by
  obtain ⟨table, ht, hmem, hsize⟩ := foldlM_merge ms h .empty
  have hnone : ∀ a, a ∉ RelocationTable.empty.entries := fun a ha => by cases ha
  refine ⟨table, ht, fun a => (hmem a).trans (or_iff_right (hnone a)), fun hasc => ?_⟩
  rw [hsize 0 hasc fun a ha => absurd ha (hnone a)]
  exact Nat.zero_add _

/-! ### The plan of a link -/

theorem checkStarts_eq_ok (units : Units) :
    ∀ modules, checkStarts units modules = .ok () ↔ modules.IsChain fun a b => a.start ≤ b.start
  | [] => by simp [checkStarts]
  | [a] => by simp [checkStarts]
  | a :: b :: rest => by
    rw [checkStarts, isChain_cons_cons, ← checkStarts_eq_ok units (b :: rest)]
    by_cases h : b.start < a.start
    · simp [h]
    · simp [h, UInt16.not_lt.mp h]

theorem checkUnits_eq_ok {units : Units} {modules : List ObjectModule}
    (h : ∀ m ∈ modules, ∃ u, units.get? m.unit = some u ∧ u.hasErrors = false) :
    checkUnits units modules = .ok () := by
  unfold checkUnits
  induction modules with
  | nil => rfl
  | cons m modules ih =>
    obtain ⟨u, hu, he⟩ := h m mem_cons_self
    have hget : units.get m.unit = .ok u := by
      unfold Units.get
      rw [hu]
    simp only [List.forM, hget, bind, Except.bind, he, Bool.false_eq_true, if_false]
    exact ih fun m' hm' => h m' (mem_cons_of_mem _ hm')

theorem ascend_cons_iff {α : Type} {pos : ℕ} : ∀ (s : Segment α) (rest : List (Segment α)),
    Ascend pos (s :: rest) ↔
      pos ≤ s.offset ∧ (s :: rest).IsChain fun a b => a.stop ≤ b.offset
  | s, [] => by simp [Ascend]
  | s, r :: rest => by rw [Ascend, ascend_cons_iff r rest, isChain_cons_cons]

theorem ascend_modules_iff (ms : List (ObjectModule × List Word)) :
    Ascend 0 (ms.map moduleSegment) ↔
      ms.IsChain fun x y => x.1.start.toNat + x.2.length ≤ y.1.start.toNat := by
  cases ms with
  | nil => simp [Ascend]
  | cons x ms =>
    rw [map_cons, ascend_cons_iff, ← map_cons, isChain_map]
    exact and_iff_right (Nat.zero_le _)

section Plan

variable {linker : Linker} {program : Program} {ms : List (ObjectModule × List Word)}
  {table : RelocationTable}

theorem gives_headerOf (linker : Linker) (modules : List ObjectModule) :
    (headerOf linker modules).Gives (if linker.selfRelocating = true then do
        let table ← mergeTables modules
        return (table, stub ++ (← table.toBytes))
      else .ok (.empty, [])) := by
  unfold headerOf
  split
  · refine Logged.gives_bind (Logged.gives_quietly _) fun table => ?_
    have hend : Logged.Gives (do return (table, stub ++ (← quietly table.toBytes)))
        (do return (table, stub ++ (← table.toBytes))) :=
      Logged.gives_bind (Logged.gives_quietly _) fun bytes => Logged.gives_pure _
    split
    · exact Logged.gives_bind_ok (Logged.gives_say _ _) hend
    · exact hend
  · exact Logged.gives_pure _

/-- **What planning an image comes to:** the starts are checked, the table is written
out and the modules are placed. -/
theorem gives_planLink (linker : Linker) (tree : FileTree) (hself : linker.selfRelocating = true)
    {shift : Option ShiftPlan}
    (hshift : ∀ bytes, table.toBytes = .ok bytes →
      planFor linker program (ms.map Prod.fst) table (stub ++ bytes) = .ok shift)
    (hloads : ∀ x ∈ ms, x.1.Loads x.2)
    (hunits : ∀ x ∈ ms, ∃ u, program.get? x.1.unit = some u ∧ u.hasErrors = false)
    (ht : mergeTables (ms.map Prod.fst) = .ok table) {r : Except Error Bytes}
    (hplace : (placeModules linker program.units none (some 0)
      (ms.map fun x => (x.1, bytesOfWords x.2))).Gives r) :
    (planLink linker program (ms.map Prod.fst) tree).Gives (do
      checkStarts program.units (ms.map Prod.fst)
      let bytes ← table.toBytes
      let body ← r
      return { table, header := stub ++ bytes, body, shift }) := by
  have hcodes : (ms.map Prod.fst).mapM (fun m => m.code.resource.readBytes tree) =
      .ok (ms.map fun x => bytesOfWords x.2) := by
    rw [mapM_map]
    exact mapM_eq_ok fun x hx => (hloads x hx).reads tree
  have hcheck : checkUnits program.units (ms.map Prod.fst) = .ok () := by
    refine checkUnits_eq_ok fun m hm => ?_
    obtain ⟨x, hx, rfl⟩ := mem_map.mp hm
    exact hunits x hx
  refine Logged.gives_bind (Logged.gives_quietly _) fun _ => ?_
  rw [hcheck, hcodes]
  refine Logged.gives_bind_ok (Logged.gives_quietly _) ?_
  refine Logged.gives_bind_ok (Logged.gives_quietly _) ?_
  have hheader : (headerOf linker (ms.map Prod.fst)).Gives
      (do return (table, stub ++ (← table.toBytes))) := by
    have h := gives_headerOf linker (ms.map Prod.fst)
    rw [if_pos hself, ht] at h
    exact h
  cases hbytes : table.toBytes with
  | error e =>
    rw [hbytes] at hheader
    exact Logged.gives_bind_of (q := fun _ => .error e) hheader fun _ h => by cases h
  | ok bytes =>
    rw [hbytes] at hheader
    refine Logged.gives_bind_ok hheader ?_
    simp only [hshift bytes hbytes, if_pos hself, zip_map']
    refine Logged.gives_bind_ok (Logged.gives_quietly _) ?_
    have hend := Logged.gives_bind hplace fun body =>
      Logged.gives_pure (LinkPlan.mk table (stub ++ bytes) body shift)
    exact hend

end Plan

/-! ### The image -/

/-- Modules that can be put into one image: their starts ascend, each ends where the
next one starts or before, and their entries can be counted in a word. -/
structure Linkable (ms : List (ObjectModule × List Word)) : Prop where
  starts : ms.IsChain fun x y => x.1.start ≤ y.1.start
  apart : ms.IsChain fun x y => x.1.start.toNat + x.2.length ≤ y.1.start.toNat
  entries : (ms.map fun x => x.1.relocation.size).sum ≤ 65535

/-- The image has every word of a module at the start of the module, and zeros
elsewhere. The table has an entry for each entry of a module, which is the place in
the image of the word that the module has recorded. -/
structure IndexedImage (ms : List (ObjectModule × List Word)) (image : List Word)
    (table : RelocationTable) : Prop where
  word : ∀ x ∈ ms, ∀ k, k < x.2.length → image[x.1.start.toNat + k]? = x.2[k]?
  zero : ∀ k, k < image.length →
    (∀ x ∈ ms, ¬ (x.1.start.toNat ≤ k ∧ k < x.1.start.toNat + x.2.length)) → image[k]? = some 0
  length : image.length = (ms.getLast?.map fun x => x.1.start.toNat + x.2.length).getD 0
  size : table.size = (ms.map fun x => x.1.relocation.size).sum
  recorded : ∀ x ∈ ms, ∀ e ∈ x.1.relocation.entries, ∃ a ∈ table.entries,
    a.toNat = x.1.start.toNat + e.toNat
  entry : ∀ a ∈ table.entries, ∃ x ∈ ms, ∃ e ∈ x.1.relocation.entries, ∃ w,
    a.toNat = x.1.start.toNat + e.toNat ∧ x.2[e.toNat]? = some w ∧ image[a.toNat]? = some w

section Image

variable {ms : List (ObjectModule × List Word)}

theorem indexedImage_pour (hloads : ∀ x ∈ ms, x.1.Loads x.2)
    (hasc : Ascend 0 (ms.map moduleSegment)) {table : RelocationTable}
    (hmem : ∀ a, a ∈ table.entries ↔ ∃ x ∈ ms, ∃ e ∈ x.1.relocation.entries,
      a.toNat = x.1.start.toNat + e.toNat)
    (hsize : table.size = (ms.map fun x => x.1.relocation.size).sum) :
    IndexedImage ms (pour 0 0 (ms.map moduleSegment)) table := by
  have hword : ∀ x ∈ ms, ∀ k, k < x.2.length →
      (pour 0 0 (ms.map moduleSegment))[x.1.start.toNat + k]? = x.2[k]? := fun x hx k hk =>
    getElem?_pour 0 hasc (mem_map_of_mem hx) hk
  refine ⟨hword, fun k hk hno => ?_, ?_, hsize, fun x hx e he => ?_, fun a ha => ?_⟩
  · refine getElem?_pour_uncovered 0 hasc hk fun s hs hcov => ?_
    obtain ⟨x, hx, rfl⟩ := mem_map.mp hs
    rw [Nat.zero_add] at hcov
    exact hno x hx hcov
  · have hlen := length_pour (0 : Word) hasc
    rw [Nat.zero_add, pourEnd_eq, getLast?_map] at hlen
    rw [hlen]
    cases ms.getLast? <;> rfl
  · have hlt := (hloads x hx).recorded e he
    have hfits := (hloads x hx).fits
    have hsum : (x.1.start + e).toNat = x.1.start.toNat + e.toNat := by
      rw [UInt16.toNat_add, Nat.mod_eq_of_lt (by omega)]
    exact ⟨x.1.start + e, (hmem _).mpr ⟨x, hx, e, he, hsum⟩, hsum⟩
  · obtain ⟨x, hx, e, he, hsum⟩ := (hmem a).mp ha
    have hlt := (hloads x hx).recorded e he
    refine ⟨x, hx, e, he, x.2[e.toNat], hsum, getElem?_eq_getElem hlt, ?_⟩
    rw [hsum, hword x hx e.toNat hlt]
    exact getElem?_eq_getElem hlt

section Link

variable {linker : Linker} {modules : List ObjectModule} {tree : FileTree} {s : Linking}

theorem link_error {e : Error} (h : (planLink linker s.program modules tree).Gives (.error e)) :
    (link linker modules tree s).1 = .error e := by
  obtain ⟨log, hrun⟩ := h.run s.log
  unfold link
  rw [hrun]

theorem link_ok {plan : LinkPlan} (hshift : plan.shift = none)
    (h : (planLink linker s.program modules tree).Gives (.ok plan)) :
    ∃ linked log, link linker modules tree s = (.ok linked,
        { program := s.program, output := s.output ++ (plan.header ++ plan.body), log }) ∧
      linked.relocation = plan.table := by
  obtain ⟨log, hrun⟩ := h.run s.log
  unfold link
  simp only [hrun, hshift]
  exact ⟨_, _, rfl, rfl⟩

end Link

abbrev selfRelocating : Linker := { selfRelocating := true }

variable {s : Linking}

/-- **Modules that can be put into one image** are. -/
theorem link_of_linkable (tree : FileTree) (hloads : ∀ x ∈ ms, x.1.Loads x.2)
    (hunits : ∀ x ∈ ms, ∃ u, s.get? x.1.unit = some u ∧ u.hasErrors = false)
    (h : Linkable ms) :
    ∃ linked log bytes image, link selfRelocating (ms.map Prod.fst) tree s = (.ok linked,
        { program := s.program
          output := s.output ++ (stub ++ bytes ++ bytesOfWords image)
          log }) ∧
      linked.relocation.toBytes = .ok bytes ∧ IndexedImage ms image linked.relocation := by
  have hasc := (ascend_modules_iff ms).mpr h.apart
  obtain ⟨table, ht, hmem, hsize⟩ := mergeTables_eq hloads
  have hsum := hsize hasc
  have hbytes : table.toBytes = .ok (bytesOfWords (UInt16.ofNat table.size :: table.entries)) := by
    have hcount := h.entries
    exact RelocationTable.toBytes_eq_ok.mpr ⟨by omega, rfl⟩
  have hstarts : checkStarts s.units (ms.map Prod.fst) = .ok () :=
    (checkStarts_eq_ok _ _).mpr ((isChain_map _).mpr h.starts)
  have hplan := gives_planLink selfRelocating tree rfl (fun _ _ => rfl) hloads hunits ht
    (placeModules_ok selfRelocating s.units rfl ms none 0 hasc)
  rw [hstarts, hbytes] at hplan
  obtain ⟨linked, log, hlink, htable⟩ := link_ok rfl hplan
  refine ⟨linked, log, _, _, hlink, htable ▸ hbytes, ?_⟩
  rw [htable]
  exact indexedImage_pour hloads hasc hmem hsum

/-- **Only modules that can be put into one image** are. -/
theorem linkable_of_link {tree : FileTree} (hloads : ∀ x ∈ ms, x.1.Loads x.2)
    (hunits : ∀ x ∈ ms, ∃ u, s.get? x.1.unit = some u ∧ u.hasErrors = false)
    {linked : Linked} (h : (link selfRelocating (ms.map Prod.fst) tree s).1 = .ok linked) :
    Linkable ms := by
  obtain ⟨table, ht, -, hsize⟩ := mergeTables_eq hloads
  -- whatever placing the modules comes to, the link has not failed before or there
  have hok : ∀ r, (placeModules selfRelocating s.units none (some 0)
      (ms.map fun x => (x.1, bytesOfWords x.2))).Gives r →
      checkStarts s.units (ms.map Prod.fst) = .ok () ∧
        (∃ bytes, table.toBytes = .ok bytes) ∧ ∃ body, r = .ok body := by
    intro r hr
    have hplan := gives_planLink selfRelocating tree rfl (fun _ _ => rfl) hloads hunits ht hr
    generalize hres : (do
      checkStarts s.units (ms.map Prod.fst)
      let bytes ← table.toBytes
      let body ← r
      return ({ table, header := stub ++ bytes, body, shift := none } : LinkPlan)) = res at hplan
    cases res with
    | error e =>
      rw [link_error hplan] at h
      cases h
    | ok plan =>
      obtain ⟨_, hstarts, hres⟩ := bind_eq_ok hres
      obtain ⟨bytes, hbytes, hres⟩ := bind_eq_ok hres
      obtain ⟨body, hbody, -⟩ := bind_eq_ok hres
      exact ⟨hstarts, ⟨bytes, hbytes⟩, body, hbody⟩
  have hasc : Ascend 0 (ms.map moduleSegment) := by
    by_contra hno
    obtain ⟨e, he⟩ := placeModules_overlap selfRelocating s.units rfl ms none 0 hno
    obtain ⟨-, -, body, hbody⟩ := hok _ he
    cases hbody
  obtain ⟨hstarts, ⟨bytes, hbytes⟩, -⟩ := hok _ (placeModules_ok selfRelocating s.units rfl
    ms none 0 hasc)
  have hsum := hsize hasc
  have hchain := (checkStarts_eq_ok _ _).mp hstarts
  rw [isChain_map] at hchain
  have hcount := (RelocationTable.toBytes_eq_ok.mp hbytes).1
  exact ⟨hchain, (ascend_modules_iff ms).mp hasc, by omega⟩

end Image

end WordAsm
