/-
# Edits of pipelines

A pipeline is edited by naming one of its phases, and every edit works at the place where
that phase stands: the pipeline is `l ++ slot :: r` there, and what the edit makes of it is
`PipelineEdit.result`. Names are different from each other in the standard pipeline and
stay so (`nodup_edited`), so a name stands for one place.

An edit fails if the named phase is missing, or else if the phase that it brings in has the
name of another one (`PipelineEdit.Fails`). Four of the five edits look for the phase
before they change anything. The fifth, `stopAfter`, takes the flag from all phases first,
and they do not get it back when it fails (`failed_edit_keeps_phases`).
-/
import Mathlib.Data.List.Nodup
import WordAsm.Build.Pipeline

namespace WordAsm

open List

/-- What may be done to a pipeline. -/
inductive PipelineEdit
  | insertBefore (name : String) (phase : Phase)
  | insertAfter (name : String) (phase : Phase)
  | replace (name : String) (phase : Phase)
  | remove (name : String)
  | stopAfter (name : String)

namespace Pipeline

/-- The outcome of an edit, without what it gives back. -/
def edit (p : Pipeline) : PipelineEdit → Except Error Unit × Pipeline
  | .insertBefore name phase => p.insertBefore name phase
  | .insertAfter name phase => p.insertAfter name phase
  | .replace name phase => ((p.replace name phase).1.map fun _ => (), (p.replace name phase).2)
  | .remove name => ((p.remove name).1.map fun _ => (), (p.remove name).2)
  | .stopAfter name => p.stopAfter name

/-- The pipeline after some edits, whether they fail or not. -/
def edited (p : Pipeline) (edits : List PipelineEdit) : Pipeline :=
  edits.foldl (fun p e => (p.edit e).2) p

/-- No phase stops the build when it is done. -/
def unstopped (p : Pipeline) : Pipeline := p.map ({ · with stopAfter := false })

end Pipeline

namespace PipelineEdit

/-- The phase that the edit names. -/
def target : PipelineEdit → String
  | insertBefore name _ | insertAfter name _ | replace name _ | remove name | stopAfter name => name

def incoming? : PipelineEdit → Option Phase
  | insertBefore _ phase | insertAfter _ phase | replace _ phase => some phase
  | remove _ | stopAfter _ => none

/-- The slots that the incoming phase stands beside. -/
def beside (p : Pipeline) : PipelineEdit → Pipeline
  | replace name _ => p.filter (·.name ≠ name)
  | _ => p

/-- Why the edit fails: the phase that it names is missing, or else the name of the phase
that it brings in is taken by another slot. -/
inductive Fails (p : Pipeline) (e : PipelineEdit) : Error → Prop
  | missing (h : e.target ∉ p.names) : Fails p e (.noSuchPhase e.target)
  | taken {phase : Phase} (h : e.target ∈ p.names) (hphase : e.incoming? = some phase)
    (hname : phase.name ∈ (e.beside p).names) : Fails p e (.duplicatePhase phase.name)

theorem Fails.unique {p : Pipeline} {e : PipelineEdit} {err err' : Error} (h : e.Fails p err)
    (h' : e.Fails p err') : err = err' := by
  cases h with
  | missing hmissing =>
    cases h' with
    | missing => rfl
    | taken hin => exact absurd hin hmissing
  | taken hin hphase =>
    cases h' with
    | missing hmissing => exact absurd hin hmissing
    | taken _ hphase' => rw [Option.mem_unique hphase hphase']

/-- What the edit makes of a pipeline in which `slot` is the one named, with `l` before it
and `r` behind it. -/
def result (l : Pipeline) (slot : Slot) (r : Pipeline) : PipelineEdit → Pipeline
  | insertBefore _ phase => l ++ ⟨phase, false, false⟩ :: slot :: r
  | insertAfter _ phase => l ++ slot :: ⟨phase, false, false⟩ :: r
  | replace _ phase => l ++ ⟨phase, slot.abortOnError, slot.stopAfter⟩ :: r
  | remove _ => l ++ r
  | stopAfter _ => l.unstopped ++ { slot with stopAfter := true } :: r.unstopped

end PipelineEdit

namespace Pipeline

variable {p l r : Pipeline} {slot : Slot} {name : String} {phase : Phase}

@[simp] theorem names_append (l r : Pipeline) : names (l ++ r) = l.names ++ r.names :=
  map_append

@[simp] theorem names_cons (slot : Slot) (r : Pipeline) : names (slot :: r) = slot.name :: r.names :=
  rfl

@[simp] theorem names_unstopped (p : Pipeline) : p.unstopped.names = p.names := by
  simp [names, unstopped, Slot.name, Function.comp_def]

theorem unstopped_eq_self : p.unstopped = p ↔ ∀ slot ∈ p, slot.stopAfter = false := by
  induction p with
  | nil => simp [unstopped]
  | cons slot r ih =>
    have hslot : ({ slot with stopAfter := false } : Slot) = slot ↔ slot.stopAfter = false := by
      cases slot
      simp [eq_comm]
    rw [unstopped, map_cons, cons_eq_cons, hslot, forall_mem_cons]
    exact and_congr_right fun _ => ih

theorem get_of_missing (h : name ∉ p.names) : p.get name = .error (.noSuchPhase name) := by
  have hnone : p.find? (·.name == name) = none :=
    List.find?_eq_none.mpr fun s hs he => h (mem_map.mpr ⟨s, hs, beq_iff_eq.mp he⟩)
  rw [get, hnone]

theorem position_of_missing (h : name ∉ p.names) :
    p.position name = .error (.noSuchPhase name) := by
  have hnone : p.findIdx? (·.name == name) = none :=
    findIdx?_eq_none_iff.mpr fun s hs =>
      beq_eq_false_iff_ne.mpr fun he => h (mem_map.mpr ⟨s, hs, he⟩)
  rw [position, hnone]

theorem checkNew_of_mem (h : name ∈ p.names) : p.checkNew name = .error (.duplicatePhase name) :=
  if_pos h

theorem checkNew_of_not_mem (h : name ∉ p.names) : p.checkNew name = .ok () :=
  if_neg h

theorem place_of_missing (h : name ∉ p.names) :
    p.place name phase = .error (.noSuchPhase name) := by
  rw [place, position_of_missing h]
  rfl

theorem stopAfter_eq (p : Pipeline) (name : String) :
    p.stopAfter name = p.unstopped.modifySlot name ({ · with stopAfter := true }) := rfl

theorem insertIdx_length (l r : Pipeline) (slot : Slot) :
    (l ++ r).insertIdx l.length slot = l ++ slot :: r := by
  induction l with
  | nil => rfl
  | cons first l ih => simp [ih]

/-! ### At the place of a phase -/

/-- The slot named `name` is in `p` once, with `l` before it and `r` behind it. -/
structure SplitAt (p : Pipeline) (name : String) (l : Pipeline) (slot : Slot) (r : Pipeline) :
    Prop where
  eq : p = l ++ slot :: r
  named : slot.name = name
  before : name ∉ l.names
  behind : name ∉ r.names

theorem exists_splitAt (h : p.names.Nodup) (hname : name ∈ p.names) :
    ∃ l slot r, p.SplitAt name l slot r := by
  obtain ⟨slot, hslot, rfl⟩ := mem_map.mp hname
  obtain ⟨l, r, rfl⟩ := append_of_mem hslot
  rw [names_append, names_cons, nodup_append] at h
  exact ⟨l, slot, r, rfl, rfl, fun hl => h.2.2 _ hl _ mem_cons_self rfl, (nodup_cons.mp h.2.1).1⟩

namespace SplitAt

variable (h : p.SplitAt name l slot r)

include h

theorem mem_names : name ∈ p.names := by
  simp [h.eq, h.named]

theorem position_eq : p.position name = .ok l.length := by
  have hbefore : l.findIdx? (·.name == name) = none :=
    findIdx?_eq_none_iff.mpr fun s hs =>
      beq_eq_false_iff_ne.mpr fun he => h.before (mem_map.mpr ⟨s, hs, he⟩)
  have hfind : p.findIdx? (·.name == name) = some l.length := by
    rw [h.eq, findIdx?_append, hbefore, findIdx?_cons, h.named]
    simp
  rw [position, hfind]

theorem place_of_taken (hname : phase.name ∈ p.names) :
    p.place name phase = .error (.duplicatePhase phase.name) := by
  rw [place, h.position_eq, checkNew_of_mem hname]
  rfl

theorem place_of_free (hname : phase.name ∉ p.names) : p.place name phase = .ok l.length := by
  rw [place, h.position_eq, checkNew_of_not_mem hname]
  rfl

theorem find?_eq : p.find? (·.name == name) = some slot := by
  have hbefore : l.find? (·.name == name) = none :=
    List.find?_eq_none.mpr fun s hs he => h.before (mem_map.mpr ⟨s, hs, beq_iff_eq.mp he⟩)
  rw [h.eq, List.find?_append, hbefore, find?_cons_of_pos (by simp [h.named])]
  rfl

theorem get_eq : p.get name = .ok slot := by
  rw [get, h.find?_eq]

theorem map_eq (f : Slot → Slot) :
    p.map (fun s => if s.name = name then f s else s) = l ++ f slot :: r := by
  have hother : ∀ q : Pipeline, name ∉ q.names →
      q.map (fun s => if s.name = name then f s else s) = q := fun q hq =>
    (map_congr_left fun s hs => if_neg fun he => hq (mem_map.mpr ⟨s, hs, he⟩)).trans (map_id' q)
  rw [h.eq, map_append, map_cons, hother l h.before, hother r h.behind, if_pos h.named]

theorem filter_eq : p.filter (·.name ≠ name) = l ++ r := by
  have hother : ∀ q : Pipeline, name ∉ q.names → q.filter (·.name ≠ name) = q := fun q hq =>
    filter_eq_self.mpr fun s hs =>
      decide_eq_true fun he => hq (mem_map.mpr ⟨s, hs, he⟩)
  rw [h.eq, filter_append, filter_cons_of_neg (by simp [h.named]), hother l h.before,
    hother r h.behind]

theorem eraseP_eq : p.eraseP (·.name == name) = l ++ r := by
  have hbefore : ∀ s ∈ l, ¬ (s.name == name) = true := fun s hs he =>
    h.before (mem_map.mpr ⟨s, hs, beq_iff_eq.mp he⟩)
  rw [h.eq, eraseP_append_right _ hbefore, eraseP_cons_of_pos (by simp [h.named])]

theorem unstopped : p.unstopped.SplitAt name l.unstopped { slot with stopAfter := false }
    r.unstopped :=
  ⟨by simp [h.eq, Pipeline.unstopped], h.named, by simpa using h.before, by simpa using h.behind⟩

end SplitAt

end Pipeline

/-! ### One edit -/

namespace PipelineEdit

open Pipeline

variable {p l r : Pipeline} {slot : Slot} {e : PipelineEdit} {phase : Phase}

/-- What a failed edit leaves. -/
def remains (p : Pipeline) : PipelineEdit → Pipeline
  | stopAfter _ => p.unstopped
  | _ => p

theorem edit_of_missing (h : e.target ∉ p.names) :
    p.edit e = (.error (.noSuchPhase e.target), e.remains p) := by
  cases e <;> simp only [target] at h ⊢
  case insertBefore name phase =>
    simp only [edit, Pipeline.insertBefore, place_of_missing h, remains]
  case insertAfter name phase =>
    simp only [edit, Pipeline.insertAfter, place_of_missing h, remains]
  case replace name phase =>
    simp only [edit, Pipeline.replace, get_of_missing h, Except.map, remains]
  case remove name =>
    simp only [edit, Pipeline.remove, get_of_missing h, Except.map, remains]
  case stopAfter name =>
    rw [← names_unstopped] at h
    simp only [edit, stopAfter_eq, modifySlot, get_of_missing h, remains]

theorem edit_of_taken (h : p.SplitAt e.target l slot r) (hphase : e.incoming? = some phase)
    (hname : phase.name ∈ (e.beside p).names) :
    p.edit e = (.error (.duplicatePhase phase.name), e.remains p) := by
  cases e <;> simp only [target, incoming?, Option.some.injEq, reduceCtorEq, beside] at h hphase hname
  case insertBefore name new =>
    subst hphase
    simp only [edit, Pipeline.insertBefore, h.place_of_taken hname, remains]
  case insertAfter name new =>
    subst hphase
    simp only [edit, Pipeline.insertAfter, h.place_of_taken hname, remains]
  case replace name new =>
    subst hphase
    obtain ⟨s, hs, hsame⟩ := mem_map.mp hname
    obtain ⟨hmem, hother⟩ := mem_filter.mp hs
    have hne : new.name ≠ name := hsame ▸ of_decide_eq_true hother
    have hin : new.name ∈ p.names := hsame ▸ mem_map_of_mem hmem
    simp only [edit, Pipeline.replace, h.get_eq, if_neg hne, checkNew_of_mem hin, Except.map,
      remains]

theorem edit_of_free (h : p.SplitAt e.target l slot r)
    (hfree : ∀ phase, e.incoming? = some phase → phase.name ∉ (e.beside p).names) :
    p.edit e = (.ok (), e.result l slot r) := by
  cases e <;> simp only [target, incoming?, Option.some.injEq, beside, forall_eq'] at h hfree
  case insertBefore name new =>
    simp only [edit, Pipeline.insertBefore, h.place_of_free hfree, result]
    rw [h.eq, insertIdx_length]
  case insertAfter name new =>
    simp only [edit, Pipeline.insertAfter, h.place_of_free hfree, result]
    have hlength : l.length + 1 = (l ++ [slot]).length := by simp
    rw [h.eq, ← singleton_append, ← append_assoc, hlength, insertIdx_length,
      append_assoc, singleton_append]
  case replace name new =>
    have hnew : (if new.name = name then .ok () else p.checkNew new.name) = .ok () := by
      split
      · rfl
      · rename_i hne
        refine checkNew_of_not_mem fun hin => hfree ?_
        obtain ⟨s, hs, hsame⟩ := mem_map.mp hin
        exact mem_map.mpr ⟨s, mem_filter.mpr ⟨hs, by simpa [hsame] using hne⟩, hsame⟩
    simp only [edit, Pipeline.replace, h.get_eq, hnew, h.map_eq, Except.map, result]
  case remove name =>
    simp only [edit, Pipeline.remove, h.get_eq, h.eraseP_eq, Except.map, result]
  case stopAfter name =>
    simp only [edit, stopAfter_eq, modifySlot, h.unstopped.get_eq, h.unstopped.map_eq, result]

/-- **What an edit does**: it fails for one of two reasons, or does its work where the named
phase stands. -/
theorem edit_cases (h : p.names.Nodup) (e : PipelineEdit) :
    (∃ err, e.Fails p err ∧ p.edit e = (.error err, e.remains p)) ∨
    ∃ l slot r, p.SplitAt e.target l slot r ∧
      (∀ phase, e.incoming? = some phase → phase.name ∉ (e.beside p).names) ∧
      p.edit e = (.ok (), e.result l slot r) := by
  by_cases hname : e.target ∈ p.names
  · obtain ⟨l, slot, r, hsplit⟩ := exists_splitAt h hname
    by_cases hfree : ∀ phase, e.incoming? = some phase → phase.name ∉ (e.beside p).names
    · exact .inr ⟨l, slot, r, hsplit, hfree, edit_of_free hsplit hfree⟩
    · push Not at hfree
      obtain ⟨phase, hphase, htaken⟩ := hfree
      exact .inl ⟨_, .taken hname hphase htaken, edit_of_taken hsplit hphase htaken⟩
  · exact .inl ⟨_, .missing hname, edit_of_missing hname⟩

theorem nodup_result (h : p.SplitAt e.target l slot r) (hp : p.names.Nodup)
    (hfree : ∀ phase, e.incoming? = some phase → phase.name ∉ (e.beside p).names) :
    (e.result l slot r).names.Nodup := by
  have hnames : p.names = l.names ++ slot.name :: r.names := by simp [h.eq]
  have hothers : (l.names ++ r.names).Nodup := (nodup_middle.mp (hnames ▸ hp)).of_cons
  cases e <;> simp only [target, incoming?, Option.some.injEq, beside, forall_eq'] at h hfree
  case insertBefore name new =>
    rw [result, names_append, names_cons, names_cons, nodup_middle, ← hnames]
    exact nodup_cons.mpr ⟨hfree, hp⟩
  case insertAfter name new =>
    have hshift : l.names ++ slot.name :: new.name :: r.names =
        (l.names ++ [slot.name]) ++ new.name :: r.names := by simp
    rw [result, names_append, names_cons, names_cons]
    change (l.names ++ slot.name :: new.name :: r.names).Nodup
    rw [hshift, nodup_middle, append_assoc, singleton_append, ← hnames]
    exact nodup_cons.mpr ⟨hfree, hp⟩
  case replace name new =>
    rw [h.filter_eq, names_append] at hfree
    rw [result, names_append, names_cons, nodup_middle]
    exact nodup_cons.mpr ⟨hfree, hothers⟩
  case remove name =>
    rwa [result, names_append]
  case stopAfter name =>
    rw [result, names_append, names_cons, names_unstopped, names_unstopped]
    exact hnames ▸ hp

/-- **An edit keeps names different from each other**, also when it fails. -/
theorem nodup_edit (h : p.names.Nodup) (e : PipelineEdit) : (p.edit e).2.names.Nodup := by
  rcases edit_cases h e with ⟨err, -, heq⟩ | ⟨l, slot, r, hsplit, hfree, heq⟩
  · rw [heq]
    cases e with
    | stopAfter name => simpa [remains] using h
    | _ => exact h
  · rw [heq]
    exact nodup_result hsplit h hfree

end PipelineEdit

/-! ### Runs of edits -/

theorem Pipeline.nodup_edited {p : Pipeline} (h : p.names.Nodup) (edits : List PipelineEdit) :
    (p.edited edits).names.Nodup :=
  List.foldlRecOn (motive := fun p : Pipeline => p.names.Nodup) edits _ h fun _ hp e _ =>
    PipelineEdit.nodup_edit hp e

theorem Pipeline.nodup_standard : Pipeline.standard.names.Nodup := by
  decide +kernel

/-- **Names of phases are different from each other** in every pipeline that edits make of the
standard one. An edit fails if and only if it has a reason to; otherwise it does its work at
the place of the phase that it names. -/
theorem edits_keep_names_unique (edits : List PipelineEdit) :
    let p := Pipeline.standard.edited edits
    p.names.Nodup ∧ ∀ e : PipelineEdit,
      (∀ err, (p.edit e).1 = .error err ↔ e.Fails p err) ∧
      ((p.edit e).1 = .ok () → ∃ l slot r, p = l ++ slot :: r ∧ slot.name = e.target ∧
        (p.edit e).2 = e.result l slot r) := by
  intro p
  have hp : p.names.Nodup := Pipeline.nodup_edited Pipeline.nodup_standard edits
  refine ⟨hp, fun e => ?_⟩
  rcases PipelineEdit.edit_cases hp e with ⟨err, hfails, heq⟩ | ⟨l, slot, r, hsplit, hfree, heq⟩
  · rw [heq]
    refine ⟨fun err' => ⟨?_, fun h => ?_⟩, nofun⟩
    · rintro ⟨⟩
      exact hfails
    · exact congrArg Except.error (hfails.unique h)
  · rw [heq]
    refine ⟨fun err => ⟨nofun, fun h => ?_⟩, fun _ =>
      ⟨l, slot, r, hsplit.eq, hsplit.named, rfl⟩⟩
    cases h with
    | missing hmissing => exact absurd hsplit.mem_names hmissing
    | taken _ hphase htaken => exact absurd htaken (hfree _ hphase)

/-- **A failed edit** leaves all phases, their order and their flags as they were, with one
exception: `stopAfter` has taken the flag that ends the build from all phases. So something
changes exactly if it was one of them that had it. -/
theorem failed_edit_keeps_phases (edits : List PipelineEdit) (e : PipelineEdit) {err : Error}
    (h : ((Pipeline.standard.edited edits).edit e).1 = .error err) :
    let p := Pipeline.standard.edited edits
    let q := (p.edit e).2
    ((∀ name, e ≠ .stopAfter name) → q = p) ∧
    (∀ name, e = .stopAfter name → q = p.map fun slot => ⟨slot.phase, slot.abortOnError, false⟩) ∧
    (q = p ↔ (∀ name, e ≠ .stopAfter name) ∨ ∀ slot ∈ p, slot.stopAfter = false) := by
  intro p q
  have hq : q = e.remains p := by
    rcases PipelineEdit.edit_cases (Pipeline.nodup_edited Pipeline.nodup_standard edits) e with
      ⟨err', -, heq⟩ | ⟨l, slot, r, -, -, heq⟩
    · exact congrArg Prod.snd heq
    · rw [heq] at h
      cases h
  rw [hq]
  cases e with
  | stopAfter name =>
    refine ⟨fun hne => absurd rfl (hne name), fun _ _ => rfl, Pipeline.unstopped_eq_self.trans ?_⟩
    exact (or_iff_right fun hne => hne name rfl).symm
  | _ => exact ⟨fun _ => rfl, nofun, fun _ => .inl nofun, fun _ => rfl⟩

/-- A phase of the same name as another one is not put in, whichever phase is the last to run. -/
theorem failed_edit_keeps_phases_taken :
    let p := Pipeline.standard.edited [.stopAfter "parse"]
    (p.edit (.replace "parse" emissionPhase)).1 = .error (.duplicatePhase "generate-code") ∧
      (p.edit (.replace "parse" emissionPhase)).2 = p := by
  have h : ((Pipeline.standard.edited [.stopAfter "parse"]).edit
      (.replace "parse" emissionPhase)).1 = .error (.duplicatePhase "generate-code") := by
    rfl
  exact ⟨h, (failed_edit_keeps_phases _ _ h).1 nofun⟩

/-- To stop after a phase that is missing is refused, and the build does not stop any more where
it was to stop before. -/
theorem refused_stop_forgets_stop :
    let p := Pipeline.standard.edited [.stopAfter "parse"]
    (p.edit (.stopAfter "missing")).1 = .error (.noSuchPhase "missing") ∧
      (p.edit (.stopAfter "missing")).2 ≠ p := by
  refine ⟨by rfl, fun h => ?_⟩
  have hflags := congrArg (List.map Slot.stopAfter) h
  revert hflags
  decide +kernel

end WordAsm
