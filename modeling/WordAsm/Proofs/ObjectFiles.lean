/-
# Files that are written again

A file is written at the place its path leads to, or at a new place in a directory that is
there (`FileTree.target?`). Writing it changes no directory, so whatever is written, every
path keeps its target (`target?_put`). Hence it does no harm to write some files once more
in the same order: all of them can be written again, and in the end each holds what it held
(`writes_again`). Object code that is handed over a second time goes where it went before.
-/
import WordAsm.Proofs.MirroredPhases

namespace WordAsm

open List

variable {p x : Place} {segment : String}
namespace FileTree

variable {bytes : Bytes} {ws : List (String × Bytes)} {ps : List (Place × Bytes)}

/-! ### Putting a file in its place -/

def places (t : FileTree) : List Place := t.files.map Prod.fst

variable {t t' : FileTree} {q : Place} {path : String}

theorem isFile_iff : t.isFile p = true ↔ p ∈ t.places := by
  unfold isFile contents? places
  induction t.files with
  | nil => simp
  | cons f fs ih =>
    rw [lookup_cons, map_cons, mem_cons]
    by_cases hf : p = f.1
    · simp [hf]
    · rw [beq_false_of_ne hf]
      simpa only [hf, false_or] using ih

@[simp] theorem directories_put (t : FileTree) (q : Place) (bytes : Bytes) :
    (t.put q bytes).directories = t.directories := by
  unfold put
  split <;> rfl

@[simp] theorem here_put (t : FileTree) (q : Place) (bytes : Bytes) :
    (t.put q bytes).here = t.here := by
  unfold put
  split <;> rfl

@[simp] theorem isDirectory_put (t : FileTree) (q : Place) (bytes : Bytes) (p : Place) :
    (t.put q bytes).isDirectory p = t.isDirectory p := by
  unfold isDirectory
  rw [directories_put, here_put]

theorem places_put (t : FileTree) (q : Place) (bytes : Bytes) :
    (t.put q bytes).places = insertNew t.places q := by
  unfold put insertNew
  simp only [isFile_iff]
  split
  · unfold places
    rw [map_map]
    refine map_congr_left fun f _ => ?_
    by_cases hf : f.1 = q <;> simp [hf]
  · simp [places]

theorem isFile_put : (t.put q bytes).isFile p = true ↔ t.isFile p = true ∨ p = q := by
  rw [isFile_iff, isFile_iff, places_put, Units.mem_insertNew]

/-! ### Where paths lead -/

def enter? (t : FileTree) (p : Place) (segment : String) : Option Place :=
  if !t.isDirectory p then none
  else if Path.isIdle segment then some p
  else if segment = ".." then some p.dropLast
  else if t.isDirectory (p ++ [segment]) || t.isFile (p ++ [segment]) then some (p ++ [segment])
  else none

theorem follow_eq (t : FileTree) (p : Place) (segments : List String) :
    t.follow p segments = segments.foldlM t.enter? p := by
  induction segments generalizing p with
  | nil => rfl
  | cons segment rest ih =>
    rw [follow, foldlM_cons, enter?]
    simp only [ih]
    split_ifs <;> rfl

theorem follow_cons (t : FileTree) (p : Place) (segment : String) (rest : List String) :
    t.follow p (segment :: rest) = (t.enter? p segment).bind fun x => t.follow x rest := by
  simp only [follow_eq]
  rfl

theorem follow_append (t : FileTree) (p : Place) (xs ys : List String) :
    t.follow p (xs ++ ys) = (t.follow p xs).bind fun q => t.follow q ys := by
  simp only [follow_eq, foldlM_append]
  rfl

theorem enter?_cases (h : t.enter? p segment = some x) :
    t.isDirectory p = true ∧ (x = p ∨ x = p.dropLast ∨
      x = p ++ [segment] ∧ (t.isDirectory x = true ∨ t.isFile x = true)) := by
  unfold enter? at h
  split_ifs at h with hdirectory hidle hup hthere <;> cases h
  all_goals refine ⟨by simpa using hdirectory, ?_⟩
  · exact .inl rfl
  · exact .inr (.inl rfl)
  · exact .inr (.inr ⟨rfl, (Bool.or_eq_true ..).mp hthere⟩)

/-- A place that can be reached: something is there, and it lies in directories only. -/
structure Rooted (t : FileTree) (p : Place) : Prop where
  there : t.isDirectory p = true ∨ t.isFile p = true
  above : ∀ d, d <+: p → d ≠ p → t.isDirectory d = true

theorem isDirectory_above (h : p <+: t.here) : t.isDirectory p = true := by
  unfold isDirectory
  rw [ isPrefixOf_iff_prefix.mpr h, Bool.true_or]

theorem rooted_start (t : FileTree) (path : String) : t.Rooted (t.start path) := by
  have habove : t.start path <+: t.here := by
    unfold start
    split
    · exact nil_prefix
    · exact prefix_refl _
  exact ⟨.inl (isDirectory_above habove), fun d hd _ => isDirectory_above (hd.trans habove)⟩

theorem Rooted.up (h : t.Rooted p) : t.Rooted p.dropLast := by
  have hproper : ∀ d, d <+: p.dropLast → t.isDirectory d = true := fun d hd => by
    rcases eq_or_ne p [] with rfl | hne
    · exact isDirectory_above (hd.trans nil_prefix)
    · refine h.above d (hd.trans ( dropLast_prefix p)) fun heq => ?_
      have hle := hd.length_le
      rw [heq, length_dropLast] at hle
      have hpos := length_pos_of_ne_nil hne
      omega
  exact ⟨.inl (hproper _ (prefix_refl _)), fun d hd _ => hproper d hd⟩

theorem Rooted.enter? (h : t.Rooted p) (hx : t.enter? p segment = some x) : t.Rooted x := by
  obtain ⟨hdirectory, rfl | rfl | ⟨rfl, hthere⟩⟩ := enter?_cases hx
  · exact h
  · exact h.up
  · refine ⟨hthere, fun d hd hne => ?_⟩
    rcases prefix_concat_iff.mp hd with heq | hd
    · exact absurd heq hne
    · by_cases heq : d = p
      · exact heq ▸ hdirectory
      · exact h.above d hd heq

theorem Rooted.follow {segments : List String} (h : t.Rooted p) (hx : t.follow p segments = some x) :
    t.Rooted x := by
  induction segments generalizing p with
  | nil =>
    cases hx
    exact h
  | cons segment rest ih =>
    rw [follow_cons] at hx
    obtain ⟨y, hy, hx⟩ := Option.bind_eq_some_iff.mp hx
    exact ih (h.enter? hy) hx

/-! ### Where files can be written -/

def target? (t : FileTree) (path : String) : Option Place :=
  match t.find? path with
  | some p => if t.isFile p then some p else none
  | none => t.newPlace? path

theorem write?_eq (t : FileTree) (path : String) (bytes : Bytes) :
    t.write? path bytes = (t.target? path).map fun p => t.put p bytes := by
  unfold write? target?
  cases t.find? path with
  | none => rfl
  | some p =>
    simp only
    split <;> rfl

theorem newPlace?_eq_some : t.newPlace? path = some q ↔
    Path.isPassable path = true ∧ ∃ front name d, Path.segments path.toList = front ++ [name] ∧
      Path.isIdle name = false ∧ name ≠ ".." ∧ t.follow (t.start path) front = some d ∧
      t.isDirectory d = true ∧ d ++ [name] = q := by
  constructor
  · intro h
    unfold newPlace? at h
    simp only at h
    split at h
    · cases h
    · rename_i name hlast
      split_ifs at h with hplain
      simp only [Bool.or_eq_true, Bool.not_eq_true', decide_eq_true_eq, not_or,
        Bool.not_eq_true, Bool.not_eq_false] at hplain
      obtain ⟨⟨hidle, hdots⟩, hleads⟩ := hplain
      split at h
      · rename_i d hfront
        split_ifs at h with hd
        exact ⟨hleads, _, name, d, (dropLast_append_getLast? name hlast).symm, hidle, hdots,
          hfront, hd, Option.some.inj h⟩
      · cases h
  · rintro ⟨hleads, front, name, d, hsegments, hidle, hdots, hfront, hd, rfl⟩
    simp [newPlace?, hsegments, hidle, hdots, hleads, hfront, hd]

theorem vacant_of_newPlace? (hnone : t.find? path = none) (hq : t.newPlace? path = some q) :
    t.isDirectory q = false ∧ t.isFile q = false := by
  obtain ⟨hleads, front, name, d, hsegments, hidle, hdots, hfront, hd, rfl⟩ :=
    newPlace?_eq_some.mp hq
  unfold find? at hnone
  rw [if_pos hleads, hsegments, follow_append, hfront, Option.bind_some, follow_cons] at hnone
  by_contra hthere
  simp [enter?, hd, hidle, hdots, hthere, follow] at hnone

/-- The files `t'` are `t` with one more, in a place where there was nothing. -/
structure AddedAt (q : Place) (t t' : FileTree) : Prop where
  here : t'.here = t.here
  directories : ∀ p, t'.isDirectory p = t.isDirectory p
  files : ∀ p, t'.isFile p = true ↔ t.isFile p = true ∨ p = q
  vacant : t.isDirectory q = false ∧ t.isFile q = false

section Added

variable {segments : List String} {q : Place} (h : AddedAt q t t')
include h

theorem AddedAt.enter? (hx : t.enter? p segment = some x) : t'.enter? p segment = some x := by
  unfold FileTree.enter? at hx ⊢
  rw [h.directories]
  split_ifs at hx with hdirectory hidle hup hthere
  · rw [if_neg hdirectory, if_pos hidle]
    exact hx
  · rw [if_neg hdirectory, if_neg hidle, if_pos hup]
    exact hx
  · have hthere' : (t.isDirectory (p ++ [segment]) || t'.isFile (p ++ [segment])) = true := by
      rw [Bool.or_eq_true, h.files, ← or_assoc]
      exact .inl ((Bool.or_eq_true ..).mp hthere)
    rw [if_neg hdirectory, if_neg hidle, if_neg hup, h.directories, if_pos hthere']
    exact hx

theorem AddedAt.enter?_new (hx : t'.enter? p segment = some x) (hnone : t.enter? p segment = none) :
    x = q ∧ Path.isIdle segment = false ∧ segment ≠ ".." ∧ t.isDirectory p = true ∧
      p ++ [segment] = q := by
  unfold FileTree.enter? at hx hnone
  rw [h.directories] at hx
  split_ifs at hx hnone with hdirectory hidle hup hthere' hthere
  rw [Bool.or_eq_true, h.directories, h.files, ← or_assoc, ← Bool.or_eq_true] at hthere'
  have hq := hthere'.resolve_left hthere
  exact ⟨(Option.some.inj hx).symm.trans hq, by simpa using hidle, hup, by simpa using hdirectory,
    hq⟩

theorem AddedAt.follow (hx : t.follow p segments = some x) : t'.follow p segments = some x := by
  induction segments generalizing p with
  | nil => exact hx
  | cons segment rest ih =>
    rw [follow_cons] at hx ⊢
    obtain ⟨y, hy, hx⟩ := Option.bind_eq_some_iff.mp hx
    rw [h.enter? hy, Option.bind_some]
    exact ih hx

theorem AddedAt.follow_new (hx : t'.follow p segments = some x) (hnone : t.follow p segments = none) :
    x = q ∧ ∃ front name d, segments = front ++ [name] ∧ Path.isIdle name = false ∧ name ≠ ".." ∧
      t.follow p front = some d ∧ t.isDirectory d = true ∧ d ++ [name] = q := by
  induction segments generalizing p with
  | nil => cases hnone
  | cons segment rest ih =>
    rw [follow_cons] at hx hnone
    obtain ⟨y, hy', hx⟩ := Option.bind_eq_some_iff.mp hx
    cases hy : t.enter? p segment with
    | some z =>
      obtain rfl : z = y := Option.some.inj ((h.enter? hy).symm.trans hy')
      rw [hy, Option.bind_some] at hnone
      obtain ⟨hxq, front, name, d, rfl, hname, hdots, hfront, hd⟩ := ih hx hnone
      refine ⟨hxq, segment :: front, name, d, rfl, hname, hdots, ?_, hd⟩
      rw [follow_cons, hy, Option.bind_some, hfront]
    | none =>
      -- the path goes through the new file, so it ends there
      obtain ⟨rfl, hidle, hup, hdirectory, hq⟩ := h.enter?_new hy' hy
      cases rest with
      | nil =>
        exact ⟨(Option.some.inj hx).symm, [], segment, p, rfl, hidle, hup, rfl, hdirectory, hq⟩
      | cons next rest =>
        rw [follow_cons, FileTree.enter?, h.directories, h.vacant.1] at hx
        cases hx

theorem AddedAt.newPlace? (path : String) : t'.newPlace? path = t.newPlace? path := by
  refine Option.ext fun x => ?_
  rw [newPlace?_eq_some, newPlace?_eq_some]
  simp only [start, h.here, h.directories]
  refine and_congr_right fun _ => exists_congr fun front => exists_congr fun name =>
    exists_congr fun d => and_congr_right fun _ => and_congr_right fun _ =>
    and_congr_right fun _ => and_congr_left fun ⟨hd, _⟩ => ?_
  refine ⟨fun hfront' => ?_, h.follow⟩
  cases hfront : t.follow _ front with
  | some e => rw [← h.follow hfront, hfront']
  | none =>
    obtain ⟨rfl, -⟩ := h.follow_new hfront' hfront
    simp [h.vacant.1] at hd

/-- **Every path keeps its target** when a file is added. -/
theorem AddedAt.target? (path : String) : t'.target? path = t.target? path := by
  unfold FileTree.target?
  cases hx : t.find? path with
  | some x =>
    have hfound : t.Rooted x ∧ t'.find? path = some x := by
      unfold FileTree.find? FileTree.start at hx ⊢
      split at hx
      · rename_i hleads
        rw [if_pos hleads, h.here]
        exact ⟨(t.rooted_start path).follow hx, h.follow hx⟩
      · cases hx
    have hne : x ≠ q := by
      rintro rfl
      rcases hfound.1.there with hthere | hthere
      · exact absurd hthere (by simp [h.vacant.1])
      · exact absurd hthere (by simp [h.vacant.2])
    have hfile : t'.isFile x = t.isFile x := by
      rw [Bool.eq_iff_iff, h.files, or_iff_left hne]
    rw [hfound.2]
    simp only [hfile]
  | none =>
    cases hx' : t'.find? path with
    | none => exact h.newPlace? path
    | some x =>
      unfold FileTree.find? FileTree.start at hx hx'
      split at hx'
      · rename_i hleads
        rw [if_pos hleads] at hx
        rw [h.here] at hx'
        obtain ⟨rfl, hnew⟩ := h.follow_new hx' hx
        have hfile : t'.isFile x = true := (h.files x).mpr (.inr rfl)
        simp only [hfile, if_true]
        exact (newPlace?_eq_some.mpr ⟨hleads, hnew⟩).symm
      · cases hx'

end Added

theorem target?_put_of_isFile (hfile : t.isFile q = true) (bytes : Bytes) :
    (t.put q bytes).target? = t.target? := by
  have hsame : ∀ p, (t.put q bytes).isFile p = t.isFile p := fun p => by
    rw [Bool.eq_iff_iff, isFile_put, or_iff_left_iff_imp]
    rintro rfl
    exact hfile
  have henter : (t.put q bytes).enter? = t.enter? := by
    funext p segment
    simp only [enter?, isDirectory_put, hsame]
  funext path
  simp only [target?, find?, newPlace?, start, follow_eq, henter, hsame, isDirectory_put, here_put]

/-- **Every path keeps its target** when a file is written. -/
theorem target?_put (hq : t.target? path = some q) (bytes : Bytes) :
    (t.put q bytes).target? = t.target? := by
  by_cases hfile : t.isFile q = true
  · exact target?_put_of_isFile hfile bytes
  · funext other
    refine AddedAt.target? ⟨here_put t q bytes, isDirectory_put t q bytes, fun p => isFile_put, ?_⟩ other
    unfold target? at hq
    split at hq
    · split_ifs at hq with hthere
      exact absurd (Option.some.inj hq ▸ hthere) hfile
    · exact vacant_of_newPlace? ‹_› hq

/-! ### Files that are written one after another -/

/-- Writes files one after another, as long as they can be written. -/
def writes (t : FileTree) (ws : List (String × Bytes)) : Option FileTree :=
  ws.foldlM (fun t w => t.write? w.1 w.2) t

/-- Puts files in their places one after another. -/
def puts (t : FileTree) (ps : List (Place × Bytes)) : FileTree :=
  ps.foldl (fun t p => t.put p.1 p.2) t

theorem writes_append (t : FileTree) (ws vs : List (String × Bytes)) :
    t.writes (ws ++ vs) = (t.writes ws).bind fun t' => t'.writes vs := by
  unfold writes
  rw [foldlM_append]
  rfl

theorem writes_singleton (t : FileTree) (w : String × Bytes) : t.writes [w] = t.write? w.1 w.2 := by
  exact Option.bind_fun_some _

/-- Files that can be written are put in places that are fixed beforehand, where every
path keeps its target. -/
theorem exists_puts_of_writes (h : t.writes ws = some t') :
    t'.target? = t.target? ∧ ∃ ps, t' = t.puts ps ∧
      ∀ s : FileTree, s.target? = t.target? → s.writes ws = some (s.puts ps) := by
  induction ws generalizing t with
  | nil =>
    cases h
    exact ⟨rfl, [], rfl, fun _ _ => rfl⟩
  | cons w ws ih =>
    unfold writes at h
    rw [foldlM_cons, write?_eq] at h
    obtain ⟨t₁, ht₁, h⟩ := Option.bind_eq_some_iff.mp h
    obtain ⟨q, hq, rfl⟩ := Option.map_eq_some_iff.mp ht₁
    obtain ⟨htarget, ps, rfl, hall⟩ := ih h
    have hkept := target?_put hq w.2
    refine ⟨htarget.trans hkept, (q, w.2) :: ps, rfl, fun s hs => ?_⟩
    have hsq : s.target? w.1 = some q := hs ▸ hq
    have hrest := hall (s.put q w.2) ((target?_put hsq w.2).trans (hs.trans hkept.symm))
    unfold writes at hrest ⊢
    rw [foldlM_cons, write?_eq, hsq]
    exact hrest

theorem puts_concat (t : FileTree) (ps : List (Place × Bytes)) (p : Place × Bytes) :
    t.puts (ps ++ [p]) = (t.puts ps).put p.1 p.2 := foldl_concat ..

def lastPut (ps : List (Place × Bytes)) (q : Place) : Option Bytes := ps.reverse.lookup q

theorem lastPut_concat (ps : List (Place × Bytes)) (p : Place × Bytes) (q : Place) :
    lastPut (ps ++ [p]) q = if q = p.1 then some p.2 else lastPut ps q := by
  unfold lastPut
  rw [reverse_concat, lookup_cons]
  by_cases hq : q = p.1
  · rw [if_pos hq, beq_iff_eq.mpr hq]
  · rw [if_neg hq, beq_false_of_ne hq]

theorem mem_places_puts (t : FileTree) (ps : List (Place × Bytes)) :
    (∀ p ∈ ps, p.1 ∈ (t.puts ps).places) ∧ t.places ⊆ (t.puts ps).places := by
  induction ps using List.reverseRecOn with
  | nil => exact ⟨by simp, fun _ h => h⟩
  | append_singleton ps p ih =>
    rw [puts_concat, places_put]
    refine ⟨fun r hr => (Units.mem_insertNew ..).mpr ?_, fun r hr => (Units.mem_insertNew ..).mpr
      (.inl (ih.2 hr))⟩
    rcases mem_append.mp hr with hr | hr
    · exact .inl (ih.1 r hr)
    · exact .inr (by rw [mem_singleton.mp hr])

theorem eq_of_lastPut {e : Place × Bytes} (he : e ∈ (t.puts ps).files)
    (hlast : lastPut ps e.1 = some bytes) : e.2 = bytes := by
  induction ps using List.reverseRecOn generalizing e with
  | nil => cases hlast
  | append_singleton ps p ih =>
    rw [lastPut_concat] at hlast
    rw [puts_concat] at he
    have hcases : e = p ∨ e ∈ (t.puts ps).files ∧ e.1 ≠ p.1 := by
      unfold put at he
      split at he
      · obtain ⟨f, hf, rfl⟩ := mem_map.mp he
        by_cases hfp : f.1 = p.1
        · exact .inl (if_pos hfp)
        · rw [if_neg hfp]
          exact .inr ⟨hf, hfp⟩
      · rename_i hnew
        rcases mem_append.mp he with he | he
        · exact .inr ⟨he, fun heq => hnew (isFile_iff.mpr (heq ▸ mem_map_of_mem he))⟩
        · exact .inl (mem_singleton.mp he)
    rcases hcases with rfl | ⟨he, hne⟩
    · rw [if_pos rfl] at hlast
      exact Option.some.inj hlast
    · rw [if_neg hne] at hlast
      exact ih he hlast

theorem files_puts (h : ∀ p ∈ ps, p.1 ∈ t.places) :
    (t.puts ps).files = t.files.map fun e => (e.1, (lastPut ps e.1).getD e.2) := by
  induction ps using List.reverseRecOn with
  | nil => exact (map_id _).symm
  | append_singleton ps p ih =>
    have hfile : (t.puts ps).isFile p.1 = true :=
      isFile_iff.mpr ((mem_places_puts t ps).2 (h p (by simp)))
    rw [puts_concat, put, if_pos hfile]
    rw [ih fun r hr => h r (mem_append_left _ hr), map_map]
    refine map_congr_left fun e _ => ?_
    simp only [Function.comp_apply, lastPut_concat]
    by_cases hep : e.1 = p.1 <;> simp [hep]

theorem directories_puts (t : FileTree) (ps : List (Place × Bytes)) :
    (t.puts ps).here = t.here ∧ (t.puts ps).directories = t.directories := by
  induction ps generalizing t with
  | nil => exact ⟨rfl, rfl⟩
  | cons p ps ih =>
    exact ⟨(ih _).1.trans (here_put ..), (ih _).2.trans (directories_put ..)⟩

/-- **Files that are written again** in the same order hold what they held. -/
theorem writes_again (h : t.writes ws = some t') : t'.writes ws = some t' := by
  obtain ⟨htarget, ps, rfl, hall⟩ := exists_puts_of_writes h
  rw [hall _ htarget]
  have hplaces := mem_places_puts t ps
  have hfiles : ((t.puts ps).puts ps).files = (t.puts ps).files := by
    rw [files_puts hplaces.1]
    refine (map_congr_left fun e he => ?_).trans (map_id _)
    cases hlast : lastPut ps e.1 with
    | none => rfl
    | some bytes => exact Prod.ext rfl (eq_of_lastPut he hlast).symm
  obtain ⟨hhere, hdirectories⟩ := directories_puts (t.puts ps) ps
  exact congrArg some (FileTree.ext hhere hdirectories hfiles)

end FileTree

/-! ### Object code -/

/-- Two sets of files that the same files have been written to. -/
def FileTree.WrittenAlike (tree tree' after after' : FileTree) : Prop :=
  ∃ ws, tree.writes ws = some after ∧ tree'.writes ws = some after'

/-- **Object code is handed over on both sides**, where paths have the same targets. -/
theorem ObjectSink.respects_writes (sink : ObjectSink) {tree tree' : FileTree}
    (h : tree'.target? = tree.target?) : sink.Respects (FileTree.WrittenAlike tree tree') := by
  rintro after after' identifier id buffer ⟨ws, hws, hws'⟩
  cases sink with
  | memory => exact .inr ⟨_, after, after', rfl, rfl, ws, hws, hws'⟩
  | files directory =>
    have htarget : after'.target? = after.target? :=
      (FileTree.exists_puts_of_writes hws').1.trans
        (h.trans (FileTree.exists_puts_of_writes hws).1.symm)
    simp only [close, FileTree.write?_eq, htarget]
    cases hq : after.target? (objectPath directory identifier id) with
    | none => exact .inl ⟨_, rfl, rfl⟩
    | some q =>
      refine .inr ⟨_, _, _, rfl, rfl, ws ++ [(objectPath directory identifier id,
        buffer.toBytes)], ?_, ?_⟩
      · rw [FileTree.writes_append, hws, Option.bind_some, FileTree.writes_singleton,
          FileTree.write?_eq, hq]
        rfl
      · rw [FileTree.writes_append, hws', Option.bind_some, FileTree.writes_singleton,
          FileTree.write?_eq, htarget, hq]
        rfl

end WordAsm
