/-
# How far the queue can grow

Includes can only lead to finitely many sources, so only finitely many units can
come to be queued. The measure is

    queued + (known, not queued) + (sources that no known unit stands for)

An include that leads to a known unit moves it from the second summand to the
first. One that leads to a new unit raises the first and lowers the third, since
the new unit stands for its source. So following an include never raises the
measure (`load_findOrAdd`), and the steps of a phase suffice for all units that
turn up on its way.
-/
import WordAsm.Build.Compile
import WordAsm.Proofs.Growth

namespace WordAsm

open List

/-- The sources that includes can lead to, each as the test whether a resource
stands for it. -/
def Resolver.targets (r : Resolver) (tree : FileTree) : List (Resource → Bool) :=
  match r with
  | memory texts => texts.map fun (name, _) resource => resource.identifier == name
  | files _ => tree.files.map fun (place, _) resource =>
      match resource with
      | .file path => tree.find? path == some place
      | _ => false

theorem Resolver.length_targets (r : Resolver) (tree : FileTree) :
    (r.targets tree).length = r.reach tree := by
  cases r <;> simp [targets, reach]

theorem mem_of_lookup {α β : Type} [BEq α] [LawfulBEq α] {l : List (α × β)} {a : α} {b : β}
    (h : l.lookup a = some b) : (a, b) ∈ l := by
  obtain ⟨l₁, l₂, rfl, -⟩ := lookup_eq_some_iff.mp h
  simp

theorem Resolver.exists_text_of_resolve {texts : List (String × String)} {tree : FileTree}
    {path : String} {parent : Option Resource} {resource : Resource}
    (h : (memory texts).resolve tree path parent = .ok resource) :
    ∃ name content, texts.lookup name = some content ∧ resource = .text name content := by
  have hname : ∃ name, memoryResource? texts name = some resource := by
    unfold resolve at h
    simp only at h
    split at h
    · rename_i found hfound
      cases h
      rw [Option.orElse_eq_orElse, Option.orElse_eq_or, Option.or_eq_some_iff] at hfound
      rcases hfound with hbeside | ⟨-, hplain⟩
      · obtain ⟨d, -, hd⟩ := Option.bind_eq_some_iff.mp hbeside
        exact ⟨_, hd⟩
      · exact ⟨_, hplain⟩
    · cases h
  obtain ⟨name, hname⟩ := hname
  obtain ⟨content, hcontent, rfl⟩ := Option.map_eq_some_iff.mp hname
  exact ⟨name, content, hcontent, rfl⟩

/-- What an include leads to stands for one of the targets, and whatever else
stands for that is the same source. -/
theorem Resolver.resolve_target {r : Resolver} {tree : FileTree} {path : String}
    {parent : Option Resource} {resource : Resource}
    (h : r.resolve tree path parent = .ok resource) :
    ∃ f ∈ r.targets tree, f resource = true ∧
      ∀ other, f other = true → other.same tree resource = true := by
  cases r with
  | memory texts =>
    obtain ⟨name, content, hcontent, rfl⟩ := exists_text_of_resolve h
    refine ⟨fun resource => resource.identifier == name,
      mem_map.mpr ⟨(name, content), mem_of_lookup hcontent, rfl⟩, ?_, fun other hother => ?_⟩
    · simp [Resource.identifier]
    · cases other <;> simpa [Resource.same, Resource.identifier] using hother
  | files directories =>
    have hpath : ∃ place, tree.leadsToFile place = true ∧ resource = .file place := by
      unfold resolve at h
      simp only at h
      split at h
      · rename_i found hfound
        cases h
        obtain ⟨place, hplace, rfl⟩ := Option.map_eq_some_iff.mp hfound
        exact ⟨place, by simpa using find?_some hplace, rfl⟩
      · cases h
    obtain ⟨file, hfile, rfl⟩ := hpath
    obtain ⟨place, hfind, hisFile⟩ := (Option.any_eq_true ..).mp hfile
    obtain ⟨bytes, hbytes⟩ := Option.isSome_iff_exists.mp hisFile
    refine ⟨_, mem_map.mpr ⟨(place, bytes), mem_of_lookup hbytes, rfl⟩, ?_, fun other hother =>
      ?_⟩
    · simp [hfind]
    · cases other with
      | file path =>
        have hother' : tree.find? path = some place := by simpa using hother
        simp [Resource.same, hother', hfind]
      | text | memory => simp at hother

theorem countP_lt_countP {α : Type} {p q : α → Bool} {l : List α}
    (h : ∀ a ∈ l, p a = true → q a = true)
    {a : α} (ha : a ∈ l) (hp : p a = false) (hq : q a = true) : l.countP p < l.countP q := by
  induction l with
  | nil => cases ha
  | cons b l ih =>
    have hrest : ∀ a ∈ l, p a = true → q a = true := fun c hc => h c (mem_cons_of_mem _ hc)
    rw [countP_cons, countP_cons]
    rcases mem_cons.mp ha with rfl | ha
    · have hle := countP_mono_left hrest
      simp only [hp, hq, Bool.false_eq_true, if_false, if_true]
      omega
    · have hlt := ih hrest ha
      have hb := h b mem_cons_self
      by_cases hpb : p b = true
      · simp only [hpb, hb hpb, if_true]
        omega
      · simp only [hpb, if_false, Bool.false_eq_true]
        omega

namespace Units

/-- The number of known units that are not queued. -/
def unqueued (us : Units) : ℕ := (List.range us.all.length).countP (· ∉ us.order)

/-- The number of targets that no known unit stands for. -/
def unmet (us : Units) (targets : List (Resource → Bool)) : ℕ :=
  targets.countP fun f => !us.all.any fun u => f u.resource

/-- A bound on the length of the queue, now and later. -/
def load (targets : List (Resource → Bool)) (us : Units) : ℕ :=
  us.order.length + us.unqueued + us.unmet targets

variable {us : Units} {targets : List (Resource → Bool)}

theorem order_le_load (us : Units) (targets : List (Resource → Bool)) :
    us.order.length ≤ us.load targets := by
  unfold load
  omega

theorem load_le (us : Units) (targets : List (Resource → Bool)) :
    us.load targets ≤ us.order.length + us.all.length + targets.length := by
  have h₁ : us.unqueued ≤ us.all.length := by
    have h := countP_le_length (p := fun k => decide (k ∉ us.order)) (l := List.range us.all.length)
    rwa [length_range] at h
  have h₂ : us.unmet targets ≤ targets.length := countP_le_length
  unfold load
  omega

theorem load_modify (us : Units) (targets : List (Resource → Bool)) (id : UnitId)
    {f : SourceUnit → SourceUnit} (hf : ∀ u, (f u).resource = u.resource) :
    (us.modify id f).load targets = us.load targets := by
  have hany : ∀ g : Resource → Bool,
      ((us.modify id f).all.any fun u => g u.resource) = us.all.any fun u => g u.resource := by
    intro g
    have hmap : (us.modify id f).all.map SourceUnit.resource = us.all.map SourceUnit.resource := by
      refine ext_getElem? fun i => ?_
      unfold modify
      rw [getElem?_map, getElem?_map, getElem?_modify]
      cases us.all[i]? with
      | none => rfl
      | some u =>
        by_cases h : id = i
        · simp [h, hf]
        · simp [h]
    have h := congrArg (fun rs : List Resource => rs.any g) hmap
    simpa [any_map, Function.comp_def] using h
  unfold load unqueued unmet
  rw [length_all_modify, order_modify]
  simp only [hany]

theorem load_enqueue {id : UnitId} (hid : id < us.all.length) :
    (us.enqueue id).load targets ≤ us.load targets := by
  unfold load enqueue insertNew
  by_cases h : id ∈ us.order
  · exact Nat.le_of_eq (by rw [if_pos h])
  · rw [if_neg h]
    have hlt : (List.range us.all.length).countP (· ∉ us.order ++ [id]) <
        (List.range us.all.length).countP (· ∉ us.order) := by
      refine countP_lt_countP (a := id) (fun k _ hk => ?_) (mem_range.mpr hid) ?_ ?_
      · simp only [mem_append, not_or, decide_eq_true_eq] at hk ⊢
        exact hk.1
      · simp
      · simpa using h
    unfold unqueued
    simp only [length_append, length_singleton]
    unfold unmet
    simp only
    omega

theorem load_add {resource : Resource} {f : Resource → Bool}
    (hf : f ∈ targets) (hnew : f resource = true) (hold : ∀ u ∈ us.all, f u.resource = false) :
    (us.add resource).2.load targets ≤ us.load targets := by
  have hunqueued : (us.add resource).2.unqueued = us.unqueued := by
    unfold unqueued add
    simp only [length_append, length_singleton]
    rw [range_succ, countP_append]
    have hlast : [us.all.length].countP (fun k => decide (k ∉ us.order ++ [us.all.length])) = 0 := by
      simp
    rw [hlast, Nat.add_zero]
    refine countP_congr fun k hk => ?_
    have hne : k ≠ us.all.length := Nat.ne_of_lt (mem_range.mp hk)
    simp [hne]
  have hunmet : (us.add resource).2.unmet targets < us.unmet targets := by
    refine countP_lt_countP (a := f) (fun g _ hg => ?_) hf ?_ ?_
    · simp only [add, any_append, Bool.not_eq_true', Bool.or_eq_false_iff] at hg ⊢
      exact hg.1
    · simp [add, hnew]
    · simpa using hold
  have horder : (us.add resource).2.order.length = us.order.length + 1 := by simp [add]
  unfold load
  omega

/-- **Following an include does not raise the measure.** -/
theorem load_findOrAdd {cfg : Settings} {tree : FileTree} {path : String}
    {parent : Option Resource} {resource : Resource} (hw : us.WellFormed)
    (h : cfg.resolver.resolve tree path parent = .ok resource) :
    (us.findOrAdd tree resource).2.load (cfg.resolver.targets tree) ≤
      us.load (cfg.resolver.targets tree) := by
  rcases us.findOrAdd_cases tree resource with ⟨u, hu, -, heq⟩ | ⟨hnone, heq⟩
  · rw [heq]
    obtain ⟨i, hi⟩ := mem_all_iff.mp hu
    exact load_enqueue (by rw [hw.numbered i u hi]; exact get?_lt hi)
  · rw [heq]
    obtain ⟨f, hf, hnew, hsame⟩ := Resolver.resolve_target h
    refine load_add hf hnew fun u hu => ?_
    rw [Bool.eq_false_iff]
    intro hfu
    exact absurd (hsame _ hfu) (by simp [hnone u hu])

end Units

end WordAsm
