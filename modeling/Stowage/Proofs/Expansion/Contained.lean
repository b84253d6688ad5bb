/-
What a module brings into an expansion lies inside its root. Paths are told from others by their spelling
only, so a `files` pattern that matches the parent entry of a directory leads out of the root under a name
that still starts with it; nothing else does.
-/
import Stowage.Proofs.Expansion.Links
import Stowage.Proofs.Glob.Expansion
import Stowage.Proofs.Path.Joined

open Stowage.Path

namespace Stowage

namespace Path

theorem mem_insertOrdered {p q : Path} {set : List Path} (h : p ∈ q.insertOrdered set) :
    p = q ∨ p ∈ set := by
  induction set with
  | nil => exact .inl (List.mem_singleton.1 h)
  | cons r rest ih =>
    unfold insertOrdered at h
    split at h
    · exact .inr h
    · split at h
      · exact List.mem_cons.1 h
      · rcases List.mem_cons.1 h with rfl | h
        · exact .inr List.mem_cons_self
        · exact (ih h).imp_right (List.mem_cons_of_mem _)

theorem mem_foldl_insertOrdered {p : Path} {ps set : List Path}
    (h : p ∈ ps.foldl (fun set q => q.insertOrdered set) set) : p ∈ ps ∨ p ∈ set := by
  induction ps generalizing set with
  | nil => exact .inr h
  | cons q ps ih =>
    rcases ih h with h | h
    · exact .inl (List.mem_cons_of_mem _ h)
    · rcases mem_insertOrdered h with rfl | h
      · exact .inl List.mem_cons_self
      · exact .inr h

end Path

namespace Expand

open Manifests Disk

variable (project : Project) (d : Disk)

/-- A pattern that the manifest lists matches a path that leads up from the root, and `path` lies there. The
pattern has a component that matches the parent entry. -/
def Strays (root : Path) (m : Manifest) (path : Path) : Prop :=
  ∃ patterns text found start, m.files = some patterns ∧ text ∈ patterns ∧
    text.toList.head? ≠ some '!' ∧ Glob.Climbs Glob.levels (bareText text) ∧
    Glob.expand d Glob.levels (Glob.literal root.text ++ "/" ++ bareText text) = .ok found ∧
    start ∈ found ∧ ".." ∈ start.below root ∧ path.startsWith start = true

/-- A path that a module brings in under the name `n` is spelled below the root of the module and below that
of the workspace, and has steps up there exactly if it strays. -/
structure Contained (root : Path) (m : Manifest) (path : Path) (n : String) : Prop where
  inside : path.startsWith root = true
  workspace : path.startsWith project.root = true
  name : n = joined (path.below project.root)
  up : ".." ∈ (⟨n⟩ : Path).moves ↔ Strays d root m path
  below : ".." ∈ path.below root ↔ Strays d root m path

variable {project d} {known : Manifests}

/-- What the first text of a list adds to what the others give: a pattern that leaves paths out, or the paths that it
matches. -/
theorem matched_cons {root : Path} {text : String} {rest : List String} {negated : List Glob.Pattern}
    {paths : List Path} (h : matched d root (text :: rest) = .ok (negated, paths)) :
    (∃ r q negated', text.toList = '!' :: r ∧ Workspace.compilePattern (bareText (String.ofList r)) = .ok q ∧
      matched d root rest = .ok (negated', paths) ∧ negated = q :: negated') ∨
    ∃ found paths', text.toList.head? ≠ some '!' ∧
      Glob.expand d Glob.levels (Glob.literal root.text ++ "/" ++ bareText text) = .ok found ∧
      matched d root rest = .ok (negated, paths') ∧
      paths = found.foldl (fun set p => p.insertOrdered set) paths' := by
  rw [matched] at h
  split at h
  · rename_i r htext
    left
    rcases hc : Workspace.compilePattern (bareText (String.ofList r)) with e | q
    · rw [hc] at h; cases h
    rcases hm : matched d root rest with e | ⟨negated', paths'⟩
    · rw [hc, hm] at h; cases h
    rw [hc, hm] at h
    cases h
    exact ⟨r, q, negated', htext, hc, rfl, rfl⟩
  · rename_i hno
    right
    dsimp only at h
    rcases hf : Glob.expand d Glob.levels (Glob.literal root.text ++ "/" ++ bareText text) with e | found
    · rw [hf] at h; cases h
    rcases hm : matched d root rest with e | ⟨negated', paths'⟩
    · rw [hf, hm] at h; cases h
    rw [hf, hm] at h
    cases h
    refine ⟨found, paths', fun hbang => ?_, rfl, rfl, rfl⟩
    obtain ⟨r, hr⟩ := List.head?_eq_some_iff.1 hbang
    exact hno r hr

theorem mem_matched {root : Path} {patterns : List String} {negated : List Glob.Pattern}
    {paths : List Path} (h : matched d root patterns = .ok (negated, paths)) {p : Path} (hp : p ∈ paths) :
    ∃ text ∈ patterns, text.toList.head? ≠ some '!' ∧ ∃ found,
      Glob.expand d Glob.levels (Glob.literal root.text ++ "/" ++ bareText text) = .ok found ∧
        p ∈ found := by
  induction patterns generalizing negated paths with
  | nil => cases h; cases hp
  | cons text rest ih =>
    have hrest : ∀ {neg ps}, matched d root rest = .ok (neg, ps) → p ∈ ps → ∃ t ∈ text :: rest,
        t.toList.head? ≠ some '!' ∧ ∃ found,
          Glob.expand d Glob.levels (Glob.literal root.text ++ "/" ++ bareText t) = .ok found ∧
            p ∈ found := by
      intro neg ps hm hps
      obtain ⟨t, ht, hfound⟩ := ih hm hps
      exact ⟨t, List.mem_cons_of_mem _ ht, hfound⟩
    rcases matched_cons h with ⟨_, _, _, -, -, hm, -⟩ | ⟨found, paths', hbang, hf, hm, rfl⟩
    · -- a pattern that leaves paths out adds none
      exact hrest hm hp
    · rcases mem_foldl_insertOrdered hp with hp | hp
      · exact ⟨text, List.mem_cons_self, hbang, found, hf, hp⟩
      · exact hrest hm hp

section
variable (hn : d.WellNamed) {names : List String} (hnames : ∀ n ∈ names, IsName n)
include hn hnames

theorem Strays.up_mem_below {m : Manifest} {path : Path} (hpath : path.isAbsolute = true)
    (h : Strays d (ofLocation names) m path) : ".." ∈ path.below (ofLocation names) := by
  obtain ⟨_, _, _, start, -, -, -, -, hfound, hstart, hup, hbelow⟩ := h
  obtain ⟨habs, -, -⟩ := Glob.mem_expand hn hnames hfound hstart
  obtain ⟨rest, hrest⟩ := (startsWith_iff hpath habs).1 hbelow
  unfold Path.below at hup ⊢
  rw [← hrest, List.drop_append]
  exact List.mem_append_left _ hup

/-- Where a path starts that a manifest lists. -/
theorem below_of_starts {m : Manifest} {negated : List Glob.Pattern} {start : Path}
    (h : Starts d (ofLocation names) m negated start) :
    start.isAbsolute = true ∧ start.startsWith (ofLocation names) = true ∧
      (".." ∈ start.below (ofLocation names) → ∀ path : Path, path.startsWith start = true →
        Strays d (ofLocation names) m path) := by
  unfold Starts at h
  split at h
  · rename_i patterns hfiles
    obtain ⟨paths, hmatched, hstart⟩ := h
    obtain ⟨text, htext, hbang, found, hfound, hmem⟩ := mem_matched hmatched hstart
    obtain ⟨habs, hbelow, hclimbs⟩ := Glob.mem_expand hn hnames hfound hmem
    exact ⟨habs, hbelow rfl, fun hup path hpath =>
      ⟨patterns, text, found, start, hfiles, htext, hbang, hclimbs hup, hfound, hmem, hup, hpath⟩⟩
  · obtain ⟨-, rfl⟩ := h
    have habs := isAbsolute_ofLocation names
    refine ⟨habs, (startsWith_iff habs habs).2 List.prefix_rfl, fun hup => ?_⟩
    unfold Path.below at hup
    rw [List.drop_length] at hup
    cases hup

/-- Where the paths are that a manifest lists. -/
theorem below_of_lists (hd : d.Sound) {m : Manifest} {type : EntryType} {path : Path}
    (h : Lists d (ofLocation names) m type path) :
    path.isAbsolute = true ∧ path.startsWith (ofLocation names) = true ∧
      (".." ∈ path.below (ofLocation names) → Strays d (ofLocation names) m path) := by
  obtain ⟨negated, start, entries, hstart, htree, hmem, -⟩ := h
  obtain ⟨inner, rfl, hinner, -⟩ := mem_tree hd hn htree hmem
  obtain ⟨habs, hroot, hstrays⟩ := below_of_starts hn hnames hstart
  have hpieces : ∀ n ∈ inner, IsPiece n := fun n hm => (hinner n hm).toIsPiece
  have habs' := isAbsolute_extend start inner habs
  have hmoves := moves_extend start hpieces
  have hbelow : (start.extend inner).startsWith start = true :=
    (startsWith_iff habs' habs).2 (hmoves ▸ List.prefix_append _ _)
  have hroot' := (startsWith_iff habs (isAbsolute_ofLocation names)).1 hroot
  refine ⟨habs', (startsWith_iff habs' (isAbsolute_ofLocation names)).2 ?_, fun hup => ?_⟩
  · rw [hmoves]
    exact hroot'.trans (List.prefix_append _ _)
  · refine hstrays ?_ _ hbelow
    unfold Path.below at hup ⊢
    rw [hmoves, List.drop_append_of_le_length hroot'.length_le] at hup
    exact (List.mem_append.1 hup).resolve_right fun h => (hinner _ h).ne_up rfl

end

/-- What a module root holds or lists lies below it. -/
theorem below_of_contributed {r : Resolver} (hr : project.resolver = r.resolve) (hd : d.Sound)
    (hn : d.WellNamed) {names : List String} (hnames : ∀ n ∈ names, IsName n) {m : Manifest}
    {path : Path}
    (h : Holds project d known (ofLocation names) m path ∨ Lists d (ofLocation names) m .link path) :
    path.isAbsolute = true ∧ path.startsWith (ofLocation names) = true ∧
      (".." ∈ path.below (ofLocation names) → Strays d (ofLocation names) m path) := by
  have habs := isAbsolute_ofLocation names
  rcases h with (h | _ | ⟨hmain, hinside⟩) | h
  · exact below_of_lists hn hnames hd h
  · have hname : IsPiece manifestName := ⟨by decide, by decide, by decide⟩
    have habs' := isAbsolute_join_name _ manifestName habs
    refine ⟨habs', (startsWith_iff habs' habs).2 ?_, fun hup => ?_⟩
    · rw [moves_join _ hname]
      exact List.prefix_append _ _
    · unfold Path.below at hup
      rw [moves_join _ hname, List.drop_left] at hup
      exact absurd (List.mem_singleton.1 hup) (by decide)
  · -- the main file is named by its canonical path
    have hfound := Project.resolver_of_resolve hmain
    rw [hr] at hfound
    have hstored := r.mem_stored_of_resolve hn.spelled hfound
    obtain ⟨e, he, rfl⟩ := List.mem_map.1 hstored
    have habs' := isAbsolute_ofLocation e.1
    refine ⟨habs', hinside, fun hup => absurd ?_ (up_notMem_ofLocation fun n hm =>
      (hn.stored e he n hm).toIsName)⟩
    exact (up_mem_below habs' habs hinside (up_notMem_ofLocation hnames)).1 hup
  · exact below_of_lists hn hnames hd h

theorem contained {r : Resolver} (hr : project.resolver = r.resolve) (hd : d.Sound)
    (hn : d.WellNamed) {ws : List String} (hws : ∀ n ∈ ws, IsName n) (hroot : project.root = ofLocation ws)
    {names : List String} (hnames : ∀ n ∈ names, IsName n) {m : Manifest} {path : Path} {n : String}
    (h : Holds project d known (ofLocation names) m path ∨ Lists d (ofLocation names) m .link path)
    (hname : project.relative path = .ok n) : Contained project d (ofLocation names) m path n := by
  obtain ⟨habs, hinside, hstrays⟩ := below_of_contributed hr hd hn hnames h
  have hws' := isAbsolute_ofLocation ws
  unfold Project.relative at hname
  rw [hroot, nameBelow_ok habs hws'] at hname
  obtain ⟨hworkspace, rfl⟩ := hname
  -- neither root has a step up, so the steps up below each of them are those of the whole path
  have hup := up_mem_below habs (isAbsolute_ofLocation names) hinside (up_notMem_ofLocation hnames)
  have hupws := up_mem_below habs hws' hworkspace (up_notMem_ofLocation hws)
  have hbelow : ".." ∈ path.below (ofLocation names) ↔ Strays d (ofLocation names) m path :=
    ⟨hstrays, Strays.up_mem_below hn hnames habs⟩
  refine ⟨hinside, hroot ▸ hworkspace, by rw [hroot], ?_, hbelow⟩
  rw [moves_joined fun s hs => isPiece_of_mem_below hs, hupws, ← hup, hbelow]

/-- Where a project looks for files on the disk, the files of an expansion are those that the visited roots
hold, and its links are those that these roots list and those through which they were come to. Whatever file or
link a root brings in is spelled below the root and below the workspace, and its name has a step up exactly if
it strays: a pattern of the manifest, with a component that matches the parent entry of a directory, leads
there. -/
theorem expandWithin_contained {r : Resolver} (hr : project.resolver = r.resolve) (hd : d.Sound)
    (hn : d.WellNamed) {ws : List String} (hws : ∀ n ∈ ws, IsName n) (hroot : project.root = ofLocation ws)
    {settings : ExpansionSettings} (base : Path) (requests : List (String × List String)) {levels : Nat}
    {ms : Manifests} {x : Expansion}
    (h : (expandWithin project settings d (throw (.file .other)) levels base requests).run.run
      ⟨known, .empty⟩ = (.ok (), ⟨ms, x⟩)) :
    (∀ n, n ∈ x.files ↔ ∃ root ∈ x.visited, HoldsName project d known root n) ∧
    (∃ visits : List Visit, visits.map (·.root) = x.visited ∧
      ∀ n, n ∈ x.extras ↔ (∃ root ∈ x.visited, ListsLink project d known root n) ∨
        ∃ v ∈ visits, Placed project d base v n) ∧
    ∀ root ∈ x.visited, ∀ m path n, manifestAt d known root = .ok (some m) →
      Holds project d known root m path ∨ Lists d root m .link path → project.relative path = .ok n →
      Contained project d root m path n := by
  obtain ⟨-, ⟨visits, hw⟩, hdealt⟩ :=
    walked_expandWithin (hr ▸ r.fixed_resolve hn.spelled) (proper_start known) h
  have hexact := hw.exact hdealt
  have hvisited : visits.map (·.root) = x.visited := hw.visited.symm
  refine ⟨fun n => ?_, ⟨visits, hvisited, fun n => ?_⟩, fun root hv m path n _ hpath hname => ?_⟩
  · simp only [hexact.files n, hexact.visited]
  · rw [hw.extras, ← hvisited]
    show n ∈ [] ∨ _ ↔ _
    simp only [List.not_mem_nil, false_or, List.mem_map, exists_exists_and_eq_and, ← exists_or,
      ← and_or_left]
  · obtain ⟨names, hnames, rfl⟩ := hn.of_mem_directories
      (mem_directories_of_expandable hr hn.spelled ((hexact.visited root).1 hv))
    exact contained hr hd hn hws hroot (fun m hm => (hnames m hm).toIsName) hpath hname

/-! ### A pattern that leads up -/

/-- A package whose manifest lists a file of the project. -/
def straying : Disk where
  entries := [
    (["node_modules"], .directory),
    (["node_modules", "x"], .directory),
    (["node_modules", "x", "index.js"], .file (.text "")),
    (["node_modules", "x", "package.json"],
      .file (.text "\x7b\"name\":\"x\",\"files\":[\"index.js\",\"../../secret.txt\"]\x7d")),
    (["secret.txt"], .file (.text "s"))]
  here := []

theorem sound_straying : straying.Sound := ⟨by decide, by decide⟩

theorem wellNamed_straying : straying.WellNamed := ⟨by decide, by decide, by decide⟩

/-- The file of the project is brought in, since a pattern strays. -/
theorem expandWithin_contained_straying :
    ∃ ms x, (expandAll ringProject default straying ⟨"/"⟩ [("x", [])]).run.run ⟨.empty, .empty⟩ =
        (.ok (), ⟨ms, x⟩) ∧
      x.files = ["node_modules/x/../../secret.txt", "node_modules/x/index.js",
        "node_modules/x/package.json"] ∧
      ∃ root ∈ x.visited, ∃ m path, manifestAt straying .empty root = .ok (some m) ∧
        ringProject.relative path = .ok "node_modules/x/../../secret.txt" ∧ Strays straying root m path := by
  have hrun : shown (expandAll ringProject default straying ⟨"/"⟩ [("x", [])]) ⟨.empty, .empty⟩
      (fun _ st => st.expansion.files) = some ["node_modules/x/../../secret.txt",
        "node_modules/x/index.js", "node_modules/x/package.json"] := by decide +kernel
  obtain ⟨_, ⟨ms, x⟩, hx, hfiles⟩ := exists_gives hrun
  have htop : ringProject.root = ofLocation [] := rfl
  obtain ⟨hheld, -, hcontained⟩ := expandWithin_contained rfl sound_straying wellNamed_straying
    (fun _ h => absurd h List.not_mem_nil) htop ⟨"/"⟩ _ hx
  obtain ⟨root, hroot, m, path, hm, hpath, hname⟩ :=
    (hheld "node_modules/x/../../secret.txt").1 (by rw [show x.files = _ from hfiles]; simp)
  have hup : ".." ∈ (⟨"node_modules/x/../../secret.txt"⟩ : Path).moves := by decide
  exact ⟨ms, x, hx, hfiles, root, hroot, m, path, hm, hname,
    (hcontained root hroot m path _ hm (.inl hpath) hname).up.1 hup⟩

end Expand
end Stowage
