/-
What the negated patterns of a manifest leave out. Whatever is walked below a match is compared with them on its own, as
it is spelled below the module root: a directory that one of them matches is walked all the same. So what lies below it
depends on the pattern. One that ends with a deep wildcard matches everything below what it matches; one without deep
wildcards matches only paths of one depth, so it leaves out nothing below.
-/
import Stowage.Proofs.Disk.Direct
import Stowage.Proofs.Expansion.Contained
import Stowage.Proofs.Glob.Matching

open Stowage.Path

namespace Stowage.Expand

open Manifests Disk

variable {project : Project} {d : Disk} {known : Manifests}

/-! ## What the patterns of a manifest bring in -/

/-- The negated patterns of a manifest. -/
def Negates (patterns : List String) (q : Glob.Pattern) : Prop :=
  ∃ text ∈ patterns, ∃ r, text.toList = '!' :: r ∧ Workspace.compilePattern (bareText (String.ofList r)) = .ok q

/-- The spelling of a path below a root. -/
def inside (root path : Path) : String := ((path.stripPrefix? root).getD path).text

/-- The patterns of a manifest lead to a path of the given type: to a match, or to what is stored below one. -/
def Reaches (d : Disk) (root : Path) (m : Manifest) (type : EntryType) (path : Path) : Prop :=
  ∃ negated start, Starts d root m negated start ∧ d.WalkedTo start type path

/-- A path is left out for itself: since it declares types, or by a negated pattern. -/
def IsExcepted (root : Path) (patterns : List String) (path : Path) : Prop :=
  Package.isDeclaration path = true ∨ ∃ q, Negates patterns q ∧ q.accepts Glob.levels (inside root path) = true

theorem mem_negated {root : Path} {patterns : List String} {negated : List Glob.Pattern} {paths : List Path}
    (h : matched d root patterns = .ok (negated, paths)) (q : Glob.Pattern) : q ∈ negated ↔ Negates patterns q := by
  induction patterns generalizing negated paths with
  | nil =>
    cases h
    exact iff_of_false List.not_mem_nil fun ⟨_, htext, _⟩ => List.not_mem_nil htext
  | cons text rest ih =>
    unfold Negates
    rw [List.exists_mem_cons_iff]
    rcases matched_cons h with ⟨r, q', negated', htext, hq', hm, rfl⟩ | ⟨_, _, hbang, -, hm, -⟩
    · rw [List.mem_cons, ih hm]
      refine or_congr ⟨?_, ?_⟩ Iff.rfl
      · rintro rfl
        exact ⟨r, htext, hq'⟩
      · rintro ⟨r', htext', hq⟩
        cases htext.symm.trans htext'
        cases hq'.symm.trans hq
        rfl
    · rw [ih hm]
      refine (or_iff_right ?_).symm
      rintro ⟨r, htext, -⟩
      exact hbang (by rw [htext]; rfl)

theorem isOmitted_eq_false {root path : Path} {negated : List Glob.Pattern} :
    isOmitted root negated path = false ↔ Package.isDeclaration path = false ∧
      ∀ q ∈ negated, q.accepts Glob.levels (inside root path) = false := by
  unfold isOmitted inside
  rw [Bool.or_eq_false_iff, List.any_eq_false]
  simp only [Bool.not_eq_true]

theorem not_isExcepted_iff {root path : Path} {patterns : List String} : ¬ IsExcepted root patterns path ↔
    Package.isDeclaration path = false ∧
      ∀ q, Negates patterns q → q.accepts Glob.levels (inside root path) = false := by
  unfold IsExcepted
  simp only [not_or, not_exists, not_and, Bool.not_eq_true]

/-- A manifest with patterns lists what these lead to and is not left out for itself. -/
theorem lists_iff (hn : d.WellNamed) {root : Path} {m : Manifest} {patterns : List String}
    (hfiles : m.files = some patterns) {type : EntryType} {path : Path} :
    Lists d root m type path ↔ Reaches d root m type path ∧ ¬ IsExcepted root patterns path := by
  have hnegates : ∀ {negated start}, Starts d root m negated start → ∀ q, q ∈ negated ↔ Negates patterns q := by
    intro negated start hstart
    unfold Starts at hstart
    rw [hfiles] at hstart
    obtain ⟨paths, hm, -⟩ := hstart
    exact mem_negated hm
  rw [not_isExcepted_iff]
  constructor
  · rintro ⟨negated, start, tree, hstart, htree, hmem, hkept⟩
    obtain ⟨hdecl, hneg⟩ := isOmitted_eq_false.1 hkept
    exact ⟨⟨negated, start, hstart, (walkedTo_iff hn).2 ⟨tree, htree, hmem⟩⟩, hdecl,
      fun q hq => hneg q ((hnegates hstart q).2 hq)⟩
  · rintro ⟨⟨negated, start, hstart, hwalk⟩, hdecl, hneg⟩
    obtain ⟨tree, htree, hmem⟩ := (walkedTo_iff hn).1 hwalk
    exact ⟨negated, start, tree, hstart, htree, hmem,
      isOmitted_eq_false.2 ⟨hdecl, fun q hq => hneg q ((hnegates hstart q).1 hq)⟩⟩

/-! ## Below a directory that is left out -/

/-- What the patterns of a manifest bring into an expansion `x`. A directory of the module is told by its names `dir`
below the module root, and what is in it by the names `rest` below these. -/
structure Sifted (project : Project) (d : Disk) (top : List String) (m : Manifest) (patterns : List String)
    (x : Expansion) : Prop where
  listed : ∀ type path, Lists d (ofLocation top) m type path ↔
    Reaches d (ofLocation top) m type path ∧ ¬ IsExcepted (ofLocation top) patterns path
  files : ∀ path, Lists d (ofLocation top) m .file path → ∃ n ∈ x.files, project.relative path = .ok n
  extras : ∀ path, Lists d (ofLocation top) m .link path → ∃ n ∈ x.extras, project.relative path = .ok n
  /-- A deep wildcard at the end of a negated pattern leaves out all below what the pattern matches. -/
  deep : ∀ q, Negates patterns q → q.EndsDeep → ∀ dir rest, (∀ n ∈ dir ++ rest, IsStorable n) →
    q.accepts Glob.levels (joined dir) = true → ∀ type,
      ¬ Lists d (ofLocation top) m type (ofLocation (top ++ (dir ++ rest)))
  /-- A negated pattern without deep wildcards leaves out nothing below a directory that it matches. -/
  shallow : ∀ q, Negates patterns q → q.IsShallow → ∀ dir rest, dir ≠ [] → rest ≠ [] →
    (∀ n ∈ dir ++ rest, IsStorable n) → q.accepts Glob.levels (joined dir) = true → ∀ type,
      Lists d (ofLocation top) m type (ofLocation (top ++ (dir ++ rest))) ↔
        Reaches d (ofLocation top) m type (ofLocation (top ++ (dir ++ rest))) ∧
        Package.isDeclaration (ofLocation (top ++ (dir ++ rest))) = false ∧
        ∀ q', Negates patterns q' → q' ≠ q → q'.accepts Glob.levels (joined (dir ++ rest)) = false

/-- Where a project looks for files on the disk, the patterns of a visited module bring in just what they lead to and
what is not left out for itself. A directory that a negated pattern matches is left out for itself only: what lies
below it is left out with it if the pattern ends with a deep wildcard, and is brought in if it has none, unless it
declares types or another pattern matches it. -/
theorem expandWithin_sifted {r : Resolver} (hr : project.resolver = r.resolve) (hn : d.WellNamed)
    {settings : ExpansionSettings} (base : Path) (requests : List (String × List String)) {levels : Nat}
    {ms : Manifests} {x : Expansion}
    (h : (expandWithin project settings d (throw (.file .other)) levels base requests).run.run
      ⟨known, .empty⟩ = (.ok (), ⟨ms, x⟩)) :
    ∀ root ∈ x.visited, ∀ m patterns, manifestAt d known root = .ok (some m) → m.files = some patterns →
      ∃ top, (∀ n ∈ top, IsStorable n) ∧ root = ofLocation top ∧ Sifted project d top m patterns x := by
  intro root hv m patterns hm hfiles
  obtain ⟨-, ⟨visits, hw⟩, hdealt⟩ :=
    walked_expandWithin (hr ▸ r.fixed_resolve hn.spelled) (proper_start known) h
  obtain ⟨top, htop, rfl⟩ := hn.of_mem_directories
    (mem_directories_of_expandable hr hn.spelled (((hw.exact hdealt).visited root).1 hv))
  obtain ⟨v, hvisit, hroot⟩ := List.mem_map.1 (hw.visited ▸ hv)
  have hspelled : ∀ names, (∀ n ∈ names, IsStorable n) →
      inside (ofLocation top) (ofLocation (top ++ names)) = joined names := by
    intro names hnames
    unfold inside
    rw [stripPrefix_ofLocation fun n hmem => ((List.mem_append.1 hmem).elim (htop n) (hnames n)).toIsPiece]
    rfl
  refine ⟨top, htop, rfl, fun type path => lists_iff hn hfiles, fun path hlist => ?_, fun path hlist => ?_, ?_, ?_⟩
  · obtain ⟨n, hname⟩ := hw.named v hvisit m path (hroot ▸ hm) (.inl (.listed (hroot ▸ hlist)))
    exact ⟨n, (hw.files n).2 (.inr ⟨v, hvisit, m, path, hroot ▸ hm, .listed (hroot ▸ hlist), hname⟩), hname⟩
  · obtain ⟨n, hname⟩ := hw.named v hvisit m path (hroot ▸ hm) (.inr (hroot ▸ hlist))
    exact ⟨n, (hw.extras n).2 (.inr ⟨v, hvisit, .inl ⟨m, path, hroot ▸ hm, hroot ▸ hlist, hname⟩⟩), hname⟩
  · intro q hq hdeep dir rest hnames hmatch type hlist
    apply ((lists_iff hn hfiles).1 hlist).2
    refine .inr ⟨q, hq, ?_⟩
    rw [hspelled _ hnames]
    exact hdeep.accepts_append hmatch
  · intro q hq hshallow dir rest hdir hrest hnames hmatch type
    rw [lists_iff hn hfiles, not_isExcepted_iff, hspelled _ hnames]
    refine and_congr_right fun _ => and_congr_right fun _ => ?_
    constructor
    · exact fun hall q' hq' _ => hall q' hq'
    · intro hall q' hq'
      by_cases hsame : q' = q
      · rw [hsame]
        exact hshallow.not_accepts_append hdir hrest hmatch
      · exact hall q' hq' hsame

/-! ### A directory that is left out by its name -/

/-- A package whose manifest lists a directory and leaves out one in it. -/
def veiled : Disk where
  entries := [
    (["node_modules"], .directory),
    (["node_modules", "x"], .directory),
    (["node_modules", "x", "index.js"], .file (.text "")),
    (["node_modules", "x", "lib"], .directory),
    (["node_modules", "x", "lib", "a.js"], .file (.text "")),
    (["node_modules", "x", "lib", "private"], .directory),
    (["node_modules", "x", "lib", "private", "x.js"], .file (.text "")),
    (["node_modules", "x", "package.json"],
      .file (.text "\x7b\"name\":\"x\",\"files\":[\"lib\",\"!lib/private\"]\x7d"))]
  here := []

theorem wellNamed_veiled : veiled.WellNamed := ⟨by decide, by decide, by decide⟩

theorem manifestAt_veiled : ∃ m, manifestAt veiled .empty (ofLocation ["node_modules", "x"]) = .ok (some m) ∧
    m.files = some ["lib", "!lib/private"] := by
  have hfiles : (manifestAt veiled .empty (ofLocation ["node_modules", "x"])).toOption.join.map (·.files) =
      some (some ["lib", "!lib/private"]) := by decide +kernel
  obtain ⟨m, hm, hfiles⟩ := Option.map_eq_some_iff.1 hfiles
  exact ⟨m, ok_of_toOption (Option.join_eq_some_iff.1 hm), hfiles⟩

/-- The file in the directory is brought in. -/
theorem expandWithin_sifted_veiled :
    ∃ ms x m q, (expandAll ringProject default veiled ⟨"/"⟩ [("x", [])]).run.run ⟨.empty, .empty⟩ =
        (.ok (), ⟨ms, x⟩) ∧
      x.files = ["node_modules/x/index.js", "node_modules/x/lib/a.js", "node_modules/x/lib/private/x.js",
        "node_modules/x/package.json"] ∧
      Sifted ringProject veiled ["node_modules", "x"] m ["lib", "!lib/private"] x ∧
      Negates ["lib", "!lib/private"] q ∧ q.IsShallow ∧ q.accepts Glob.levels (joined ["lib", "private"]) = true := by
  have hrun : shown (expandAll ringProject default veiled ⟨"/"⟩ [("x", [])]) ⟨.empty, .empty⟩
      (fun _ st => (st.expansion.files, st.expansion.visited)) = some (["node_modules/x/index.js",
        "node_modules/x/lib/a.js", "node_modules/x/lib/private/x.js", "node_modules/x/package.json"],
        [ofLocation ["node_modules", "x"]]) := by decide +kernel
  obtain ⟨_, ⟨ms, x⟩, hx, hshown⟩ := exists_gives hrun
  obtain ⟨hfiles, hvisited⟩ := Prod.mk.inj hshown
  obtain ⟨m, hm, hpatterns⟩ := manifestAt_veiled
  have hroot : ofLocation ["node_modules", "x"] ∈ x.visited := by
    rw [show x.visited = _ from hvisited]
    exact List.mem_singleton_self _
  obtain ⟨top, hnames, htop, hsifted⟩ := expandWithin_sifted (r := Resolver.standard) rfl wellNamed_veiled ⟨"/"⟩
    [("x", [])] hx _ hroot m _ hm hpatterns
  have hsame : top = ["node_modules", "x"] := by
    rw [← moves_ofLocation fun n hn => (hnames n hn).toIsPiece, ← htop]
    decide +kernel
  subst hsame
  have hcompiled : (Workspace.compilePattern (bareText (String.ofList "lib/private".toList))).toOption =
      some (Glob.exactly "lib/private") := by decide +kernel
  exact ⟨ms, x, m, Glob.exactly "lib/private", hx, hfiles, hsifted,
    ⟨"!lib/private", by decide, "lib/private".toList, by decide, ok_of_toOption hcompiled⟩,
    by unfold Glob.Pattern.IsShallow; decide, by decide +kernel⟩

end Stowage.Expand
