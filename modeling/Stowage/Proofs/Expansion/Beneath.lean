/-
Files that an expansion brings in below links. Names are compared by their spelling, so a file lies below a link if
its name goes on from that of the link. A tree of files follows no link below its start, and a module without `files`
patterns starts at its root, which is named without links. But a pattern may match a link to a directory, or a path
that goes on beyond one, and then the files of that directory are brought in under the name of the link.
-/
import Stowage.Proofs.Disk.Direct
import Stowage.Proofs.Expansion.Contained

open Stowage.Path

namespace Stowage.Expand

open Manifests Disk

variable (project : Project) (d : Disk) (known : Manifests)

/-- What is called `n` lies below what is called `m`. -/
def Beneath (n m : String) : Prop := (⟨n⟩ : Path).startsWith ⟨m⟩ = true ∧ n ≠ m

/-- A pattern that the manifest lists matches a path that is a link or goes on beyond it, and a file is listed from
there. -/
def Through (root : Path) (m : Manifest) (link path : Path) : Prop :=
  ∃ patterns negated found start tree, m.files = some patterns ∧ matched d root patterns = .ok (negated, found) ∧
    start ∈ found ∧ start.startsWith link = true ∧ d.tree start = .ok tree ∧ (path, .file) ∈ tree ∧
    isOmitted root negated path = false

variable {project d known}

/-! ## Names below others -/

section
variable (hroot : project.root.isAbsolute = true) {p q : Path} {n m : String}
include hroot

/-- What has a name in the workspace is spelled from the top. -/
theorem isAbsolute_of_relative (h : project.relative p = .ok n) : p.isAbsolute = true := by
  obtain ⟨hbelow, -⟩ := nameBelow_eq_ok.1 h
  obtain ⟨rest, hrest⟩ := List.isPrefixOf_iff_prefix.1 hbelow
  rw [isAbsolute_iff, ← hrest, components_of_absolute hroot]
  rfl

/-- A name lies below another one if the path goes on from the other path. -/
theorem beneath_iff (hp : project.relative p = .ok n) (hq : project.relative q = .ok m) :
    Beneath n m ↔ ∃ rest, rest ≠ [] ∧ p.moves = q.moves ++ rest := by
  have habs := isAbsolute_of_relative hroot hp
  have habs' := isAbsolute_of_relative hroot hq
  obtain ⟨hbelow, rfl⟩ := (nameBelow_ok habs hroot).1 hp
  obtain ⟨hbelow', rfl⟩ := (nameBelow_ok habs' hroot).1 hq
  have hpieces : ∀ s ∈ p.below project.root, IsPiece s := fun s => isPiece_of_mem_below
  have hpieces' : ∀ s ∈ q.below project.root, IsPiece s := fun s => isPiece_of_mem_below
  unfold Beneath startsWith
  rw [components_joined hpieces, components_joined hpieces', List.isPrefixOf_iff_prefix,
    List.prefix_map_iff_of_injective Component.ofMove_injective, moves_eq_of_startsWith habs hroot hbelow,
    moves_eq_of_startsWith habs' hroot hbelow']
  constructor
  · rintro ⟨⟨rest, hrest⟩, hne⟩
    refine ⟨rest, ?_, by rw [← hrest, List.append_assoc]⟩
    rintro rfl
    exact hne (congrArg joined (hrest.symm.trans (List.append_nil _)))
  · rintro ⟨rest, hne, hrest⟩
    rw [List.append_assoc, List.append_right_inj] at hrest
    refine ⟨⟨rest, hrest.symm⟩, fun heq => hne ?_⟩
    have hsame := joined_injective hpieces hpieces' heq
    rw [hsame] at hrest
    exact List.self_eq_append_right.1 hrest

end

/-! ## What an expansion holds below links -/

section
variable {r : Resolver} (hr : project.resolver = r.resolve) (hd : d.Sound) (hn : d.WellNamed)
include hr hd hn

/-- A module is visited under the names where its root is stored. -/
theorem entry?_of_expandable {settings : ExpansionSettings} {base : Path} {requested : List String} {root : Path}
    (h : Expandable project settings d known base requested root) :
    ∃ names e, root = ofLocation names ∧ d.entry? names = some e ∧ ∀ t, e ≠ .link t := by
  obtain ⟨name, needing, hlead⟩ : ∃ name needing, LeadsTo project settings d known base name needing root := by
    cases h with
    | requested _ h => exact ⟨_, _, h⟩
    | needed _ _ h => exact ⟨_, _, h⟩
  obtain ⟨t, q, hq, hmem⟩ := Project.canonicalize_of_packageRoot hr hn.spelled hlead.2
  obtain ⟨loc, e, rfl, he, hnolink⟩ := entry?_of_canonicalize hd hq
  obtain ⟨upper, hupper, rfl⟩ := mem_ancestors_ofLocation (fun n hm => (hn.storable he n hm).toIsPiece) hmem
  obtain ⟨e', he', hno⟩ := hd.entry?_of_prefix hupper he hnolink
  exact ⟨upper, e', rfl, he', hno⟩

/-- What a root holds below a link is found through that link. -/
theorem through_of_holds {names : List String} {e : Entry} (he : d.entry? names = some e) (hno : ∀ t, e ≠ .link t)
    {m : Manifest} {path link : Path} (h : Holds project d known (ofLocation names) m path)
    (habs : link.isAbsolute = true) (hlink : d.typeOf link = .ok .link) {rest : List String} (hne : rest ≠ [])
    (hmoves : path.moves = link.moves ++ rest) : Through d (ofLocation names) m link path := by
  have hstored := hn.storable he
  have hroot : (ofLocation names).moves = names := moves_ofLocation fun n hm => (hstored n hm).toIsPiece
  have hfree := not_prefix_of_stored hd hn habs hlink he hno
  rcases h with ⟨negated, start, tree, hstart, htree, hmem, hkept⟩ | _ | ⟨hmain, -⟩
  · obtain ⟨habs', -, -⟩ := below_of_starts hn (fun n hm => (hstored n hm).toIsName) hstart
    have hprefix := prefix_of_mem_tree hd hn habs hlink habs' htree hmem hne hmoves
    unfold Starts at hstart
    split at hstart
    · rename_i patterns hfiles
      obtain ⟨found, hmatched, hfound⟩ := hstart
      exact ⟨patterns, negated, found, start, tree, hfiles, hmatched, hfound, (startsWith_iff habs' habs).2 hprefix,
        htree, hmem, hkept⟩
    · obtain ⟨-, rfl⟩ := hstart
      exact absurd (hroot ▸ hprefix) hfree
  · -- above the manifest there is the root
    rw [moves_join _ ⟨by decide, by decide, by decide⟩, hroot] at hmoves
    obtain ⟨before, last, rfl⟩ := List.eq_nil_or_concat' rest |>.resolve_left hne
    rw [← List.append_assoc] at hmoves
    exact absurd ⟨before, (List.append_inj' hmoves rfl).1.symm⟩ hfree
  · -- the main file is named where it is stored
    have hfound := Project.resolver_of_resolve hmain
    rw [hr] at hfound
    obtain ⟨q, hq⟩ := r.canonicalize_of_resolve hfound
    obtain ⟨loc, e', rfl, he', hnolink⟩ := entry?_of_canonicalize hd hq
    rw [moves_ofLocation fun n hm => (hn.storable he' n hm).toIsPiece] at hmoves
    exact absurd ⟨rest, hmoves.symm⟩ (not_prefix_of_stored hd hn habs hlink he' hnolink)

omit hr in
/-- What is found through a link is called by a name below it. -/
theorem beneath_of_through (hroot : project.root.isAbsolute = true) {root path link : Path} {m : Manifest} {n l : String}
    (h : Through d root m link path) (hlink : d.isLink link = true) (hpath : project.relative path = .ok n)
    (hname : project.relative link = .ok l) : Beneath n l := by
  obtain ⟨_, _, _, start, tree, -, -, -, hstart, htree, hmem, -⟩ := h
  have habs := isAbsolute_of_relative hroot hpath
  have habs' := isAbsolute_of_relative hroot hname
  obtain ⟨inner, rfl, hinner, htype⟩ := mem_tree hd hn htree hmem
  have hpieces : ∀ n ∈ inner, IsPiece n := fun n hm => (hinner n hm).toIsPiece
  have hstart' : start.isAbsolute = true := (isAbsolute_extend_eq start hpieces).symm.trans habs
  obtain ⟨above, habove⟩ := (startsWith_iff hstart' habs').1 hstart
  refine (beneath_iff hroot hpath hname).2 ⟨above ++ inner, fun hnil => ?_, ?_⟩
  · -- the file is not the link itself
    have hsame : (start.extend inner).moves = link.moves := by
      rw [moves_extend start hpieces, ← habove, List.append_assoc, hnil, List.append_nil]
    have htype' := ok_of_toOption (of_decide_eq_true hlink)
    have heq := typeOf_of_moves (d := d) habs habs' hsame (tidy_of_typeOf htype nofun) (tidy_of_typeOf htype' nofun)
    rw [htype, htype'] at heq
    cases heq
  · rw [moves_extend start hpieces, ← habove, List.append_assoc]

omit hr in
/-- What is among the links of an expansion is a link. -/
theorem exists_link {settings : ExpansionSettings} {base : Path} {E : String → Option Path → Prop} {x : Expansion}
    {visits : List Visit} (hw : Walked project settings d known base E .empty x visits) {l : String}
    (h : l ∈ x.extras) : ∃ link, d.isLink link = true ∧ project.relative link = .ok l := by
  obtain ⟨v, -, ⟨m, path, -, ⟨negated, start, tree, -, htree, hmem, -⟩, hname⟩ | ⟨place, hplace, hname⟩⟩ :=
    ((hw.extras l).1 h).resolve_left List.not_mem_nil
  · obtain ⟨-, -, -, htype⟩ := mem_tree hd hn htree hmem
    refine ⟨path, ?_, hname⟩
    unfold isLink
    rw [htype]
    rfl
  · exact ⟨place, hplace.2, hname⟩

end

/-- Where a project looks for files on the disk, a file of an expansion lies below one of its links exactly if it
was found through that link: the manifest of a visited root has a pattern that matches the link, or a path beyond
it, and lists the file from there. So no file lies below a link if no link is matched and no match goes on beyond
one. -/
theorem expandWithin_beneath {r : Resolver} (hr : project.resolver = r.resolve) (hd : d.Sound)
    (hn : d.WellNamed) (hroot : project.root.isAbsolute = true)
    {settings : ExpansionSettings} (base : Path) (requests : List (String × List String)) {levels : Nat}
    {ms : Manifests} {x : Expansion}
    (h : (expandWithin project settings d (throw (.file .other)) levels base requests).run.run
      ⟨known, .empty⟩ = (.ok (), ⟨ms, x⟩)) :
    (∀ n ∈ x.files, ∀ l ∈ x.extras, Beneath n l ↔ ∃ root ∈ x.visited, ∃ m path link,
      manifestAt d known root = .ok (some m) ∧ Through d root m link path ∧ d.isLink link = true ∧
      project.relative path = .ok n ∧ project.relative link = .ok l) ∧
    ((∀ root ∈ x.visited, ∀ m, manifestAt d known root = .ok (some m) → ∀ negated start link,
        Starts d root m negated start → d.isLink link = true → start.startsWith link = false) →
      ∀ n ∈ x.files, ∀ l ∈ x.extras, ¬ Beneath n l) := by
  obtain ⟨-, ⟨visits, hw⟩, hdealt⟩ :=
    walked_expandWithin (hr ▸ r.fixed_resolve hn.spelled) (proper_start known) h
  have hexact := hw.exact hdealt
  have hthrough : ∀ n ∈ x.files, ∀ l ∈ x.extras, Beneath n l → ∃ root ∈ x.visited, ∃ m path link,
      manifestAt d known root = .ok (some m) ∧ Through d root m link path ∧ d.isLink link = true ∧
      project.relative path = .ok n ∧ project.relative link = .ok l := by
    intro n hfile l hextra hbelow
    obtain ⟨root, hvisited, m, path, hm, hholds, hpath⟩ := (hexact.files n).1 hfile
    obtain ⟨link, hlink, hname⟩ := exists_link hd hn hw hextra
    obtain ⟨rest, hne, hmoves⟩ := (beneath_iff hroot hpath hname).1 hbelow
    obtain ⟨names, e, rfl, he, hno⟩ := entry?_of_expandable hr hd hn hvisited
    have htype := ok_of_toOption (of_decide_eq_true hlink)
    exact ⟨_, (hexact.visited _).2 hvisited, m, path, link, hm, through_of_holds hr hd hn he hno hholds
      (isAbsolute_of_relative hroot hname) htype hne hmoves, hlink, hpath, hname⟩
  refine ⟨fun n hfile l hextra => ⟨hthrough n hfile l hextra, ?_⟩, fun hfree n hfile l hextra hbelow => ?_⟩
  · rintro ⟨root, -, m, path, link, -, hfound, hlink, hpath, hname⟩
    exact beneath_of_through hd hn hroot hfound hlink hpath hname
  · obtain ⟨root, hvisited, m, path, link, hm, ⟨patterns, negated, found, start, _, hfiles, hmatched, hstart, hbeyond, -⟩,
      hlink, -⟩ := hthrough n hfile l hextra hbelow
    have hstarts : Starts d root m negated start := by
      unfold Starts
      rw [hfiles]
      exact ⟨found, hmatched, hstart⟩
    rw [hfree root hvisited m hm negated start link hstarts hlink] at hbeyond
    cases hbeyond

/-! ### A pattern that matches a link -/

/-- A package whose manifest lists a link to one of its directories. -/
def linking : Disk where
  entries := [
    (["node_modules"], .directory),
    (["node_modules", "x"], .directory),
    (["node_modules", "x", "index.js"], .file (.text "")),
    (["node_modules", "x", "lib"], .link "real"),
    (["node_modules", "x", "package.json"], .file (.text "\x7b\"name\":\"x\",\"files\":[\"lib\"]\x7d")),
    (["node_modules", "x", "real"], .directory),
    (["node_modules", "x", "real", "a.js"], .file (.text ""))]
  here := []

theorem sound_linking : linking.Sound := ⟨by decide, by decide⟩

theorem wellNamed_linking : linking.WellNamed := ⟨by decide, by decide, by decide⟩

/-- The link and the file below it are both brought in, since a pattern matches the link. -/
theorem expandWithin_beneath_linking :
    ∃ ms x, (expandAll ringProject default linking ⟨"/"⟩ [("x", [])]).run.run ⟨.empty, .empty⟩ =
        (.ok (), ⟨ms, x⟩) ∧
      x.files = ["node_modules/x/index.js", "node_modules/x/lib/a.js", "node_modules/x/package.json"] ∧
      x.extras = ["node_modules/x/lib"] ∧ Beneath "node_modules/x/lib/a.js" "node_modules/x/lib" ∧
      ∃ root ∈ x.visited, ∃ m path link, manifestAt linking .empty root = .ok (some m) ∧
        Through linking root m link path ∧ linking.isLink link = true ∧
        ringProject.relative path = .ok "node_modules/x/lib/a.js" ∧
        ringProject.relative link = .ok "node_modules/x/lib" := by
  have hrun : shown (expandAll ringProject default linking ⟨"/"⟩ [("x", [])]) ⟨.empty, .empty⟩
      (fun _ st => (st.expansion.files, st.expansion.extras)) = some (["node_modules/x/index.js",
        "node_modules/x/lib/a.js", "node_modules/x/package.json"], ["node_modules/x/lib"]) := by decide +kernel
  obtain ⟨_, ⟨ms, x⟩, hx, hnames⟩ := exists_gives hrun
  obtain ⟨hfiles, hextras⟩ := Prod.mk.inj hnames
  have hbelow : Beneath "node_modules/x/lib/a.js" "node_modules/x/lib" := ⟨by decide +kernel, by decide⟩
  obtain ⟨hiff, -⟩ := expandWithin_beneath (r := Resolver.standard) rfl sound_linking wellNamed_linking rfl
    ⟨"/"⟩ [("x", [])] hx
  refine ⟨ms, x, hx, hfiles, hextras, hbelow, (hiff _ ?_ _ ?_).1 hbelow⟩
  · rw [show x.files = _ from hfiles]
    decide
  · rw [show x.extras = _ from hextras]
    decide

end Stowage.Expand
