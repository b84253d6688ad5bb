/-
The root of an installed package. A root is looked for from a file on upwards, first by the last part of the name: the
directory that the package is installed in has that name and a manifest, so the search ends there at the latest. Below
it the nearest directory that is called the same and has a manifest is taken for the root.
-/
import Stowage.Proofs.Package.Place
import Stowage.Proofs.Package.Straight
import Stowage.Proofs.Path.Extension

open Stowage.Path

namespace Stowage

namespace Package

open Manifests

/-! ## The two searches -/

section
variable (d : Disk) (known : Manifests)

/-- A manifest can be read in the directory and satisfies the test. -/
def describes (test : Manifest → Bool) (dir : Path) : Bool :=
  match manifestAt d known dir with
  | .ok (some m) => test m
  | _ => false

/-- The directory has the name and a manifest. -/
def isNamed (n : String) (dir : Path) : Bool := dir.fileName = some n && describes d known (fun _ => true) dir

variable {d known}

theorem isNamed_iff {n : String} {dir : Path} :
    isNamed d known n dir = true ↔ dir.fileName = some n ∧ ∃ m, manifestAt d known dir = .ok (some m) := by
  unfold isNamed describes
  rw [Bool.and_eq_true, decide_eq_true_eq]
  refine and_congr_right fun _ => ?_
  rcases manifestAt d known dir with e | _ | m <;> simp

theorem answer_isDescribed (test : Manifest → Bool) (dir : Path) :
    (isDescribed d test dir).answer known = .ok (describes d known test dir) := by
  unfold isDescribed describes manifestAt
  rw [Query.answer_bind, Query.answer_outcome]
  rcases (load d dir).answer known with e | _ | m <;> rfl

theorem answer_firstWith_find {test : Path → Query Bool} {f : Path → Bool} {dirs : List Path}
    (h : ∀ dir ∈ dirs, Steady d known (test dir) ∧ (test dir).answer known = .ok (f dir)) :
    (firstWith test dirs).answer known = .ok (dirs.find? f) := by
  induction dirs with
  | nil => rfl
  | cons dir rest ih =>
    obtain ⟨⟨hsteady, hanswer⟩, hrest⟩ := List.forall_mem_cons.1 h
    have hk : ∀ found, Steady d known (if found = true then pure (some dir) else firstWith test rest) := by
      intro found
      split
      · exact agree_pure rfl
      · exact (settled_firstWith fun x hx => (hrest x hx).1).steady
    unfold firstWith
    rw [hsteady.answer_bind hk, hanswer]
    rcases hf : f dir with _ | _
    · rw [List.find?_cons_of_neg (by simp [hf])]
      exact ih hrest
    · rw [List.find?_cons_of_pos hf]
      rfl

/-- The root that is found: the nearest directory with the last part of the name, else the nearest that declares it. -/
theorem answer_rootDirectory {name : String} {entry up : Path} (hup : up.IsPlain)
    (h : (if d.isDirectory entry then some entry else entry.parent?) = some up) :
    (rootDirectory d name entry).answer known = .ok
      ((up.ancestors.find? (isNamed d known (Specifier.basename name))).or
        (up.ancestors.find? (describes d known fun m => m.name.getD "" = name))) := by
  have hplain : ∀ dir ∈ up.ancestors, Loadable d dir := fun dir hdir => .inl (isPlain_of_mem_ancestors hup hdir)
  have hdeclared : ∀ dir ∈ up.ancestors, Steady d known (isDescribed d (fun m => m.name.getD "" = name) dir) ∧
      (isDescribed d (fun m => m.name.getD "" = name) dir).answer known =
        .ok (describes d known (fun m => m.name.getD "" = name) dir) := fun dir hdir =>
    ⟨steady_isDescribed (hplain dir hdir) fun _ _ => rfl, answer_isDescribed _ dir⟩
  have hcalled : ∀ dir ∈ up.ancestors, Steady d known (if dir.fileName = some (Specifier.basename name)
      then isDescribed d (fun _ => true) dir else return false) ∧
      (if dir.fileName = some (Specifier.basename name) then isDescribed d (fun _ => true) dir
        else return false : Query Bool).answer known = .ok (isNamed d known (Specifier.basename name) dir) := by
    intro dir hdir
    unfold isNamed
    split
    · rename_i hname
      rw [answer_isDescribed, decide_eq_true hname, Bool.true_and]
      exact ⟨steady_isDescribed (hplain dir hdir) fun _ _ => rfl, rfl⟩
    · rename_i hname
      rw [decide_eq_false hname]
      exact ⟨agree_pure rfl, rfl⟩
  unfold rootDirectory
  rw [h]
  dsimp only
  rw [(settled_firstWith fun dir hdir => (hcalled dir hdir).1).steady.answer_bind fun found => by
    rcases found with _ | dir
    · exact (settled_firstWith fun dir hdir => (hdeclared dir hdir).1).steady
    · exact agree_pure rfl, answer_firstWith_find hcalled]
  rcases up.ancestors.find? (isNamed d known (Specifier.basename name)) with _ | dir
  · exact answer_firstWith_find hdeclared
  · rfl

/-! ## Names of packages -/

/-- A name of a package, scoped or not: names between single separators. -/
def IsPackageName (name : String) : Prop := ∃ parts, parts ≠ [] ∧ (∀ s ∈ parts, IsName s) ∧ name = joined parts

theorem basename_joined (ps : List String) {s : String} (hs : IsPiece s) :
    Specifier.basename (joined (ps ++ [s])) = s := by
  have hpos : ∀ c ∈ s.toList.reverse, decide (c ≠ '/') = true := by
    intro c hc
    refine decide_eq_true fun he => hs.no_slash ?_
    rw [← he]
    exact List.mem_reverse.1 hc
  unfold Specifier.basename
  rw [reverse_joined_concat, List.takeWhile_append_of_pos hpos]
  split
  · simp
  · simp

/-- The place where a package is installed has the last part of its name. -/
theorem fileName_place {dir : Path} {name : String} {l : List String}
    (hl : ∀ n ∈ l, IsName n) (hname : IsPackageName name) (hplace : dir / modulesDir / name = ofLocation l) :
    (dir / modulesDir / name).fileName = some (Specifier.basename name) := by
  obtain ⟨parts, hne, hparts, rfl⟩ := hname
  obtain ⟨ps, s, rfl⟩ := (List.eq_nil_or_concat' parts).resolve_left hne
  have hpieces : ∀ t ∈ ps ++ [s], IsPiece t := fun t ht => (hparts t ht).toIsPiece
  have hrelative : (⟨joined (ps ++ [s])⟩ : Path).isAbsolute = false := by
    unfold Path.isAbsolute
    rw [beq_eq_false_iff_ne]
    exact head_joined hpieces
  have hmoves : l = (dir / modulesDir).moves ++ ps ++ [s] := by
    have h := moves_join_path (dir / modulesDir) _ hrelative
    rw [moves_joined hpieces, ← List.append_assoc] at h
    rw [← h]
    exact ((congrArg moves hplace).trans (moves_ofLocation fun n hn => (hl n hn).toIsPiece)).symm
  have hfront : ∀ m ∈ (dir / modulesDir).moves ++ ps, IsPiece m := fun m hm =>
    (hl m (hmoves ▸ List.mem_append_left _ hm)).toIsPiece
  rw [hplace, hmoves, fileName_ofLocation hfront (hparts s (by simp)), basename_joined ps (hpieces s (by simp))]

/-! ## The root of an installed package -/

/-- The package `name` is installed in the modules directory of `dir`, in a directory that is no link and has a
manifest. -/
structure Installed (d : Disk) (known : Manifests) (dir : Path) (name : String) (m : Manifest) : Prop where
  named : IsPackageName name
  real : d.canonicalize (dir / modulesDir / name) = .ok (dir / modulesDir / name)
  isDirectory : d.isDirectory (dir / modulesDir / name) = true
  described : manifestAt d known (dir / modulesDir / name) = .ok (some m)

/-- A directory between `place` and the file `entry` below it, neither of the two, that is called like the package and
has a manifest. -/
structure Rivals (d : Disk) (known : Manifests) (name : String) (place entry dir : Path) : Prop where
  above : dir ∈ entry.ancestors.tail
  below : place ∈ dir.ancestors.tail
  called : dir.fileName = some (Specifier.basename name)
  described : ∃ m, manifestAt d known dir = .ok (some m)

section
variable {d : Disk} {known : Manifests} {name : String} {place entry : Path} {before after : List Path}
  (h : entry.ancestors.tail = before ++ place :: after)
include h

theorem ancestors_of_above {x : Path} {b₁ b₂ : List Path} (hx : before = b₁ ++ x :: b₂) :
    x.ancestors = x :: b₂ ++ place :: after := by
  rw [hx, List.append_assoc] at h
  exact ancestors_of_tail_split h

theorem rivals_iff {x : Path} :
    Rivals d known name place entry x ↔ x ∈ before ∧ isNamed d known (Specifier.basename name) x = true := by
  rw [isNamed_iff]
  constructor
  · rintro ⟨habove, hbelow, hcalled, hdescribed⟩
    refine ⟨?_, hcalled, hdescribed⟩
    rw [h] at habove
    rcases List.mem_append.1 habove with hx | hx
    · exact hx
    · -- what follows the place lies above it, and paths get shorter on the way up
      rw [← ancestors_of_tail_split h] at hx
      have := length_lt_of_mem_tail_ancestors hbelow
      have := length_le_of_mem_ancestors hx
      omega
  · rintro ⟨hx, hcalled, hdescribed⟩
    obtain ⟨b₁, b₂, hsplit⟩ := List.append_of_mem hx
    refine ⟨h ▸ List.mem_append_left _ hx, ?_, hcalled, hdescribed⟩
    rw [ancestors_of_above h hsplit]
    simp

/-- The nearest directory of the name, where the place of the package has it as well. -/
theorem find?_isNamed (hplace : isNamed d known (Specifier.basename name) place = true) :
    ∃ root, entry.ancestors.tail.find? (isNamed d known (Specifier.basename name)) = some root ∧
      (root = place ↔ ∀ x, ¬ Rivals d known name place entry x) ∧
      (root ≠ place → Rivals d known name place entry root ∧
        ∀ x, Rivals d known name place entry x → x ∈ root.ancestors) := by
  simp only [rivals_iff h]
  rw [h, List.find?_append, List.find?_cons_of_pos hplace]
  rcases hnearer : before.find? (isNamed d known (Specifier.basename name)) with _ | root
  · refine ⟨place, rfl, iff_of_true rfl fun x hx => ?_, fun hne => absurd rfl hne⟩
    exact List.find?_eq_none.1 hnearer x hx.1 hx.2
  · obtain ⟨hroot, b₁, b₂, hsplit, hfirst⟩ := List.find?_eq_some_iff_append.1 hnearer
    have hmem : root ∈ before := List.mem_of_find?_eq_some hnearer
    have hne : root ≠ place := by
      rintro rfl
      have hrival : Rivals d known name root entry root := (rivals_iff h).2 ⟨hmem, hroot⟩
      have := length_lt_of_mem_tail_ancestors hrival.below
      omega
    refine ⟨root, rfl, iff_of_false hne fun hnone => hnone root ⟨hmem, hroot⟩, fun _ => ⟨⟨hmem, hroot⟩, ?_⟩⟩
    rintro x ⟨hx, hnamed⟩
    -- nothing nearer has the name
    rw [ancestors_of_above h hsplit]
    rw [hsplit] at hx
    rcases List.mem_append.1 hx with hx | hx
    · have hnot := hfirst x hx
      rw [hnamed] at hnot
      cases hnot
    · exact List.mem_append_left _ hx

end

/-- The root of a file of an installed package. It is the directory that the package is installed in, unless a directory
further down on the way to the file has the last part of its name and a manifest; then it is the nearest such directory
to the file. Neither the name that a manifest declares nor the names of the directories above the package matter. -/
theorem rootDirectory_installed {d : Disk} (hhere : ∀ n ∈ d.here, IsName n) {known ms : Manifests}
    (he : Extends d known ms) {dir : Path} {name : String} {m : Manifest} (h : Installed d known dir name m)
    {entry : Path} (hfile : d.isFile entry = true) (hreal : ∃ q, d.canonicalize q = .ok entry)
    (hin : entry.startsWith (dir / modulesDir / name) = true) :
    ∃ root, (rootDirectory d name entry).answer ms = .ok (some root) ∧
      (root = dir / modulesDir / name ↔ ∀ x, ¬ Rivals d known name (dir / modulesDir / name) entry x) ∧
      (root ≠ dir / modulesDir / name → Rivals d known name (dir / modulesDir / name) entry root ∧
        ∀ x, Rivals d known name (dir / modulesDir / name) entry x → x ∈ root.ancestors) := by
  obtain ⟨l, hl, hplace⟩ := d.names_of_canonicalize hhere h.real
  obtain ⟨q, hq⟩ := hreal
  obtain ⟨e, hnames, rfl⟩ := d.names_of_canonicalize hhere hq
  have hpieces : ∀ n ∈ e, IsPiece n := fun n hn => (hnames n hn).toIsPiece
  have hnamed : isNamed d known (Specifier.basename name) (dir / modulesDir / name) = true :=
    isNamed_iff.2 ⟨fileName_place hl h.named hplace, m, h.described⟩
  have hne : dir / modulesDir / name ≠ ofLocation e := by
    intro heq
    rw [← heq, d.isFile_eq_false_of_isDirectory h.isDirectory] at hfile
    cases hfile
  have hmem : dir / modulesDir / name ∈ (ofLocation e).ancestors.tail := by
    rw [hplace, startsWith_ofLocation_iff hnames hl] at hin
    have hanc := mem_ancestors_of_prefix hpieces hin
    rw [← hplace, ancestors_eq] at hanc
    rw [ancestors_eq]
    exact (List.mem_cons.1 hanc).resolve_left hne
  obtain ⟨up, hup⟩ : ∃ up, (ofLocation e).parent? = some up := by
    rcases hp : (ofLocation e).parent? with _ | up
    · rw [ancestors_eq, hp] at hmem
      cases hmem
    · exact ⟨up, rfl⟩
  have hstart : (if d.isDirectory (ofLocation e) then some (ofLocation e) else (ofLocation e).parent?) = some up := by
    rw [if_neg, hup]
    intro hdir
    rw [d.isFile_eq_false_of_isDirectory hdir] at hfile
    cases hfile
  have hentry : (ofLocation e).IsPlain := ⟨e, hpieces, rfl⟩
  -- the search by the last part of the name succeeds, so the one for a declared name is not made
  obtain ⟨before, after, hsplit⟩ := List.append_of_mem hmem
  obtain ⟨root, hroot, hrest⟩ := find?_isNamed hsplit hnamed
  refine ⟨root, ?_, hrest⟩
  rw [(settled_rootDirectory name hentry).steady.answer_eq he,
    answer_rootDirectory (isPlain_of_parent hentry hup) hstart, ← ancestors_tail hup, hroot]
  rfl

end

/-- What is installed in a directory and declares its name. -/
theorem exists_installed {d : Disk} {known : Manifests} {dir : Path} {name : String} (hname : IsPackageName name)
    (hreal : (d.canonicalize (dir / modulesDir / name)).toOption = some (dir / modulesDir / name))
    (hdir : d.isDirectory (dir / modulesDir / name) = true)
    (hm : (manifestAt d known (dir / modulesDir / name)).toOption.map (fun m => m.bind (·.name)) = some (some name)) :
    ∃ m, Installed d known dir name m ∧ m.name = some name := by
  obtain ⟨found, hfound, hdeclared⟩ := exists_ok_of_toOption hm
  obtain ⟨m, rfl, hdeclared⟩ := Option.bind_eq_some_iff.1 hdeclared
  exact ⟨m, ⟨hname, ok_of_toOption hreal, hdir, hfound⟩, hdeclared⟩

/-- A package with a directory that is called as the package and has a manifest, and a scoped package. -/
def doubled : Disk where
  entries := [(["node_modules"], .directory),
    (["node_modules", "@acme"], .directory), (["node_modules", "@acme", "util"], .directory),
    (["node_modules", "@acme", "util", "package.json"], .file (.text "\x7b\"name\":\"@acme/util\"\x7d")),
    (["node_modules", "@acme", "util", "util"], .directory),
    (["node_modules", "@acme", "util", "util", "index.js"], .file (.text "")),
    (["node_modules", "pad"], .directory), (["node_modules", "pad", "lib"], .directory),
    (["node_modules", "pad", "lib", "pad"], .directory),
    (["node_modules", "pad", "lib", "pad", "index.js"], .file (.text "")),
    (["node_modules", "pad", "lib", "pad", "package.json"], .file (.text "\x7b\x7d")),
    (["node_modules", "pad", "package.json"], .file (.text "\x7b\"name\":\"pad\"\x7d"))]
  here := []

theorem isPackageName_pad : IsPackageName "pad" :=
  ⟨["pad"], by simp, List.forall_mem_singleton.2 ⟨⟨by decide, by decide, by decide⟩, by decide⟩, by decide⟩

theorem isPackageName_util : IsPackageName "@acme/util" :=
  ⟨["@acme", "util"], by simp, List.forall_mem_cons.2 ⟨⟨⟨by decide, by decide, by decide⟩, by decide⟩,
    List.forall_mem_singleton.2 ⟨⟨by decide, by decide, by decide⟩, by decide⟩⟩, by decide⟩

theorem rootDirectory_installed_doubled :
    (∃ m, Installed doubled .empty ⟨"/"⟩ "@acme/util" m) ∧
    (∀ x, ¬ Rivals doubled .empty "@acme/util" ⟨"/node_modules/@acme/util"⟩
      ⟨"/node_modules/@acme/util/util/index.js"⟩ x) ∧
    (∃ m, Installed doubled .empty ⟨"/"⟩ "pad" m) ∧
    Rivals doubled .empty "pad" ⟨"/node_modules/pad"⟩ ⟨"/node_modules/pad/lib/pad/index.js"⟩
      ⟨"/node_modules/pad/lib/pad"⟩ := by
  obtain ⟨m, hutil, -⟩ : ∃ m, Installed doubled .empty ⟨"/"⟩ "@acme/util" m ∧ m.name = some "@acme/util" :=
    exists_installed isPackageName_util (by decide +kernel) (by decide +kernel) (by decide +kernel)
  obtain ⟨m', hpad, -⟩ : ∃ m, Installed doubled .empty ⟨"/"⟩ "pad" m ∧ m.name = some "pad" :=
    exists_installed isPackageName_pad (by decide +kernel) (by decide +kernel) (by decide +kernel)
  have hhere : ∀ n ∈ doubled.here, IsName n := List.forall_mem_nil _
  refine ⟨⟨m, hutil⟩, ?_, ⟨m', hpad⟩, ?_⟩
  · have hfile : doubled.isFile ⟨"/node_modules/@acme/util/util/index.js"⟩ = true := by decide +kernel
    obtain ⟨root, hroot, heq, -⟩ := rootDirectory_installed hhere (extends_refl .empty) hutil hfile
      ⟨⟨"/node_modules/@acme/util/util/index.js"⟩, ok_of_toOption (by decide +kernel)⟩ (by decide +kernel)
    have hanswer : ((rootDirectory doubled "@acme/util" ⟨"/node_modules/@acme/util/util/index.js"⟩).answer
      .empty).toOption = some (some ⟨"/node_modules/@acme/util"⟩) := by decide +kernel
    rw [hroot] at hanswer
    cases hanswer
    exact heq.1 rfl
  · have hfile : doubled.isFile ⟨"/node_modules/pad/lib/pad/index.js"⟩ = true := by decide +kernel
    obtain ⟨root, hroot, -, hrival⟩ := rootDirectory_installed hhere (extends_refl .empty) hpad hfile
      ⟨⟨"/node_modules/pad/lib/pad/index.js"⟩, ok_of_toOption (by decide +kernel)⟩ (by decide +kernel)
    have hanswer : ((rootDirectory doubled "pad" ⟨"/node_modules/pad/lib/pad/index.js"⟩).answer .empty).toOption =
      some (some ⟨"/node_modules/pad/lib/pad"⟩) := by decide +kernel
    rw [hroot] at hanswer
    cases hanswer
    exact (hrival (by decide)).1

/-- A package that declares its name, with no modules directory in it, and a file of it whose root is a directory
inside. -/
theorem rootDirectory_inside :
    (∃ m, Installed doubled .empty ⟨"/"⟩ "pad" m ∧ m.name = some "pad") ∧
    doubled.isFile ⟨"/node_modules/pad/lib/pad/index.js"⟩ = true ∧
    doubled.canonicalize ⟨"/node_modules/pad/lib/pad/index.js"⟩ = .ok ⟨"/node_modules/pad/lib/pad/index.js"⟩ ∧
    (⟨"/node_modules/pad/lib/pad/index.js"⟩ : Path).startsWith ((⟨"/"⟩ : Path) / modulesDir / "pad") = true ∧
    modulesDir ∉ (⟨"/node_modules/pad/lib/pad/index.js"⟩ : Path).below ((⟨"/"⟩ : Path) / modulesDir / "pad") ∧
    (rootDirectory doubled "pad" ⟨"/node_modules/pad/lib/pad/index.js"⟩).answer .empty =
      .ok (some ⟨"/node_modules/pad/lib/pad"⟩) ∧
    (⟨"/node_modules/pad/lib/pad"⟩ : Path) ≠ (⟨"/"⟩ : Path) / modulesDir / "pad" := by
  refine ⟨exists_installed isPackageName_pad (by decide +kernel) (by decide +kernel) (by decide +kernel),
    by decide +kernel, ok_of_toOption (by decide +kernel), by decide +kernel, by decide +kernel,
    ok_of_toOption (by decide +kernel), by decide +kernel⟩

end Package
end Stowage
