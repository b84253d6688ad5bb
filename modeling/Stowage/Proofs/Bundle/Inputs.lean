/-
What a bundle does to its input. The working directory is removed with everything below it, before the entry points
are compiled and at the end, wherever the settings put it. Everything else stays as it is, whether the bundle
succeeds or not.
-/
import Stowage.Proofs.Bundle.Phases

open Stowage.Path

namespace Stowage.Bundle

variable {transpile : Transpile} {o : BundleSettings} {d : Disk} {workDir output : Path} {loc : Location}
  {c : Content}

/-! ## Exposed locations -/

/-- The disk with an empty working directory, as far as one can be made. -/
def readied (d : Disk) (workDir : Path) : Disk :=
  ((Disk.createDirectories workDir).run.run (cleared d workDir)).2

/-- What an archive may be called. -/
def IsArchiveName (format : Archive.Format) (n : String) : Prop :=
  ∃ stem, n = stem ++ "." ++ format.extension

/-- What a bundle may do away with or write over. -/
inductive Exposed (d : Disk) (o : BundleSettings) (workDir : Path) (loc : Location) : Prop
  /-- The working directory is there already, and the location lies in it. -/
  | removed {top : Location} (htop : d.locate false workDir = .ok (.found top .directory))
      (hloc : top <+: loc)
  /-- The working directory is found only when directories are created on the way to it. -/
  | entered {top : Location} {e : Entry} (htop : (readied d workDir).find workDir = .ok (top, e))
      (hloc : Disk.Under top loc)
  /-- A directory that is found so holds a link, through which anything may be written. -/
  | linked {top l : Location} {e : Entry} {t : String}
      (htop : (readied d workDir).find workDir = .ok (top, e)) (hl : top <+: l)
      (hlink : Disk.entry? (readied d workDir) l = some (.link t))
  /-- The location is called like an archive. -/
  | archive {n : String} (hn : IsArchiveName o.format n) (hloc : loc.getLast? = some n)
  | unfinished {n : String} (hn : IsArchiveName o.format n) (hloc : loc.getLast? = some (n ++ ".partial"))
  /-- The unfinished archive may be written through a link. -/
  | through {l : Location} {n t : String} (hn : IsArchiveName o.format n)
      (hl : l.getLast? = some (n ++ ".partial")) (hlink : d.entry? l = some (.link t))
  /-- Relative paths start from the working directory. -/
  | adrift {top : Location} (htop : d.locate false workDir = .ok (.found top .directory))
      (hhere : top <+: d.here)
  /-- The service is no directory. -/
  | misplaced (hfile : d.isFile o.serviceDir = true)

/-- The file is there, and removing the working directory would not remove it. -/
structure Intact (workDir : Path) (loc : Location) (c : Content) (d : Disk) : Prop where
  sound : d.Sound
  file : d.entry? loc = some (.file c)
  away : ∀ top, d.locate false workDir = .ok (.found top .directory) → ¬ top <+: loc

section
variable (hd : d.Sound) (hsafe : ¬ Exposed d o workDir loc)
include hd hsafe

theorem sound_readied : (cleared d workDir).Sound ∧
    Disk.Grown (cleared d workDir) (readied d workDir) ∧ (readied d workDir).Sound := by
  have hsound := sound_cleared hd workDir fun top htop hhere => hsafe (.adrift htop hhere)
  exact ⟨hsound, Disk.grown_createDirectories hsound workDir⟩

theorem linkless_readied {work : Location} {e : Entry}
    (hwork : (readied d workDir).find workDir = .ok (work, e)) : (readied d workDir).Linkless work := by
  obtain ⟨-, -, hready⟩ := sound_readied hd hsafe
  refine ⟨?_, fun l t hl ht => hsafe (.linked hwork hl ht)⟩
  rw [(Disk.entry?_of_find hready hwork).1]
  simp

omit hd in
/-- The working directory lies elsewhere. -/
theorem away_of_find {x : Disk} {top : Location} {e : Entry}
    (htop : (readied d workDir).find workDir = .ok (top, e)) (hfile : x.entry? loc = some (.file c))
    (hdir : x.entry? top = some .directory) : ¬ top <+: loc := by
  intro hloc
  refine hsafe (.entered htop ⟨hloc, ?_⟩)
  rintro rfl
  rw [hfile] at hdir
  cases hdir

variable (hfile : d.entry? loc = some (.file c))
include hfile

theorem intact_cleared : Intact workDir loc c (cleared d workDir) := by
  obtain ⟨hsound, hgrown, -⟩ := sound_readied hd hsafe
  have hkept := entry?_cleared hd workDir hfile fun top htop hloc => hsafe (.removed htop hloc)
  refine ⟨hsound, hkept, fun top htop => ?_⟩
  have hdir := Disk.entry?_of_locate hsound htop
  have hlocate := Disk.locate_kept hsound hgrown.kept (Disk.locate_true_of_directory htop)
  have htop' : (readied d workDir).find workDir = .ok (top, .directory) := by
    unfold Disk.find
    rw [hlocate, show (Disk.Place.found top .directory).location = top from rfl,
      Disk.place_of_some (hgrown.kept.directory top hdir)]
    rfl
  exact away_of_find hsafe htop' hkept hdir

theorem intact_readied : Intact workDir loc c (readied d workDir) := by
  obtain ⟨hsound, hgrown, hready⟩ := sound_readied hd hsafe
  have hkept : Disk.entry? (readied d workDir) loc = some (.file c) := by
    have h := (intact_cleared hd hsafe hfile).file
    rcases hgrown.entry loc with he | ⟨hnone, -⟩
    · rw [he, h]
    · rw [h] at hnone; cases hnone
  refine ⟨hready, hkept, fun top htop => ?_⟩
  have htop' : (readied d workDir).find workDir = .ok (top, .directory) := by
    unfold Disk.find
    rw [Disk.locate_true_of_directory htop]
    rfl
  exact away_of_find hsafe htop' hkept (Disk.entry?_of_locate hready htop)

variable {work : Location} {e : Entry} (hwork : (readied d workDir).find workDir = .ok (work, e))
include hwork

omit hfile in
/-- Where no directory or link has changed the working directory still lies elsewhere. -/
theorem intact_of_kept {b x : Disk} (hkept : Disk.Kept (readied d workDir) b) (hx : x.Sound)
    (hat : x.entry? loc = some (.file c))
    (hleads : ∀ top, x.locate false workDir = .ok (.found top .directory) →
      b.locate true workDir = .ok (.found top .directory)) : Intact workDir loc c x := by
  obtain ⟨-, -, hready⟩ := sound_readied hd hsafe
  refine ⟨hx, hat, fun top htop => ?_⟩
  have hplace := Disk.locate_kept hready hkept (Disk.locate_of_find hwork)
  rw [hleads top htop] at hplace
  have hsame : top = work := by
    have := congrArg Disk.Place.location (Except.ok.inj hplace)
    rwa [Disk.location_place] at this
  subst hsame
  exact away_of_find hsafe hwork hat (Disk.entry?_of_locate hx htop)

theorem intact_of_filled {x : Disk}
    (hx : x.Sound ∧ Disk.Filled (Disk.Under work) (readied d workDir) x) : Intact workDir loc c x := by
  refine intact_of_kept hd hsafe hwork hx.2.kept hx.1 ?_ fun top => Disk.locate_true_of_directory
  rw [hx.2.only loc fun hloc => hsafe (.entered hwork hloc)]
  exact (intact_readied hd hsafe hfile).file

end

/-! ## Names of archives -/

theorem isArchiveName_fileName (m : Manifest) (dir : Path) (format : Archive.Format) :
    IsArchiveName format (fileName m dir format) := ⟨_, rfl⟩

theorem isName_fileName (m : Manifest) (dir : Path) (format : Archive.Format) :
    IsName (fileName m dir format) := by
  have hname : ∀ s : String, '/' ∉ s.toList → IsName (s ++ "." ++ format.extension) := by
    intro s hs
    have hlength : (s ++ "." ++ format.extension).toList.length = s.toList.length + 4 := by
      cases format <;> simp [Archive.Format.extension]
    refine ⟨⟨fun h => ?_, fun h => ?_, ?_⟩, fun h => ?_⟩
    · rw [h] at hlength; simp at hlength
    · rw [h] at hlength; simp at hlength
    · cases format <;> simp [Archive.Format.extension, hs]
    · rw [h] at hlength; simp at hlength
  have hflat : ∀ n : String, '/' ∉ (flatName n).toList := by
    intro n hn
    unfold flatName at hn
    rw [String.toList_ofList] at hn
    obtain ⟨c, -, hc⟩ := List.mem_map.1 hn
    split at hc
    · cases hc
    · contradiction
  have hdir : '/' ∉ (dir.fileName.getD "bundle").toList := by
    rcases hf : dir.fileName with _ | n
    · decide
    · exact (Path.isPiece_fileName hf).no_slash
  refine hname _ ?_
  rcases m.name with _ | n
  · exact hdir
  · dsimp only
    split
    · exact hdir
    · exact hflat n

/-- The archive is called by its file name, and the unfinished one by that and a suffix. -/
theorem getLast?_steps_archive {p : Path} {n : String} (hn : IsName n) :
    (p / n).steps.getLast? = some n ∧
      (Archive.unfinished (p / n)).steps.getLast? = some (n ++ ".partial") := by
  have hlast : (p / n).steps.getLast? = some n := by
    rw [steps_join p hn.toIsPiece, List.getLast?_concat]
  obtain ⟨before, hbefore⟩ := Archive.steps_unfinished (p / n)
  refine ⟨hlast, ?_⟩
  rw [hbefore, List.getLast?_concat, Path.fileName_of_steps hlast hn.ne_dot hn.ne_up]
  rfl

/-! ## Packing -/

section
variable (hd : d.Sound) (hsafe : ¬ Exposed d o workDir loc) (hfile : d.entry? loc = some (.file c))
  {work : Location} {e : Entry} (hwork : (readied d workDir).find workDir = .ok (work, e))
include hd hsafe hfile hwork

/-- Writing the archive spares the file. -/
theorem leaves_write (a : Archive.Contents) (m : Manifest) (dir : Path) (level : Nat) :
    Leaves (fun w : World => w.disk.Sound ∧ Disk.Filled (Disk.Under work) (readied d workDir) w.disk)
      (fun w => Intact workDir loc c w.disk)
      (a.write (output / fileName m dir o.format) o.format level) := by
  intro w hw
  obtain ⟨hsound, hgrown, hready⟩ := sound_readied hd hsafe
  have hn := isArchiveName_fileName m dir o.format
  obtain ⟨hlast, hpartial⟩ := getLast?_steps_archive (p := output) (isName_fileName m dir o.format)
  -- the way to the archive adds no links
  obtain ⟨hprepared, hsound'⟩ :=
    Archive.grown_prepared hw.1 (output / fileName m dir o.format)
  have hlinks : ∀ {x : Disk}, Disk.Grown w.disk x → ∀ l t, x.entry? l = some (.link t) →
      d.entry? l = some (.link t) := fun hx l t ht =>
    cleared_sub hd workDir ((hgrown.kept.link l t).1 ((hw.2.kept.link l t).1 ((hx.kept.link l t).1 ht)))
  have hlink : (Archive.prepared w.disk (output / fileName m dir o.format)).isLink
      (Archive.unfinished (output / fileName m dir o.format)) = false := by
    rw [Bool.eq_false_iff]
    intro hlink
    obtain ⟨l, t, hl⟩ := (Disk.isLink_iff _).1 hlink
    have hstored := Disk.entry?_of_locate hsound' hl
    rcases Disk.named_locate hl with ⟨l', hl'⟩ | ⟨l', s, hs, -, -, hloc⟩
    · cases hl'
    · change l = l' ++ [s] at hloc
      refine hsafe (.through hn ?_ (hlinks hprepared l t hstored))
      rw [hloc, List.getLast?_concat, ← hs, hpartial]
  obtain ⟨b, hb, hspared⟩ : ∃ b, Disk.Grown w.disk b ∧ Archive.Spared (output / fileName m dir o.format) b
      ((a.write (output / fileName m dir o.format) o.format level).run.run w).2.disk :=
    Archive.spared_write hw.1 hlink
  have hkept : Disk.Kept (readied d workDir) b := by
    exact ((hw.2.mono fun _ _ => trivial).trans hb.filled).kept
  refine intact_of_kept hd hsafe hwork hkept hspared.sound ?_ fun top htop => ?_
  · rw [hspared.rest loc, ← (intact_of_filled hd hsafe hfile hwork hw).file]
    · refine (hb.entry loc).resolve_right fun h => ?_
      rw [(intact_of_filled hd hsafe hfile hwork hw).file] at h
      cases h.1
    · rw [hlast]
      exact fun hloc => hsafe (.archive hn hloc)
    · rw [hpartial]
      exact fun hloc => hsafe (.unfinished hn hloc)
  · exact Disk.locate_true_of_directory (Disk.locate_sub (Q := fun e => e.type ≠ .file)
      (fun l e he htype => hspared.old l e he htype) nofun (fun _ => nofun) hspared.here nofun htop)

/-- Packing what was compiled keeps the file. -/
theorem leaves_package_intact (output : Path) (hnames : ∀ n ∈ work, IsName n) (s : Project) (ms : Manifests)
    (outputs : List (String × Path)) :
    Leaves (fun w : World => w.disk.Sound ∧ Disk.Filled (Disk.Under work) (readied d workDir) w.disk)
      (fun w => Intact workDir loc c w.disk) (package s ms o ⟨outputs, ofLocation work⟩ output) := by
  have hmanifest : IsName manifestName := ⟨⟨by decide, by decide, by decide⟩, by decide⟩
  have hlinkless := linkless_readied hd hsafe hwork
  refine leaves_package (P := fun x => x.Sound ∧ Disk.Filled (Disk.Under work) (readied d workDir) x)
    (Q := Intact workDir loc c) (fun x hx => intact_of_filled hd hsafe hfile hwork hx) s ms
    (fun content => ?_) fun a m => leaves_write hd hsafe hfile hwork a m _ _
  rw [ofLocation_concat (fun n hn => (hnames n hn).toIsPiece) hmanifest.toIsPiece]
  refine Disk.keeps_write_below hlinkless ⟨List.prefix_append .., by simp⟩ (fun n hn => ?_) content
  rcases List.mem_append.1 hn with hn | hn
  · exact hnames n hn
  · rw [List.mem_singleton.1 hn]; exact hmanifest

end

/-! ## Building -/

/-- The service that is opened is the one that the settings name. -/
theorem start_of_openProject (hd : d.Sound) (hhere : ∀ n ∈ d.here, IsName n) {p dir : Path}
    (hdir : d.canonicalize p = .ok dir) {type : SourceType} {s : Project} {ms ms' : Manifests}
    (h : Gives (openProject d dir type) ms s ms') : s.start = dir := by
  obtain ⟨root, ms₁, -, h₁⟩ := gives_bind.1 h
  obtain ⟨start, ms₂, hstart, h₂⟩ := gives_bind.1 h₁
  obtain ⟨root', ms₃, -, h₃⟩ := gives_bind.1 h₂
  obtain ⟨rfl, -⟩ := gives_pure.1 h₃
  have hstart : d.canonicalize dir = .ok start := by
    have := congrArg Prod.fst hstart
    rcases hc : d.canonicalize dir with e | q
    · rw [hc] at this; cases this
    · rw [hc] at this; cases this; rfl
  obtain ⟨l, e, hfind, rfl⟩ := Disk.find_of_canonicalize hdir
  obtain ⟨m, e', hfind', rfl⟩ := Disk.find_of_canonicalize hstart
  rw [((Disk.located_of_canonicalize hd hhere hdir).of_find hd (Disk.isName_of_find hhere hfind)
    hfind').1]

/-- What is left under the path of a service is the service. -/
theorem find_service (hd : d.Sound) (hhere : ∀ n ∈ d.here, IsName n) {p dir : Path}
    (hdir : d.canonicalize p = .ok dir) {l : Location} {e : Entry}
    (h : (cleared d workDir).find dir = .ok (l, e)) : dir = ofLocation l ∧ d.find p = .ok (l, e) := by
  obtain ⟨m, e', hfind, rfl⟩ := Disk.find_of_canonicalize hdir
  have hfull := Disk.find_sub (fun _ _ he => cleared_sub hd workDir he) (here_cleared d workDir) h
  obtain ⟨rfl, hentry⟩ := (Disk.located_of_canonicalize hd hhere hdir).of_find hd
    (Disk.isName_of_find hhere hfind) hfull
  rw [(Disk.entry?_of_find hd hfind).1, Option.some.injEq] at hentry
  exact ⟨rfl, hentry ▸ hfind⟩

/-- What is left of a service that is a directory is no file. -/
theorem isFile_cleared (hd : d.Sound) (hhere : ∀ n ∈ d.here, IsName n) {p dir : Path}
    (hdir : d.canonicalize p = .ok dir) (hno : d.isFile p = false) :
    (cleared d workDir).isFile dir = false := by
  unfold Disk.isFile at hno ⊢
  rcases hf : (cleared d workDir).find dir with f | ⟨l, e⟩
  · rfl
  · rwa [(find_service hd hhere hdir hf).2] at hno

section
variable (hd : d.Sound) (hhere : ∀ n ∈ d.here, IsName n) (hsafe : ¬ Exposed d o workDir loc)
  (hfile : d.entry? loc = some (.file c))
include hd hhere hsafe hfile

/-- Whatever comes of it, compiling and packing keeps the file. -/
theorem intact_build (transpile : Transpile) (output : Path) {s : Project} (ms : Manifests)
    (hstart : d.canonicalize o.serviceDir = .ok s.start)
    (notes : List String) : Intact workDir loc c
      ((build (compile transpile) s ms o workDir output).run.run ⟨cleared d workDir, notes⟩).2.disk := by
  obtain ⟨hsound, hgrown, hready⟩ := sound_readied hd hsafe
  have hroot : (cleared d workDir).isFile s.start = false := isFile_cleared hd hhere hstart
    (Bool.eq_false_iff.2 fun hfile => hsafe (.misplaced hfile))
  have hhere' : ∀ n ∈ (cleared d workDir).here, IsName n := by rw [here_cleared]; exact hhere
  have hhere'' : ∀ n ∈ (readied d workDir).here, IsName n := by rw [hgrown.here]; exact hhere'
  have hcompile := Compile.compile_confined transpile
    ⟨o.entries, o.externals, o.sourceType, s.start, workDir⟩ ⟨cleared d workDir, notes⟩ hsound hhere' rfl
  unfold build
  rw [run_bind]
  rcases hcompile with ⟨f, w', hfailed, hdisk⟩ | ⟨work, e, hwork, -, hworkDir, hfilled⟩
  · rw [hfailed]
    rcases hdisk with hdisk | hdisk
    · exact hdisk ▸ intact_cleared hd hsafe hfile
    · exact hdisk ▸ intact_readied hd hsafe hfile
  have hfilled := hfilled hroot (linkless_readied hd hsafe hwork)
  rcases hrun : (compile transpile ⟨o.entries, o.externals, o.sourceType, s.start, workDir⟩).run.run
    ⟨cleared d workDir, notes⟩ with ⟨f | ⟨outputs, dir⟩, w'⟩
  · rw [hrun] at hfilled
    exact intact_of_filled hd hsafe hfile hwork hfilled
  · rw [hrun] at hfilled hworkDir
    obtain rfl : dir = ofLocation work := hworkDir _ rfl
    have hpackage := leaves_package_intact hd hsafe hfile hwork output
      (Disk.isName_of_find hhere'' hwork) s ms outputs w' hfilled
    dsimp only
    split
    · exact intact_of_filled hd hsafe hfile hwork hfilled
    · exact hpackage

end

/-- A file that is not exposed is kept, whether the bundle succeeds or not. -/
theorem entry?_bundle {w : World} (hd : w.disk.Sound) (hhere : ∀ n ∈ w.disk.here, IsName n)
    (hfile : w.disk.entry? loc = some (.file c))
    (hsafe : ∀ dir, w.disk.canonicalize o.serviceDir = .ok dir →
      ¬ Exposed w.disk o (dir.join o.buildDir) loc) :
    ((bundle (compile transpile) o).run.run w).2.disk.entry? loc = some (.file c) := by
  rcases bundle_cases (compile transpile) o w with
    ⟨e, hrun⟩ | ⟨output, dir, s, ms, houtput, hdir, hopen⟩
  · rw [hrun]
    exact hfile
  have hsafe := hsafe dir hdir
  have hservice : s.start = dir := start_of_openProject hd hhere hdir hopen
  have hbuild := intact_build hd hhere hsafe hfile transpile output ms
    (hservice.symm ▸ hdir) w.notes
  rw [run_bundle houtput hdir hopen, run_bind, run_clear]
  split
  · rename_i hclear
    obtain ⟨-, rfl⟩ := Prod.mk.inj hclear
    rw [(run_buildOnce s ms _).2]
    split
    · exact hbuild.file
    · exact entry?_cleared hbuild.sound _ hbuild.file hbuild.away
  · rename_i hclear
    obtain ⟨-, rfl⟩ := Prod.mk.inj hclear
    exact (intact_cleared hd hsafe hfile).file

/-! ## Sources in the working directory -/

/-- The working directory is there when the bundle starts, and the source of an entry point lies below it. It is
called by its location, or removing it fails in the end. -/
structure Swallows (d : Disk) (o : BundleSettings) (dir : Path) (top loc : Location) : Prop where
  service : d.canonicalize o.serviceDir = .ok dir
  opened : ∃ s ms, Gives (openProject d dir o.sourceType) .empty s ms
  allowed : ∃ output, outputDir o = .ok output
  named : d.locate false (dir.join o.buildDir) = .ok (.found top .directory)
  way : dir.join o.buildDir = ofLocation top ∨
    ∃ e, ((Disk.removeTree (dir.join o.buildDir)).run.run d).1 = .error e
  source : ∃ entry ∈ o.entries, ∃ c, d.find (dir.join entry.2) = .ok (loc, .file c)
  below : Disk.Under top loc
  apart : ¬ top <+: d.here

/-- Nothing is there that was not, and nothing lies below the place. -/
def Emptied (top : Location) (d d' : Disk) : Prop :=
  (∀ l e, d'.entry? l = some e → d.entry? l = some e) ∧ ∀ l, Disk.Under top l → d'.entry? l = none

/-- Creating a directory anew brings nothing back that was in it. -/
theorem keeps_createDirectories_emptied {top : Location} (hd : d.Sound) (hnames : ∀ n ∈ top, IsName n)
    (htop : d.entry? top = some .directory) :
    Keeps (Emptied top d) (Disk.createDirectories (ofLocation top)) := by
  have hway : ∀ l, l <+: top → d.entry? l = some .directory := by
    rintro l ⟨r, rfl⟩
    by_cases hr : r = []
    · rwa [hr, List.append_nil] at htop
    · exact hd.directory_of_append hr htop
  refine Disk.keeps_createChain fun p hp x hx => ?_
  obtain ⟨upper, hupper, rfl⟩ := mem_ancestors_ofLocation (fun n hn => (hnames n hn).toIsPiece) hp
  have hupperNames : ∀ n ∈ upper, IsName n := fun n hn => hnames n (hupper.subset hn)
  unfold Disk.createDirectory
  rw [run_bind, Disk.run_ask]
  by_cases hne : upper = []
  · subst hne
    exact hx
  rw [Disk.withoutSlash_eq (Disk.endsInSlash_ofLocation hupperNames hne)]
  rcases hq : x.locate false (ofLocation upper) with f | q
  · exact hx
  have hplace := Disk.locate_unlinked hupperNames (fun m t hm ht => by
    have hlink := hx.1 m _ ht
    rw [hway m (hm.trans hupper)] at hlink
    cases hlink) hq
  rcases q with ⟨l, e⟩ | l
  · exact hx
  obtain rfl : l = upper := by
    have := congrArg Disk.Place.location hplace
    rwa [Disk.location_place] at this
  have hput : ∀ m, Disk.entry? (x.put l .directory) m =
      if m = l then some .directory else x.entry? m := Disk.entry?_put x hne .directory
  refine ⟨fun m e hm => ?_, fun m hm => ?_⟩
  · change Disk.entry? (x.put l .directory) m = some e at hm
    rw [hput] at hm
    split at hm
    · rename_i he
      cases hm
      rw [he, hway l hupper]
    · exact hx.1 m e hm
  · show Disk.entry? (x.put l .directory) m = none
    rw [hput, if_neg, hx.2 m hm]
    rintro rfl
    exact hm.2 (hupper.eq_of_length_le hm.1.length_le)

/-- Without its source an entry point cannot be compiled. -/
theorem Swallows.build_fails {dir : Path} {top : Location} (hd : d.Sound) (hhere : ∀ n ∈ d.here, IsName n)
    (h : Swallows d o dir top loc) (hway : dir.join o.buildDir = ofLocation top) (transpile : Transpile)
    (output : Path) {s : Project} (ms : Manifests) (hstart : s.start = dir) (notes : List String) :
    ∃ e w', (build (compile transpile) s ms o (dir.join o.buildDir) output).run.run
      ⟨cleared d (dir.join o.buildDir), notes⟩ = (.error e, w') ∧ w'.disk.Sound ∧
        Emptied top d w'.disk := by
  have hsound := sound_cleared hd (dir.join o.buildDir) fun l hl => by
    rw [h.named] at hl
    cases hl
    exact h.apart
  obtain ⟨hgrown, hready⟩ := Disk.grown_createDirectories hsound (dir.join o.buildDir)
  have htop := Disk.entry?_of_locate hd h.named
  have hnames : ∀ n ∈ top, IsName n :=
    Disk.isName_of_find hhere (p := dir.join o.buildDir) (e := .directory) (by
      unfold Disk.find
      rw [Disk.locate_true_of_directory h.named]
      rfl)
  have hcleared : Emptied top d (cleared d (dir.join o.buildDir)) :=
    ⟨fun l e he => cleared_sub hd _ he, fun l hl => entry?_cleared_below hd _ h.named hl⟩
  have hreadied : Emptied top d (readied d (dir.join o.buildDir)) := by
    have := keeps_createDirectories_emptied hd hnames htop _ hcleared
    rwa [← hway] at this
  have hhere' : ∀ n ∈ (cleared d (dir.join o.buildDir)).here, IsName n := by
    rw [here_cleared]; exact hhere
  unfold build
  rw [run_bind]
  rcases Compile.compile_confined transpile
    ⟨o.entries, o.externals, o.sourceType, s.start, dir.join o.buildDir⟩
    ⟨cleared d (dir.join o.buildDir), notes⟩ hsound hhere' rfl with
    ⟨f, w', hfailed, hdisk⟩ | ⟨work, e, -, ⟨root, hcanonical, hsources⟩, -⟩
  · rw [hfailed]
    refine ⟨f, w', rfl, ?_⟩
    rcases hdisk with hdisk | hdisk
    · rw [hdisk]; exact ⟨hsound, hcleared⟩
    · rw [hdisk]; exact ⟨hready, hreadied⟩
  · -- the source would still be there
    exfalso
    obtain ⟨entry, hentry, x, hfind⟩ := h.source
    obtain ⟨source, hsource⟩ := hsources entry hentry
    obtain ⟨l, _, hservice, rfl⟩ := Disk.find_of_canonicalize hcanonical
    rw [← (find_service hd hhere (hstart.symm ▸ h.service) hservice).1, hstart] at hsource
    obtain ⟨m, _, hleft, -⟩ := Disk.find_of_canonicalize hsource
    have hfull := Disk.find_sub hreadied.1 (hgrown.here.trans (here_cleared d _)) hleft
    rw [hfind] at hfull
    cases hfull
    have hstored := (Disk.entry?_of_find hready hleft).1
    rw [show ((Disk.createDirectories _).run.run _).2 = readied d (dir.join o.buildDir) from rfl,
      hreadied.2 loc h.below] at hstored
    cases hstored

/-- A bundle whose working directory holds the source of an entry point fails, and everything in the working
directory is lost. -/
theorem Swallows.bundle_fails {w : World} (hd : w.disk.Sound) (hhere : ∀ n ∈ w.disk.here, IsName n)
    {dir : Path} {top : Location} (h : Swallows w.disk o dir top loc) :
    (∃ e, ((bundle (compile transpile) o).run.run w).1 = .error e) ∧
      ∀ l, Disk.Under top l → ((bundle (compile transpile) o).run.run w).2.disk.entry? l = none := by
  obtain ⟨s, ms, hopen⟩ := h.opened
  obtain ⟨output, houtput⟩ := h.allowed
  have hexists : w.disk.pathExists (dir.join o.buildDir) = true := by
    unfold Disk.pathExists Disk.find
    rw [Disk.locate_true_of_directory h.named]
    rfl
  have hbelow : ∀ l, Disk.Under top l → Disk.entry? (cleared w.disk (dir.join o.buildDir)) l = none :=
    fun l hl => entry?_cleared_below hd _ h.named hl
  rw [run_bundle houtput h.service hopen, run_bind, run_clear, if_pos hexists]
  rcases hremoved : ((Disk.removeTree (dir.join o.buildDir)).run.run w.disk).1 with f | u
  · exact ⟨⟨_, rfl⟩, hbelow⟩
  have hway : dir.join o.buildDir = ofLocation top := by
    refine h.way.resolve_right ?_
    rintro ⟨e, he⟩
    rw [hremoved] at he
    cases he
  obtain ⟨e, w', hbuild, hsound, hemptied⟩ := h.build_fails hd hhere hway transpile output ms
    (start_of_openProject hd hhere h.service hopen) w.notes
  dsimp only [Except.mapError]
  rw [(run_buildOnce s ms _).1, (run_buildOnce s ms _).2, hbuild]
  refine ⟨⟨e, rfl⟩, fun l hl => ?_⟩
  have hnone := hemptied.2 l hl
  split
  · exact hnone
  · rcases hleft : Disk.entry? (cleared w'.disk (dir.join o.buildDir)) l with _ | x
    · rfl
    · rw [cleared_sub hsound _ hleft] at hnone
      cases hnone

/-! ## Whole bundles -/

/-- A bundle keeps every file that is not exposed, the sources of the entry points and the manifest of the service
among them, whether it succeeds or not. If the working directory is there when it starts and holds the source of an
entry point, the bundle fails and nothing that lies in the working directory is left. -/
theorem bundle_keeps_unexposed (transpile : Transpile) (o : BundleSettings) {w : World}
    (hd : w.disk.Sound) (hhere : ∀ n ∈ w.disk.here, IsName n) :
    (∀ loc c, w.disk.entry? loc = some (.file c) →
      (∀ dir, w.disk.canonicalize o.serviceDir = .ok dir →
        ¬ Exposed w.disk o (dir.join o.buildDir) loc) →
      ((bundle (compile transpile) o).run.run w).2.disk.entry? loc = some (.file c)) ∧
    ∀ dir top loc, Swallows w.disk o dir top loc →
      (∃ e, ((bundle (compile transpile) o).run.run w).1 = .error e) ∧
      ∀ l, Disk.Under top l → ((bundle (compile transpile) o).run.run w).2.disk.entry? l = none :=
  ⟨fun _ _ hfile hsafe => entry?_bundle hd hhere hfile hsafe,
    fun _ _ _ h => h.bundle_fails hd hhere⟩

/-! ### A working directory beside and above the source -/

/-- A service with one source in a directory of its own. -/
def sourced : Disk where
  entries := [(["package.json"], .file (.text "\x7b\"name\":\"app\"\x7d")), (["src"], .directory),
    (["src", "main.js"], .file (.text "1;"))]
  here := []

def sourcedSettings (buildDir : String) : BundleSettings where
  serviceDir := ⟨"/"⟩
  entries := [("main", ⟨"src/main.js"⟩)]
  output := some ⟨"/out"⟩
  format := .zip
  level := 9
  sourceType := .commonJs
  externals := []
  forceInclude := []
  exclude := []
  extras := []
  optionalModules := []
  ignorePaths := []
  buildDir := ⟨buildDir⟩
  strict := false
  keepBuild := false

theorem sound_sourced : sourced.Sound := ⟨by decide, by decide⟩

theorem canonicalize_sourced : (sourced.canonicalize ⟨"/"⟩).toOption = some ⟨"/"⟩ := by decide +kernel

theorem not_exposed_sourced :
    ¬ Exposed sourced (sourcedSettings "build") ⟨"/build"⟩ ["src", "main.js"] := by
  have hnamed : (sourced.locate false ⟨"/build"⟩).toOption = some (.free ["build"]) := by decide +kernel
  have hfound : ((readied sourced ⟨"/build"⟩).find ⟨"/build"⟩).toOption = some (["build"], .directory) := by
    decide +kernel
  have hlinks : ∀ e ∈ (readied sourced ⟨"/build"⟩).entries, e.2.type ≠ .link := by decide +kernel
  have hlinks' : ∀ e ∈ sourced.entries, e.2.type ≠ .link := by decide
  have hnone : ∀ {x : Disk} {l t}, (∀ e ∈ x.entries, e.2.type ≠ .link) → x.entry? l ≠ some (.link t) := by
    intro x l t hx hl
    exact hx _ (Disk.mem_entries (by rintro rfl; cases hl) hl) rfl
  intro h
  cases h with
  | removed htop => rw [htop] at hnamed; cases hnamed
  | entered htop hloc =>
    rw [htop] at hfound
    cases hfound
    exact absurd hloc.1 (by decide)
  | linked _ _ hlink => exact hnone hlinks hlink
  | archive hn hloc =>
    obtain ⟨stem, rfl⟩ := hn
    have := congrArg (fun n => n.map fun n => n.toList.getLast?) hloc
    simp [sourcedSettings, Archive.Format.extension] at this
  | unfinished hn hloc =>
    have := congrArg (fun n => n.map fun n => n.toList.getLast?) hloc
    simp at this
  | through _ _ hlink => exact hnone hlinks' hlink
  | adrift htop => rw [htop] at hnamed; cases hnamed
  | misplaced hfile => exact absurd hfile (by decide +kernel)

theorem swallows_sourced :
    Swallows sourced (sourcedSettings "src") ⟨"/"⟩ ["src"] ["src", "main.js"] := by
  have hopen : shown (openProject sourced ⟨"/"⟩ .commonJs) .empty (fun s _ => s.start) = some ⟨"/"⟩ := by
    decide +kernel
  have hnamed : (sourced.locate false ⟨"/src"⟩).toOption = some (.found ["src"] .directory) := by
    decide +kernel
  have hfound : (sourced.find ⟨"/src/main.js"⟩).toOption =
      some (["src", "main.js"], .file (.text "1;")) := by decide +kernel
  obtain ⟨s, ms, hs, -⟩ := exists_gives hopen
  exact {
    service := ok_of_toOption canonicalize_sourced
    opened := ⟨s, ms, hs⟩
    allowed := ⟨_, rfl⟩
    named := ok_of_toOption hnamed
    way := .inl rfl
    source := ⟨_, List.mem_singleton_self _, _, ok_of_toOption hfound⟩
    below := ⟨by decide, by decide⟩
    apart := by decide }

/-- Beside the source the working directory does no harm; above it the source is lost. -/
theorem bundle_keeps_unexposed_sourced :
    ((bundle (compile fun _ _ text => .ok text) (sourcedSettings "build")).run.run ⟨sourced, []⟩).2.disk.entry?
      ["src", "main.js"] = some (.file (.text "1;")) ∧
    ((bundle (compile fun _ _ text => .ok text) (sourcedSettings "src")).run.run ⟨sourced, []⟩).2.disk.entry?
      ["src", "main.js"] = none := by
  constructor
  · refine (bundle_keeps_unexposed _ _ (w := ⟨sourced, []⟩) sound_sourced nofun).1 _ _ (by decide) ?_
    intro dir hdir
    obtain rfl : dir = ⟨"/"⟩ := Except.ok.inj (hdir.symm.trans (ok_of_toOption canonicalize_sourced))
    exact not_exposed_sourced
  · exact ((bundle_keeps_unexposed _ _ (w := ⟨sourced, []⟩) sound_sourced nofun).2 _ _ _
      swallows_sourced).2 _ swallows_sourced.below

end Stowage.Bundle
