/-
Local specifiers whose extension is missing. The lookup tries other extensions than the runtime, and in another order, so it
finds the file that the runtime loads unless a file with an extension that the runtime does not know stands beside it, or
the runtime finds the file by an extension that the lookup does not know.
-/
import Stowage.Resolution.Resolver
import Stowage.Proofs.Package.Manifests
import Stowage.Proofs.Resolution.Lookup

open Stowage.Path

namespace Stowage

theorem Disk.exists_canonicalize {d : Disk} {p : Path} (h : d.isFile p = true) : ∃ q, d.canonicalize p = .ok q := by
  unfold isFile at h
  unfold canonicalize
  rcases hf : d.find p with e | ⟨l, e⟩
  · rw [hf] at h
    cases h
  · exact ⟨_, rfl⟩

/-! ## Local specifiers -/

namespace Specifier

theorem isLocal_eq_false : ∀ s ∈ runtimeModules, isLocal s = false := by decide +kernel

/-- The first component of a local specifier is no name. -/
theorem head?_components_of_isLocal {s : String} (h : isLocal s = true) :
    ((⟨s⟩ : Path).isAbsolute = true ∧ (⟨s⟩ : Path).components.head? = some .root) ∨
      (⟨s⟩ : Path).components.head? = some .here ∨ (⟨s⟩ : Path).components.head? = some .up := by
  unfold isLocal at h
  unfold components isAbsolute
  dsimp only
  split at h
  · rename_i hs
    rw [hs]
    exact .inr (.inl rfl)
  · rename_i hs
    rw [hs]
    exact .inr (.inr rfl)
  · rename_i r hs
    rw [hs]
    refine .inr (.inl ?_)
    simp [componentsOf, segments]
  · rename_i r hs
    rw [hs]
    refine .inr (.inr ?_)
    simp [componentsOf, segments, Component.ofSegment]
  · rename_i hs
    rw [hs]
    exact .inl ⟨rfl, rfl⟩
  · cases h

end Specifier

namespace Lookup

variable {d : Disk} {p f base : Path} {s : String}

/-- A local specifier is looked up as a path, and what that stands for is told without links. -/
theorem find_local (hs : Specifier.isLocal s = true) (hbase : d.isFile base = false) : find d base s =
    ((path d (base / s)).toOption.join.bind fun g => (d.canonicalize g).toOption).map Resolution.file := by
  have hcore : isCore s = false := by
    unfold isCore
    rw [Bool.and_eq_false_iff]
    refine .inl (Bool.eq_false_iff.2 fun hmem => ?_)
    rw [Specifier.isLocal_eq_false s (List.contains_iff_mem.1 hmem)] at hs
    cases hs
  unfold find
  rw [hcore, hbase, if_neg Bool.false_ne_true, if_neg Bool.false_ne_true]
  dsimp only
  -- an absolute specifier replaces the base when they are joined, so all three ways look at the joined path
  rcases Specifier.head?_components_of_isLocal hs with ⟨habs, hhead⟩ | hhead | hhead
  · have hjoin : base / s = ⟨s⟩ := by
      show base.join ⟨s⟩ = _
      unfold join
      rw [if_pos habs]
    rw [hhead, hjoin]
    dsimp only
    rcases path d ⟨s⟩ with e | _ | g <;> rfl
  · rw [hhead]
    dsimp only
    rcases path d (base / s) with e | _ | g <;> rfl
  · rw [hhead]
    dsimp only
    rcases path d (base / s) with e | _ | g <;> rfl

/-! ## Extensions -/

/-- The extensions that the runtime adds to a path, in its order. -/
def runtimeExtensions : List String := ["js", "json", "node", "mjs", "cjs"]

/-- The path with an extension added to its file name. A path that ends by going up has no file name. -/
def extended? (p : Path) (ext : String) : Option Path := p.fileName.map fun name => p.withFileName (name ++ "." ++ ext)

/-- The first file that the path names with one of some extensions. -/
def firstFile (d : Disk) (p : Path) (exts : List String) : Option Path := (exts.filterMap (extended? p)).find? d.isFile

/-- The extensions that are tried before `ext` and that the runtime does not add. -/
def rivals (ext : String) : List String := (extensions.takeWhile (· ≠ ext)).filter (· ∉ runtimeExtensions)

example : rivals "js" = ["ts", "tsx"] ∧ rivals "json" = ["ts", "tsx", "jsx"] ∧ rivals "mjs" = rivals "json" := by
  decide

theorem file_eq (h : d.isFile p = false) : file d p = firstFile d p extensions := by
  unfold file firstFile extended?
  rw [h]
  rcases p.fileName with _ | name
  · rfl
  · rfl

theorem firstFile_append (exts exts' : List String) :
    firstFile d p (exts ++ exts') = (firstFile d p exts).or (firstFile d p exts') := by
  unfold firstFile
  rw [List.filterMap_append, List.find?_append]

theorem firstFile_cons_of_file {ext : String} (hpath : extended? p ext = some f) (hfile : d.isFile f = true)
    (exts : List String) : firstFile d p (ext :: exts) = some f := by
  unfold firstFile
  rw [List.filterMap_cons_some hpath, List.find?_cons_of_pos hfile]

theorem firstFile_cons_of_not_file {ext : String} (h : ∀ g, extended? p ext = some g → d.isFile g = false)
    (exts : List String) : firstFile d p (ext :: exts) = firstFile d p exts := by
  unfold firstFile
  rcases hpath : extended? p ext with _ | g
  · rw [List.filterMap_cons_none hpath]
  · rw [List.filterMap_cons_some hpath, List.find?_cons_of_neg (by simp [h g hpath])]

theorem firstFile_eq_none {exts : List String} :
    firstFile d p exts = none ↔ ∀ ext ∈ exts, ∀ g, extended? p ext = some g → d.isFile g = false := by
  unfold firstFile
  simp only [List.find?_eq_none, List.mem_filterMap, Bool.not_eq_true]
  exact ⟨fun h ext hext g hg => h g ⟨ext, hext, hg⟩, fun h g ⟨ext, hext, hg⟩ => h ext hext g hg⟩

/-- Extensions with which the path names no file may be left out. -/
theorem firstFile_filter {exts : List String} (keeps : String → Bool)
    (h : ∀ ext ∈ exts, keeps ext = false → ∀ g, extended? p ext = some g → d.isFile g = false) :
    firstFile d p (exts.filter keeps) = firstFile d p exts := by
  -- the induction is on the extensions; past one that is kept, only what the others lead to matters
  induction exts with
  | nil => rfl
  | cons ext exts ih =>
    have ih := ih fun e he => h e (List.mem_cons_of_mem _ he)
    by_cases hkeep : keeps ext = true
    · rw [List.filter_cons_of_pos hkeep]
      exact (firstFile_append [ext] _).trans ((congrArg _ ih).trans (firstFile_append [ext] exts).symm)
    · have hno := h ext List.mem_cons_self (Bool.eq_false_of_not_eq_true hkeep)
      rw [List.filter_cons_of_neg hkeep, ih, firstFile_cons_of_not_file hno]

/-- With the extension `ext` the path names a file, and with none of those that the runtime adds before. -/
structure Loads (d : Disk) (p : Path) (ext : String) (f : Path) : Prop where
  mem : ext ∈ runtimeExtensions
  path : extended? p ext = some f
  isFile : d.isFile f = true
  first : firstFile d p (runtimeExtensions.takeWhile (· ≠ ext)) = none

theorem split_at_mem {ext : String} {exts : List String} (h : ext ∈ exts) :
    ∃ rest, exts = exts.takeWhile (· ≠ ext) ++ ext :: rest := by
  obtain ⟨before, rest, rfl, hno⟩ := List.eq_append_cons_of_mem h
  have hbefore : ∀ e ∈ before, decide (e ≠ ext) = true := fun e he => decide_eq_true fun heq => hno (heq ▸ he)
  refine ⟨rest, ?_⟩
  rw [List.takeWhile_append_of_pos hbefore, List.takeWhile_cons_of_neg (by simp), List.append_nil]

theorem exists_of_firstFile {exts : List String} (h : firstFile d p exts = some f) : ∃ ext ∈ exts,
    extended? p ext = some f ∧ d.isFile f = true ∧ firstFile d p (exts.takeWhile (· ≠ ext)) = none := by
  induction exts with
  | nil => cases h
  | cons e exts ih =>
    by_cases hno : ∀ g, extended? p e = some g → d.isFile g = false
    · rw [firstFile_cons_of_not_file hno] at h
      obtain ⟨ext, hmem, hpath, hfile, hfirst⟩ := ih h
      have hne : e ≠ ext := by
        rintro rfl
        rw [hno f hpath] at hfile
        cases hfile
      refine ⟨ext, List.mem_cons_of_mem _ hmem, hpath, hfile, ?_⟩
      rw [List.takeWhile_cons_of_pos (by simpa using hne), firstFile_cons_of_not_file hno, hfirst]
    · push Not at hno
      obtain ⟨g, hpath, hfile⟩ := hno
      have hfile : d.isFile g = true := by simpa using hfile
      rw [firstFile_cons_of_file hpath hfile] at h
      cases h
      refine ⟨e, List.mem_cons_self, hpath, hfile, ?_⟩
      rw [List.takeWhile_cons_of_neg (by simp)]
      rfl

/-- The runtime loads the first file among those that its extensions lead to. -/
theorem exists_loads_iff : (∃ ext, Loads d p ext f) ↔ firstFile d p runtimeExtensions = some f := by
  constructor
  · rintro ⟨ext, h⟩
    obtain ⟨rest, hsplit⟩ := split_at_mem h.mem
    rw [hsplit, firstFile_append, h.first, firstFile_cons_of_file h.path h.isFile]
    rfl
  · intro h
    obtain ⟨ext, hmem, hpath, hfile, hfirst⟩ := exists_of_firstFile h
    exact ⟨ext, hmem, hpath, hfile, hfirst⟩

theorem runtime_before : ∀ ext ∈ runtimeExtensions, ∀ e ∈ extensions.takeWhile (· ≠ ext), e ∈ runtimeExtensions →
    e ∈ runtimeExtensions.takeWhile (· ≠ ext) := by decide

/-- The file that the runtime loads is found where no rival is a file, if the lookup tries its extension at all. -/
theorem firstFile_extensions {ext : String} (h : Loads d p ext f) : firstFile d p extensions =
    (firstFile d p (rivals ext)).or (if ext ∈ extensions then some f else none) := by
  have hrivals : firstFile d p (rivals ext) = firstFile d p (extensions.takeWhile (· ≠ ext)) := by
    refine firstFile_filter _ fun e he hruntime g hg => ?_
    have hmem : e ∈ runtimeExtensions := by simpa using hruntime
    exact firstFile_eq_none.1 h.first e (runtime_before ext h.mem e he hmem) g hg
  split
  · rename_i hmem
    obtain ⟨rest, hsplit⟩ := split_at_mem hmem
    rw [hrivals, ← firstFile_cons_of_file h.path h.isFile rest, ← firstFile_append, ← hsplit]
  · rename_i hmem
    -- an extension that is not tried has all the others before it
    have hall : extensions.takeWhile (· ≠ ext) = extensions :=
      List.takeWhile_eq_self_iff.2 fun e he => decide_eq_true fun heq => hmem (heq ▸ he)
    rw [hrivals, hall, Option.or_none]

/-- What a path that is no file stands for: the first file that an extension leads to, or else what it stands for as a
directory. -/
def StandsFor (d : Disk) (p g : Path) : Prop := firstFile d p extensions = some g ∨
  firstFile d p extensions = none ∧ directory d (d.entries.length + 1) p = .ok (some g)

theorem path_eq_some (hno : d.isFile p = false) {g : Path} : path d p = .ok (some g) ↔ StandsFor d p g := by
  unfold path StandsFor
  rw [file_eq hno]
  rcases firstFile d p extensions with _ | f
  · simp
  · simp [eq_comm]

/-- The file that a path that is no file stands for, told without links. -/
def Finds (d : Disk) (p q : Path) : Prop := ∃ g, StandsFor d p g ∧ d.canonicalize g = .ok q

theorem find_eq_some (hs : Specifier.isLocal s = true) (hbase : d.isFile base = false)
    (hno : d.isFile (base / s) = false) {found : Resolution} :
    find d base s = some found ↔ ∃ q, Finds d (base / s) q ∧ found = .file q := by
  have hok : ∀ {ε α : Type} {r : Except ε α} {a : α}, r.toOption = some a ↔ r = .ok a := fun {_ _ r a} =>
    ⟨ok_of_toOption, fun h => h ▸ rfl⟩
  rw [find_local hs hbase, Option.map_eq_some_iff]
  simp only [Option.bind_eq_some_iff, Option.join_eq_some_iff, hok, path_eq_some hno]
  exact ⟨fun ⟨q, hq, hfound⟩ => ⟨q, hq, hfound.symm⟩, fun ⟨q, hq, hfound⟩ => ⟨q, hq, hfound.symm⟩⟩

/-- What the lookup comes to is the file that the runtime loads exactly if the first rival that is a file, if any, leads
there, and otherwise the lookup tries the extension or comes to it by the directory. -/
theorem finds_iff {ext : String} (h : Loads d p ext f) {q : Path} (hq : d.canonicalize f = .ok q) : Finds d p q ↔
    (∀ g, firstFile d p (rivals ext) = some g → d.canonicalize g = .ok q) ∧
    (firstFile d p (rivals ext) = none → ext ∈ extensions ∨
      ∃ g, directory d (d.entries.length + 1) p = .ok (some g) ∧ d.canonicalize g = .ok q) := by
  unfold Finds StandsFor
  rw [firstFile_extensions h]
  rcases firstFile d p (rivals ext) with _ | rival
  · by_cases hmem : ext ∈ extensions
    · simp [hmem, hq]
    · simp [hmem]
  · simp

end Lookup

namespace Resolver

open Lookup

variable {d : Disk} {base : Path} {s : String}

theorem answer_local (r : Resolver) (known : Manifests) (hs : Specifier.isLocal s = true)
    (hbuiltin : r.isBuiltin s = false) : (r.fromDirectory d base s).answer known =
      ((Lookup.find d base s).map Except.ok).getD (.error (.moduleNotFound s base)) := by
  unfold fromDirectory
  rw [hbuiltin, hs]
  rcases Lookup.find d base s <;> rfl

/-- A local specifier that names no file without an extension. The file is found that its path stands for, or else the module
is missing. Of the files that it names with the extensions that the runtime adds the first one is found exactly if the first
rival that is a file leads to it, or if there is no rival and its extension is tried or the directory of the path leads
to it. -/
theorem local_found_iff (r : Resolver) (known : Manifests) (hs : Specifier.isLocal s = true)
    (hbuiltin : r.isBuiltin s = false) (hbase : d.isFile base = false) (hno : d.isFile (base / s) = false) :
    (∀ q, (r.fromDirectory d base s).answer known = .ok (.file q) ↔ Finds d (base / s) q) ∧
    ((∀ q, ¬ Finds d (base / s) q) → (r.fromDirectory d base s).answer known = .error (.moduleNotFound s base)) ∧
    ∀ f, firstFile d (base / s) runtimeExtensions = some f → ∃ ext q, Loads d (base / s) ext f ∧
      d.canonicalize f = .ok q ∧ ((r.fromDirectory d base s).answer known = .ok (.file q) ↔
        (∀ g, firstFile d (base / s) (rivals ext) = some g → d.canonicalize g = .ok q) ∧
        (firstFile d (base / s) (rivals ext) = none → ext ∈ extensions ∨
          ∃ g, directory d (d.entries.length + 1) (base / s) = .ok (some g) ∧ d.canonicalize g = .ok q)) := by
  have hfound : ∀ q, (r.fromDirectory d base s).answer known = .ok (.file q) ↔ Finds d (base / s) q := by
    intro q
    rw [r.answer_local known hs hbuiltin]
    have hiff : find d base s = some (.file q) ↔ Finds d (base / s) q := by
      rw [find_eq_some hs hbase hno]
      refine ⟨fun ⟨q', hq', heq⟩ => ?_, fun hq => ⟨q, hq, rfl⟩⟩
      cases heq
      exact hq'
    rw [← hiff]
    rcases find d base s with _ | found
    · simp
    · simp
  refine ⟨hfound, fun hnone => ?_, fun f hf => ?_⟩
  · have hmissing : find d base s = none := by
      rcases hfind : find d base s with _ | found
      · rfl
      · obtain ⟨q, hq, -⟩ := (find_eq_some hs hbase hno).1 hfind
        exact absurd hq (hnone q)
    rw [r.answer_local known hs hbuiltin, hmissing]
    rfl
  · obtain ⟨ext, hloads⟩ := exists_loads_iff.2 hf
    obtain ⟨q, hq⟩ := Disk.exists_canonicalize hloads.isFile
    exact ⟨ext, q, hloads, hq, (hfound q).trans (finds_iff hloads hq)⟩

/-- A script beside the source that it was compiled from, and a module with an extension that the lookup does not know. -/
def typed : Disk :=
  ⟨[(["lone.mjs"], .file (.text "")), (["util.js"], .file (.text "")), (["util.ts"], .file (.text ""))], []⟩

def top : Path := ⟨"/"⟩

theorem local_found_iff_typed :
    (firstFile typed (top / "./util") runtimeExtensions = some ⟨"/util.js"⟩ ∧
      (standard.fromDirectory typed top "./util").answer .empty = .ok (.file ⟨"/util.ts"⟩)) ∧
    firstFile typed (top / "./lone") runtimeExtensions = some ⟨"/lone.mjs"⟩ ∧
      (standard.fromDirectory typed top "./lone").answer .empty = .error (.moduleNotFound "./lone" top) := by
  have hutil := @local_found_iff typed top "./util" standard .empty (by decide +kernel)
    (by decide +kernel) (by decide +kernel) (by decide +kernel)
  have hlone := @local_found_iff typed top "./lone" standard .empty (by decide +kernel)
    (by decide +kernel) (by decide +kernel) (by decide +kernel)
  have hrival : firstFile typed (top / "./util") extensions = some ⟨"/util.ts"⟩ := by decide +kernel
  have hnone : firstFile typed (top / "./lone") extensions = none := by decide +kernel
  have hdirectory : directory typed (typed.entries.length + 1) (top / "./lone") = .ok none := by decide +kernel
  refine ⟨⟨by decide +kernel, (hutil.1 _).2 ⟨_, .inl hrival, by decide +kernel⟩⟩, by decide +kernel, hlone.2.1 ?_⟩
  rintro q ⟨g, hfirst | ⟨-, hfound⟩, -⟩
  · rw [hnone] at hfirst
    cases hfirst
  · rw [hdirectory] at hfound
    cases hfound

end Resolver
end Stowage
