/-
What a script needs: the files that local references of its code mean. Filling a disk changes what a reference
means only where a path that is tried for it leads to a file that was not there before.
-/
import Mathlib.Data.List.Find
import Stowage.Proofs.Compile.Compiler
import Stowage.Proofs.Disk.Filled
import Stowage.Proofs.Package.Manifests

open Stowage.Path

namespace Stowage.Compile

variable (transpile : Transpile) (root workDir : Path) (format : SourceType)

/-- The code of a script has a local reference, which asks for a path. -/
inductive Refers (d : Disk) (source : Path) : Path → Prop
  | intro {text code : String} {refs : Script.References} {specifier : String}
      {kind : Trace.ReferenceKind} (hscript : isScript source = true)
      (htext : d.readText source = .ok text) (hcode : transpile format source text = .ok code)
      (hrefs : Script.References.ofText code = some refs) (hmem : (specifier, kind) ∈ refs.static)
      (hlocal : Specifier.isLocal specifier = true) :
      Refers d source (source.parent?.getD source / specifier)

/-- A script has a local reference that means the file, which lies inside the root and outside of the directory
of the output. -/
structure Needs (d : Disk) (source file : Path) : Prop where
  means : ∃ target, Refers transpile format d source target ∧ localSource d target = some file
  inside : file.startsWith root = true
  outside : file.startsWith workDir = false

variable {transpile root workDir format}

/-- What a script refers to depends on the disk only by the text of the script. -/
theorem refers_congr {d d' : Disk} {source target : Path}
    (h : d'.readText source = d.readText source) :
    Refers transpile format d' source target ↔ Refers transpile format d source target := by
  constructor
  · rintro ⟨hscript, htext, hcode, hrefs, hmem, hlocal⟩
    exact ⟨hscript, h ▸ htext, hcode, hrefs, hmem, hlocal⟩
  · rintro ⟨hscript, htext, hcode, hrefs, hmem, hlocal⟩
    exact ⟨hscript, h ▸ htext, hcode, hrefs, hmem, hlocal⟩

/-- The paths that the code of a script refers to, as a list. -/
def references (transpile : Transpile) (format : SourceType) (d : Disk) (source : Path) : List Path :=
  if isScript source then
    match d.readText source with
    | .error _ => []
    | .ok text =>
      match transpile format source text with
      | .error _ => []
      | .ok code =>
        match Script.References.ofText code with
        | none => []
        | some refs => (refs.static.filter fun r => Specifier.isLocal r.1).map fun r =>
            source.parent?.getD source / r.1
  else []

/-- Compiling a source gives what it needs on the disk as it is before the output is written. -/
theorem mem_imports_iff {source output file : Path} {imports : List Path} {w w' : World}
    (h : Gives (compileTo transpile root workDir format source output) w imports w') :
    file ∈ imports ↔ Needs transpile root workDir format w.disk source file := by
  unfold compileTo at h
  split at h
  · rename_i hscript
    obtain ⟨_, w₁, -, h₁⟩ := gives_bind.1 h
    obtain ⟨rfl, -⟩ := gives_pure.1 h₁
    refine ⟨fun hfile => absurd hfile List.not_mem_nil, fun hneeds => ?_⟩
    obtain ⟨_, ⟨hscript', _⟩, -⟩ := hneeds.means
    rw [hscript'] at hscript
    exact absurd hscript Bool.false_ne_true
  · rename_i hscript
    obtain ⟨text, w₁, ht, h₁⟩ := gives_bind.1 h
    obtain ⟨htext, rfl⟩ := Action.gives_ask.1 ht
    split at h₁
    · exact absurd h₁ gives_throw
    · rename_i code hcode
      obtain ⟨d, w₂, hdisk, h₂⟩ := gives_bind.1 h₁
      obtain ⟨rfl, rfl⟩ := Action.gives_disk.1 hdisk
      obtain ⟨_, w₃, -, h₃⟩ := gives_bind.1 h₂
      obtain ⟨rfl, -⟩ := gives_pure.1 h₃
      have hsources : file ∈ localSources w₂.disk source code ↔
          ∃ target, Refers transpile format w₂.disk source target ∧
            localSource w₂.disk target = some file := by
        unfold localSources
        constructor
        · intro hfile
          split at hfile
          · exact absurd hfile List.not_mem_nil
          · rename_i refs hrefs
            obtain ⟨r, hr, hmeans⟩ := List.mem_filterMap.1 hfile
            obtain ⟨hmem, hlocal⟩ := List.mem_filter.1 hr
            exact ⟨_, .intro (by simpa using hscript) htext hcode hrefs hmem hlocal, hmeans⟩
        · rintro ⟨_, ⟨-, htext', hcode', hrefs, hmem, hlocal⟩, hmeans⟩
          -- the text and its code are the ones that were compiled
          obtain rfl := Except.ok.inj (htext.symm.trans htext')
          obtain rfl := Except.ok.inj (hcode.symm.trans hcode')
          rw [hrefs]
          exact List.mem_filterMap.2 ⟨_, List.mem_filter.2 ⟨hmem, hlocal⟩, hmeans⟩
      rw [List.mem_filter, hsources, Bool.and_eq_true, Bool.not_eq_true']
      exact ⟨fun ⟨hmeans, hinside, houtside⟩ => ⟨hmeans, hinside, houtside⟩,
        fun ⟨hmeans, hinside, houtside⟩ => ⟨hmeans, hinside, houtside⟩⟩

/-! ## What a reference means -/

/-- A reference means the first path that leads to a file. -/
theorem localSource_eq (d : Disk) (target : Path) : localSource d target =
    ((target :: candidates target).find? d.isFile).bind fun f => (d.canonicalize f).toOption := by
  unfold localSource
  rw [List.find?_cons]
  rcases d.isFile target <;> rfl

/-- What a reference means is a file. -/
theorem file_of_localSource {d : Disk} (hd : d.Sound) (hhere : ∀ n ∈ d.here, IsName n)
    {target file : Path} (h : localSource d target = some file) :
    ∃ l y, file = ofLocation l ∧ (∀ n ∈ l, IsName n) ∧ d.entry? l = some (.file y) := by
  rw [localSource_eq] at h
  obtain ⟨f, hf, hfile⟩ := Option.bind_eq_some_iff.1 h
  have hisFile := List.find?_some hf
  obtain ⟨l, e, hfind, rfl⟩ := Disk.find_of_canonicalize (ok_of_toOption hfile)
  refine ⟨l, ?_⟩
  unfold Disk.isFile at hisFile
  rw [hfind] at hisFile
  rcases e with y | t | _
  · exact ⟨y, rfl, Disk.isName_of_find hhere hfind, (Disk.entry?_of_find hd hfind).1⟩
  · cases hisFile
  · cases hisFile

theorem Needs.file {d : Disk} (hd : d.Sound) (hhere : ∀ n ∈ d.here, IsName n) {source file : Path}
    (h : Needs transpile root workDir format d source file) :
    ∃ l y, file = ofLocation l ∧ (∀ n ∈ l, IsName n) ∧ d.entry? l = some (.file y) := by
  obtain ⟨target, -, hmeans⟩ := h.means
  exact file_of_localSource hd hhere hmeans

theorem Needs.located {d : Disk} (hd : d.Sound) (hhere : ∀ n ∈ d.here, IsName n) {source file : Path}
    (h : Needs transpile root workDir format d source file) : d.Located file := by
  obtain ⟨l, y, hfile, hnames, hentry⟩ := h.file hd hhere
  exact ⟨l, _, hfile, hnames, hentry, nofun⟩

section
variable {d d' : Disk} {P : Location → Prop} (hd : d.Sound) (h : Disk.Filled P d d')
include hd h

/-- What leads to a file still does, and to the same place. -/
theorem canonicalize_filled {p : Path} (hp : d.isFile p = true) :
    d'.isFile p = true ∧ d'.canonicalize p = d.canonicalize p := by
  unfold Disk.isFile at hp
  rcases hf : d.find p with f | ⟨l, y | t | _⟩
  · rw [hf] at hp; cases hp
  · have hentry := (Disk.entry?_of_find hd hf).1
    obtain ⟨z, hz⟩ := (h.entry l).file hentry
    have hlocate : d'.locate true p = .ok (d'.place l) :=
      Disk.locate_kept hd h.kept (Disk.locate_of_find hf)
    have hfind : d'.find p = .ok (l, .file z) := by
      rw [Disk.place_of_some hz] at hlocate
      unfold Disk.find
      rw [hlocate]
      rfl
    unfold Disk.isFile Disk.canonicalize
    rw [hfind, hf]
    exact ⟨rfl, rfl⟩
  · rw [hf] at hp; cases hp
  · rw [hf] at hp; cases hp

/-- A reference means the same if no path that is tried for it leads to a new file. -/
theorem localSource_filled {target : Path}
    (hno : ∀ p ∈ target :: candidates target, d'.isFile p = true → d.isFile p = true) :
    localSource d' target = localSource d target := by
  have hsame : ∀ p ∈ target :: candidates target, d'.isFile p = d.isFile p := by
    intro p hp
    rw [Bool.eq_iff_iff]
    exact ⟨hno p hp, fun hfile => (canonicalize_filled hd h hfile).1⟩
  rw [localSource_eq, localSource_eq, List.find?_congr hsame]
  rcases hf : (target :: candidates target).find? d.isFile with _ | f
  · rfl
  · show (d'.canonicalize f).toOption = (d.canonicalize f).toOption
    rw [(canonicalize_filled hd h (List.find?_some hf)).2]

end

end Stowage.Compile
