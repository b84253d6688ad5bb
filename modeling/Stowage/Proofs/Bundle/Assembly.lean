/-
What is put together for an archive is complete. Every file of the trace and of the expansion is an entry, and so is
every link that leads somewhere; a generated file takes the place of what was traced or expanded under its name. The
manifest that is written for the archive is a generated file unless a link is in its place: then it is written to where
the link leads, and the archive has the manifest that was traced.
-/
import Stowage.Proofs.Archive.Kept
import Stowage.Proofs.Bundle.Gathering
import Stowage.Proofs.Bundle.Names
import Stowage.Proofs.Disk.Filled

open Stowage.Path

namespace Stowage.Bundle

open Archive Contents Disk

variable {s : Project} {ms : Manifests} {o : BundleSettings} {c : Compiled} {w w' : World} {x : Assembled}

namespace Assembles

variable (hx : Assembles s ms o c w x w')
include hx

/-! ## Names -/

theorem isClean_serviceName : IsClean x.serviceName := isClean_of_nameBelow hx.serviceName

theorem isClean_traced {n : String} (hn : n ∈ x.traced.files ∨ n ∈ x.traced.links) : IsClean n := by
  obtain ⟨limits, -, htraced, -⟩ := hx.traced
  exact Trace.clean_trace _ _ _ ms _ _ (Prod.ext htraced rfl) n hn

theorem isClean_expanded {n : String} (hn : n ∈ x.expansion.files) : IsClean n := by
  obtain ⟨limits, -, -, hexpanded⟩ := hx.traced
  obtain ⟨st, hst, hst'⟩ := expandForced_ok hexpanded
  have hclean := hst.keeps (Expand.clean_expandAll _ _ _ _ _) fun m hm => by
    rcases hm with hm | hm <;> exact absurd hm List.not_mem_nil
  exact hclean n (.inl (hst' ▸ hn))

/-- No name is there twice. -/
theorem nodup : x.contents.names.Nodup :=
  ((scripted_collect _ _ _ _ _ _).ordered hx.collected (ordered_create _ _)).nodup

/-- What was traced and what was expanded is there. -/
theorem mem_names {n : String} (hn : n ∈ x.traced.files ∨ n ∈ x.expansion.files) :
    n ∈ x.contents.names := by
  refine (mem_names_collect hx.collected).2 ?_
  rcases hn with hn | hn
  · exact .inl (List.mem_map.2 ⟨n, hn, (hx.isClean_traced (.inl hn)).bareText⟩)
  · exact .inr (.inr (.inl (List.mem_map.2 ⟨n, hn, (hx.isClean_expanded hn).bareText⟩)))

theorem root_eq : x.contents.root = (create w'.disk s.root).root :=
  (scripted_collect _ _ _ _ _ _).root_eq hx.collected

/-- A traced link that leads somewhere is there. -/
theorem mem_names_of_link {n : String} (hn : n ∈ x.traced.links) {target : Path}
    (ht : w'.disk.canonicalize (x.contents.root / n) = .ok target) : n ∈ x.contents.names := by
  obtain ⟨a₁, a₂, a₃, hlinks, hplaces, hgenerated, hextras⟩ := gives_collect hx.collected
  have hroot : ((create w'.disk s.root).putFiles x.traced.files).root = x.contents.root := by
    rw [putFiles_eq, root_addAll, hx.root_eq]
  refine (scripted_addAllNamed _ _).mem_names hextras ?_
  refine (scripted_replaceTree _ _ _).mem_names hgenerated ?_
  refine (scripted_addAllNamed _ _).mem_names hplaces (mem_names_putFiles.2 (.inl ?_))
  exact mem_names_addAllNamed_of_mem (hx.isClean_traced (.inr hn)) (hroot ▸ ht) hn hlinks

section
variable (hpieces : ∀ e ∈ w'.disk.entries, ∀ n ∈ e.1, IsPiece n)
include hpieces

/-- A generated file is there, and it is the one that its name stands for unless an extra took its place. -/
theorem generated {n : String} {f : Path} (hf : Generated w'.disk x.serviceName c.workDir n f) :
    n ∈ x.contents.names ∧ (¬ Brings w'.disk s.root (o.extras.map (extraName x.serviceName)) n →
      (n, .file f) ∈ x.contents.entries) := by
  obtain ⟨a₁, a₂, a₃, hlinks, hplaces, hgenerated, hextras⟩ := gives_collect hx.collected
  have hsource := source?_replaceTree hpieces hx.isClean_serviceName hgenerated hf
  have hroot : a₃.root = (create w'.disk s.root).root :=
    ((scripted_addAllNamed _ _).root_eq hextras).symm.trans hx.root_eq
  refine ⟨?_, fun hno => mem_of_source? ?_⟩
  · exact (scripted_addAllNamed _ _).mem_names hextras (List.mem_map_of_mem (mem_of_source? hsource))
  · rw [source?_addAllNamed hroot hextras hno, hsource]

end

/-! ## The manifest -/

section
variable (hd : w.disk.Sound)
include hd

/-- The manifest is written to where its path leads, in the working directory or through a link in its place. -/
theorem exists_put : ∃ loc top, w.disk.Vacant (c.workDir / manifestName) loc ∧
    w'.disk = w.disk.put loc (.file (.text (Json.pretty x.packed))) ∧
    w.disk.find c.workDir = .ok (top, .directory) ∧ w'.disk.find c.workDir = .ok (top, .directory) ∧
    (w.disk.isLink (c.workDir / manifestName) = false ↔ loc = top ++ [manifestName]) := by
  have hstorable : IsStorable manifestName := by decide
  obtain ⟨loc, hvacant, hput⟩ : ∃ loc, w.disk.Vacant (c.workDir / manifestName) loc ∧
      w'.disk = w.disk.put loc (.file (.text (Json.pretty x.packed))) := by
    have hwritten := hx.written
    unfold Gives at hwritten
    rcases run_write_vacant hd (c.workDir / manifestName) (.text (Json.pretty x.packed)) with
      ⟨e, he⟩ | ⟨loc, hvacant, hrun⟩
    · rw [he] at hwritten; cases hwritten
    · rw [hrun] at hwritten
      exact ⟨loc, hvacant, (Prod.mk.inj hwritten).2.symm⟩
  have hkept : Kept w.disk w'.disk := hput ▸
    (filled_put (P := fun _ => True) trivial hvacant.ne_directory hvacant.ne_link _).kept
  -- the tree of the working directory was told, so its path can be walked
  have hchecked : checked c.workDir = .ok () := by
    obtain ⟨a₁, a₂, a₃, -, -, hgenerated, -⟩ := gives_collect hx.collected
    unfold Gives at hgenerated
    rw [run_replaceTree] at hgenerated
    unfold tree typeOf at hgenerated
    rw [locate_eq] at hgenerated
    rcases hc : checked c.workDir with e | u
    · rw [hc] at hgenerated; cases hgenerated
    · rfl
  obtain ⟨top, htop⟩ := exists_directory_of_locate hstorable.toIsPiece hchecked hvacant.leads
  have htop' : w'.disk.locate true c.workDir = .ok (.found top .directory) := by
    have hl := locate_kept hd hkept htop
    have he := hkept.directory top (entry?_of_locate hd htop)
    rw [hl, show (Place.found top Entry.directory).location = top from rfl, place_of_some he]
  have hfind : ∀ {d : Disk}, d.locate true c.workDir = .ok (.found top .directory) →
      d.find c.workDir = .ok (top, .directory) := fun h => by unfold find; rw [h]; rfl
  refine ⟨loc, top, hvacant, hput, hfind htop, hfind htop', fun hlink => ?_, fun hloc => ?_⟩
  · have hl := hvacant.leads
    rw [locate_true hlink, locate_child hstorable htop] at hl
    have hplace := congrArg Place.location (Except.ok.inj hl)
    rwa [location_place, location_place, eq_comm] at hplace
  · have hno := hvacant.ne_link
    rw [hloc] at hno
    unfold isLink typeOf
    rw [locate_child hstorable htop]
    rcases he : w.disk.entry? (top ++ [manifestName]) with _ | (_ | t | _)
    · rw [place_of_none he]; rfl
    · rw [place_of_some he]; rfl
    · exact absurd he (hno t)
    · rw [place_of_some he]; rfl

variable (hn : w.disk.WellNamed)
include hn

/-- Everything is stored under pieces of paths. -/
theorem isPiece_entries : ∀ e ∈ w'.disk.entries, ∀ n ∈ e.1, IsPiece n := by
  obtain ⟨loc, top, hvacant, hput, -⟩ := hx.exists_put hd
  intro e he n hm
  rw [hput] at he
  rcases mem_insert he with rfl | he
  · have hloc := locate_enters w.disk (P := IsPiece) (fun p s hs h1 _ => isPiece_of_mem_steps hs h1)
      (fun m hm => (hn.here m hm).toIsPiece) hvacant.leads
    unfold place at hloc
    split at hloc <;> exact hloc n hm
  · exact (hn.stored e he n hm).toIsPiece

/-- The manifest for the archive can be read in the working directory. It is a generated file unless a link was in
its place. -/
theorem manifest : w'.disk.read (c.workDir / manifestName) = .ok (.text (Json.pretty x.packed)) ∧
    (Generated w'.disk x.serviceName c.workDir (slashJoin x.serviceName manifestName)
      (c.workDir / manifestName) ↔ w.disk.isLink (c.workDir / manifestName) = false) := by
  have hpieces := hx.isPiece_entries hd hn
  obtain ⟨loc, top, hvacant, hput, hbefore, hfind, hlink⟩ := hx.exists_put hd
  have hstorable : IsStorable manifestName := by decide
  have hsingle : joined [manifestName] = manifestName := String.intercalate_singleton
  have hentry : ∀ l, w'.disk.entry? l =
      if l = loc then some (.file (.text (Json.pretty x.packed))) else w.disk.entry? l := fun l => by
    rw [hput, entry?_put w.disk (ne_nil_of_not_directory hvacant.ne_directory)]
  refine ⟨hput ▸ hvacant.read_put hd _, ?_, fun hno => ?_⟩
  · rintro ⟨top', names, content, htop', hne, he, -, hname⟩
    rw [hfind] at htop'
    cases htop'
    have hmem := mem_entries (by simp [hne]) he
    have hnames : [manifestName] = names := hx.isClean_serviceName.slashJoin_injective
      (fun m hm => List.mem_singleton.1 hm ▸ hstorable.toIsPiece)
      (fun m hm => hpieces _ hmem m (List.mem_append_right _ hm)) (hsingle.symm ▸ hname)
    rw [← hnames, hentry] at he
    split at he
    · rename_i hloc
      exact hlink.2 hloc.symm
    · -- what is there besides is a file that was there before
      unfold isLink typeOf
      rw [locate_child hstorable (locate_of_find hbefore), place_of_some he]
      rfl
  · exact ⟨top, [manifestName], _, hfind, by simp, by rw [hentry, if_pos (hlink.1 hno).symm], rfl,
      by rw [hsingle]⟩

end

end Assembles

/-! ## What is complete -/

/-- Whatever is put together for an archive: no name is there twice; all files that were traced or expanded are
there and each traced link that leads somewhere; and each generated file is there, and is what its name stands for unless
an extra brings in that name. The working directory is there with a manifest for the archive, which is one of the
generated files exactly if no link was in its place before. -/
theorem assemble_complete (hd : w.disk.Sound) (hn : w.disk.WellNamed)
    (h : Gives (assemble s ms o c) w x w') :
    x.contents.names.Nodup ∧
    (∀ n, n ∈ x.traced.files ∨ n ∈ x.expansion.files → n ∈ x.contents.names) ∧
    (∀ n ∈ x.traced.links, ∀ target, w'.disk.canonicalize (x.contents.root / n) = .ok target →
      n ∈ x.contents.names) ∧
    (∀ n f, Generated w'.disk x.serviceName c.workDir n f → n ∈ x.contents.names ∧
      (¬ Brings w'.disk s.root (o.extras.map (extraName x.serviceName)) n →
        (n, .file f) ∈ x.contents.entries)) ∧
    w'.disk.isDirectory c.workDir = true ∧
    w'.disk.read (c.workDir / manifestName) = .ok (.text (Json.pretty x.packed)) ∧
    (Generated w'.disk x.serviceName c.workDir (slashJoin x.serviceName manifestName)
      (c.workDir / manifestName) ↔ w.disk.isLink (c.workDir / manifestName) = false) := by
  have hx := gives_assemble h
  obtain ⟨-, top, -, -, -, hfind, -⟩ := hx.exists_put hd
  obtain ⟨hread, hgenerated⟩ := hx.manifest hd hn
  exact ⟨hx.nodup, fun n => hx.mem_names, fun n hn target => hx.mem_names_of_link hn,
    fun n f => hx.generated (hx.isPiece_entries hd hn), w'.disk.isDirectory_iff.2 ⟨top, locate_of_find hfind⟩,
    hread, hgenerated⟩

/-! ### A link in the place of the manifest -/

/-- A service whose working directory has a link where the manifest is to be written. -/
def linked : Disk where
  entries := [
    (["lib"], .directory),
    (["lib", "main.js"], .file (.text "")),
    (["lib", "package.json"], .link "real.json"),
    (["lib", "real.json"], .file (.text "\x7b\x7d")),
    (["package.json"], .file (.text "\x7b\"name\":\"app\"\x7d"))]
  here := []

def linkedProject : Project := ⟨⟨"/"⟩, ⟨"/"⟩, Resolver.standard.resolve⟩

def linkedSettings : BundleSettings where
  serviceDir := ⟨"/"⟩
  entries := [("main", ⟨"main.js"⟩)]
  output := some ⟨"/out"⟩
  format := .zip
  level := 9
  sourceType := .commonJs
  externals := []
  forceInclude := []
  exclude := []
  extras := []
  optionalModules := []
  ignorePaths := []
  buildDir := ⟨"lib"⟩
  strict := false
  keepBuild := true

theorem sound_linked : linked.Sound := ⟨by decide, by decide⟩

theorem wellNamed_linked : linked.WellNamed := ⟨by decide, by decide, by decide⟩

def linkedCompiled : Compiled := ⟨[("main", ⟨"/lib/main.js"⟩)], ⟨"/lib"⟩⟩

/-- The manifest of the service is what the archive has, since the one that was written for the archive is no
generated file. The link is a file of the archive under the name of its target only. -/
theorem assemble_complete_linked : ∃ x w',
    Gives (assemble linkedProject .empty linkedSettings linkedCompiled) ⟨linked, []⟩ x w' ∧
    x.contents.entries = [("main.js", .file ⟨"/lib/main.js"⟩), ("package.json", .file ⟨"/package.json"⟩),
      ("real.json", .file ⟨"/lib/real.json"⟩)] ∧
    w'.disk.read (linkedCompiled.workDir / manifestName) = .ok (.text (Json.pretty x.packed)) ∧
    ¬ Generated w'.disk "" linkedCompiled.workDir manifestName (linkedCompiled.workDir / manifestName) := by
  have hrun : shown (assemble linkedProject .empty linkedSettings linkedCompiled) ⟨linked, []⟩
      (fun x _ => (x.contents.entries, x.serviceName)) =
      some ([("main.js", .file ⟨"/lib/main.js"⟩), ("package.json", .file ⟨"/package.json"⟩),
        ("real.json", .file ⟨"/lib/real.json"⟩)], "") := by decide +kernel
  have hlink : linked.isLink (linkedCompiled.workDir / manifestName) = true := by decide +kernel
  obtain ⟨x, w', hx, hshown⟩ := exists_gives hrun
  obtain ⟨hentries, hname⟩ := Prod.mk.inj hshown
  obtain ⟨-, -, -, -, -, hread, hgenerated⟩ := assemble_complete sound_linked wellNamed_linked hx
  refine ⟨x, w', hx, hentries, hread, fun h => ?_⟩
  rw [hname] at hgenerated
  have hno := hgenerated.1 h
  change linked.isLink _ = false at hno
  rw [hlink] at hno
  cases hno

end Stowage.Bundle
