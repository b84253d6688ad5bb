/-
Manifests that are packed, and packed again. The packed manifest has the identity of the package and one script for each
output. Read again it is the same manifest but for the doubles of its license, so that it is packed to the same one
exactly if these are read back.
-/
import Stowage.Proofs.Bundle.Launchers
import Stowage.Proofs.Json.Records
import Stowage.Proofs.Path.Joined

namespace Stowage.Manifest

open Json

variable {σ α : Type} {m : Manifest} {outputs : List (String × Path)} {workDir : Path} {type : SourceType}

/-! ## Commands -/

theorem nameBelow_eq_error {p root : Path} {e : Error} :
    nameBelow p root = .error e ↔ p.startsWith root = false ∧ e = .outsideWorkspace p root := by
  unfold nameBelow Path.nameBelow?
  by_cases h : p.startsWith root = true
  · rw [if_pos h, h]
    exact ⟨nofun, nofun⟩
  · rw [if_neg h]
    simp only [Bool.not_eq_true] at h
    simp only [h, Except.error.injEq, true_and]
    exact eq_comm

/-- The scripts fail with the first output outside of the directory. -/
theorem launchers_eq_error (isSingle : Bool) {e : Error} : launchers isSingle workDir outputs = .error e ↔
    ∃ o, outputs.find? (fun o => !o.2.startsWith workDir) = some o ∧ e = .outsideWorkspace o.2 workDir := by
  induction outputs with
  | nil =>
    constructor
    · intro h
      cases h
    · rintro ⟨o, ho, -⟩
      cases ho
  | cons o outputs ih =>
    obtain ⟨name, path⟩ := o
    unfold launchers
    rw [List.find?_cons]
    rcases hfile : nameBelow path workDir with e' | file
    · obtain ⟨hno, rfl⟩ := nameBelow_eq_error.1 hfile
      rw [show (!path.startsWith workDir) = true from by rw [hno]; rfl]
      constructor
      · intro h
        cases h
        exact ⟨_, rfl, rfl⟩
      · rintro ⟨_, ⟨⟩, rfl⟩
        rfl
    · rw [show (!path.startsWith workDir) = false from by rw [(Path.nameBelow_eq_ok.1 hfile).1]; rfl, ← ih]
      rcases launchers isSingle workDir outputs with e' | scripts
      · exact ⟨fun h => by cases h; rfl, fun h => by cases h; rfl⟩
      · exact ⟨fun h => (by cases h), fun h => (by cases h)⟩

/-- The command has the name for the output and starts it from the directory. -/
def Starts (isSingle : Bool) (workDir : Path) (o : String × Path) (command : String × String) : Prop :=
  command.1 = launcherName isSingle o.1 ∧ ∃ file, command.2 = "node " ++ file ∧ (workDir / file).same o.2 = true

/-- The scripts are commands, one for each output. -/
theorem exists_commands {isSingle : Bool} {scripts : List (String × Json)} (hdir : workDir.isAbsolute = true)
    (h : launchers isSingle workDir outputs = .ok scripts) : ∃ commands : List (String × String),
      scripts = commands.map (fun c => (c.1, .string c.2)) ∧
        List.Forall₂ (Starts isSingle workDir) outputs commands := by
  have hall := launchers_ok h
  clear h
  induction hall with
  | nil => exact ⟨[], rfl, .nil⟩
  | cons hs _ ih =>
    obtain ⟨file, hfile, rfl⟩ := hs
    obtain ⟨commands, rfl, hcommands⟩ := ih
    exact ⟨(_, "node " ++ file) :: commands, rfl,
      .cons ⟨rfl, file, rfl, Path.same_join_of_nameBelow hdir hfile⟩ hcommands⟩

/-! ## Members -/

section
variable {key : String} {write : α → Json} {step : α → σ → Except Fault σ} {v : Option α}

/-- The line of a field that may be left out. -/
def given (key : String) (write : α → Json) (step : α → σ → Except Fault σ) (v : Option α) : List (Line σ) :=
  v.toList.map fun x => ⟨(key, write x), step x⟩

theorem map_member_given : (given key write step v).map Line.member = (v.map write).toList.map fun x => (key, x) := by
  cases v <;> rfl

theorem lookup_given (k : String) : lookup k ((given key write step v).map Line.member) =
    if k = key then v.map write else none := by
  rw [map_member_given]
  rcases v with _ | x
  · exact (ite_self _).symm
  · exact Named.lookup_cons ..

theorem names_given : ((given key write step v).map fun l => l.member.1).Sublist [key] := by
  rcases v with _ | x
  · exact List.nil_sublist _
  · exact List.Sublist.refl _

/-- A field that was empty holds what is read, and the other lines go on from there. -/
theorem run_given_append {β : Type} (read : α → Except Fault β) (update : σ → Option β → σ) {s : σ}
    (hempty : update s none = s) (hstep : ∀ x, step x s = ((read x).map some).map (update s)) (lines : List (Line σ)) :
    Line.run (given key write step v ++ lines) s = v.mapM read >>= fun y => Line.run lines (update s y) := by
  rcases v with _ | x
  · show _ = Line.run lines (update s none)
    rw [hempty]
    rfl
  · rw [Option.mapM_some]
    show step x s >>= Line.run lines = _
    rw [hstep]
    rcases read x with e | y <;> rfl

/-- A field that was empty holds what it is given. -/
theorem run_set_append (update : σ → Option α → σ) {s : σ} (hempty : update s none = s)
    (hstep : ∀ x, step x s = .ok (update s (some x))) (lines : List (Line σ)) :
    Line.run (given key write step v ++ lines) s = Line.run lines (update s v) := by
  rw [run_given_append .ok update hempty hstep]
  rcases v with _ | x <;> rfl

theorem fills_given {fields : List (FieldReader σ)} {level : Nat} {f : FieldReader σ}
    (hf : fields.find? (·.key = key) = some f)
    (h : ∀ x, v = some x → ∀ s, Reads (f.read s) (' ' :: (prettyAt level (write x)).toList) (step x s)) :
    ∀ l ∈ given key write step v, l.Fills fields level := by
  rcases v with _ | x
  · exact nofun
  · exact List.forall_mem_singleton.2 ⟨f, hf, h x rfl⟩

end

/-- The lines of the packed manifest, each with what a manifest reader makes of it. -/
def packedLines (m : Manifest) (type : SourceType) (commands : List (String × String)) : List (Line Manifest) :=
  given "name" .string (fun x s => .ok { s with name := some x }) m.name ++
  given "version" .string (fun x s => .ok { s with version := some x }) m.version ++
  given "license" id (fun x s => (x.reread.map some).map fun y => { s with license := y }) m.license ++
  given "private" .bool (fun x s => .ok { s with isPrivate := some x }) m.isPrivate ++
  given "type" .string (fun x s => .ok { s with moduleType := some x })
    (if type = .esModule then some "module" else none) ++
  given "scripts" (fun cs => .object (cs.map fun c => (c.1, .string c.2)))
    (fun cs s => .ok { s with scripts := Json.merge cs }) (some commands)

theorem packed_eq {commands : List (String × String)} (hnames : (commands.map Prod.fst).Nodup)
    (h : launchers (outputs.length = 1) workDir outputs = .ok (commands.map fun c => (c.1, .string c.2))) :
    m.packed outputs workDir type = .ok (.object ((packedLines m type commands).map Line.member)) := by
  have hkeys : ((commands.map fun c => (c.1, Json.string c.2)).map Prod.fst).Nodup := by
    rw [List.map_map]
    exact hnames
  unfold packed packedLines
  rw [h]
  simp only [List.map_append, map_member_given]
  show Except.ok (Json.object (_ ++ [("scripts", Json.object (Json.merge _))])) = _
  rw [merge_of_nodup hkeys]
  rcases m.license with _ | j <;> by_cases htype : type = .esModule <;> simp [htype]

/-- What the packed manifest holds: in this order the fields that the manifest has, the type of modules, and one script
for each output. -/
structure Holds (m : Manifest) (outputs : List (String × Path)) (workDir : Path) (type : SourceType)
    (members : List (String × Json)) (commands : List (String × String)) : Prop where
  order : (members.map Prod.fst).Sublist ["name", "version", "license", "private", "type", "scripts"]
  name : lookup "name" members = m.name.map .string
  version : lookup "version" members = m.version.map .string
  license : lookup "license" members = m.license
  isPrivate : lookup "private" members = m.isPrivate.map .bool
  type : lookup "type" members = if type = .esModule then some (.string "module") else none
  scripts : lookup "scripts" members = some (.object (commands.map fun c => (c.1, .string c.2)))
  distinct : (commands.map Prod.fst).Nodup
  starts : List.Forall₂ (Starts (outputs.length = 1) workDir) outputs commands

variable {commands : List (String × String)}

theorem names_packedLines : ((packedLines m type commands).map fun l => l.member.1).Sublist
    ["name", "version", "license", "private", "type", "scripts"] := by
  unfold packedLines
  simp only [List.map_append]
  exact ((((names_given.append names_given).append names_given).append names_given).append names_given).append
    names_given

theorem holds_packedLines (hnames : (commands.map Prod.fst).Nodup)
    (hstarts : List.Forall₂ (Starts (outputs.length = 1) workDir) outputs commands) :
    m.Holds outputs workDir type ((packedLines m type commands).map Line.member) commands := by
  have hlookup : ∀ k, lookup k ((packedLines m type commands).map Line.member) =
      (if k = "name" then m.name.map .string else none).or
      ((if k = "version" then m.version.map .string else none).or
      ((if k = "license" then m.license.map id else none).or
      ((if k = "private" then m.isPrivate.map .bool else none).or
      ((if k = "type" then (if type = .esModule then some "module" else none).map .string else none).or
      (if k = "scripts" then some (.object (commands.map fun c => (c.1, .string c.2))) else none))))) := by
    intro k
    unfold packedLines lookup
    simp only [List.map_append, List.lookup_append]
    simp only [← lookup.eq_def, lookup_given, Option.or_assoc]
    rfl
  refine ⟨?_, ?_, ?_, ?_, ?_, ?_, ?_, hnames, hstarts⟩
  · rw [List.map_map]
    exact names_packedLines
  all_goals rw [hlookup]
  · simp
  · simp
  · simp
  · simp
  · by_cases htype : type = .esModule <;> simp [htype]
  · simp

/-! ## Reading back -/

/-- The license is a value that can be read. -/
def Licensed (m : Manifest) : Prop := ∀ j, m.license = some j → Proper (depthLimit - 1) j ∧ j ≠ .null

theorem licensed_empty : empty.Licensed := fun _ h => nomatch (show none = some _ from h)

theorem licensed_fields : ∀ f ∈ fields, ∀ m, Licensed m → Yields Licensed (f.read m) := by
  unfold fields
  simp only [List.forall_mem_cons]
  refine ⟨?_, ?_, fun m hm cs => ?_, ?_⟩
  iterate 2 exact fun m hm cs => allows_bind' fun _ => allows_ok hm
  · exact allows_bind (yields_asOption_value _ cs) fun x hx => allows_ok hx
  · -- the other fields leave the license as it is
    refine ⟨?_, ?_, ?_, ?_, ?_, ?_, ?_, ?_, ?_, fun _ h => absurd h List.not_mem_nil⟩ <;>
      exact fun m hm cs => allows_bind' fun _ => allows_ok hm

theorem licensed_of_parse {path : Path} {text : String} (h : parse path text = .ok m) : m.Licensed := by
  unfold parse at h
  split at h
  · rename_i m' hread
    cases h
    exact allows_parse (yields_record licensed_fields licensed_empty) text m' hread
  · cases h

theorem fills_packedLines (hm : m.Licensed) : ∀ l ∈ packedLines m type commands, l.Fills fields 1 := by
  have hstring : ∀ s : String, Reads (asOption asString) (' ' :: (prettyAt 1 (.string s)).toList) (.ok (some s)) :=
    fun s => reads_asOption Json.noConfusion (reads_asString 1 s)
  have hcommands : Reads (asMap asString)
      (' ' :: (prettyAt 1 (.object (commands.map fun c => (c.1, .string c.2)))).toList) (.ok (Json.merge commands)) :=
    (reads_asMap asString_blank (reads_asString 2) commands).blank (asMap_blank asString)
  unfold packedLines
  simp only [List.forall_mem_append]
  refine ⟨⟨⟨⟨⟨?_, ?_⟩, ?_⟩, ?_⟩, ?_⟩, ?_⟩
  · exact fills_given (f := setter "name" false (asOption asString) fun s x => { s with name := x }) rfl
      fun x _ s => reads_setter (hstring x) s
  · exact fills_given (f := setter "version" false (asOption asString) fun s x => { s with version := x }) rfl
      fun x _ s => reads_setter (hstring x) s
  · refine fills_given (f := setter "license" false (asOption (value (depthLimit - 1)))
      fun s x => { s with license := x }) rfl fun x hx s => ?_
    obtain ⟨hproper, hne⟩ := hm x hx
    exact reads_setter (reads_asOption hne (hproper.reads_prettyAt 1)) s
  · exact fills_given (f := setter "private" false (asOption asBool) fun s x => { s with isPrivate := x }) rfl
      fun x _ s => reads_setter (reads_asOption Json.noConfusion (reads_asBool 1 x)) s
  · exact fills_given (f := setter "type" false (asOption asString) fun s x => { s with moduleType := x }) rfl
      fun x _ s => reads_setter (hstring x) s
  · refine fills_given (f := setter "scripts" true (asMap asString) fun s x => { s with scripts := x }) rfl
      fun x hx s => ?_
    cases hx
    exact reads_setter hcommands s

/-- The manifest that is read from the text of a packed one. -/
def reopened (m : Manifest) (type : SourceType) (commands : List (String × String)) (license : Option Json) :
    Manifest :=
  { empty with
    name := m.name
    version := m.version
    license
    isPrivate := m.isPrivate
    moduleType := if type = .esModule then some "module" else none
    scripts := Json.merge commands }

theorem run_packedLines : Line.run (packedLines m type commands) empty =
    (m.license.mapM reread).map (m.reopened type commands) := by
  unfold packedLines
  simp only [List.append_assoc]
  rw [run_set_append (fun s x => { s with name := x }) rfl fun _ => rfl,
    run_set_append (fun s x => { s with version := x }) rfl fun _ => rfl,
    run_given_append reread (fun s x => { s with license := x }) rfl fun _ => rfl]
  rcases m.license.mapM reread with e | license
  · rfl
  · show Line.run _ _ = _
    rw [run_set_append (fun s x => { s with isPrivate := x }) rfl fun _ => rfl,
      run_set_append (fun s x => { s with moduleType := x }) rfl fun _ => rfl]
    rfl

theorem parse_packedLines (hm : m.Licensed) (path : Path) :
    parse path (pretty (.object ((packedLines m type commands).map Line.member))) =
      match m.license.mapM reread with
      | .ok license => .ok { m.reopened type commands license with path }
      | .error fault => .error (.manifestInvalid path fault) := by
  have hnames : ((packedLines m type commands).map fun l => l.member.1).Nodup :=
    names_packedLines.nodup (by decide)
  unfold parse
  rw [parse_record hnames (fills_packedLines hm), run_packedLines]
  rcases m.license.mapM reread with e | license <;> rfl

/-- Once one manifest is packed for some outputs, every manifest is, with the same commands. -/
theorem exists_commands_of_packed (hdir : workDir.isAbsolute = true) (hnames : (outputs.map Prod.fst).Nodup) {v : Json}
    (h : m.packed outputs workDir type = .ok v) : ∃ commands : List (String × String),
      (commands.map Prod.fst).Nodup ∧ List.Forall₂ (Starts (outputs.length = 1) workDir) outputs commands ∧
      ∀ m' : Manifest, m'.packed outputs workDir type =
        .ok (.object ((packedLines m' type commands).map Line.member)) := by
  obtain ⟨-, scripts, hscripts, -, -⟩ := packed_ok h
  obtain ⟨commands, rfl, hstarts⟩ := exists_commands hdir hscripts
  have hkeys : (commands.map Prod.fst).Nodup := by
    have hnodup := nodup_launchers hscripts hnames
    rwa [List.map_map] at hnodup
  exact ⟨commands, hkeys, hstarts, fun m' => packed_eq hkeys hscripts⟩

/-! ## Packing again -/

theorem packed_congr {m' : Manifest} (hname : m'.name = m.name) (hversion : m'.version = m.version)
    (hlicense : m'.license = m.license) (hprivate : m'.isPrivate = m.isPrivate) :
    m'.packed outputs workDir type = m.packed outputs workDir type := by
  unfold packed
  rw [hname, hversion, hlicense, hprivate]

/-- A packed manifest is packed to the same one again exactly if its license is read back. -/
theorem repacks_iff (hm : m.Licensed) (hdir : workDir.isAbsolute = true) (hnames : (outputs.map Prod.fst).Nodup)
    (path : Path) {v : Json} (h : m.packed outputs workDir type = .ok v) :
    (∃ m', parse path (pretty v) = .ok m' ∧ m'.packed outputs workDir type = .ok v) ↔
      m.license.mapM reread = .ok m.license := by
  obtain ⟨commands, hkeys, hstarts, hpacked⟩ := exists_commands_of_packed hdir hnames h
  obtain rfl : v = _ := Except.ok.inj (h.symm.trans (hpacked m))
  rw [parse_packedLines hm path]
  constructor
  · -- the license of the manifest that is read stands in what it is packed to
    rintro ⟨m', hparse, hagain⟩
    rcases hread : m.license.mapM reread with e | license
    · rw [hread] at hparse
      cases hparse
    · rw [hread] at hparse
      cases hparse
      rw [hpacked, Except.ok.injEq, Json.object.injEq] at hagain
      have hlicense : lookup "license" ((packedLines m type commands).map Line.member) = m.license :=
        (holds_packedLines hkeys hstarts).license
      rw [← hagain, (holds_packedLines hkeys hstarts).license] at hlicense
      exact congrArg Except.ok hlicense
  · -- packing looks at nothing but the identity, which is read back with the license
    intro hread
    rw [hread]
    exact ⟨_, rfl, (packed_congr rfl rfl rfl rfl).trans h⟩

theorem mapM_reread_eq_ok (hm : m.Licensed) : m.license.mapM reread = .ok m.license ↔
    ∀ j, m.license = some j → ∀ isNegative x, .real isNegative x ∈ j.numbers → (Number.real isNegative x).Restored := by
  rcases hlicense : m.license with _ | j
  · exact ⟨fun _ _ h => (nomatch h), fun _ => rfl⟩
  · have hread := (hm j hlicense).1.reread_eq_ok
    have hmap : (some j).mapM reread = .ok (some j) ↔ j.reread = .ok j := by
      rw [Option.mapM_some]
      exact map_eq_ok fun _ _ => Option.some.inj
    rw [hmap, hread]
    exact ⟨fun h j' hj' => Option.some.inj hj' ▸ h, fun h => h j rfl⟩

theorem exists_license {path : Path} {text : String} {ns : List Number}
    (h : ((parse path text).toOption.bind license).map numbers = some ns) :
    ∃ m, parse path text = .ok m ∧ ∃ j, m.license = some j ∧ j.numbers = ns := by
  rcases hm : parse path text with e | m
  · rw [hm] at h
    cases h
  · rw [hm] at h
    exact ⟨m, rfl, Option.map_eq_some_iff.1 h⟩

/-- A manifest is packed unless an output is outside of the directory, and fails with the first one that is. The packed
manifest holds the identity of the package and a command for each output. What is read from its text is packed to the
same manifest again exactly if each double of the license is read back. -/
theorem packed_and_repacked {path : Path} {text : String} (h : parse path text = .ok m)
    (outputs : List (String × Path)) (hnames : (outputs.map Prod.fst).Nodup) (workDir : Path)
    (hdir : workDir.isAbsolute = true) (type : SourceType) :
    (∀ e, m.packed outputs workDir type = .error e ↔
      ∃ o, outputs.find? (fun o => !o.2.startsWith workDir) = some o ∧ e = .outsideWorkspace o.2 workDir) ∧
    ∀ v, m.packed outputs workDir type = .ok v →
      (∃ members commands, v = .object members ∧ m.Holds outputs workDir type members commands) ∧
      ∀ again, (∃ m', parse again (pretty v) = .ok m' ∧ m'.packed outputs workDir type = .ok v) ↔
        ∀ j, m.license = some j → ∀ isNegative x, .real isNegative x ∈ j.numbers →
          (Number.real isNegative x).Restored := by
  have hm := licensed_of_parse h
  refine ⟨fun e => ?_, fun v hv => ⟨?_, fun again => ?_⟩⟩
  · rw [← launchers_eq_error (outputs.length = 1)]
    unfold packed
    rcases launchers (outputs.length = 1) workDir outputs with e' | scripts
    · exact ⟨fun h => by cases h; rfl, fun h => by cases h; rfl⟩
    · exact ⟨nofun, nofun⟩
  · obtain ⟨commands, hkeys, hstarts, hpacked⟩ := exists_commands_of_packed hdir hnames hv
    exact ⟨_, commands, Except.ok.inj (hv.symm.trans (hpacked m)), holds_packedLines hkeys hstarts⟩
  · rw [repacks_iff hm hdir hnames again hv, mapM_reread_eq_ok hm]

/-- A manifest with a number in its license. -/
def rated : String := "\x7b\"license\":\x7b\"type\":\"MIT\",\"rate\":2.5\x7d\x7d"

theorem packed_and_repacked_rated : ∃ m v, parse ⟨"/srv/package.json"⟩ rated = .ok m ∧
    m.packed [("api", ⟨"/srv/out/api.mjs"⟩)] ⟨"/srv/out"⟩ .esModule = .ok v ∧
    ∃ m', parse ⟨"/srv/out/package.json"⟩ (pretty v) = .ok m' ∧
      m'.packed [("api", ⟨"/srv/out/api.mjs"⟩)] ⟨"/srv/out"⟩ .esModule = .ok v := by
  have hrate : ((parse ⟨"/srv/package.json"⟩ rated).toOption.bind license).map numbers =
      some [.real false ⟨5629499534213120, -51⟩] := by decide +kernel
  obtain ⟨m, hm, j, hj, hnumbers⟩ := exists_license hrate
  have hmain := packed_and_repacked hm [("api", ⟨"/srv/out/api.mjs"⟩)] (by decide) ⟨"/srv/out"⟩ (by decide) .esModule
  rcases hv : m.packed [("api", ⟨"/srv/out/api.mjs"⟩)] ⟨"/srv/out"⟩ .esModule with e | v
  · obtain ⟨o, ho, -⟩ := (hmain.1 e).1 hv
    have hnone : [("api", (⟨"/srv/out/api.mjs"⟩ : Path))].find? (fun o => !o.2.startsWith ⟨"/srv/out"⟩) = none := by
      decide
    exact nomatch hnone.symm.trans ho
  · refine ⟨m, v, hm, hv, ((hmain.2 v hv).2 _).2 fun j' hj' isNegative x hx => ?_⟩
    rw [← Option.some.inj (hj.symm.trans hj'), hnumbers, List.mem_singleton] at hx
    rw [hx]
    decide +kernel

/-- A manifest with a license that is written with fewer digits than it is read from. -/
def rounded : String := "\x7b\"license\":50e31\x7d"

/-- The number of the license is written as `5e32`, which is read as another one. -/
theorem exists_repacked_otherwise : ∃ m v, parse ⟨"/srv/package.json"⟩ rounded = .ok m ∧
    m.packed [] ⟨"/srv/out"⟩ .commonJs = .ok v ∧
    ¬ ∃ m', parse ⟨"/srv/out/package.json"⟩ (pretty v) = .ok m' ∧ m'.packed [] ⟨"/srv/out"⟩ .commonJs = .ok v := by
  have hnumber : ((parse ⟨"/srv/package.json"⟩ rounded).toOption.bind license).map numbers =
      some [.real false ⟨6938893903907228, 56⟩] := by decide +kernel
  obtain ⟨m, hm, j, hj, hnumbers⟩ := exists_license hnumber
  obtain ⟨v, hv⟩ : ∃ v, m.packed [] ⟨"/srv/out"⟩ .commonJs = .ok v := ⟨_, rfl⟩
  refine ⟨m, v, hm, hv, fun hagain => ?_⟩
  have hread := (repacks_iff (licensed_of_parse hm) (by decide) (by decide) _ hv).1 hagain
  have hrestored := (mapM_reread_eq_ok (licensed_of_parse hm)).1 hread j hj false ⟨6938893903907228, 56⟩
    (hnumbers ▸ List.mem_singleton_self _)
  exact absurd hrestored (by decide +kernel)

end Stowage.Manifest
