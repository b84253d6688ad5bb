/-
A trace stays in the workspace. If the root is a real path and the resolver gives real files, every name in
the reasons stays inside the root: it comes from a real file, from a manifest beside one of its
directories, or from the place of a linked package. And a reference that resolves to a file outside ends
the trace: it is neither dropped nor kept, so there is no result, and the error tells the file unless the
trace failed before it came to the reference.
-/
import Stowage.Proofs.Trace.Wordless
import Stowage.Proofs.Package.Straight

open Stowage.Path

namespace Stowage.Trace

open Manifests

variable {s : Setting} {d : Disk} {known : Manifests} {entries : List Path}

/-! ## Names stay inside -/

/-- The path is spelled by ordinary names. -/
def IsSpelled (p : Path) : Prop := ∃ names, (∀ n ∈ names, IsName n) ∧ p = ofLocation names

theorem IsSpelled.isStraight {p : Path} (h : IsSpelled p) : p.IsStraight := by
  obtain ⟨names, hnames, rfl⟩ := h
  exact isStraight_ofLocation hnames

theorem IsSpelled.above {p q : Path} (h : IsSpelled p) (hq : q ∈ p.ancestors) : IsSpelled q := by
  obtain ⟨names, hnames, rfl⟩ := h
  obtain ⟨upper, hupper, rfl⟩ := mem_ancestors_ofLocation (fun n hn => (hnames n hn).toIsPiece) hq
  exact ⟨upper, fun n hn => hnames n (hupper.subset hn), rfl⟩

theorem IsSpelled.manifest {dir : Path} (h : IsSpelled dir) : (dir / manifestName).IsStraight :=
  h.isStraight.join ⟨isPiece_manifestName, by decide⟩

/-- The directory that a file is in. -/
theorem IsSpelled.parent {p : Path} (h : IsSpelled p) : IsSpelled (p.parent?.getD p) := by
  rcases hp : p.parent? with _ | q
  · exact h
  · refine h.above (mem_ancestors_of_parent hp ?_)
    rw [ancestors_eq]
    exact List.mem_cons_self ..

section
variable (hs : Fixed d known s.project.resolver) (hhere : ∀ n ∈ d.here, IsName n)
variable (hreal : ∀ base specifier t,
  (s.project.resolve d base specifier).answer known = .ok (.file t) → ∃ q, d.canonicalize q = .ok t)
include hhere hreal

theorem isSpelled_of_reached {file : Path} (h : Reached s d known entries file) : IsSpelled file := by
  cases h with
  | entry _ hentry => exact d.names_of_canonicalize hhere hentry
  | follow _ hf =>
    obtain ⟨q, hq⟩ := hreal _ _ _ hf.leads.resolved
    exact d.names_of_canonicalize hhere hq

include hs

/-- Whatever a reached file contributes is straight. -/
theorem isStraight_of_contributes {file path : Path} {kind : ReasonKind}
    (hfile : IsSpelled file) (h : Contributes s d known file path kind) : path.IsStraight := by
  have htarget : ∀ {specifier k target}, Follows s d known file specifier k target →
      IsSpelled target := by
    intro specifier k target hf
    obtain ⟨q, hq⟩ := hreal _ _ _ hf.leads.resolved
    exact d.names_of_canonicalize hhere hq
  cases h with
  | above habove =>
    obtain ⟨before, after, m, hdirs, -⟩ := habove
    have hdir : IsSpelled _ := hfile.above (List.mem_of_mem_tail (hdirs ▸ List.mem_append_right _
      (List.mem_cons_self ..)))
    exact hdir.manifest
  | target hf => exact (htarget hf).isStraight
  | around hf ha =>
    cases ha with
    | directory _ _ hdir _ =>
      have hspelled : IsSpelled _ := d.names_of_canonicalize hhere hdir
      exact hspelled.manifest
    | root _ howner =>
      have hplain := (Project.settled_resolve hs file _).holds hf.leads.resolved
      have hmem := (Package.settled_rootDirectory _ hplain).holds howner _ rfl
      exact ((htarget hf).above hmem).manifest
    | place _ hlocated hlink =>
      obtain ⟨names, hnames, hbase⟩ := hfile.parent
      rw [hbase] at hlocated
      exact Package.isStraight_of_locate hnames hlocated hlink

/-- Every name in the reasons of a result stays inside the root. -/
theorem Exact.staysIn {result : Result} (h : Exact s d known entries result)
    (hroot : s.project.root.isAbsolute = true) {n : String} (hn : n ∈ result.reasons.map Prod.fst) :
    StaysIn s.project.root n := by
  obtain ⟨file, hfile, hname | ⟨kind, path, hc, hname⟩⟩ := (h.keys n).1 hn
  · exact (isSpelled_of_reached hhere hreal hfile).isStraight.staysIn hroot hname
  · exact (isStraight_of_contributes hs hhere hreal
      (isSpelled_of_reached hhere hreal hfile) hc).staysIn hroot hname

end

/-! ## Visits one by one -/

theorem visitAll_nil (n : Nat) {p : Progress} (h : p.queue = []) : visitAll s d n p = pure p := by
  rcases n with _ | n
  · rfl
  · unfold visitAll
    rw [h]

/-- More visits go on from where the first ones came to. -/
theorem visitAll_append (m n : Nat) (p : Progress) :
    visitAll s d (m + n) p = visitAll s d m p >>= visitAll s d n := by
  induction m generalizing p with
  | zero =>
    rw [Nat.zero_add]
    exact (pure_bind p _).symm
  | succ m ih =>
    rw [Nat.succ_add]
    rcases hq : p.queue with _ | ⟨file, rest⟩
    · rw [visitAll_nil _ hq, visitAll_nil _ hq, pure_bind, visitAll_nil n hq]
    · unfold visitAll
      rw [hq]
      dsimp only
      rw [bind_assoc]
      exact bind_congr fun p' => ih p'

theorem explore_succ (n : Nat) (entries : List Path) :
    explore s d (n + 1) entries = explore s d n entries >>= visitAll s d 1 := by
  unfold explore
  rw [bind_assoc]
  exact bind_congr fun p => visitAll_append n 1 p

section
variable (hs : Fixed d known s.project.resolver) (hd : Disk.Spelled d.here)
include hs hd

/-- A traversal that fails does so with the entries, or with the first file whose visit fails. -/
theorem explore_error {visits : Nat} {e : Error}
    (h : (explore s d visits entries).answer known = .error e) :
    (explore s d 0 entries).answer known = .error e ∨ ∃ n p file rest,
      (explore s d n entries).answer known = .ok p ∧ p.queue = file :: rest ∧
      (explore s d (n + 1) entries).answer known = .error e ∧
      (visit s d file { p with queue := rest }).answer known = .error e := by
  induction visits with
  | zero => exact .inl h
  | succ n ih =>
    have hwhole := h
    rw [explore_succ, Query.answer_bind] at h
    rcases hp : (explore s d n entries).answer known with e' | p
    · rw [hp] at h
      cases h
      exact ih hp
    · rw [hp] at h
      obtain ⟨hafter, done, hdone, -⟩ := explore_ok hs hd hp
      unfold visitAll at h
      dsimp only at h
      split at h
      · cases h
      · rename_i file rest hq
        have hsteady := steady_visit hs hd (hdone.isPlain hs hd hq) { p with queue := rest }
        refine .inr ⟨n, p, file, rest, hp, hq, hwhole, ?_⟩
        rw [Query.answer_bind, hsteady.answer_eq hafter] at h
        rcases hv : (visit s d file { p with queue := rest }).answer known with e' | p'
        · rw [hv] at h
          exact h
        · rw [hv] at h
          cases h

end

/-! ## References that lead out -/

/-- After `before` a reference to `specifier` stands in the script `file`, and it resolves to a file outside
the workspace. -/
structure LeadsOut (s : Setting) (d : Disk) (known : Manifests) (file : Path)
    (refs : Script.References) (before : List (String × ReferenceKind)) (specifier : String)
    (target : Path) : Prop where
  script : isScript file = true
  stated : s.analyze d file = .ok refs
  place : ∃ kind after, refs.static = before ++ (specifier, kind) :: after
  resolved : (s.project.resolve d file specifier).answer known = .ok (.file target)
  outside : target.startsWith s.project.root = false

/-- A visit of a file up to the references after `before`. -/
def visitUpTo (s : Setting) (d : Disk) (file : Path) (refs : Script.References)
    (before : List (String × ReferenceKind)) (p : Progress) : Query Progress := do
  let name ← Query.ofExcept (s.project.relative file)
  let p ← addManifests s d name file.ancestors.tail p
  before.foldlM (follow s d file name)
    (refs.computed.foldl (fun p c => p.warn (computedWarning name c)) p)

/-- A trace up to the references after `before` in a file that is to be visited after `n` others. -/
def traceUpTo (s : Setting) (d : Disk) (n : Nat) (entries : List Path) (file : Path)
    (refs : Script.References) (before : List (String × ReferenceKind)) : Query Progress := do
  let p ← explore s d n entries
  visitUpTo s d file refs before { p with queue := p.queue.tail }

theorem relative_outside {project : Project} {path : Path}
    (h : path.startsWith project.root = false) :
    project.relative path = .error (.outsideWorkspace path project.root) := by
  unfold Project.relative nameBelow nameBelow?
  rw [if_neg (by rw [h]; decide)]

section
variable {file target : Path} {refs : Script.References} {before : List (String × ReferenceKind)}
variable {specifier : String} (hs : Fixed d known s.project.resolver) (hd : Disk.Spelled d.here)
include hs hd

theorem steady_visitUpTo (hf : file.IsPlain) (p : Progress) :
    Steady d known (visitUpTo s d file refs before p) :=
  steady_bind (steady_ofExcept _) fun name =>
    steady_bind (steady_addManifests s d known name (plain_above hf) p) fun _ =>
      steady_foldlM (steady_follow hs hd file name) _ _

/-- A visit that comes to a reference out of the workspace fails for it. -/
theorem LeadsOut.visit (h : LeadsOut s d known file refs before specifier target)
    (hf : file.IsPlain) (p : Progress) : (visit s d file p).answer known =
      (visitUpTo s d file refs before p).answer known >>= fun _ =>
        .error (.outsideWorkspace target s.project.root) := by
  obtain ⟨kind, after, hplace⟩ := h.place
  have hfollow : ∀ name p, (follow s d file name p (specifier, kind)).answer known =
      .error (.outsideWorkspace target s.project.root) := by
    intro name p
    rw [answer_follow hs hd, h.resolved]
    unfold followTo
    dsimp only
    rw [Query.answer_bind, Query.answer_ofExcept, relative_outside h.outside]
  have hup : ∀ name, Steady d known (addManifests s d name file.ancestors.tail p) := fun name =>
    steady_addManifests s d known name (plain_above hf) p
  have hfold : ∀ name l p, Steady d known (List.foldlM (follow s d file name) p l) :=
    fun name l p => steady_foldlM (steady_follow hs hd file name) l p
  unfold Trace.visit visitUpTo
  rw [Query.answer_bind, Query.answer_bind, Query.answer_ofExcept, Query.after_ofExcept]
  rcases s.project.relative file with e | name
  · rfl
  · dsimp only
    rw [Agree.answer_bind (hup name) (steady_followAll hs hd file name),
      Agree.answer_bind (hup name) fun p => hfold name before _, bind_assoc]
    refine bind_congr fun p => ?_
    unfold followAll
    rw [if_pos h.script, h.stated]
    dsimp only
    rw [hplace, List.foldlM_append,
      Agree.answer_bind (hfold name before _) fun p => hfold name _ p]
    refine bind_congr fun p => ?_
    rw [List.foldlM_cons, Query.answer_bind, hfollow]

/-- A traversal does not get past a file with a reference out of the workspace. -/
theorem LeadsOut.queue_ne_nil (h : LeadsOut s d known file refs before specifier target)
    (hf : Reached s d known entries file) {visits : Nat} {p : Progress}
    (hp : (explore s d visits entries).answer known = .ok p) : p.queue ≠ [] := by
  obtain ⟨-, done, hdone, hnot, -⟩ := explore_induct (J := fun done _ => file ∉ done) hs hd
    (fun _ => List.not_mem_nil) (fun {done p p' f rest} hp hj hq hv => by
      intro hmem
      rcases List.mem_append.1 hmem with hold | hnew
      · exact hj hold
      · obtain rfl := List.mem_singleton.1 hnew
        rw [h.visit hs hd (hp.isPlain hs hd hq)] at hv
        rcases hu : (visitUpTo s d file refs before { p with queue := rest }).answer known with e | q
        · rw [hu] at hv; cases hv
        · rw [hu] at hv; cases hv) hp
  exact fun hq => hnot ((hdone.mem_done hq file).2 hf)

/-- A trace of enough visits comes to the file, unless it fails before; at the reference it fails. -/
theorem LeadsOut.traceWithin (h : LeadsOut s d known file refs before specifier target)
    (hf : Reached s d known entries file) {visits : Nat} {e : Error}
    (he : (explore s d visits entries).answer known = .error e) :
    ∃ n, (∀ p, (explore s d n entries).answer known = .ok p → p.queue.head? = some file) ∧
      (traceWithin s d visits entries).answer known =
        (traceUpTo s d n entries file refs before).answer known >>= fun _ =>
          .error (.outsideWorkspace target s.project.root) := by
  have htrace : (Trace.traceWithin s d visits entries).answer known = .error e := by
    unfold Trace.traceWithin
    rw [Query.answer_bind, he]
  have hearly : ∀ n, (explore s d n entries).answer known = .error e →
      (traceUpTo s d n entries file refs before).answer known = .error e := by
    intro n hn
    unfold traceUpTo
    rw [Query.answer_bind, hn]
  rw [htrace]
  rcases explore_error hs hd he with hzero | ⟨n, p, f, rest, hp, hq, hnext, hv⟩
  · refine ⟨0, fun p hp => ?_, ?_⟩
    · rw [hzero] at hp
      cases hp
    · rw [hearly 0 hzero]
      rfl
  · by_cases hfile : f = file
    · subst hfile
      refine ⟨n, fun p' hp' => ?_, ?_⟩
      · rw [hp] at hp'
        cases hp'
        rw [hq]
        rfl
      · obtain ⟨hafter, done, hdone, -⟩ := explore_ok hs hd hp
        have hplain := hdone.isPlain hs hd hq
        unfold traceUpTo
        rw [Query.answer_bind, hp]
        dsimp only
        rw [(steady_visitUpTo hs hd hplain _).answer_eq hafter, hq]
        rw [h.visit hs hd hplain] at hv
        show _ = (visitUpTo s d f refs before { p with queue := rest }).answer known >>= _
        rcases hu : (visitUpTo s d f refs before { p with queue := rest }).answer known with e' | p'
        · rw [hu] at hv
          cases hv
          rfl
        · rw [hu] at hv
          cases hv
          rfl
    · -- the trace fails in the visit of another file
      refine ⟨n + 1, fun p' hp' => ?_, ?_⟩
      · rw [hnext] at hp'
        cases hp'
      · rw [hearly (n + 1) hnext]
        rfl

end

/-! ## Traces -/

/-- A trace is confined to the workspace. For every analysis of files and every resolver that is a fixed
function and gives real paths, in a workspace whose root is a real path:
every name in the reasons of a result, and so every name of a file or a link, is a relative path without
`..` components that stays inside the root;
if a file that is reached has a reference to a file outside the root, the trace gives no result, however
many visits are allowed; where the resolver leads to finitely many files and the visits are enough for
them, there is a number of files after which the file would be visited next, and the trace fails as it
does up to the reference, or else for the file outside. -/
theorem traceWithin_confined (hs : Fixed d known s.project.resolver)
    (hhere : ∀ n ∈ d.here, IsName n) (hroot : d.canonicalize s.project.root = .ok s.project.root)
    (hreal : ∀ base specifier t, (s.project.resolve d base specifier).answer known =
      .ok (.file t) → ∃ q, d.canonicalize q = .ok t) (entries : List Path) :
    (∀ visits result, (traceWithin s d visits entries).answer known = .ok result →
      (∀ n ∈ result.reasons.map Prod.fst, StaysIn s.project.root n) ∧
      (∀ n ∈ result.files, n ∈ result.reasons.map Prod.fst) ∧
      ∀ n ∈ result.links, n ∈ result.reasons.map Prod.fst) ∧
    ∀ file refs before specifier target, Reached s d known entries file →
      LeadsOut s d known file refs before specifier target →
      (∀ visits result, (traceWithin s d visits entries).answer known ≠ .ok result) ∧
      ∀ files : List Path, (∀ base specifier t,
          (s.project.resolve d base specifier).answer known = .ok (.file t) → t ∈ files) →
        ∀ visits, entries.length + files.length ≤ visits → ∃ n,
          (∀ p, (explore s d n entries).answer known = .ok p → p.queue.head? = some file) ∧
          (traceWithin s d visits entries).answer known =
            (traceUpTo s d n entries file refs before).answer known >>= fun _ =>
              .error (.outsideWorkspace target s.project.root) := by
  have hd : Disk.Spelled d.here := fun n hn => (hhere n hn).toIsPiece
  constructor
  · intro visits result h
    have hexact := exact_of_traceWithin hs hd h
    obtain ⟨names, -, hnames⟩ := d.names_of_canonicalize hhere hroot
    have habsolute : s.project.root.isAbsolute = true := hnames ▸ isAbsolute_ofLocation names
    refine ⟨fun n hn => hexact.staysIn hs hhere hreal habsolute hn, fun n hn => ?_, fun n hn => ?_⟩
    · obtain ⟨r, hr, -⟩ := (hexact.files n).1 hn
      exact List.mem_map.2 ⟨_, hr, rfl⟩
    · obtain ⟨r, hr, -⟩ := (hexact.links n).1 hn
      exact List.mem_map.2 ⟨_, hr, rfl⟩
  · intro file refs before specifier target hfile hout
    constructor
    · intro visits result h
      obtain ⟨p, hp, hconclude⟩ := traceWithin_ok h
      exact hout.queue_ne_nil hs hd hfile hp (conclude_ok hconclude).1
    · intro files hfiles visits hv
      rcases hp : (explore s d visits entries).answer known with e | p
      · exact hout.traceWithin hs hd hfile hp
      · exact absurd (explore_ends hs hd hfiles hv hp) (hout.queue_ne_nil hs hd hfile hp)

/-! ### A workspace with a file outside -/

/-- Two scripts in a workspace, one of which refers to a file outside. -/
def straying : Disk where
  entries := [
    (["out.js"], .file (.text "")),
    (["w"], .directory),
    (["w", "inner.js"], .file (.text "require('./lib');")),
    (["w", "lib.js"], .file (.text "")),
    (["w", "main.js"], .file (.text "require('./lib'); require('../out');")),
    (["w", "package.json"], .file (.text "\x7b\"name\":\"app\"\x7d"))]
  here := ["w"]

def strayingSetting : Setting :=
  ⟨⟨⟨"/w"⟩, ⟨"/w"⟩, Resolver.standard.resolve⟩, ⟨[], [], [], false⟩, readReferences⟩

theorem traceWithin_confined_straying :
    (∃ result, (traceWithin strayingSetting straying 7 [⟨"inner.js"⟩]).answer .empty = .ok result ∧
      result.files = ["lib.js", "package.json"] ∧
      ∀ n ∈ result.reasons.map Prod.fst, StaysIn ⟨"/w"⟩ n) ∧
    (∀ visits result, (traceWithin strayingSetting straying visits [⟨"main.js"⟩]).answer .empty ≠
      .ok result) ∧
    ∃ n, (traceWithin strayingSetting straying 7 [⟨"main.js"⟩]).answer .empty =
      (traceUpTo strayingSetting straying n [⟨"main.js"⟩] ⟨"/w/main.js"⟩
        ⟨[("./lib", .require), ("../out", .require)], []⟩ [("./lib", .require)]).answer .empty >>=
          fun _ => .error (.outsideWorkspace ⟨"/out.js"⟩ ⟨"/w"⟩) := by
  have hhere : ∀ n ∈ straying.here, IsName n := by
    intro n hn
    rw [List.mem_singleton.1 hn]
    exact ⟨⟨by decide, by decide, by decide⟩, by decide⟩
  have hd : Disk.Spelled straying.here := fun n hn => (hhere n hn).toIsPiece
  have hs : Fixed straying .empty strayingSetting.project.resolver :=
    Resolver.standard.fixed_resolve hd
  have hroot : straying.canonicalize ⟨"/w"⟩ = .ok ⟨"/w"⟩ := ok_of_toOption (by decide +kernel)
  have hconfined := fun entries => traceWithin_confined hs hhere hroot (fun base specifier t ht =>
    Resolver.standard.canonicalize_of_resolve (Project.resolver_of_resolve ht)) entries
  have hreached : Reached strayingSetting straying .empty [⟨"main.js"⟩] ⟨"/w/main.js"⟩ :=
    .entry (List.mem_singleton_self _) (ok_of_toOption (by decide +kernel))
  have hout : LeadsOut strayingSetting straying .empty ⟨"/w/main.js"⟩
      ⟨[("./lib", .require), ("../out", .require)], []⟩ [("./lib", .require)] "../out"
      ⟨"/out.js"⟩ := by
    refine ⟨by decide, ok_of_toOption (by decide +kernel), ⟨.require, [], rfl⟩,
      ok_of_toOption (by decide +kernel), by decide⟩
  refine ⟨?_, ?_⟩
  · have hrun : ((traceWithin strayingSetting straying 7 [⟨"inner.js"⟩]).answer .empty).toOption.map
        (·.files) = some ["lib.js", "package.json"] := by decide +kernel
    obtain ⟨result, hresult, hfiles⟩ := exists_ok_of_toOption hrun
    exact ⟨result, hresult, hfiles, ((hconfined _).1 7 result hresult).1⟩
  · obtain ⟨hnever, herror⟩ := (hconfined [⟨"main.js"⟩]).2 _ _ _ _ _ hreached hout
    obtain ⟨n, -, hn⟩ := herror straying.stored (fun base specifier t ht =>
      Resolver.standard.mem_stored_of_resolve hd (Project.resolver_of_resolve ht)) 7 (by decide)
    exact ⟨hnever, n, hn⟩

end Stowage.Trace
