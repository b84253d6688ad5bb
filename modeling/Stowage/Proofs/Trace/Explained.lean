/-
A trace explains every path that it names: the parents of a path are named themselves, and the first
parents lead from each path to an entry. The reasons are grounded all along, because whatever is added
during a visit is added for the file that is visited, whose name was added when the file was reached.
-/
import Stowage.Proofs.Trace.Closure
import Stowage.Proofs.Trace.Tree

open Stowage.Path

namespace Stowage.Trace

open Manifests

variable {s : Setting} {d : Disk} {known : Manifests} {entries : List Path}

/-! ## The invariant -/

/-- The reasons are grounded, and the files that are seen are named. -/
structure Explained (s : Setting) (p : Progress) : Prop where
  grounded : Reasons.Grounded [] p.reasons
  named : ∀ file ∈ p.seen, ∀ n, s.project.relative file = .ok n → n ∈ p.reasons.map Prod.fst

/-- Progress for a file that is named, or for none with entries, explains what it adds. -/
theorem Explained.grows {parent : Option String} {p p' : Progress} {C : Path → ReasonKind → Prop}
    {T : Path → Prop} (h : Explained s p) (hg : Grows s parent p p' C T)
    (hparent : (∀ path k, C path k → k = .entry) ∨
      ∃ q, parent = some q ∧ q ∈ p.reasons.map Prod.fst)
    (hT : ∀ t, T t → ∃ k, C t k) : Explained s p' := by
  obtain ⟨log, hlog, hmem⟩ := hg.reasons
  constructor
  · rw [hlog]
    refine h.grounded.addAll ?_
    rintro ⟨n, k, q⟩ he
    obtain ⟨rfl, path, hc, -⟩ := (hmem n k q).1 he
    exact hparent.imp (fun hentry => hentry path k hc) id
  · intro file hfile n hn
    obtain ⟨new, hseen, -, hnew⟩ := hg.reached
    rw [hlog, Reasons.mem_keys_addAll]
    rw [hseen] at hfile
    rcases List.mem_append.1 hfile with hold | hfile
    · exact .inl (h.named file hold n hn)
    · obtain ⟨k, hc⟩ := hT file (hnew file hfile)
      exact .inr ⟨(n, k, parent), (hmem n k parent).2 ⟨rfl, file, hc, hn⟩, rfl⟩

section
variable (hs : Fixed d known s.project.resolver) (hd : Disk.Spelled d.here)
include hs hd

/-- A visit explains what it adds by the file that is visited. -/
theorem Explained.visit {done : List Path} {p p' : Progress} {file : Path} {rest : List Path}
    (hp : Explored s d known entries done p) (h : Explained s p) (hq : p.queue = file :: rest)
    (hv : (visit s d file { p with queue := rest }).answer known = .ok p') : Explained s p' := by
  obtain ⟨name, hname, hg⟩ := grows_visit hs hd (hp.isPlain hs hd hq) hv
  have hfile : file ∈ p.seen := by rw [hp.split, hq]; simp
  have hstart : Explained s { p with queue := rest } := ⟨h.grounded, h.named⟩
  refine hstart.grows hg (.inr ⟨name, rfl, h.named file hfile name hname⟩) ?_
  rintro t ⟨specifier, kind, hfollows⟩
  exact ⟨.reference kind, .target hfollows⟩

theorem explained_explore {visits : Nat} {p : Progress}
    (h : (explore s d visits entries).answer known = .ok p) :
    Explained s p ∧ ∃ done, Explored s d known entries done p := by
  have hstart : ∀ {p}, (entries.foldlM (enter s d) Progress.start).answer known = .ok p →
      Explained s p := by
    intro p hp
    have hg := grows_foldlM steady_enter (fun e _ p p' h => grows_enter h) hp
    have hnone : Explained s Progress.start := ⟨trivial, fun _ h => nomatch h⟩
    refine hnone.grows hg (.inl ?_) ?_
    · rintro path k ⟨e, -, -, rfl⟩
      rfl
    · rintro t ⟨e, he, ht⟩
      exact ⟨.entry, e, he, ht, rfl⟩
  obtain ⟨-, done, hdone, hp, -⟩ := explore_induct (J := fun _ p => Explained s p) hs hd hstart
    (fun hp hj hq hv => hj.visit hs hd hp hq hv) h
  exact ⟨hp, done, hdone⟩

/-! ## The reasons of a result -/

/-- Every path that a trace names is explained. For every resolver and every analysis of files that are
fixed functions, whatever names a path as needed is itself a path of the result; a path that is no entry
has a parent, and the first one stands before it; so the first parents lead from every path to an entry,
to no path twice; and the printed tree comes to exactly these paths. -/
theorem traceWithin_explained {visits : Nat} {result : Result}
    (h : (traceWithin s d visits entries).answer known = .ok result) :
    (∀ n r, (n, r) ∈ result.reasons → ∀ q ∈ r.parents, q ∈ result.reasons.map Prod.fst) ∧
    (∀ before n r after, result.reasons = before ++ (n, r) :: after → r.kind ≠ .entry →
      ∃ q rest, r.parents = q :: rest ∧ q ∈ before.map Prod.fst) ∧
    (∀ n ∈ result.reasons.map Prod.fst, ∃ way, result.reasons.Way n way ∧ way.Nodup) ∧
    ∀ n, n ∈ result.reasons.map Prod.fst ↔ n ∈ (Tree.rows result.reasons).map Tree.Row.path := by
  obtain ⟨p, hp, hend⟩ := traceWithin_ok h
  obtain ⟨hexplained, done, hdone⟩ := explained_explore hs hd hp
  have hexact : Exact s d known entries result := hdone.exact hend
  obtain ⟨-, hreasons, -⟩ := conclude_ok hend
  have hgrounded : Reasons.Grounded [] result.reasons := hreasons ▸ hexplained.grounded
  have hway : ∀ n ∈ result.reasons.map Prod.fst, ∃ way, result.reasons.Way n way ∧ way.Nodup :=
    fun n hn => hgrounded.exists_way hexact.nodup hn
  refine ⟨fun n r hr q hq => ?_, fun before n r after hsplit hk => ?_, hway, fun n => ⟨?_, ?_⟩⟩
  · obtain ⟨file, kind, hfile, hn, -⟩ := ((hexact.parents n r hr).2 q).1 hq
    exact (hexact.keys q).2 ⟨file, hfile, .inl hn⟩
  · obtain ⟨q, hq, hhead⟩ := hgrounded.split hsplit hk
    obtain ⟨rest, hrest⟩ := List.head?_eq_some_iff.1 hhead
    exact ⟨q, rest, hrest, hq⟩
  · intro hn
    obtain ⟨way, hway, -⟩ := hway n hn
    exact Tree.mem_rows_of_way hway
  · exact Tree.mem_keys_of_mem_rows

end

/-- In a trace that goes round in a circle the manifest of a linked package is explained by a file of the
workspace, and that one by the entry. -/
theorem traceWithin_explained_circle : ∃ result,
    (traceWithin circleSetting circle 12 [⟨"main.js"⟩]).answer .empty = .ok result ∧
    "packages/a/package.json" ∈ result.reasons.map Prod.fst ∧
    (∃ way, result.reasons.Way "packages/a/package.json" way ∧ way.Nodup) ∧
    "packages/a/package.json" ∈ (Tree.rows result.reasons).map Tree.Row.path := by
  have hs : Fixed circle .empty circleSetting.project.resolver :=
    Resolver.standard.fixed_resolve spelled_circle
  have hrun : ((traceWithin circleSetting circle 12 [⟨"main.js"⟩]).answer .empty).toOption.map
      (fun result => decide ("packages/a/package.json" ∈ result.reasons.map Prod.fst)) = some true := by
    decide +kernel
  obtain ⟨result, hresult, hkey⟩ := exists_ok_of_toOption hrun
  obtain ⟨-, -, hway, hrows⟩ := traceWithin_explained hs spelled_circle hresult
  have hmem := of_decide_eq_true hkey
  exact ⟨result, hresult, hmem, hway _ hmem, (hrows _).1 hmem⟩

end Stowage.Trace
