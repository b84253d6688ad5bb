/-
The names that a trace and an expansion give. Each of them was taken from a path below the root of the workspace, so
it is spelled in one way only, whatever the project resolves modules with.
-/
import Stowage.Proofs.Expansion.Listed
import Stowage.Proofs.Path.Joined
import Stowage.Proofs.Trace.Closure

open Stowage.Path

namespace Stowage

/-! ## The names of a trace -/

namespace Trace

/-- All names that are needed so far are clean. -/
def Progress.Clean (p : Progress) : Prop := ∀ n ∈ p.reasons.map Prod.fst, IsClean n

section
variable {p : Progress}

theorem Progress.Clean.add (h : p.Clean) {n : String} (hn : IsClean n) (kind : ReasonKind)
    (parent : Option String) : (p.add n kind parent).Clean := by
  unfold Progress.Clean Progress.add
  dsimp only
  rw [Reasons.keys_add]
  split
  · exact h
  · intro m hm
    rcases List.mem_append.1 hm with hm | hm
    · exact h m hm
    · rwa [List.mem_singleton.1 hm]

theorem Progress.Clean.reach (h : p.Clean) (file : Path) : (p.reach file).Clean := by
  unfold Progress.reach
  split <;> exact h

end

theorem ensures_relative (s : Project) (p : Path) :
    Ensures IsClean (Query.ofExcept (s.relative p) : Query String) := by
  rcases h : s.relative p with e | n
  · exact ensures_throw e
  · exact ensures_pure (isClean_of_nameBelow h)

section
variable (s : Setting) (d : Disk) {p : Progress} (hp : p.Clean)
include hp

theorem clean_addManifest (dir : Path) (parent : String) :
    Ensures Progress.Clean (addManifest s dir parent p) :=
  ensures_bind (ensures_relative _ _) fun _ hn => ensures_pure (hp.add hn _ _)

theorem clean_addFound (dir : Path) (parent : String) (m : Option Manifest) :
    Ensures Progress.Clean (addFound s dir parent m p) := by
  unfold addFound
  split
  · exact clean_addManifest s hp dir parent
  · exact ensures_pure hp

theorem clean_addManifests (parent : String) (dirs : List Path) :
    Ensures Progress.Clean (addManifests s d parent dirs p) := by
  induction dirs generalizing p with
  | nil => exact ensures_pure hp
  | cons dir rest ih =>
    unfold addManifests
    split
    · refine ensures_bind' fun m => ensures_bind (clean_addFound s hp dir parent m) fun q hq => ?_
      split
      · exact ensures_pure hq
      · exact ih hq
    · exact ensures_pure hp

theorem clean_addNamedManifest (file : Path) (specifier parent : String) :
    Ensures Progress.Clean (addNamedManifest s d file specifier parent p) := by
  unfold addNamedManifest
  split
  · exact ensures_pure hp
  · split
    · exact ensures_bind' fun dir => ensures_bind' fun m => clean_addFound s hp dir parent m
    · exact ensures_pure hp

theorem clean_addRoot (specifier : String) (target : Path) (parent : String) :
    Ensures Progress.Clean (addRoot s d specifier target parent p) := by
  refine ensures_bind' fun root => ?_
  split
  · exact clean_addManifest s hp _ parent
  · exact ensures_pure hp

theorem clean_addInstalled (file : Path) (specifier parent : String) :
    Ensures Progress.Clean (addInstalled s d file specifier parent p) := by
  unfold addInstalled
  split
  · split
    · exact ensures_bind (ensures_relative _ _) fun _ hn => ensures_pure (hp.add hn _ _)
    · exact ensures_pure hp
  · exact ensures_pure hp

theorem clean_addAround (file : Path) (specifier : String) (target : Path) (parent : String) :
    Ensures Progress.Clean (addAround s d file specifier target parent p) := by
  refine ensures_bind (clean_addNamedManifest s d hp file specifier parent) fun q hq => ?_
  split
  · exact ensures_bind (clean_addRoot s d hq specifier target parent) fun r hr =>
      clean_addInstalled s d hr file specifier parent
  · exact ensures_pure hq

theorem clean_follow (file : Path) (parent : String) (reference : String × ReferenceKind) :
    Ensures Progress.Clean (follow s d file parent p reference) := by
  refine ensures_bind' fun outcome => ?_
  unfold followTo
  split
  · exact ensures_pure hp
  · split
    · exact ensures_pure hp
    · exact ensures_throw _
  · refine ensures_bind (ensures_relative _ _) fun name hname => ?_
    split
    · exact ensures_pure hp
    · exact ensures_bind (clean_addAround s d hp file _ _ parent) fun q hq =>
        ensures_pure ((hq.add hname _ _).reach _)

theorem clean_followAll (file : Path) (name : String) :
    Ensures Progress.Clean (followAll s d file name p) := by
  unfold followAll
  split
  · split
    · exact ensures_pure hp
    · refine ensures_foldlM (fun _ r hq => clean_follow s d hq file name r) _ ?_
      unfold Progress.Clean
      rw [(reasons_warnAll name _ p).1]
      exact hp
  · exact ensures_pure hp

theorem clean_visitAll (visits : Nat) : Ensures Progress.Clean (visitAll s d visits p) := by
  induction visits generalizing p with
  | zero => exact ensures_pure hp
  | succ visits ih =>
    unfold visitAll
    split
    · exact ensures_pure hp
    · rename_i file rest _
      have hrest : Progress.Clean { p with queue := rest } := hp
      refine ensures_bind (ensures_bind' fun name => ?_) fun q hq => ih hq
      exact ensures_bind (clean_addManifests s d hrest name _) fun q hq =>
        clean_followAll s d hq file name

end

/-- The names of a trace are clean. -/
theorem clean_trace (s : Setting) (d : Disk) (entries : List Path) :
    Ensures (fun result => ∀ n, n ∈ result.files ∨ n ∈ result.links → IsClean n) (trace s d entries) := by
  have henter : ∀ (p : Progress) e, p.Clean → Ensures Progress.Clean (enter s d p e) := fun p e hp =>
    ensures_bind' fun file => ensures_bind (ensures_relative _ _) fun name hname =>
      ensures_pure ((hp.add hname _ _).reach _)
  have hstart : Progress.start.Clean := fun n hn => absurd hn List.not_mem_nil
  refine ensures_bind (ensures_bind (ensures_foldlM henter entries hstart) fun p hp =>
    clean_visitAll s d hp _) fun p hp => ?_
  rcases hresult : conclude s d p with e | result
  · exact ensures_throw e
  · refine ensures_pure fun n hn => hp n ?_
    unfold conclude at hresult
    split at hresult
    · cases hresult
    · split at hresult
      · cases hresult
      · cases hresult
        rcases hn with hn | hn <;>
        · obtain ⟨r, hr, rfl⟩ := List.mem_map.1 (mem_ofList.1 hn)
          exact List.mem_map_of_mem (List.mem_of_mem_filter hr)

end Trace

/-! ## The names of an expansion -/

namespace Expand

/-- All names that were expanded so far are clean. -/
def Clean (st : Expansion.State) : Prop :=
  ∀ n, n ∈ st.expansion.files ∨ n ∈ st.expansion.extras → IsClean n

/-- A question leaves what was expanded. -/
theorem clean_ask {α : Type} (q : Query α) : Keeps Clean (ask q) := by
  intro st hst
  rw [run_ask]
  exact hst

theorem clean_change {f : Expansion → Expansion}
    (hf : ∀ x, (f x).files = x.files ∧ (f x).extras = x.extras) : Keeps Clean (change f) := by
  intro st hst n hn
  refine hst n ?_
  rw [← (hf st.expansion).1, ← (hf st.expansion).2]
  exact hn

section
variable (project : Project) (settings : ExpansionSettings) (d : Disk)

theorem clean_addFile (path : Path) : Keeps Clean (addFile project path) := by
  intro st hst
  unfold addFile ofExcept
  rw [run_bind, run_ask]
  rcases h : project.relative path with e | n
  · exact hst
  · rintro m (hm | hm)
    · rcases Names.mem_insert.1 hm with rfl | hm
      · exact isClean_of_nameBelow h
      · exact hst m (.inl hm)
    · exact hst m (.inr hm)

theorem clean_addLink (path : Path) : Keeps Clean (addLink project path) := by
  intro st hst
  unfold addLink ofExcept
  rw [run_bind, run_ask]
  rcases h : project.relative path with e | n
  · exact hst
  · rintro m (hm | hm)
    · exact hst m (.inl hm)
    · rcases Names.mem_insert.1 hm with rfl | hm
      · exact isClean_of_nameBelow h
      · exact hst m (.inr hm)

theorem clean_addAt (root : Path) (negated : List Glob.Pattern) (path : Path) :
    Keeps Clean (addAt project d root negated path) := by
  refine keeps_bind (clean_ask _) fun entries => keeps_forM (fun entry => ?_) _
  unfold addEntry
  split
  · exact keeps_pure _
  · split
    · exact clean_addLink project _
    · exact clean_addFile project _
    · exact keeps_pure _

theorem clean_addListed (root : Path) (m : Manifest) : Keeps Clean (addListed project d root m) := by
  refine keeps_bind ?_ fun _ => keeps_bind (clean_addFile project _) fun _ =>
    keeps_bind (clean_ask _) fun outcome => ?_
  · unfold addAll
    split
    · exact keeps_bind (clean_ask _) fun found => keeps_forM (fun path => clean_addAt project d root _ path) _
    · exact clean_addAt project d root [] root
  · split
    · split
      · exact clean_addFile project _
      · exact keeps_pure _
    · exact keeps_pure _

theorem clean_visit (base root : Path) (name : String) : Keeps Clean (visit project d base root name) := by
  refine keeps_bind (clean_change fun _ => ⟨rfl, rfl⟩) fun _ => keeps_bind (clean_ask _) fun m =>
    keeps_bind (clean_addListed project d root m) fun _ => keeps_bind ?_ fun _ => keeps_pure _
  unfold addPlace
  split
  · split
    · exact clean_addLink project _
    · exact keeps_pure _
  · exact keeps_pure _

theorem clean_module {stop : Expand Unit} (hstop : Keeps Clean stop) (base : Path) (levels : Nat)
    (name : String) (needing : Option Needing) (parents : List String) :
    Keeps Clean (module project settings d stop base levels name needing parents) := by
  induction levels generalizing name needing parents with
  | zero => exact hstop
  | succ levels ih =>
    unfold module
    split
    · exact keeps_pure _
    · refine keeps_bind (clean_ask _) fun outcome => ?_
      split
      · exact keeps_pure _
      · unfold passOver
        split
        · split
          · exact clean_change fun _ => ⟨rfl, rfl⟩
          · exact keeps_throw _
        · exact keeps_throw _
      · refine keeps_bind keeps_get fun st => ?_
        split
        · exact keeps_pure _
        · exact keeps_bind (clean_visit project d _ _ name) fun m => keeps_forM (fun n => ih n _ _) _

/-- The names of an expansion are clean. -/
theorem clean_expandAll (base : Path) (requests : List (String × List String)) :
    Keeps Clean (expandAll project settings d base requests) := by
  unfold expandAll expandWithin
  exact keeps_forM (fun r => clean_module project settings d (keeps_throw _) base _ r.1 none r.2) requests

end

end Expand
end Stowage
