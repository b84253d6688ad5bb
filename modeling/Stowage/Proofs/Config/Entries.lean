/-
The entry points of configurations. They are held by name: of several entry points of one name the last one counts, in
a list of operands as well as in a configuration on top of another.
-/
import Stowage.Config.File
import Stowage.Proofs.Json.Members

namespace Stowage.Config

open Json

variable {c later : Config}

/-- No name of an entry point is there twice. -/
def Distinct (c : Config) : Prop := ((c.entries.getD []).map Prod.fst).Nodup

theorem distinct_empty : empty.Distinct := List.nodup_nil

/-! ## Reading -/

theorem distinct_fields : ∀ f ∈ fields, ∀ c, Distinct c → Yields Distinct (f.read c) := by
  unfold fields
  simp only [List.forall_mem_cons]
  refine ⟨fun c hc cs => ?_, ?_⟩
  · refine allows_bind (yields_asOption (yields_asMap _) cs) fun x hx => allows_ok ?_
    rcases x with ⟨_ | entries, r⟩
    · exact List.nodup_nil
    · exact hx entries rfl
  · -- the other fields leave the entry points as they are
    refine ⟨?_, ?_, ?_, ?_, ?_, ?_, ?_, ?_, ?_, ?_, ?_, ?_, ?_, fun _ h => absurd h List.not_mem_nil⟩ <;>
      exact fun c hc cs => allows_bind' fun _ => allows_ok hc

/-- A configuration that is read holds each entry point under a name of its own. -/
theorem distinct_of_parse {text : String} (h : parse text = .ok c) : c.Distinct :=
  allows_parse (yields_record distinct_fields distinct_empty) text c h

/-! ## Merging -/

/-- The entry points of a configuration on top of another. -/
theorem entries_merge (c later : Config) : (c.merge later).entries.getD [] =
    Json.putAll (c.entries.getD []) (later.entries.getD []) := by
  show (mergeWith putAll c.entries later.entries).getD [] = _
  rcases later.entries with _ | entries
  · rfl
  · rfl

theorem Distinct.merge (h : c.Distinct) (later : Config) : (c.merge later).Distinct := by
  unfold Distinct
  rw [entries_merge]
  exact nodup_putAll h _

/-- The configuration that a command starts from: the one in the file that is given, else the one in the directory if
there is one. -/
def start (d : Disk) (dir : Path) (file : Option Path) : Except ConfigFault Config :=
  match file with
  | some file => load d file
  | none => (discover d dir).map fun found => found.getD empty

theorem distinct_of_load {d : Disk} {file : Path} (h : load d file = .ok c) : c.Distinct := by
  unfold load at h
  split at h
  · split at h
    · cases h
      exact distinct_of_parse ‹_›
    · cases h
  all_goals cases h

theorem distinct_of_start {d : Disk} {dir : Path} {file : Option Path} (h : start d dir file = .ok c) :
    c.Distinct := by
  unfold start at h
  split at h
  · exact distinct_of_load h
  · unfold discover at h
    dsimp only at h
    split at h
    · rcases hl : load d (dir / configName) with e | c
      · rw [hl] at h
        cases h
      · rw [hl] at h
        cases h
        exact distinct_of_load hl
    · cases h
      exact distinct_empty

end Stowage.Config
