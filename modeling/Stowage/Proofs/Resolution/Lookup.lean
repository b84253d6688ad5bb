/-
What a lookup finds is a file: its path leads to a file that is stored on the disk, and the answer is the
plain path of that file.
-/
import Stowage.Resolution.Lookup
import Stowage.Proofs.Disk.Walk

open Stowage.Path

namespace Stowage

namespace Disk

variable (d : Disk)

/-- The paths of what is stored. -/
def stored : List Path := d.entries.map fun e => .ofLocation e.1

theorem mem_of_entry? {loc : Location} {c : Content} (h : d.entry? loc = some (.file c)) :
    (loc, .file c) ∈ d.entries := by
  unfold entry? at h
  split at h
  · cases h
  · obtain ⟨l₁, l₂, hl, -⟩ := List.lookup_eq_some_iff.1 h
    rw [hl]
    exact List.mem_append_right _ (List.mem_cons_self ..)

theorem stride_file {followLast : Bool} {loc : Location} {steps : List String} {l : Location}
    {c : Content} (h : d.stride followLast loc steps = .ok (.at (.found l (.file c)))) :
    d.entry? l = some (.file c) := by
  induction steps generalizing loc with
  | nil => rw [stride] at h; cases h
  | cons s rest ih =>
    by_cases h1 : s = "."
    · subst h1; rw [stride] at h; exact ih h
    by_cases h2 : s = ".."
    · subst h2; rw [stride] at h; exact ih h
    rw [stride_name d _ _ h1 h2] at h
    split at h
    · cases h
    · split at h
      · split at h <;> cases h
      · exact ih h
      · rename_i he
        split at h <;> cases h
        exact he
      · split at h <;> cases h

theorem walk_file {followLast : Bool} {links : Nat} {loc : Location} {steps : List String}
    {l : Location} {c : Content}
    (h : d.walk followLast links loc steps = .ok (.found l (.file c))) :
    d.entry? l = some (.file c) := by
  induction links generalizing loc steps with
  | zero =>
    unfold walk at h
    split at h
    · cases h
    · rename_i hs
      cases h
      exact d.stride_file hs
    · cases h
  | succ n ih =>
    unfold walk at h
    split at h
    · cases h
    · rename_i hs
      cases h
      exact d.stride_file hs
    · exact ih h

theorem mem_stored_of_isFile {p q : Path} (hp : d.isFile p = true) (hq : d.canonicalize p = .ok q) :
    q ∈ d.stored := by
  unfold isFile at hp
  unfold canonicalize at hq
  rcases hf : d.find p with e | ⟨l, e⟩
  · rw [hf] at hq; cases hq
  · rw [hf] at hp hq
    cases hq
    obtain ⟨c, rfl⟩ : ∃ c, e = .file c := by
      rcases e with c | t | _
      · exact ⟨c, rfl⟩
      · cases hp
      · cases hp
    unfold find at hf
    rw [locate_eq] at hf
    refine List.mem_map.2 ⟨(l, .file c), d.mem_of_entry? ?_, rfl⟩
    rcases hc : checked p with e | u
    · rw [hc] at hf; cases hf
    · rw [hc] at hf
      rcases hw : d.walk true maxLinks (d.origin p) p.steps with e | ⟨l', e'⟩ | l'
      · simp only [bind, Except.bind, hw] at hf; cases hf
      · simp only [bind, Except.bind, hw] at hf
        cases hf
        exact d.walk_file hw
      · simp only [bind, Except.bind, hw] at hf; cases hf

end Disk

namespace Lookup

variable {d : Disk}

theorem isFile_of_file {p q : Path} (h : file d p = some q) : d.isFile q = true := by
  unfold file at h
  split at h
  · rename_i hp
    cases h
    exact hp
  · split at h
    · cases h
    · exact List.find?_some h

theorem isFile_of_index {p q : Path} (h : index d p = some q) : d.isFile q = true :=
  List.find?_some (p := d.isFile) h

theorem Found.orElse_ok {first : Found} {next : Unit → Found} {q : Path}
    (h : first.orElse next = .ok (some q)) : first = .ok (some q) ∨ next () = .ok (some q) := by
  unfold orElse at h
  split at h
  · exact .inr h
  · exact .inl h

theorem isFile_of_directory {fuel : Nat} {dir q : Path} (h : directory d fuel dir = .ok (some q)) :
    d.isFile q = true := by
  induction fuel generalizing dir with
  | zero => cases h
  | succ n ih =>
    unfold directory at h
    rcases Found.orElse_ok h with h | h
    · split at h
      · rcases hm : mainOf d (dir / manifestName) with e | _ | target
        · rw [hm] at h; cases h
        · rw [hm] at h; cases h
        · rw [hm] at h
          dsimp only [bind, Except.bind] at h
          split at h
          · rename_i hf
            cases h
            exact isFile_of_file hf
          · exact ih h
      · cases h
    · exact isFile_of_index (Except.ok.inj h)

theorem isFile_of_path {p q : Path} (h : path d p = .ok (some q)) : d.isFile q = true := by
  unfold path at h
  split at h
  · rename_i hf
    cases h
    exact isFile_of_file hf
  · exact isFile_of_directory h

theorem isFile_of_inModules {specifier : String} {dirs : List Path} {q : Path}
    (h : inModules d specifier dirs = .ok (some q)) : d.isFile q = true := by
  induction dirs with
  | nil => cases h
  | cons dir rest ih =>
    unfold inModules at h
    dsimp only at h
    split at h
    · rcases Found.orElse_ok h with h | h
      · exact isFile_of_path h
      · exact ih h
    · exact ih h

/-- What a specifier stands for is a module of the runtime or a stored file. -/
theorem find_cases {base : Path} {specifier : String} {found : Resolution}
    (h : find d base specifier = some found) : (∃ name, found = .builtin name) ∨
      ∃ p q, d.isFile p = true ∧ d.canonicalize p = .ok q ∧ found = .file q := by
  unfold find at h
  split at h
  · cases h
    exact .inl ⟨_, rfl⟩
  · dsimp only at h
    split at h
    · rename_i p hp
      rcases hc : d.canonicalize p with e | q
      · rw [hc] at h; cases h
      · rw [hc] at h
        cases h
        refine .inr ⟨p, q, ?_, hc, rfl⟩
        split at hp
        · exact isFile_of_path hp
        · exact isFile_of_path hp
        · exact isFile_of_path hp
        · exact isFile_of_inModules hp
    · cases h

end Lookup
end Stowage
