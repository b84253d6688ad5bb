/-
What collecting cannot lose: a link that leads somewhere is an entry, whatever it is replaced by, and each file of a
generated directory is the content of the entry of its name.
-/
import Stowage.Proofs.Archive.Contents
import Stowage.Proofs.Disk.Direct

open Stowage.Path

namespace Stowage.Archive.Contents

open Disk

variable {d : Disk} {a a' : Contents} {u : Unit}

/-! ## Links -/

section
variable {name : String} (hname : IsClean name)
include hname

/-- A tree adds an entry for its own path. -/
theorem mem_names_addBelow {link : String → Path → Collect Unit} {dir : Path}
    (hlink : ∀ name path, Scripted (link name path))
    (hself : ∀ {a a' : Contents} {u : Unit}, Gives (link name dir) a u a' → name ∈ a'.names)
    (h : Gives (addBelow d link name dir) a u a') : name ∈ a'.names := by
  obtain ⟨entries, _, hentries, h⟩ := gives_bind.1 h
  obtain ⟨htree, rfl⟩ := gives_ofDisk.1 hentries
  obtain ⟨type, rest, rfl⟩ := tree_head htree
  have hinside : Path.slashJoin name (nameInside dir dir) = name := by
    have hempty : nameInside dir (dir.extend []) = joined [] :=
      nameInside_extend dir fun s hs => absurd hs List.not_mem_nil
    change Path.slashJoin name (nameInside dir (dir.extend [])) = name
    rw [hempty]
    exact hname.slashJoin_empty
  have hrest := scripted_addEntries hlink name dir rest
  unfold addEntries at h
  dsimp only at h
  rw [hinside] at h
  cases type with
  | link =>
    obtain ⟨_, b, hfirst, h⟩ := gives_bind.1 h
    exact hrest.mem_names h (hself hfirst)
  | directory =>
    obtain ⟨_, b, hfirst, h⟩ := gives_bind.1 h
    exact hrest.mem_names h (gives_modify.1 hfirst ▸ mem_names_put.2 (.inl rfl))
  | file =>
    obtain ⟨_, b, hfirst, h⟩ := gives_bind.1 h
    exact hrest.mem_names h (gives_modify.1 hfirst ▸ mem_names_put.2 (.inl rfl))

/-- A link that leads somewhere adds an entry, for itself or for what it leads to. -/
theorem mem_names_addLink {fuel : Nat} {link target : Path} (ht : d.canonicalize link = .ok target)
    (h : Gives (addLink d fuel name link) a u a') : name ∈ a'.names := by
  have hadded : ∀ {source : Source} {a a' : Contents} {u : Unit},
      Gives (Collect.add name source) a u a' → name ∈ a'.names := fun h =>
    gives_modify.1 h ▸ mem_names_put.2 (.inl rfl)
  -- on how many links out of the root may follow each other
  induction fuel generalizing link target a a' u with
  | zero => exact absurd h gives_throw
  | succ fuel ih =>
    unfold addLink at h
    rw [ht] at h
    rw [gives_get_bind] at h
    split at h
    · exact hadded h
    · split at h
      · rename_i hdir
        obtain ⟨l, hl⟩ := d.isDirectory_iff.1 hdir
        have hcanonical : d.canonicalize target = .ok (ofLocation l) := by
          unfold canonicalize find
          rw [hl]
          rfl
        exact mem_names_addBelow hname (scripted_addLink d fuel) (ih hcanonical) h
      · exact hadded h

end

/-- What leads somewhere from the root is an entry. -/
theorem mem_names_addNamed {n : String} (hn : IsClean n) {target : Path}
    (ht : d.canonicalize (a.root / n) = .ok target) (h : Gives (addNamed d n) a u a') : n ∈ a'.names := by
  obtain ⟨l, e, hfind⟩ : ∃ l e, d.find (a.root / n) = .ok (l, e) := by
    unfold canonicalize at ht
    rcases hf : d.find (a.root / n) with f | ⟨l, e⟩
    · rw [hf] at ht; cases ht
    · exact ⟨l, e, rfl⟩
  obtain ⟨type, htype⟩ := exists_typeOf_of_find hfind
  unfold addNamed at h
  rw [gives_get_bind] at h
  dsimp only at h
  rw [hn.bareText, htype] at h
  dsimp only at h
  unfold addInPlace at h
  rw [gives_get_bind, hn.nameBelow_join, htype] at h
  cases type with
  | link => exact mem_names_addLink hn ht h
  | directory =>
    exact mem_names_addBelow hn (scripted_addLink d _) (fun h => mem_names_addLink hn ht h) h
  | file => exact gives_modify.1 h ▸ mem_names_put.2 (.inl rfl)

theorem mem_names_addAllNamed_of_mem {extras : List String} {n : String} (hn : IsClean n) {target : Path}
    (ht : d.canonicalize (a.root / n) = .ok target) (hmem : n ∈ extras)
    (h : Gives (addAllNamed d extras) a u a') : n ∈ a'.names := by
  unfold addAllNamed at h
  induction extras generalizing a with
  | nil => cases hmem
  | cons extra rest ih =>
    obtain ⟨_, b, hfirst, hrest⟩ := gives_bind.1 h
    rcases List.mem_cons.1 hmem with rfl | hmem
    · exact (scripted_addAllNamed d rest).mem_names hrest (mem_names_addNamed hn ht hfirst)
    · have hroot := (scripted_addNamed d extra).root_eq hfirst
      exact ih (hroot.symm ▸ ht) hmem hrest

/-! ## Generated files -/

/-- The file `f` below the generated directory `dir`, whose place in the archive is `location`, is called `n`
there. -/
def Generated (d : Disk) (location : String) (dir : Path) (n : String) (f : Path) : Prop :=
  ∃ top names c, d.find dir = .ok (top, .directory) ∧ names ≠ [] ∧
    d.entry? (top ++ names) = some (.file c) ∧ f = dir.extend names ∧
    n = Path.slashJoin location (joined names)

section
variable (hpieces : ∀ e ∈ d.entries, ∀ n ∈ e.1, IsPiece n) {location : String} (hlocation : IsClean location)
  {dir : Path}
include hpieces hlocation

/-- Each generated file is the content of the entry of its name. -/
theorem source?_replaceTree (h : Gives (replaceTree d location dir) a u a') {n : String} {f : Path}
    (hf : Generated d location dir n f) : a'.source? n = some (.file f) := by
  obtain ⟨top, names, c, hdir, hne, hentry, rfl, rfl⟩ := hf
  unfold Gives at h
  rw [run_replaceTree] at h
  rcases htree : d.tree dir with e | entries
  · rw [htree] at h; cases h
  rw [htree] at h
  obtain ⟨-, rfl⟩ := Prod.mk.inj h
  have hname : ∀ {l : Location} {e : Entry}, (l, e) ∈ d.entries →
      bareText (Path.slashJoin location (nameInside dir (dir.extend (l.drop top.length)))) =
        Path.slashJoin location (joined (l.drop top.length)) := by
    intro l e he
    have hl : ∀ s ∈ l.drop top.length, IsPiece s := fun s hs => hpieces _ he s (List.mem_of_mem_drop hs)
    rw [nameInside_extend dir hl, (hlocation.slashJoin ⟨_, hl, rfl⟩).bareText]
  have hstored := mem_entries (by simp [hne]) hentry
  have hdrop : (top ++ names).drop top.length = names := List.drop_left
  refine source?_addAll_of_mem ?_ fun s hs => ?_
  · have hmem := mem_tree_of_entry? htree hdir hne hentry
    refine List.mem_map.2 ⟨(dir.extend names, .file), List.mem_filter.2
      ⟨hmem, rfl⟩, ?_⟩
    have hself := hname hstored
    rw [hdrop] at hself
    rw [hself]
  · obtain ⟨⟨q, type⟩, hq, he⟩ := List.mem_map.1 hs
    obtain ⟨hq, htype⟩ := List.mem_filter.1 hq
    obtain rfl : type = .file := by simpa using htype
    obtain ⟨l, e, hl, ⟨m, rfl⟩, rfl⟩ := entry?_of_mem_tree htree hdir hq
    rw [hname hl, List.drop_left] at he
    injection he with hen hes
    have hnames : ∀ s ∈ names, IsPiece s := fun s hs => hpieces _ hstored s (List.mem_append_right _ hs)
    have hm : ∀ s ∈ m, IsPiece s := fun s hs => hpieces _ hl s (List.mem_append_right _ hs)
    rw [← hes, hlocation.slashJoin_injective hm hnames hen]

end

end Stowage.Archive.Contents
