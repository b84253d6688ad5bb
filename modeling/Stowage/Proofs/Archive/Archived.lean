/-
What extras archive, and under which names. A path comes under its name below the root, what is in its tree under its
name there, and what a link out of the root leads to under the name of the link. Whether collecting succeeds or not,
every new entry is for such a path.
-/
import Stowage.Proofs.Archive.Contents

open Stowage.Path

namespace Stowage.Archive.Contents

open Disk Glob

/-! ## What collecting keeps -/

section
variable {α β : Type} {P : Contents → Prop}

theorem keeps_get_bind {k : Contents → Collect α} (hk : ∀ a, P a → Keeps P (k a)) : Keeps P (get >>= k) :=
  fun a ha => hk a ha a ha

theorem keeps_ofExcept_bind {r : Except Error β} {k : β → Collect α} (hk : ∀ x, r = .ok x → Keeps P (k x)) :
    Keeps P (Collect.ofExcept r >>= k) := by
  rcases r with f | x
  · exact keeps_throw f
  · exact hk x rfl

theorem keeps_ofDisk_bind {r : Except FileFault β} {k : β → Collect α} (hk : ∀ x, r = .ok x → Keeps P (k x)) :
    Keeps P (Collect.ofDisk r >>= k) := by
  rcases r with f | x
  · exact keeps_throw (Error.file f)
  · exact hk x rfl

theorem keeps_forM_of_mem {f : β → Collect PUnit} {l : List β} (hf : ∀ x ∈ l, Keeps P (f x)) :
    Keeps P (l.forM f) := by
  induction l with
  | nil => exact keeps_pure _
  | cons x l ih =>
    rw [List.forall_mem_cons] at hf
    exact keeps_bind hf.1 fun _ => ih hf.2

end

theorem mem_entries_insert {name : String} {source : Source} {entries : List (String × Source)}
    {e : String × Source} (h : e ∈ insert name source entries) : e = (name, source) ∨ e ∈ entries := by
  induction entries with
  | nil => exact .inl (List.mem_singleton.1 h)
  | cons x rest ih =>
    obtain ⟨n, s⟩ := x
    unfold insert at h
    split at h
    · exact (List.mem_cons.1 h).imp_right (List.mem_cons_of_mem _)
    · split at h
      · exact List.mem_cons.1 h
      · rcases List.mem_cons.1 h with rfl | h
        · exact .inr List.mem_cons_self
        · exact (ih h).imp_right (List.mem_cons_of_mem _)

/-! ## What extras stand for -/

/-- An extra designates the path that it spells, as seen from the root, or those that it matches below the root
if there is no such path. -/
inductive Designates (d : Disk) (root : Path) (extra : String) : Path → Prop
  | itself {type : EntryType} (h : d.typeOf (root / bareText extra) = .ok type) :
    Designates d root extra (root / bareText extra)
  | matched {paths : List Path} {p : Path} (hpattern : isPattern (bareText extra) = true)
      (hmissing : d.typeOf (root / bareText extra) = .error .notFound)
      (h : expand d caseless (literal root.text ++ "/" ++ bareText extra) = .ok paths) (hp : p ∈ paths) :
    Designates d root extra p

/-- A path is archived under a name, as what it is: one that an extra designates, one in the tree of another path, or
what a link out of the root leads to. -/
inductive ArchivedAs (d : Disk) (root : Path) (extras : List String) : String → Path → EntryType → Prop
  | designated {extra name : String} {p : Path} {type : EntryType} (he : extra ∈ extras)
      (h : Designates d root extra p) (hname : nameBelow p root = .ok name) (ht : d.typeOf p = .ok type) :
      ArchivedAs d root extras name p type
  | inside {name : String} {p q : Path} {entries : List (Path × EntryType)} {type : EntryType}
      (h : ArchivedAs d root extras name p .directory) (htree : d.tree p = .ok entries)
      (hq : (q, type) ∈ entries) :
      ArchivedAs d root extras (Path.slashJoin name (nameInside p q)) q type
  | through {name : String} {p target : Path} (h : ArchivedAs d root extras name p .link)
      (ht : d.canonicalize p = .ok target) (hout : target.nameBelow? root = none) :
      ArchivedAs d root extras name target (if d.isDirectory target then .directory else .file)

/-- The entry is for a path that is archived under its name. A link that leads below the root is told by the name of
what it leads to. -/
inductive Archives (d : Disk) (root : Path) (extras : List String) : String × Source → Prop
  | file {n : String} {p : Path} (h : ArchivedAs d root extras n p .file) :
    Archives d root extras (n, .file p)
  | directory {n : String} {p : Path} (h : ArchivedAs d root extras n p .directory) :
    Archives d root extras (n, .directory)
  | link {n name : String} {p target : Path} (h : ArchivedAs d root extras n p .link)
      (ht : d.canonicalize p = .ok target) (hin : target.nameBelow? root = some name) :
      Archives d root extras (n, .link (linkTarget n name))

section
variable {d : Disk} {root : Path} {extras : List String}

theorem isClean_nameInside (dir path : Path) : IsClean (nameInside dir path) :=
  ⟨_, fun _ hs => isPiece_of_mem_moves hs, slashText_eq _⟩

theorem ArchivedAs.isClean {name : String} {p : Path} {type : EntryType}
    (h : ArchivedAs d root extras name p type) : IsClean name := by
  induction h with
  | designated _ _ hname _ => exact isClean_of_nameBelow hname
  | inside _ _ _ ih => exact ih.slashJoin (isClean_nameInside _ _)
  | through _ _ _ ih => exact ih

theorem Archives.isClean {e : String × Source} (h : Archives d root extras e) : IsClean e.1 := by
  cases h with
  | file h => exact h.isClean
  | directory h => exact h.isClean
  | link h => exact h.isClean

/-! ## What is collected -/

/-- The contents of a root hold some entries, and others only for archived paths. -/
def OnlyArchived (d : Disk) (root : Path) (extras : List String) (entries : List (String × Source))
    (a : Contents) : Prop :=
  a.root = root ∧ ∀ e ∈ a.entries, e ∈ entries ∨ Archives d root extras e

variable {entries : List (String × Source)}

theorem keeps_add {name : String} {source : Source} (h : Archives d root extras (name, source)) :
    Keeps (OnlyArchived d root extras entries) (Collect.add name source) := by
  refine keeps_modify fun a ha => ⟨ha.1, fun e he => ?_⟩
  rcases mem_entries_insert he with rfl | he
  · exact .inr h
  · exact ha.2 e he

theorem keeps_note (text : String) :
    Keeps (OnlyArchived d root extras entries) (modify (·.note text) : Collect PUnit) :=
  keeps_modify fun _ ha => ha

theorem keeps_addBelow {link : String → Path → Collect Unit}
    (hlink : ∀ n p, ArchivedAs d root extras n p .link →
      Keeps (OnlyArchived d root extras entries) (link n p))
    {name : String} {dir : Path} (h : ArchivedAs d root extras name dir .directory) :
    Keeps (OnlyArchived d root extras entries) (addBelow d link name dir) := by
  refine keeps_ofDisk_bind fun tree htree => ?_
  have hinside : ∀ e ∈ tree, ArchivedAs d root extras (Path.slashJoin name (nameInside dir e.1)) e.1 e.2 :=
    fun e he => h.inside htree he
  clear htree
  induction tree with
  | nil => exact keeps_pure _
  | cons e rest ih =>
    rw [List.forall_mem_cons] at hinside
    obtain ⟨he, hrest⟩ := hinside
    obtain ⟨q, _ | _ | _⟩ := e
    · exact keeps_bind (keeps_add (.file he)) fun _ => ih hrest
    · exact keeps_bind (hlink _ _ he) fun _ => ih hrest
    · exact keeps_bind (keeps_add (.directory he)) fun _ => ih hrest

theorem keeps_addLink (fuel : Nat) {name : String} {link : Path} (h : ArchivedAs d root extras name link .link) :
    Keeps (OnlyArchived d root extras entries) (addLink d fuel name link) := by
  -- on how many links out of the root may follow each other: the next ones lie in the tree of the target
  induction fuel generalizing name link with
  | zero => exact keeps_throw _
  | succ fuel ih =>
    unfold addLink
    split
    · exact keeps_note _
    · exact keeps_throw _
    · rename_i target ht
      refine keeps_get_bind fun a ha => ?_
      rw [ha.1]
      split
      · rename_i targetName hname
        exact keeps_add (.link h ht hname)
      · rename_i hout
        have hthrough := h.through ht hout
        split
        · rename_i hdir
          rw [if_pos hdir] at hthrough
          exact keeps_addBelow (fun _ _ => ih) hthrough
        · rename_i hdir
          rw [if_neg hdir] at hthrough
          exact keeps_add (.file hthrough)

theorem keeps_addInPlace {extra : String} (he : extra ∈ extras) {p : Path} (h : Designates d root extra p) :
    Keeps (OnlyArchived d root extras entries) (addInPlace d p) := by
  refine keeps_get_bind fun a ha => keeps_ofExcept_bind fun name hname => keeps_ofDisk_bind fun type ht => ?_
  rw [ha.1] at hname
  have harchived : ArchivedAs d root extras name p type := .designated he h hname ht
  rcases type with _ | _ | _
  · exact keeps_add (.file harchived)
  · exact keeps_addLink _ harchived
  · exact keeps_addBelow (fun _ _ => keeps_addLink _) harchived

theorem keeps_addNamed {extra : String} (he : extra ∈ extras) :
    Keeps (OnlyArchived d root extras entries) (addNamed d extra) := by
  refine keeps_get_bind fun a ha => ?_
  dsimp only
  rw [ha.1]
  split
  · rename_i ht
    exact keeps_addInPlace he (.itself ht)
  · rename_i hmissing
    split
    · rename_i hpattern
      refine keeps_get_bind fun a ha => ?_
      rw [ha.1]
      refine keeps_ofExcept_bind fun paths hpaths => ?_
      have hexpand : expand d caseless (literal root.text ++ "/" ++ bareText extra) = .ok paths := by
        rcases hx : expand d caseless (literal root.text ++ "/" ++ bareText extra) with f | ps
        · rw [hx] at hpaths; cases hpaths
        · rw [hx] at hpaths; cases hpaths; rfl
      refine keeps_bind (keeps_forM_of_mem fun p hp =>
        keeps_addInPlace he (.matched hpattern hmissing hexpand hp)) fun _ => ?_
      split
      · exact keeps_note _
      · exact keeps_pure _
    · exact keeps_note _
  · exact keeps_throw _

/-- However adding extras ends, the new entries are for archived paths. -/
theorem archives_of_mem {a : Contents} {e : String × Source}
    (h : e ∈ ((addAllNamed d extras).run.run a).2.entries) : e ∈ a.entries ∨ Archives d a.root extras e := by
  have hkeeps : Keeps (OnlyArchived d a.root extras a.entries) (addAllNamed d extras) :=
    keeps_forM_of_mem fun extra he => keeps_addNamed he
  exact (hkeeps a ⟨rfl, fun _ => .inl⟩).2 e h

end

end Stowage.Archive.Contents
