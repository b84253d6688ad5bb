/-
Disks that are laid out. Whatever is written, created, linked, copied, moved or removed, starting from an empty disk
and whether it succeeds or not: the disk is sound.
-/
import Stowage.Proofs.Disk.Filled
import Stowage.Proofs.Disk.Removal

namespace Stowage.Disk

/-! ## One change -/

section
variable {d : Disk} {p : Path} {loc : Location} (hd : d.Sound)
include hd

theorem sound_write (p : Path) (c : Content) : ((write p c).run.run d).2.Sound := by
  rcases run_write_vacant hd p c with ⟨e, hrun⟩ | ⟨loc, hvacant, hrun⟩
  · rw [hrun]
    exact hd
  · rw [hrun]
    exact hvacant.sound_put hd c

theorem sound_copy (source target : Path) : ((copy source target).run.run d).2.Sound := by
  rcases run_copy hd source target with ⟨e, hrun⟩ | ⟨l, loc, c, c', -, hvacant, -, hrun⟩
  · rw [hrun]
    exact hd
  · rw [hrun]
    exact hvacant.sound_put hd c'

theorem sound_createLink (p : Path) (target : String) : ((createLink p target).run.run d).2.Sound := by
  rcases run_createLink hd p target with ⟨e, hrun⟩ | ⟨loc, -, -, hsound, hrun⟩
  · rw [hrun]
    exact hd
  · rw [hrun]
    exact hsound

theorem sound_removeFile (p : Path) : ((removeFile p).run.run d).2.Sound := by
  by_cases hslot : ∃ loc, d.Slot p loc
  · obtain ⟨loc, hslot⟩ := hslot
    rcases he : d.entry? loc with _ | e
    · unfold removeFile
      rw [run_bind, run_ask, hslot.1, place_of_none he]
      exact hd
    · rw [run_removeFile_of_slot hslot he]
      exact hd.erase hslot.2
  · obtain ⟨e, hrun⟩ := run_removeFile_of_not_slot hd hslot
    rw [hrun]
    exact hd

theorem sound_removeTree (hhere : ∀ top, d.locate false p = .ok (.found top .directory) → ¬ top <+: d.here) :
    ((removeTree p).run.run d).2.Sound := by
  have hremoves := removes hd p
  generalize ((removeTree p).run.run d).1 = result at hremoves
  generalize ((removeTree p).run.run d).2 = d' at hremoves
  cases hremoves with
  | nothing => exact hd
  | @link l t hlink =>
    have hentry := entry?_of_locate hd hlink
    exact hd.erase (by rw [hentry]; simp)
  | tree htop _ _ _ hsound => exact hsound (hhere _ htop)

theorem sound_rename {c : Content} (hslot : d.Slot p loc) (hfile : d.entry? loc = some (.file c)) (q : Path) :
    ((rename p q).run.run d).2.Sound := by
  rcases run_rename hd (q := q) hslot hfile with ⟨e, hrun, -⟩ | ⟨onto, honto, hrun⟩
  · rw [hrun]
    exact hd
  · rw [hrun]
    have habove : entry? (d.erase loc) onto.dropLast = some .directory := by
      have hup := honto.above hd
      rw [hd.entry?_erase hslot.2, if_neg, hup]
      intro he
      exact hslot.2 (he ▸ hup)
    refine (hd.erase hslot.2).put honto.ne_nil habove fun hdir => ?_
    rw [hd.entry?_erase hslot.2] at hdir
    split at hdir
    · cases hdir
    · exact absurd hdir honto.2

end

/-! ## Any number of changes -/

/-- The disks that changes make of an empty one. What is moved is a file, and the directory that relative paths start
from is not removed. -/
inductive Laid : Disk → Prop
  | empty : Laid ⟨[], []⟩
  | enter {d : Disk} {loc : Location} (h : Laid d) (hdir : d.entry? loc = some .directory) : Laid { d with here := loc }
  | write {d : Disk} (h : Laid d) (p : Path) (c : Content) : Laid ((write p c).run.run d).2
  | createDirectories {d : Disk} (h : Laid d) (p : Path) : Laid ((createDirectories p).run.run d).2
  | createLink {d : Disk} (h : Laid d) (p : Path) (target : String) : Laid ((createLink p target).run.run d).2
  | copy {d : Disk} (h : Laid d) (source target : Path) : Laid ((copy source target).run.run d).2
  | rename {d : Disk} {p : Path} {loc : Location} {c : Content} (h : Laid d) (hslot : d.Slot p loc)
      (hfile : d.entry? loc = some (.file c)) (q : Path) : Laid ((rename p q).run.run d).2
  | removeFile {d : Disk} (h : Laid d) (p : Path) : Laid ((removeFile p).run.run d).2
  | removeTree {d : Disk} {p : Path} (h : Laid d)
      (hhere : ∀ top, d.locate false p = .ok (.found top .directory) → ¬ top <+: d.here) :
      Laid ((removeTree p).run.run d).2

/-- Every disk that is laid out is sound. -/
theorem Laid.sound {d : Disk} (h : Laid d) : d.Sound := by
  induction h with
  | empty => exact ⟨nofun, rfl⟩
  | enter _ hdir ih => exact ⟨ih.inside, hdir⟩
  | write _ p c ih => exact sound_write ih p c
  | createDirectories _ p ih => exact (grown_createDirectories ih p).2
  | createLink _ p target ih => exact sound_createLink ih p target
  | copy _ source target ih => exact sound_copy ih source target
  | rename _ hslot hfile q ih => exact sound_rename ih hslot hfile q
  | removeFile _ p ih => exact sound_removeFile ih p
  | removeTree _ hhere ih => exact sound_removeTree ih hhere

end Stowage.Disk
