/-
What writing an archive spares: every file under another name, and everything that leads to a place. This holds
however the writing ends.
-/
import Stowage.Proofs.Archive.Write

open Stowage.Path

namespace Stowage.Archive

open Stowage.Disk

variable {a : Contents} {destination : Path} {format : Format} {level : Nat} {d d' : Disk} {loc : Location}

/-- The second disk has nothing at another place, and nothing new that leads anywhere: it differs from the first one
where a location ends like the destination or like its unfinished file. -/
structure Spared (destination : Path) (d d' : Disk) : Prop where
  sound : d'.Sound
  here : d'.here = d.here
  rest : ∀ l, l.getLast? ≠ destination.steps.getLast? →
    l.getLast? ≠ (unfinished destination).steps.getLast? → d'.entry? l = d.entry? l
  old : ∀ l e, d'.entry? l = some e → e.type ≠ .file → d.entry? l = some e

theorem getLast?_of_slot {p : Path} (h : d.Slot p loc) : loc.getLast? = p.steps.getLast? := by
  obtain ⟨l, s, hs, -, -, rfl⟩ := h.last
  rw [hs, List.getLast?_concat]

namespace Spared

theorem refl (hd : d.Sound) : Spared destination d d := ⟨hd, rfl, fun _ _ _ => rfl, fun _ _ h _ => h⟩

/-- A file is written to the unfinished one, or that is removed. -/
theorem of_beside (hd' : d'.Sound) (hslot : d.Slot (unfinished destination) loc) (h : Beside loc d d') :
    Spared destination d d' := by
  refine ⟨hd', h.here, fun l _ hl => h.rest l ?_, fun l e he htype => ?_⟩
  · rintro rfl
    exact hl (getLast?_of_slot hslot)
  · by_cases hl : l = loc
    · subst hl
      rcases e with c | t | _
      · exact absurd rfl htype
      · exact absurd he (h.noLink' t)
      · exact absurd he h.noDirectory'
    · rw [← h.rest l hl, he]

/-- The unfinished file is moved to the destination. -/
theorem moved {onto : Location} {c : Content} (h : Spared destination d d')
    (hslot : d'.Slot (unfinished destination) loc) (honto : d'.Slot destination onto) :
    Spared destination d ((d'.erase loc).put onto (.file c)) := by
  have hentry : ∀ l, entry? ((d'.erase loc).put onto (.file c)) l =
      if l = onto then some (.file c) else if l = loc then none else d'.entry? l := by
    intro l
    rw [entry?_put _ honto.ne_nil, h.sound.entry?_erase hslot.2]
  have herased : ∀ l, d'.entry? l = some .directory → entry? (d'.erase loc) l = some .directory := by
    intro l hl
    rw [h.sound.entry?_erase hslot.2, if_neg, hl]
    rintro rfl
    exact hslot.2 hl
  refine ⟨?_, h.here, fun l h1 h2 => ?_, fun l e he htype => ?_⟩
  · refine (h.sound.erase hslot.2).put honto.ne_nil (herased _ (honto.above h.sound)) fun hdir => ?_
    rw [h.sound.entry?_erase hslot.2] at hdir
    split at hdir
    · cases hdir
    · exact absurd hdir honto.2
  · rw [hentry, if_neg, if_neg, h.rest l h1 h2]
    · rintro rfl
      exact h2 (getLast?_of_slot hslot)
    · rintro rfl
      exact h1 (getLast?_of_slot honto)
  · rw [hentry] at he
    split at he
    · cases he
      exact absurd rfl htype
    · split at he
      · cases he
      · exact h.old l e he htype

end Spared

theorem spared_writeInto {w : World} (hd : w.disk.Sound)
    (hlink : w.disk.isLink (unfinished destination) = false) :
    Spared destination w.disk ((a.writeInto destination format level).run.run w).2.disk := by
  unfold Contents.writeInto
  rw [run_bind, run_tryCatch]
  rcases run_writeAll a format level hd (endsInSlash_unfinished destination) hlink with
    ⟨e, hrun, hno⟩ | ⟨loc, d, hfrom, hslot, hdsound, hbeside, h⟩
  · obtain ⟨e', hremove⟩ := run_removeFile_of_not_slot hd hno
    rw [hrun]
    dsimp only
    rw [run_cleanup, hremove]
    exact .refl hd
  have hspared : Spared destination w.disk d := .of_beside hdsound hfrom hbeside
  rcases h with ⟨e, notes, c, hrun, hc⟩ | ⟨ms, notes, hrun, -, hc⟩
  · rw [hrun]
    dsimp only
    rw [run_cleanup, run_removeFile_of_slot hslot hc]
    exact .of_beside (hdsound.erase hslot.2) hfrom
      (hbeside.trans (beside_erase hdsound hslot.2 hbeside.noLink'))
  · rw [hrun]
    dsimp only
    rw [run_bind, Action.run_change]
    rcases run_rename hdsound hslot hc (q := destination) with ⟨e, hmove, -⟩ | ⟨onto, honto, hmove⟩
    · rw [hmove]
      exact hspared
    · rw [hmove]
      dsimp only [Except.mapError]
      rw [run_bind, Action.run_ask]
      have hend := hspared.moved (c := archive format level ms) hslot honto
      rcases ((d.erase loc).put onto (.file (archive format level ms))).read destination with e | content
      · exact hend
      · exact hend

/-- However writing an archive ends, it spares the disk with a directory for it, or the disk as it was. -/
theorem spared_write {w : World} (hd : w.disk.Sound)
    (hlink : (prepared w.disk destination).isLink (unfinished destination) = false) :
    ∃ d, Grown w.disk d ∧ Spared destination d ((a.write destination format level).run.run w).2.disk := by
  obtain ⟨hgrown, hsound⟩ := grown_prepared hd destination
  rw [run_write_eq]
  by_cases hlevel : maxLevel < level
  · rw [if_pos hlevel]
    exact ⟨w.disk, .refl _, .refl hd⟩
  · rw [if_neg hlevel]
    refine ⟨_, hgrown, ?_⟩
    have hroom : ((makeRoom destination).run.run w.disk).2 = prepared w.disk destination := rfl
    rcases hr : (makeRoom destination).run.run w.disk with ⟨e | u, d⟩
    · rw [hr] at hroom
      subst hroom
      exact .refl hsound
    · rw [hr] at hroom
      subst hroom
      exact spared_writeInto (w := { w with disk := prepared w.disk destination }) hsound hlink

end Stowage.Archive
