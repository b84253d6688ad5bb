/-
What changes do to a sound disk. A file is written, moved or removed where a path names a slot, a location
without a directory; the rest of the disk stays as it is, and so does what other paths name.
-/
import Stowage.Proofs.Disk.Sound
import Stowage.Proofs.Disk.Change

open Stowage.Path

namespace Stowage.Disk

variable {d d' : Disk} {p : Path} {loc : Location}

/-! ## Slots -/

/-- The path names a location where there is no directory. -/
def Slot (d : Disk) (p : Path) (loc : Location) : Prop :=
  d.locate false p = .ok (d.place loc) ∧ d.entry? loc ≠ some .directory

theorem Slot.unique {loc' : Location} (h : d.Slot p loc) (h' : d.Slot p loc') : loc = loc' := by
  have he : d.place loc = d.place loc' := Except.ok.inj (h.1.symm.trans h'.1)
  rw [← location_place (d := d) loc, he, location_place]

theorem Slot.ne_nil (h : d.Slot p loc) : loc ≠ [] := ne_nil_of_not_directory h.2

theorem Slot.above (hd : d.Sound) (h : d.Slot p loc) : d.entry? loc.dropLast = some .directory := by
  have := (real_locate hd h.1).2
  rwa [location_place] at this

/-- A path names a slot or a directory, or it leads nowhere. -/
theorem locate_slot (hd : d.Sound) (p : Path) :
    (∃ e, d.locate false p = .error e ∧ ¬ ∃ loc, d.Slot p loc) ∨
    (∃ loc, d.locate false p = .ok (.found loc .directory) ∧ ¬ ∃ loc, d.Slot p loc) ∨
    ∃ loc, d.Slot p loc := by
  rcases hl : d.locate false p with e | q
  · exact .inl ⟨e, rfl, fun ⟨loc, h, _⟩ => by rw [hl] at h; cases h⟩
  · have hq := (real_locate hd hl).1
    by_cases hdir : d.entry? q.location = some .directory
    · rw [place_of_some hdir] at hq
      refine .inr (.inl ⟨_, by rw [← hq], ?_⟩)
      rintro ⟨loc, h, hno⟩
      rw [hl] at h
      cases h
      rw [location_place] at hdir
      exact hno hdir
    · exact .inr (.inr ⟨q.location, hl.trans (congrArg _ hq), hdir⟩)

/-- The location of a slot ends with the last step of the path. -/
theorem Slot.last (h : d.Slot p loc) :
    ∃ l s, p.steps.getLast? = some s ∧ s ≠ "." ∧ s ≠ ".." ∧ loc = l ++ [s] := by
  rcases named_locate h.1 with ⟨l, hl⟩ | ⟨l, s, hs, h1, h2, hloc⟩
  · have hdir := h.2
    unfold place at hl
    split at hl
    · rename_i he
      cases hl
      exact absurd he hdir
    · cases hl
  · rw [location_place] at hloc
    exact ⟨l, s, hs, h1, h2, hloc⟩

theorem Slot.kept (hd : d.Sound) (hk : Kept d d') (h : d.Slot p loc)
    (hno : d'.entry? loc ≠ some .directory) : d'.Slot p loc := by
  have := locate_kept hd hk h.1
  rw [location_place] at this
  exact ⟨this, hno⟩

/-! ## Disks that differ at one location -/

/-- The disks differ at most at one location, where neither has a directory or a link. -/
structure Beside (loc : Location) (d d' : Disk) : Prop where
  rest : ∀ l, l ≠ loc → d'.entry? l = d.entry? l
  here : d'.here = d.here
  noDirectory : d.entry? loc ≠ some .directory
  noLink : ∀ t, d.entry? loc ≠ some (.link t)
  noDirectory' : d'.entry? loc ≠ some .directory
  noLink' : ∀ t, d'.entry? loc ≠ some (.link t)

namespace Beside

theorem symm (h : Beside loc d d') : Beside loc d' d :=
  ⟨fun l hl => (h.rest l hl).symm, h.here.symm, h.noDirectory', h.noLink', h.noDirectory, h.noLink⟩

theorem trans {d'' : Disk} (h : Beside loc d d') (h' : Beside loc d' d'') : Beside loc d d'' :=
  ⟨fun l hl => (h'.rest l hl).trans (h.rest l hl), h'.here.trans h.here, h.noDirectory, h.noLink,
    h'.noDirectory', h'.noLink'⟩

theorem kept (h : Beside loc d d') : Kept d d' := by
  refine ⟨fun l hl => ?_, fun l t => ?_, h.here⟩
  · rw [h.rest l (by rintro rfl; exact h.noDirectory hl), hl]
  · by_cases hl : l = loc
    · subst hl
      exact ⟨fun ht => absurd ht (h.noLink' t), fun ht => absurd ht (h.noLink t)⟩
    · rw [h.rest l hl]

/-- A path that names another location names the same there. -/
theorem locate (hd : d.Sound) (h : Beside loc d d') {followLast : Bool} {q : Place}
    (hq : d.locate followLast p = .ok q) (hne : q.location ≠ loc) :
    d'.locate followLast p = .ok q := by
  have he : d'.place q.location = q := by
    rw [(real_locate hd hq).1, location_place]
    unfold place
    rw [h.rest _ hne]
  rw [locate_kept hd h.kept hq, he]

end Beside

/-- Writing a file to a slot without a link. -/
theorem beside_put (hne : loc ≠ []) (hdir : d.entry? loc ≠ some .directory)
    (hlink : ∀ t, d.entry? loc ≠ some (.link t)) (c : Content) :
    Beside loc d (d.put loc (.file c)) := by
  have hat : entry? (d.put loc (.file c)) loc = some (.file c) := by rw [entry?_put d hne, if_pos rfl]
  refine ⟨fun l hl => by rw [entry?_put d hne, if_neg hl], rfl, hdir, hlink, ?_, ?_⟩
  · rw [hat]; simp
  · rw [hat]; simp

/-- Removing a file. -/
theorem beside_erase (hd : d.Sound) (hdir : d.entry? loc ≠ some .directory)
    (hlink : ∀ t, d.entry? loc ≠ some (.link t)) : Beside loc d (d.erase loc) := by
  have hat : entry? (d.erase loc) loc = none := by rw [hd.entry?_erase hdir, if_pos rfl]
  refine ⟨fun l hl => by rw [hd.entry?_erase hdir, if_neg hl], rfl, hdir, hlink, ?_, ?_⟩
  · rw [hat]; simp
  · rw [hat]; simp

/-! ## Files -/

theorem run_ask {α : Type} (question : Disk → Except FileFault α) (d : Disk) :
    (Change.ask question).run.run d = (question d, d) := by
  have hget : (get : Change Disk).run.run d = (.ok d, d) := rfl
  unfold Change.ask
  rw [run_bind, hget]
  dsimp only
  rcases question d with e | a <;> rfl

theorem withoutSlash_eq (h : endsInSlash p = false) : withoutSlash p = p := by
  unfold endsInSlash at h
  unfold withoutSlash
  rcases hr : p.text.toList.reverse with _ | ⟨c, r⟩
  · rfl
  · have hc : c ≠ '/' := by
      rintro rfl
      rw [← List.head?_reverse, hr] at h
      simp at h
    have hdrop : (c :: r).dropWhile (· = '/') = c :: r := by
      rw [List.dropWhile_cons_of_neg (by simpa using hc)]
    rw [hdrop, ← hr, List.reverse_reverse]
    split
    · rfl
    · rw [String.ofList_toList]

/-- A file is written where the path names a slot, which is no link. -/
theorem run_write (hd : d.Sound) (hslash : endsInSlash p = false) (hlink : d.isLink p = false)
    (c : Content) :
    (∃ e, (write p c).run.run d = (.error e, d) ∧ ¬ ∃ loc, d.Slot p loc) ∨
    ∃ loc, d.Slot p loc ∧ (∀ t, d.entry? loc ≠ some (.link t)) ∧
      (write p c).run.run d = (.ok (), d.put loc (.file c)) := by
  unfold write store
  rw [if_neg (by simp [hslash])]
  show (∃ e, (Change.ask (·.locate true p) >>= _).run.run d = _ ∧ _) ∨
    ∃ loc, _ ∧ _ ∧ (Change.ask (·.locate true p) >>= _).run.run d = _
  simp only [run_bind, run_ask, locate_true hlink]
  rcases locate_slot hd p with ⟨e, he, hno⟩ | ⟨loc, he, hno⟩ | ⟨loc, hloc⟩
  · rw [he]
    exact .inl ⟨e, rfl, hno⟩
  · rw [he]
    exact .inl ⟨.isADirectory, rfl, hno⟩
  · have hnolink : ∀ t, d.entry? loc ≠ some (.link t) := by
      intro t ht
      have := hloc.1
      unfold isLink typeOf at hlink
      rw [this, place_of_some ht] at hlink
      cases hlink
    refine .inr ⟨loc, hloc, hnolink, ?_⟩
    rw [hloc.1]
    rcases he : d.entry? loc with _ | (c' | t | _)
    · rw [place_of_none he]; rfl
    · rw [place_of_some he]; rfl
    · exact absurd he (hnolink t)
    · exact absurd he hloc.2

/-- A link is created where the path names a location with nothing in it, or the disk stays as it is. -/
theorem run_createLink (hd : d.Sound) (p : Path) (target : String) :
    (∃ e, (createLink p target).run.run d = (.error e, d)) ∨
    ∃ loc, d.Slot p loc ∧ d.entry? loc = none ∧ (d.put loc (.link target)).Sound ∧
      (createLink p target).run.run d = (.ok (), d.put loc (.link target)) := by
  unfold createLink
  split
  · exact .inl ⟨.notFound, rfl⟩
  show (∃ e, (Change.ask (·.locate false p) >>= _).run.run d = _) ∨
    ∃ loc, _ ∧ _ ∧ _ ∧ (Change.ask (·.locate false p) >>= _).run.run d = _
  simp only [run_bind, run_ask]
  rcases locate_slot hd p with ⟨e, he, -⟩ | ⟨loc, he, -⟩ | ⟨loc, hloc⟩
  · rw [he]
    exact .inl ⟨e, rfl⟩
  · rw [he]
    exact .inl ⟨.alreadyExists, rfl⟩
  · rw [hloc.1]
    rcases he : d.entry? loc with _ | entry
    · rw [place_of_none he]
      exact .inr ⟨loc, hloc, he, hd.put hloc.ne_nil (hloc.above hd) fun h => absurd h hloc.2, rfl⟩
    · rw [place_of_some he]
      exact .inl ⟨.alreadyExists, rfl⟩

theorem run_removeFile_of_slot {e : Entry} (h : d.Slot p loc) (he : d.entry? loc = some e) :
    (removeFile p).run.run d = (.ok (), d.erase loc) := by
  unfold removeFile
  rw [run_bind, run_ask, h.1, place_of_some he]
  rcases e with c | t | _
  · rfl
  · rfl
  · exact absurd he h.2

theorem run_removeFile_of_not_slot (hd : d.Sound) (h : ¬ ∃ loc, d.Slot p loc) :
    ∃ e, (removeFile p).run.run d = (.error e, d) := by
  unfold removeFile
  rw [run_bind, run_ask]
  rcases locate_slot hd p with ⟨e, he, -⟩ | ⟨loc, he, -⟩ | hslot
  · rw [he]
    exact ⟨e, rfl⟩
  · rw [he]
    exact ⟨.isADirectory, rfl⟩
  · exact absurd hslot h

/-- A path with a last step other than `.` does not ask for a directory. -/
theorem endsInSlash_of_steps {s : String} (hs : p.steps.getLast? = some s) (h1 : s ≠ ".") :
    endsInSlash p = false := by
  by_contra hslash
  unfold endsInSlash at hslash
  rw [steps_eq, if_pos (by simpa using hslash), List.getLast?_concat] at hs
  exact h1 (Option.some.inj hs).symm

theorem endsInSlash_of_slot (h : d.Slot p loc) : endsInSlash p = false := by
  obtain ⟨l, s, hs, h1, -, -⟩ := h.last
  exact endsInSlash_of_steps hs h1

/-- A file is moved to where a path names a slot. -/
theorem run_rename (hd : d.Sound) {q : Path} {c : Content} (h : d.Slot p loc)
    (hc : d.entry? loc = some (.file c)) :
    (∃ e, (rename p q).run.run d = (.error e, d) ∧ ¬ ∃ onto, d.Slot q onto) ∨
    ∃ onto, d.Slot q onto ∧ (rename p q).run.run d = (.ok (), (d.erase loc).put onto (.file c)) := by
  unfold rename
  simp only [run_bind, run_ask, h.1, place_of_some hc]
  by_cases hslot : ∃ onto, d.Slot q onto
  · obtain ⟨onto, honto⟩ := hslot
    have hslash := endsInSlash_of_slot honto
    obtain ⟨l, s, hs, h1, h2, -⟩ := honto.last
    have hname : checkName q .busy .busy = .ok () := by
      unfold checkName
      rw [hs]
      split
      · rename_i he; cases he; exact absurd rfl h1
      · rename_i he; cases he; exact absurd rfl h2
      · rfl
    refine .inr ⟨onto, honto, ?_⟩
    rw [withoutSlash_eq hslash, honto.1, hname, hslash]
    rcases he : d.entry? onto with _ | (c' | t | _)
    · rw [place_of_none he]; rfl
    · rw [place_of_some he]; rfl
    · rw [place_of_some he]; rfl
    · exact absurd he honto.2
  · refine .inl ?_
    rcases hl : d.locate false (withoutSlash q) with e | place
    · exact ⟨e, rfl, hslot⟩
    dsimp only
    rcases hname : checkName (withoutSlash q) .busy .busy with e | u
    · exact ⟨e, rfl, hslot⟩
    dsimp only
    rcases hslash : endsInSlash q
    · rw [withoutSlash_eq hslash] at hl
      have hplace := (real_locate hd hl).1
      have hdir : d.entry? place.location = some .directory := by
        by_contra hno
        exact hslot ⟨_, hl.trans (congrArg _ hplace), hno⟩
      rw [place_of_some hdir] at hplace
      rw [hplace]
      exact ⟨.isADirectory, rfl, hslot⟩
    · exact ⟨.notADirectory, rfl, hslot⟩

/-! ## Directories -/

/-- The disk with some directories more, where nothing was stored. -/
structure Grown (d d' : Disk) : Prop where
  entry : ∀ l, d'.entry? l = d.entry? l ∨ d.entry? l = none ∧ d'.entry? l = some .directory
  here : d'.here = d.here

namespace Grown

theorem refl (d : Disk) : Grown d d := ⟨fun _ => .inl rfl, rfl⟩

theorem trans {d'' : Disk} (h : Grown d d') (h' : Grown d' d'') : Grown d d'' := by
  refine ⟨fun l => ?_, h'.here.trans h.here⟩
  rcases h'.entry l with he | ⟨hn, hd⟩
  · rw [he]; exact h.entry l
  · rcases h.entry l with he | ⟨-, hd'⟩
    · exact .inr ⟨he ▸ hn, hd⟩
    · rw [hn] at hd'; cases hd'

theorem kept (h : Grown d d') : Kept d d' := by
  refine ⟨fun l hl => ?_, fun l t => ?_, h.here⟩
  · rcases h.entry l with he | ⟨-, hdir⟩
    · rw [he, hl]
    · exact hdir
  · rcases h.entry l with he | ⟨hn, hdir⟩
    · rw [he]
    · rw [hn, hdir]; simp

end Grown

theorem grown_createDirectory (d : Disk) (p : Path) :
    Keeps (fun d' => Grown d d' ∧ d'.Sound) (createDirectory p) := by
  rintro d' ⟨hgrown, hsound⟩
  unfold createDirectory
  rw [run_bind, run_ask]
  rcases hl : d'.locate false (withoutSlash p) with e | ⟨l, e⟩ | l
  · exact ⟨hgrown, hsound⟩
  · exact ⟨hgrown, hsound⟩
  · have hup := (real_locate hsound hl).2
    have hnone := entry?_of_locate_free hsound hl
    have hne : l ≠ [] := ne_nil_of_not_directory (by rw [hnone]; simp)
    refine ⟨hgrown.trans ⟨fun m => ?_, rfl⟩, hsound.put hne hup fun _ => rfl⟩
    show entry? (d'.put l .directory) m = _ ∨ _ ∧ entry? (d'.put l .directory) m = _
    rw [entry?_put d' hne]
    split
    · rename_i hm
      exact .inr ⟨hm ▸ hnone, rfl⟩
    · exact .inl rfl

theorem grown_createDirectories (hd : d.Sound) (p : Path) :
    Grown d ((createDirectories p).run.run d).2 ∧ ((createDirectories p).run.run d).2.Sound :=
  keeps_createDirectories (grown_createDirectory d) p d ⟨.refl d, hd⟩

end Stowage.Disk
