/-
What comes of writing an archive. It is complete at its destination, or nothing but the unfinished file has
changed; which of the two it is for a finished archive depends on the destination, which a file can be moved
to only if there is no directory.
-/
import Stowage.Archive.Write
import Stowage.Proofs.Disk.Effects
import Stowage.Proofs.Path.Below
import Stowage.Proofs.World

open Stowage.Path

namespace Stowage

/-! ## File names -/

namespace Path

theorem fileName_of_steps {p : Path} {s : String} (h : p.steps.getLast? = some s) (h1 : s ≠ ".")
    (h2 : s ≠ "..") : p.fileName = some s := by
  have hmoves : p.moves.getLast? = some s := by
    rw [steps_eq] at h
    split at h
    · rw [List.getLast?_concat] at h
      exact absurd (Option.some.inj h).symm h1
    · obtain ⟨l, hl⟩ := List.getLast?_eq_some_iff.1 h
      unfold moves
      rw [hl, List.filter_append, List.filter_cons_of_pos (by simpa using h1), List.filter_nil,
        List.getLast?_concat]
  exact fileName_eq_some.2 ⟨hmoves, h2⟩

theorem isPiece_fileName {p : Path} {n : String} (h : p.fileName = some n) : IsPiece n :=
  isPiece_of_mem_moves (List.mem_of_getLast? (fileName_eq_some.1 h).1)

end Path

namespace Archive

open Disk

/-! ## The unfinished file -/

theorem isName_partial {n : String} (hn : '/' ∉ n.toList) : IsName (n ++ ".partial") := by
  have hlength : (n ++ ".partial").toList.length = n.toList.length + 8 := by
    rw [String.toList_append, List.length_append]
    rfl
  refine ⟨⟨fun h => ?_, fun h => ?_, ?_⟩, fun h => ?_⟩
  · rw [h] at hlength
    simp at hlength
  · rw [h] at hlength
    simp at hlength
  · rw [String.toList_append, List.mem_append, not_or]
    exact ⟨hn, by decide⟩
  · rw [h] at hlength
    simp at hlength

theorem isPiece_unfinished (destination : Path) : IsPiece (destination.fileName.getD "" ++ ".partial") := by
  refine (isName_partial ?_).toIsPiece
  rcases hn : destination.fileName with _ | n
  · decide
  · exact (isPiece_fileName hn).no_slash

theorem steps_unfinished (destination : Path) :
    ∃ before, (unfinished destination).steps =
      before ++ [destination.fileName.getD "" ++ ".partial"] :=
  ⟨_, steps_join _ (isPiece_unfinished destination)⟩

theorem endsInSlash_unfinished (destination : Path) : endsInSlash (unfinished destination) = false := by
  obtain ⟨before, hs⟩ := steps_unfinished destination
  exact endsInSlash_of_steps (by rw [hs, List.getLast?_concat]) (isPiece_unfinished destination).ne_dot

/-- The unfinished file is not in the place of the archive. -/
theorem slot_ne {d : Disk} {destination : Path} {loc onto : Location}
    (h : d.Slot (unfinished destination) loc) (h' : d.Slot destination onto) : onto ≠ loc := by
  obtain ⟨l, s, hs, -, -, rfl⟩ := h.last
  obtain ⟨l', s', hs', h1, h2, rfl⟩ := h'.last
  obtain ⟨before, hu⟩ := steps_unfinished destination
  rw [hu, List.getLast?_concat, fileName_of_steps hs' h1 h2] at hs
  intro he
  have hname : s' = s' ++ ".partial" := by
    have := (List.append_inj' he rfl).2
    rw [List.singleton_inj] at this
    rw [this]
    exact (Option.some.inj hs).symm.trans (by rw [this]; rfl)
  have := congrArg (fun x : String => x.toList.length) hname
  rw [String.toList_append, List.length_append] at this
  have h8 : (".partial").toList.length = 8 := rfl
  omega

/-! ## Members -/

/-- What entries become on a disk: those whose file is gone are left out. -/
inductive Packs (format : Format) (d : Disk) : List (String × Source) → List Member → Prop
  | nil : Packs format d [] []
  | member {name : String} {source : Source} {m : Member} {entries : List (String × Source)}
      {ms : List Member} (h : member format d name source = .ok m) (rest : Packs format d entries ms) :
      Packs format d ((name, source) :: entries) (m :: ms)
  | gone {name : String} {source : Source} {entries : List (String × Source)} {ms : List Member}
      (h : Archive.member format d name source = .error .notFound) (rest : Packs format d entries ms) :
      Packs format d ((name, source) :: entries) ms

theorem Writer.hasRoom_put (w : Writer) (m : Member) : (w.put m).hasRoom = w.hasRoom := by
  cases w <;> rfl

/-- What becomes of a writer and of the count when some members are written. -/
def Progress.after (p : Progress) (ms : List Member) : Progress :=
  ⟨ms.foldl Writer.put p.writer, p.written + ms.length, p.members ++ ms⟩

theorem Progress.after_nil (p : Progress) : p.after [] = p := by
  unfold Progress.after
  rw [List.append_nil]
  rfl

theorem Progress.after_cons (p : Progress) (m : Member) (ms : List Member) :
    (p.after [m]).after ms = p.after (m :: ms) := by
  have hcount : p.written + 1 + ms.length = p.written + (ms.length + 1) := by omega
  show (⟨_, p.written + 1 + ms.length, p.members ++ [m] ++ ms⟩ : Progress) = _
  rw [hcount, List.append_assoc]
  rfl

/-- A count that starts at zero is the number of members. -/
theorem Progress.after_start (format : Format) (level : Nat) (ms : List Member) :
    (start format level).after ms = ⟨ms.foldl Writer.put (.new format level), ms.length, ms⟩ := by
  show (⟨_, 0 + ms.length, ms⟩ : Progress) = _
  rw [Nat.zero_add]
  rfl

/-- What one entry does to the writer: it is handed a member, or nothing because the file is gone, or it fails. -/
theorem step_cases (format : Format) (d : Disk) (p : Progress) (name : String) (source : Source) :
    (∃ m, member format d name source = .ok m ∧ p.writer.hasRoom m = true ∧
      member format d name source >>= p.add = .ok (p.after [m])) ∨
    (member format d name source = .error .notFound ∧ member format d name source >>= p.add = .error .notFound) ∨
    ∃ fault, member format d name source >>= p.add = .error fault ∧ fault ≠ .notFound := by
  rcases member format d name source with fault | m
  · by_cases hfault : fault = .notFound
    · subst hfault
      exact .inr (.inl ⟨rfl, rfl⟩)
    · exact .inr (.inr ⟨fault, rfl, hfault⟩)
  · have hadd : p.writer.add m = if p.writer.hasRoom m then .ok (p.writer.put m) else .error .other := rfl
    show (∃ m', _ ∧ _ ∧ (p.writer.add m >>= _) = _) ∨ (_ ∧ (p.writer.add m >>= _) = _) ∨
      ∃ fault, (p.writer.add m >>= _) = _ ∧ _
    rw [hadd]
    by_cases hroom : p.writer.hasRoom m = true
    · rw [if_pos hroom]
      exact .inl ⟨m, rfl, hroom, rfl⟩
    · rw [if_neg hroom]
      exact .inr (.inr ⟨.other, rfl, nofun⟩)

/-- The writer is handed what the entries become, and nothing for a file that is gone: neither what it has written nor
the count tells that there was one. -/
theorem run_writeEntries (format : Format) (p : Progress) (entries : List (String × Source)) (w : World) :
    ((writeEntries format p entries).run.run w).2.disk = w.disk ∧
      ∀ q, ((writeEntries format p entries).run.run w).1 = .ok q →
        ∃ ms, Packs format w.disk entries ms ∧ (∀ m ∈ ms, p.writer.hasRoom m = true) ∧ q = p.after ms := by
  induction entries generalizing p w with
  | nil =>
    refine ⟨rfl, fun q h => ?_⟩
    cases h
    exact ⟨[], .nil, nofun, p.after_nil.symm⟩
  | cons e rest ih =>
    obtain ⟨name, source⟩ := e
    have hdisk : (Action.disk).run.run w = (.ok w.disk, w) := rfl
    unfold writeEntries
    rw [run_bind, hdisk]
    dsimp only
    rcases step_cases format w.disk p name source with ⟨m, hm, hroom, hstep⟩ | ⟨hm, hstep⟩ | ⟨fault, hstep, hfault⟩
    · rw [hstep]
      obtain ⟨hd, hnext⟩ := ih (p.after [m]) w
      refine ⟨hd, fun q h => ?_⟩
      obtain ⟨ms, hms, hrooms, rfl⟩ := hnext q h
      have hsame : (p.after [m]).writer.hasRoom = p.writer.hasRoom := p.writer.hasRoom_put m
      rw [hsame] at hrooms
      exact ⟨m :: ms, .member hm hms, List.forall_mem_cons.2 ⟨hroom, hrooms⟩, p.after_cons m ms⟩
    · rw [hstep]
      dsimp only
      rw [run_bind]
      obtain ⟨hd, hnext⟩ := ih p { w with notes := w.notes ++ [s!"Skip {name}, file no longer exists"] }
      refine ⟨hd, fun q h => ?_⟩
      obtain ⟨ms, hms, hrooms, he⟩ := hnext q h
      exact ⟨ms, .gone hm hms, hrooms, he⟩
    · rw [hstep]
      split
      · rename_i he; cases he
      · rename_i he; cases he; exact absurd rfl hfault
      · exact ⟨rfl, fun q h => nomatch h⟩

/-! ## The steps of writing -/

variable {a : Contents} {format : Format} {level : Nat} {destination : Path}

/-- The archive that some members make up. -/
def archive (format : Format) (level : Nat) (ms : List Member) : Content :=
  .binary (encode format level ms)

variable (a format level) in
/-- Writing the entries to a file fails before the file is there, or when it is there, or leaves the archive
in it, with a count of its members. -/
theorem run_writeAll {file : Path} {w : World} (hd : w.disk.Sound)
    (hslash : endsInSlash file = false) (hlink : w.disk.isLink file = false) :
    (∃ e, (writeAll a file format level).run.run w = (.error e, w) ∧
      ¬ ∃ loc, w.disk.Slot file loc) ∨
    ∃ loc d, w.disk.Slot file loc ∧ d.Slot file loc ∧ d.Sound ∧ Beside loc w.disk d ∧
      ((∃ e notes c, (writeAll a file format level).run.run w = (.error e, ⟨d, notes⟩) ∧
        d.entry? loc = some (.file c)) ∨
      ∃ ms notes, (writeAll a file format level).run.run w =
          (.ok ⟨ms.foldl Writer.put (.new format level), ms.length, ms⟩, ⟨d, notes⟩) ∧
        Packs format (w.disk.put loc (.file (.text ""))) a.entries ms ∧
        d.entry? loc = some (.file (archive format level ms))) := by
  unfold writeAll
  rw [run_bind, Action.run_change]
  rcases run_write hd hslash hlink (.text "") with ⟨e, hrun, hno⟩ | ⟨loc, hslot, hnolink, hrun⟩
  · rw [hrun]
    exact .inl ⟨.file e, rfl, hno⟩
  · rw [hrun]
    right
    have hput : ∀ {d : Disk} (c : Content), d.Sound → d.Slot file loc →
        (∀ t, d.entry? loc ≠ some (.link t)) → (d.put loc (.file c)).Sound ∧
        (d.put loc (.file c)).Slot file loc ∧ Beside loc d (d.put loc (.file c)) ∧
        Disk.entry? (d.put loc (.file c)) loc = some (.file c) := by
      intro d c hd hslot hnolink
      have hbeside := beside_put hslot.ne_nil hslot.2 hnolink c
      exact ⟨hd.put hslot.ne_nil (hslot.above hd) fun h => absurd h hslot.2,
        hslot.kept hd hbeside.kept hbeside.noDirectory', hbeside,
        by rw [entry?_put d hslot.ne_nil, if_pos rfl]⟩
    obtain ⟨hd₁, hslot₁, hbeside₁, hentry₁⟩ := hput (.text "") hd hslot hnolink
    dsimp only [Except.mapError]
    rw [run_bind]
    generalize hd₁' : w.disk.put loc (.file (.text "")) = d₁ at *
    obtain ⟨hdisk, hq⟩ := run_writeEntries format (.start format level) a.entries ⟨d₁, w.notes⟩
    rcases hm : (writeEntries format (.start format level) a.entries).run.run ⟨d₁, w.notes⟩ with ⟨e | q, ⟨d₂, notes⟩⟩
    · rw [hm] at hdisk
      cases hdisk
      exact ⟨loc, d₁, hslot, hslot₁, hd₁, hbeside₁, .inl ⟨e, notes, _, rfl, hentry₁⟩⟩
    · rw [hm] at hdisk hq
      cases hdisk
      obtain ⟨ms, hms, -, rfl⟩ := hq q rfl
      rw [Progress.after_start] at hm ⊢
      have hnolink₁ : ∀ t, d₁.entry? loc ≠ some (.link t) := hbeside₁.noLink'
      have hlink₁ : d₁.isLink file = false := by
        unfold isLink typeOf
        rw [hslot₁.1, place_of_some hentry₁]
        rfl
      rcases run_write hd₁ hslash hlink₁ (archive format level ms) with
        ⟨e, -, hno⟩ | ⟨loc', hslot', -, hrun'⟩
      · exact absurd ⟨loc, hslot₁⟩ hno
      · cases hslot'.unique hslot₁
        have hchange : (Action.change (write file (archive format level ms))).run.run ⟨d₁, notes⟩ =
            (.ok (), ⟨d₁.put loc (.file (archive format level ms)), notes⟩) := by
          rw [Action.run_change, hrun']; rfl
        obtain ⟨hd₂, hslot₂, hbeside₂, hentry₂⟩ := hput (archive format level ms) hd₁ hslot₁ hnolink₁
        refine ⟨loc, _, hslot, hslot₂, hd₂, hbeside₁.trans hbeside₂, .inr ⟨ms, notes, ?_,
          hd₁' ▸ hms, hentry₂⟩⟩
        dsimp only
        unfold archive encode at hchange
        rw [run_bind, hchange]
        rfl

/-- Writing an archive once there is a directory for it. -/
def Contents.writeInto (a : Contents) (destination : Path) (format : Format) (level : Nat) :
    Action Summary := do
  let p ← tryCatch (writeAll a (unfinished destination) format level) fun e => do
    Action.attempt (Action.change (Disk.removeFile (unfinished destination)))
    throw e
  Action.change (Disk.rename (unfinished destination) destination)
  let content ← Action.ask (·.read destination)
  return ⟨destination, content.bytes.size, p.written, p.members⟩

/-- Creates the directory of the destination. -/
def makeRoom (destination : Path) : Disk.Change Unit :=
  match destination.parent? with
  | some parent => createDirectories parent
  | none => pure ()

/-- The disk with a directory for the destination, as far as one can be created. -/
def prepared (d : Disk) (destination : Path) : Disk := ((makeRoom destination).run.run d).2

theorem grown_prepared {d : Disk} (hd : d.Sound) (destination : Path) :
    Grown d (prepared d destination) ∧ (prepared d destination).Sound := by
  unfold prepared makeRoom
  split
  · exact grown_createDirectories hd _
  · exact ⟨.refl d, hd⟩

theorem run_write_eq (w : World) :
    (a.write destination format level).run.run w =
      if maxLevel < level then (.error (.invalidLevel level), w)
      else match (makeRoom destination).run.run w.disk with
        | (.error e, d) => (.error (.file e), { w with disk := d })
        | (.ok _, d) => (a.writeInto destination format level).run.run { w with disk := d } := by
  unfold Contents.write makeRoom
  by_cases hlevel : maxLevel < level
  · rw [if_pos hlevel, if_pos hlevel]; rfl
  · rw [if_neg hlevel, if_neg hlevel]
    rcases destination.parent? with _ | parent
    · rfl
    · dsimp only
      rw [run_bind, Action.run_change]
      rcases (createDirectories parent).run.run w.disk with ⟨e | u, d⟩ <;> rfl

/-! ## What comes of writing -/

/-- What the path names is the same on both disks. -/
def SameAt (p : Path) (d d' : Disk) : Prop :=
  ∀ q, d.locate false p = .ok q → d'.locate false p = .ok q

/-- Nothing is stored otherwise, but the file that the path names may be gone. -/
def Without (p : Path) (d d' : Disk) : Prop :=
  ∀ l, d'.entry? l = d.entry? l ∨ d.Slot p l ∧ d'.entry? l = none

/-- How writing an archive can end, from a disk `d` with a directory for it. -/
inductive Outcome (a : Contents) (destination : Path) (format : Format) (level : Nat) (d : Disk) :
    Except Error Summary → Disk → Prop
  /-- The archive is at its destination, where no directory was. -/
  | complete {loc onto : Location} {ms : List Member} {d' : Disk}
      (hfrom : d.Slot (unfinished destination) loc) (honto : d.Slot destination onto)
      (hpacks : Packs format (d.put loc (.file (.text ""))) a.entries ms)
      (hread : d'.read destination = .ok (archive format level ms))
      (hgone : d'.hasName (unfinished destination) = false)
      (hrest : ∀ l, l ≠ onto → l ≠ loc → d'.entry? l = d.entry? l) :
      Outcome a destination format level d
        (.ok ⟨destination, (archive format level ms).bytes.size, ms.length, ms⟩) d'
  /-- Something failed before there was an archive. -/
  | undone {e : Error} {d' : Disk} (hrest : Without (unfinished destination) d d')
      (hsame : SameAt destination d d') : Outcome a destination format level d (.error e) d'
  /-- A finished archive cannot be moved to its destination. It stays where it was written. -/
  | stuck {loc : Location} {ms : List Member} {e : Error} {d' : Disk}
      (hfrom : d.Slot (unfinished destination) loc) (hno : ¬ ∃ onto, d.Slot destination onto)
      (hpacks : Packs format (d.put loc (.file (.text ""))) a.entries ms)
      (hleft : d'.read (unfinished destination) = .ok (archive format level ms))
      (hrest : ∀ l, l ≠ loc → d'.entry? l = d.entry? l) (hsame : SameAt destination d d') :
      Outcome a destination format level d (.error e) d'
  /-- The archive took the place of a link that its own destination leads through. -/
  | astray {loc onto : Location} {ms : List Member} {target : String} {e : FileFault} {d' : Disk}
      (hfrom : d.Slot (unfinished destination) loc)
      (honto : d.locate false destination = .ok (.found onto (.link target)))
      (hpacks : Packs format (d.put loc (.file (.text ""))) a.entries ms)
      (hover : d'.entry? onto = some (.file (archive format level ms)))
      (hread : d'.read destination = .error e)
      (hgone : d'.hasName (unfinished destination) = false) :
      Outcome a destination format level d (.error (.file e)) d'

section
variable {d d' : Disk} {loc : Location}

theorem sameAt_of_beside (hd : d.Sound) (hslot : d.Slot (unfinished destination) loc)
    (hb : Beside loc d d') : SameAt destination d d' := by
  intro q hq
  have hplace := (real_locate hd hq).1
  refine hb.locate hd hq fun he => ?_
  have hto : d.Slot destination q.location := ⟨hq.trans (congrArg _ hplace), he ▸ hslot.2⟩
  exact slot_ne hslot hto he

theorem hasName_of_none (hslot : d.locate false destination = .ok (d.place loc))
    (hnone : d.entry? loc = none) : d.hasName destination = false := by
  unfold hasName typeOf
  rw [hslot, place_of_none hnone]
  rfl

theorem read_of_locate {l : Location} {c : Content} {p : Path}
    (h : d.locate true p = .ok (.found l (.file c))) : d.read p = .ok c := by
  unfold Disk.read find
  rw [h]
  rfl

theorem read_of_error {e : FileFault} {p : Path} (h : d.locate true p = .error e) :
    d.read p = .error e := by
  unfold Disk.read find
  rw [h]
  rfl

theorem read_of_slot {c : Content} {p : Path} (h : d.Slot p loc) (hc : d.entry? loc = some (.file c)) :
    d.read p = .ok c := by
  have hlink : d.isLink p = false := by
    unfold isLink typeOf
    rw [h.1, place_of_some hc]
    rfl
  exact read_of_locate (by rw [locate_true hlink, h.1, place_of_some hc])

/-- Removing the unfinished file does not get in the way of the failure. -/
theorem run_cleanup {α : Type} (file : Path) (e : Error) (w : World) :
    (do Action.attempt (Action.change (removeFile file)); throw e : Action α).run.run w =
      (.error e, { w with disk := ((removeFile file).run.run w.disk).2 }) := by
  rw [run_bind]
  unfold Action.attempt
  rw [run_tryCatch, Action.run_change]
  rcases (removeFile file).run.run w.disk with ⟨e | u, d⟩ <;> rfl

/-- Moving a finished archive onto a slot. -/
theorem outcome_moved {onto : Location} {ms : List Member} (hd' : d'.Sound)
    (hfrom : d.Slot (unfinished destination) loc) (hslot : d'.Slot (unfinished destination) loc)
    (hbeside : Beside loc d d') (honto : d'.Slot destination onto)
    (hpacks : Packs format (d.put loc (.file (.text ""))) a.entries ms)
    (hc : d'.entry? loc = some (.file (archive format level ms))) {d'' : Disk}
    (hmoved : d'' = (d'.erase loc).put onto (.file (archive format level ms))) :
    Outcome a destination format level d
      ((d''.read destination).map (fun c => ⟨destination, c.bytes.size, ms.length, ms⟩) |>.mapError Error.file)
      d'' := by
  have hne : onto ≠ loc := slot_ne hslot honto
  have hentry : ∀ l, d''.entry? l = if l = onto then some (.file (archive format level ms))
      else if l = loc then none else d'.entry? l := by
    intro l
    rw [hmoved, entry?_put _ honto.ne_nil, hd'.entry?_erase hslot.2]
  have hat : d''.entry? onto = some (.file (archive format level ms)) := by
    rw [hentry, if_pos rfl]
  have hnone : d''.entry? loc = none := by rw [hentry, if_neg hne.symm, if_pos rfl]
  have hrest : ∀ l, l ≠ onto → l ≠ loc → d''.entry? l = d'.entry? l := fun l h1 h2 => by
    rw [hentry, if_neg h1, if_neg h2]
  have hhere : d''.here = d'.here := by rw [hmoved]; rfl
  have hkeep : ∀ l, l ≠ onto → d'.entry? l = some .directory ∨ (∃ t, d'.entry? l = some (.link t)) →
      d''.entry? l = d'.entry? l := by
    intro l h1 hway
    refine hrest l h1 ?_
    rintro rfl
    rw [hc] at hway
    rcases hway with h | ⟨t, h⟩ <;> cases h
  have honto' : d.Slot destination onto :=
    honto.kept hd' hbeside.symm.kept (by rw [← hbeside.rest _ hne]; exact honto.2)
  have hgone : d''.hasName (unfinished destination) = false := by
    have := locate_over hd' hkeep honto.2 hat hhere hslot.1 (.inl rfl)
    rw [location_place] at this
    rcases this with h | ⟨-, e, h⟩
    · exact hasName_of_none h hnone
    · unfold hasName typeOf
      rw [h]
      rfl
  have hread : d''.locate true destination = .ok (d''.place (d'.place onto).location) ∨
      (∃ t, d'.entry? onto = some (.link t)) ∧ ∃ e, d''.locate true destination = .error e :=
    locate_over hd' hkeep honto.2 hat hhere honto.1
      (.inr fun t ht => by rw [location_place, hat] at ht; cases ht)
  rw [location_place, place_of_some hat] at hread
  rcases hread with h | ⟨⟨t, ht⟩, e, h⟩
  · rw [read_of_locate h]
    exact .complete hfrom honto' hpacks (read_of_locate h) hgone fun l h1 h2 =>
      (hrest l h1 h2).trans (hbeside.rest l h2)
  · rw [read_of_error h]
    have hlink : d.locate false destination = .ok (.found onto (.link t)) := by
      rw [honto'.1, place_of_some (by rw [← hbeside.rest _ hne, ht])]
    exact .astray hfrom hlink hpacks hat (read_of_error h) hgone

theorem outcome_writeInto {w : World} (hd : w.disk.Sound)
    (hlink : w.disk.isLink (unfinished destination) = false) :
    Outcome a destination format level w.disk
      ((a.writeInto destination format level).run.run w).1
      ((a.writeInto destination format level).run.run w).2.disk := by
  unfold Contents.writeInto
  rw [run_bind, run_tryCatch]
  rcases run_writeAll a format level hd
    (endsInSlash_unfinished destination) hlink with
    ⟨e, hrun, hno⟩ | ⟨loc, d, hfrom, hslot, hdsound, hbeside, h⟩
  · -- nothing could be written, and there is nothing to remove
    obtain ⟨e', hremove⟩ := run_removeFile_of_not_slot hd hno
    rw [hrun]
    dsimp only
    rw [run_cleanup, hremove]
    exact .undone (fun l => .inl rfl) fun q hq => hq
  · rcases h with ⟨e, notes, c, hrun, hc⟩ | ⟨ms, notes, hrun, hpacks, hc⟩
    · -- the file is removed
      rw [hrun]
      dsimp only
      rw [run_cleanup, run_removeFile_of_slot hslot hc]
      have hgone : Beside loc w.disk (d.erase loc) :=
        hbeside.trans (beside_erase hdsound hslot.2 hbeside.noLink')
      refine .undone (fun l => ?_) (sameAt_of_beside hd hfrom hgone)
      by_cases hl : l = loc
      · subst hl
        exact .inr ⟨hfrom, by rw [hdsound.entry?_erase hslot.2, if_pos rfl]⟩
      · exact .inl (hgone.rest l hl)
    · rw [hrun]
      dsimp only
      rw [run_bind, Action.run_change]
      rcases run_rename hdsound hslot hc (q := destination) with ⟨e, hmove, hno⟩ | ⟨onto, honto, hmove⟩
      · rw [hmove]
        refine .stuck hfrom ?_ hpacks (read_of_slot hslot hc) hbeside.rest
          (sameAt_of_beside hd hfrom hbeside)
        rintro ⟨onto, honto⟩
        have hne := slot_ne hfrom honto
        exact hno ⟨onto, honto.kept hd hbeside.kept (by rw [hbeside.rest _ hne]; exact honto.2)⟩
      · rw [hmove]
        have hend := outcome_moved hdsound hfrom hslot hbeside honto hpacks hc rfl
        dsimp only [Except.mapError]
        rw [run_bind, Action.run_ask]
        rcases hr : ((d.erase loc).put onto (.file (archive format level ms))).read destination with
          e | content
        · rw [hr] at hend
          exact hend
        · rw [hr] at hend
          exact hend

end

/-- Whatever the entries, the destination and the disk, writing an archive ends in one of these ways: the
archive is at its destination and the unfinished file is gone; or writing fails and everything is as it was,
but for directories that were created for the destination and an unfinished file that is gone; or the
archive is finished and cannot be moved, because the destination names no slot, and then the unfinished file
stays; or it was moved onto a link that the destination leads through. Nothing is said about an unfinished
file that is a link, which is written through. -/
theorem write_outcome (a : Contents) (destination : Path) (format : Format) (level : Nat) {w : World}
    (hd : w.disk.Sound)
    (hlink : (prepared w.disk destination).isLink (unfinished destination) = false) :
    ((a.write destination format level).run.run w = (.error (.invalidLevel level), w) ∧
      maxLevel < level) ∨
    Grown w.disk (prepared w.disk destination) ∧
      Outcome a destination format level (prepared w.disk destination)
        ((a.write destination format level).run.run w).1
        ((a.write destination format level).run.run w).2.disk := by
  obtain ⟨hgrown, hsound⟩ := grown_prepared hd destination
  rw [run_write_eq]
  by_cases hlevel : maxLevel < level
  · rw [if_pos hlevel]
    exact .inl ⟨rfl, hlevel⟩
  · rw [if_neg hlevel]
    refine .inr ⟨hgrown, ?_⟩
    have hroom : ((makeRoom destination).run.run w.disk).2 = prepared w.disk destination := rfl
    rcases hr : (makeRoom destination).run.run w.disk with ⟨e | u, d⟩
    · rw [hr] at hroom
      subst hroom
      dsimp only
      exact .undone (fun l => .inl rfl) fun q hq => hq
    · rw [hr] at hroom
      subst hroom
      dsimp only
      exact outcome_writeInto (w := { w with disk := prepared w.disk destination }) hsound hlink

/-! ### A directory at the destination -/

/-- There is a directory where the archive is to be. -/
def occupied : World where
  disk := {
    entries := [
      (["w"], .directory),
      (["w", "a.js"], .file (.text "a")),
      (["w", "out"], .directory),
      (["w", "out", "app.zip"], .directory),
      (["w", "out", "app.zip", "keep"], .file (.text "k"))]
    here := ["w"] }
  notes := []

def oneFile : Contents := ⟨⟨"/w"⟩, [("a.js", .file ⟨"/w/a.js"⟩)], []⟩

theorem sound_occupied : occupied.disk.Sound := ⟨by decide, by decide⟩

/-- The archive fails to be written and its unfinished file stays. -/
theorem write_outcome_occupied :
    ∃ e d, ((oneFile.write ⟨"out/app.zip"⟩ .zip 6).run.run occupied).1 = .error e ∧
      ((oneFile.write ⟨"out/app.zip"⟩ .zip 6).run.run occupied).2.disk = d ∧
      d.read ⟨"out/app.zip.partial"⟩ = .ok (archive .zip 6 [⟨"a.js", .file (.text "a")⟩]) ∧
      Outcome oneFile ⟨"out/app.zip"⟩ .zip 6 (prepared occupied.disk ⟨"out/app.zip"⟩) (.error e) d := by
  have hfail : ((oneFile.write ⟨"out/app.zip"⟩ .zip 6).run.run occupied).1.toOption.isSome = false := by
    decide +kernel
  have hread : ((oneFile.write ⟨"out/app.zip"⟩ .zip 6).run.run occupied).2.disk.read
      ⟨"out/app.zip.partial"⟩ = .ok (archive .zip 6 [⟨"a.js", .file (.text "a")⟩]) := by
    decide +kernel
  rcases write_outcome oneFile ⟨"out/app.zip"⟩ .zip 6 sound_occupied (by decide +kernel) with
    ⟨-, hlevel⟩ | ⟨-, houtcome⟩
  · exact absurd hlevel (by decide)
  · rcases hr : ((oneFile.write ⟨"out/app.zip"⟩ .zip 6).run.run occupied).1 with e | summary
    · rw [hr] at houtcome
      exact ⟨e, _, rfl, rfl, hread, houtcome⟩
    · rw [hr] at hfail
      cases hfail

end Archive
end Stowage
