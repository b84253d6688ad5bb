/-
Where an archive that was written is found: at its destination, with the members that were told. They are what a
reader finds in it.
-/
import Stowage.Proofs.Archive.Untape
import Stowage.Proofs.Archive.Unzip
import Stowage.Proofs.Disk.Moved
import Stowage.Proofs.Path.Renamed

open Stowage.Path

namespace Stowage.Archive

open Stowage.Disk

variable {a : Contents} {destination : Path} {format : Format} {level : Nat} {w w' : World} {s : Summary}

/-- The unfinished archive lies beside the archive. -/
theorem locate_unfinished (d : Disk) (p : Path) {n : String} (hn : IsName n) (followLast : Bool) :
    d.locate followLast (unfinished (p / n)) = d.locate followLast (p / (n ++ ".partial")) := by
  have hname : (p / n).fileName = some n := fileName_of_steps
    (by rw [steps_join p hn.toIsPiece, List.getLast?_concat]) hn.ne_dot hn.ne_up
  unfold unfinished
  rw [hname]
  exact locate_withFileName d p hn (isName_partial hn.no_slash).toIsPiece followLast

/-- What is written is in the unfinished file: the members that the entries became when it was empty, each of which
the writer could hold, and they are counted. -/
theorem gives_writeAll {file : Path} {p : Progress} (hslash : endsInSlash file = false)
    (h : Gives (writeAll a file format level) w p w') :
    ∃ d ms loc, Gives (write file (.text "")) w.disk () d ∧ Packs format d a.entries ms ∧
      (∀ m ∈ ms, (Writer.new format level).hasRoom m = true) ∧
      p = ⟨ms.foldl Writer.put (.new format level), ms.length, ms⟩ ∧
      w'.disk.locate true file = .ok (.found loc (.file (archive format level ms))) := by
  obtain ⟨_, w₁, hempty, h₁⟩ := gives_bind.1 h
  obtain ⟨q, w₂, hentries, h₂⟩ := gives_bind.1 h₁
  obtain ⟨_, w₃, hwrite, h₃⟩ := gives_bind.1 h₂
  obtain ⟨rfl, rfl⟩ := gives_pure.1 h₃
  obtain ⟨ms, hpacks, hroom, hq⟩ := (run_writeEntries format (.start format level) a.entries w₁).2 p (by
    rw [show (writeEntries format (.start format level) a.entries).run.run w₁ = _ from hentries])
  rw [Progress.after_start] at hq
  subst hq
  obtain ⟨loc, hloc⟩ := locate_of_write hslash (Action.gives_change.1 hwrite).1
  exact ⟨w₁.disk, ms, loc, (Action.gives_change.1 hempty).1, hpacks, hroom, rfl, hloc⟩

/-- An archive is written to the unfinished file, which is moved to the destination. -/
theorem gives_write (h : Gives (a.write destination format level) w s w') :
    ∃ p w₁, Gives (writeAll a (unfinished destination) format level)
        { w with disk := prepared w.disk destination } p w₁ ∧
      Gives (rename (unfinished destination) destination) w₁.disk () w'.disk ∧
      ∃ content, w'.disk.read destination = .ok content ∧
        s = ⟨destination, content.bytes.size, p.written, p.members⟩ := by
  have hroom : ((makeRoom destination).run.run w.disk).2 = prepared w.disk destination := rfl
  unfold Gives at h
  rw [run_write_eq] at h
  split at h
  · cases h
  · split at h
    · cases h
    · rename_i d hrun
      rw [hrun] at hroom
      subst hroom
      obtain ⟨p, w₁, htry, h₁⟩ := gives_bind.1 (show Gives (a.writeInto destination format level) _ s w' from h)
      have hwritten := Action.gives_of_tryCatch (fun e w₂ hk => by
        obtain ⟨_, _, -, hthrow⟩ := gives_bind.1 hk
        exact gives_throw hthrow) htry
      obtain ⟨_, w₂, hrename, h₂⟩ := gives_bind.1 h₁
      obtain ⟨content, w₃, hread, h₃⟩ := gives_bind.1 h₂
      obtain ⟨hread, rfl⟩ := Action.gives_ask.1 hread
      obtain ⟨rfl, rfl⟩ := gives_pure.1 h₃
      exact ⟨p, w₁, hwritten, (Action.gives_change.1 hrename).1, content, hread, rfl⟩

/-! ## What a reader finds -/

/-- The items of an archive. -/
def unpack (format : Format) (c : Content) : Option (List Item) :=
  match format with
  | .zip => Zip.unzip (octets c.bytes)
  | .tgz => Tape.untape (octets c.bytes)

/-- Reading an archive gives the members that were written, if each of them could be. -/
theorem unpack_archive {ms : List Member} (h : ∀ m ∈ ms, (Writer.new format level).hasRoom m = true) :
    unpack format (archive format level ms) = some (ms.map Member.item) := by
  cases format with
  | zip =>
    have hput : ms.foldl Writer.put (.zip (.new level)) = .zip (ms.foldl Zip.Writer.put (.new level)) :=
      List.foldl_hom Writer.zip fun _ _ => rfl
    show Zip.unzip (octets (ms.foldl Writer.put (.zip (.new level))).finish) = _
    rw [hput]
    exact Zip.unzip_finish h
  | tgz =>
    have hput : ms.foldl Writer.put (.tgz (.new level)) = .tgz (ms.foldl Tape.Writer.put (.new level)) :=
      List.foldl_hom Writer.tgz fun _ _ => rfl
    show Tape.untape (octets (ms.foldl Writer.put (.tgz (.new level))).finish) = _
    rw [hput]
    exact Tape.untape_finish h

/-- Before the entries are read the unfinished file is emptied, and they are read then. The archive is found at its
destination with the members that they became, and a reader finds these. -/
theorem write_delivers (h : Gives (a.write destination format level) w s w') :
    (∃ d, Gives (write (unfinished destination) (.text "")) (prepared w.disk destination) () d ∧
      Packs format d a.entries s.members) ∧
    s.path = destination ∧ s.size = (archive format level s.members).bytes.size ∧ s.entries = s.members.length ∧
    w'.disk.read destination = .ok (archive format level s.members) ∧
    unpack format (archive format level s.members) = some (s.members.map Member.item) := by
  obtain ⟨p, w₁, hwritten, hrename, content, hread, hs⟩ := gives_write h
  -- what a file is moved to is called by a name
  obtain ⟨n, hlast, hdot, hup⟩ := named_of_rename hrename
  have hslash : endsInSlash destination = false := endsInSlash_of_steps hlast hdot
  have hn : IsName n := ⟨isPiece_of_mem_steps (List.mem_of_getLast? hlast) hdot, hup⟩
  obtain ⟨q, rfl⟩ := exists_dir hlast hn.toIsPiece
  obtain ⟨d, ms, loc, hempty, hpacks, hroom, rfl, hfile⟩ := gives_writeAll (endsInSlash_unfinished _) hwritten
  obtain ⟨source, e, place, hfrom, hto, -, hmoved⟩ := gives_rename hslash hrename
  rw [locate_unfinished _ q hn] at hfile hfrom
  obtain rfl : content = archive format level ms :=
    read_moved hn (isName_partial hn.no_slash) hfile hfrom hto hmoved hread
  subst hs
  exact ⟨⟨d, hempty, hpacks⟩, rfl, rfl, rfl, hread, unpack_archive hroom⟩

end Stowage.Archive
