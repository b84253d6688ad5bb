/-
What is in a written archive. What was collected is handed over in the order of its names: no name comes twice, and a
directory comes before what is below it, although a separator is put after its name. A file that is gone when it would
be opened is left out, and nothing else changes by that.
-/
import Stowage.Proofs.Archive.Archived
import Stowage.Proofs.Archive.Delivered
import Stowage.Proofs.Disk.Filled

open Stowage.Path

namespace Stowage.Archive

open Stowage.Disk Contents

/-! ## What can be collected -/

/-- What can be collected by adding files, generated files, generated trees and extras, each on a disk of its time,
whether that succeeds or not. -/
inductive Gathered : Contents → Prop
  | create (d : Disk) (root : Path) : Gathered (create d root)
  | files {a : Contents} (h : Gathered a) (files : List String) : Gathered (a.putFiles files)
  | generated {a : Contents} (h : Gathered a) (name : String) (source : Path) : Gathered (a.replaceFile name source)
  | tree {a : Contents} (h : Gathered a) (d : Disk) (location : String) (dir : Path) :
      Gathered ((replaceTree d location dir).run.run a).2
  | extras {a : Contents} (h : Gathered a) (d : Disk) (extras : List String) :
      Gathered ((addAllNamed d extras).run.run a).2

theorem ordered_run {α : Type} {c : Collect α} (hc : Scripted c) {a : Contents} (h : a.Ordered) :
    (c.run.run a).2.Ordered := by
  obtain ⟨r, additions, hr⟩ := hc a.root
  rw [hr a rfl]
  exact addAll_keeps (fun _ name source h => ordered_put h name source) (fun _ _ h => h) h

theorem Gathered.ordered {a : Contents} (h : Gathered a) : a.Ordered := by
  induction h with
  | create d root => exact ordered_create d root
  | files _ files ih => exact ordered_run (scripted_putFiles files) ih
  | generated _ name source ih => exact ordered_put ih _ _
  | tree _ d location dir ih => exact ordered_run (scripted_replaceTree d location dir) ih
  | extras _ d extras ih => exact ordered_run (scripted_addAllNamed d extras) ih

/-- No name that was collected starts with a step `./` or ends in a separator. -/
theorem Gathered.isTrimmed {a : Contents} (h : Gathered a) : ∀ n ∈ a.names, IsTrimmed n := by
  induction h with
  | create => exact fun _ hn => nomatch hn
  | files _ files ih =>
    intro n hn
    rcases mem_names_putFiles.1 hn with hn | hn
    · exact ih n hn
    · obtain ⟨file, -, rfl⟩ := List.mem_map.1 hn
      exact isTrimmed_bareText file
  | generated _ name source ih =>
    intro n hn
    rcases mem_names_put.1 hn with rfl | hn
    · exact isTrimmed_bareText name
    · exact ih n hn
  | tree _ d location dir ih =>
    intro n hn
    rw [run_replaceTree] at hn
    rcases htree : d.tree dir with e | entries
    · rw [htree] at hn
      exact ih n hn
    · rw [htree] at hn
      dsimp only at hn
      rcases mem_names_addAll.1 hn with hn | ⟨source, hn⟩
      · exact ih n hn
      · obtain ⟨e, -, he⟩ := List.mem_map.1 hn
        rw [← (Addition.entry.inj he).1]
        exact isTrimmed_bareText _
  | extras _ d extras ih =>
    intro n hn
    obtain ⟨e, he, rfl⟩ := List.mem_map.1 hn
    rcases archives_of_mem he with hold | harchives
    · exact ih e.1 (List.mem_map_of_mem hold)
    · obtain ⟨pieces, hpieces, hname⟩ := harchives.isClean
      rw [hname]
      exact isTrimmed_joined hpieces

/-! ## Names that are handed over -/

/-- The name by which an entry is handed to a container. -/
def handed : String × Source → String
  | (name, .directory) => name ++ "/"
  | (name, .file _) => name
  | (name, .link _) => name

theorem handed_cases (e : String × Source) :
    e.2 = .directory ∧ handed e = e.1 ++ "/" ∨ e.2 ≠ .directory ∧ handed e = e.1 := by
  obtain ⟨name, _ | _ | _⟩ := e
  · exact .inr ⟨nofun, rfl⟩
  · exact .inr ⟨nofun, rfl⟩
  · exact .inl ⟨rfl, rfl⟩

/-- The name is told below a directory. -/
def IsBelow (dir n : String) : Prop := n ≠ dir ∧ (dir = "" ∨ (dir ++ "/").toList <+: n.toList)

theorem lt_append {l t : List Char} (ht : t ≠ []) : l < l ++ t := by
  induction l with
  | nil =>
    obtain ⟨c, r, rfl⟩ := List.exists_cons_of_ne_nil ht
    exact List.nil_lt_cons c r
  | cons c l ih => exact List.cons_lt_cons_iff.2 (.inr ⟨rfl, ih⟩)

/-- What is below a directory comes after it in the order of the names. -/
theorem IsBelow.lt {dir n : String} (h : IsBelow dir n) : dir < n := by
  rw [String.lt_iff_toList_lt]
  obtain ⟨hne, rfl | ⟨t, ht⟩⟩ := h
  · exact lt_append (l := []) fun hnil => hne (String.toList_inj.1 hnil)
  · rw [← ht, String.toList_append, List.append_assoc]
    exact lt_append (by simp)

section
variable {a : Contents} (h : Gathered a)
include h

theorem Gathered.nodup_handed : (a.entries.map handed).Nodup := by
  have hnames : (a.entries.map Prod.fst).Nodup := h.ordered.nodup
  have hend : ∀ e ∈ a.entries, ∀ n : String, e.1 ≠ n ++ "/" := by
    intro e he n heq
    refine (h.isTrimmed e.1 (List.mem_map_of_mem he)).no_trailing ?_
    rw [heq, String.toList_append]
    exact List.getLast?_concat
  refine hnames.of_map.map_on fun e he f hf heq => List.inj_on_of_nodup_map hnames he hf ?_
  rcases handed_cases e with ⟨-, hhe⟩ | ⟨-, hhe⟩ <;> rcases handed_cases f with ⟨-, hhf⟩ | ⟨-, hhf⟩ <;>
    rw [hhe, hhf] at heq
  · exact (String.append_left_inj _).1 heq
  · exact absurd heq.symm (hend f hf e.1)
  · exact absurd heq (hend e he f.1)
  · exact heq

/-- No entry comes before the directory that it is below. -/
theorem Gathered.pairwise_below :
    a.entries.Pairwise fun e f => f.2 = .directory → ¬ IsBelow f.1 e.1 :=
  (List.pairwise_map.1 h.ordered).imp fun hlt _ hbelow => lt_asymm hlt hbelow.lt

end

/-! ## What is written -/

/-- The disk when the entries are read: there is a directory for the destination, and the unfinished file is
empty. -/
def opened (d : Disk) (destination : Path) : Disk :=
  ((write (unfinished destination) (.text "")).run.run (prepared d destination)).2

/-- Only the source of a file can be gone. -/
def isGone (d : Disk) : Source → Bool
  | .file p => match d.find p with
    | .error .notFound => true
    | _ => false
  | _ => false

/-- What is written for an entry: a file with what it holds, a link with its target, and a directory, each under the
name that the container makes of the one that it is handed. -/
inductive WrittenAs (format : Format) (d : Disk) : String × Source → Member → Prop
  | file {n m : String} {p : Path} {c : Content} (hname : format.text false (handed (n, .file p)) = .ok m)
      (h : d.read p = .ok c) : WrittenAs format d (n, .file p) ⟨m, .file c⟩
  | link {n m t u : String} (hname : format.text false (handed (n, .link t)) = .ok m)
      (htarget : format.text true t = .ok u) : WrittenAs format d (n, .link t) ⟨m, .link u⟩
  | directory {n m : String} (hname : format.text false (handed (n, .directory)) = .ok m) :
      WrittenAs format d (n, .directory) ⟨m, .directory⟩

section
variable {format : Format} {d : Disk}

theorem ne_notFound_of_text {isTarget : Bool} {text : String} : format.text isTarget text ≠ .error .notFound := by
  unfold Format.text
  rcases format with _ | _
  · nofun
  · dsimp only
    split <;> nofun

/-- What comes of an entry. -/
theorem member_cases (format : Format) (d : Disk) (name : String) (source : Source) :
    (∃ m, member format d name source = .ok m ∧ isGone d source = false ∧ WrittenAs format d (name, source) m) ∨
    (member format d name source = .error .notFound ∧ isGone d source = true) ∨
    ∃ e, member format d name source = .error e ∧ e ≠ .notFound := by
  rcases source with p | t | _ <;> dsimp only [member]
  · rcases hfind : d.find p with e | ⟨loc, e⟩
    · by_cases he : e = .notFound
      · subst he
        exact .inr (.inl ⟨rfl, by simp only [isGone, hfind]⟩)
      · exact .inr (.inr ⟨e, rfl, he⟩)
    · rcases hname : format.text false name with e | m
      · exact .inr (.inr ⟨e, rfl, fun he => ne_notFound_of_text (he ▸ hname)⟩)
      · rcases e with c | t | _
        · refine .inl ⟨_, rfl, by simp only [isGone, hfind], .file hname ?_⟩
          unfold Disk.read
          rw [hfind]; rfl
        · exact .inr (.inr ⟨_, rfl, nofun⟩)
        · exact .inr (.inr ⟨_, rfl, nofun⟩)
  · rcases hname : format.text false name with e | m
    · exact .inr (.inr ⟨e, rfl, fun he => ne_notFound_of_text (he ▸ hname)⟩)
    · rcases htarget : format.text true t with e | u
      · exact .inr (.inr ⟨e, rfl, fun he => ne_notFound_of_text (he ▸ htarget)⟩)
      · exact .inl ⟨_, rfl, rfl, .link hname htarget⟩
  · rcases hname : format.text false (name ++ "/") with e | m
    · exact .inr (.inr ⟨e, rfl, fun he => ne_notFound_of_text (he ▸ hname)⟩)
    · exact .inl ⟨_, rfl, rfl, .directory hname⟩

/-- The members are those of the entries that are not gone, one for each and in their order. -/
theorem Packs.forall₂ {entries : List (String × Source)} {ms : List Member} (h : Packs format d entries ms) :
    List.Forall₂ (WrittenAs format d) (entries.filter fun e => !isGone d e.2) ms := by
  induction h with
  | nil => exact .nil
  | @member name source _ _ _ h _ ih =>
    rcases member_cases format d name source with ⟨_, h', hgone, hwritten⟩ | ⟨h', -⟩ | ⟨_, h', -⟩ <;>
      rw [h] at h' <;> cases h'
    rw [List.filter_cons_of_pos (by simp [hgone])]
    exact .cons hwritten ih
  | @gone name source _ _ h _ ih =>
    rcases member_cases format d name source with ⟨_, h', -⟩ | ⟨-, hgone⟩ | ⟨_, h', hne⟩
    · rw [h] at h'; cases h'
    · rw [List.filter_cons_of_neg (by simp [hgone])]
      exact ih
    · rw [h] at h'
      cases h'
      exact absurd rfl hne

end

variable {a : Contents} {destination : Path} {format : Format} {level : Nat} {w w' : World} {s : Summary}

/-- The entries are read on the disk on which the unfinished file was emptied. -/
theorem gives_opened (h : Gives (a.write destination format level) w s w') :
    Gives (write (unfinished destination) (.text "")) (prepared w.disk destination) () (opened w.disk destination) ∧
      Packs format (opened w.disk destination) a.entries s.members := by
  obtain ⟨⟨d, hempty, hpacks⟩, -⟩ := write_delivers h
  have hdisk : opened w.disk destination = d := by
    unfold opened
    rw [hempty]
  rw [hdisk]
  exact ⟨hempty, hpacks⟩

/-- A file that was there at first is read as it was, unless it is the unfinished file. -/
theorem read_opened {d : Disk} (hd : d.Sound)
    (hwrite : Gives (write (unfinished destination) (.text "")) (prepared d destination) () (opened d destination))
    {p : Path} {loc : Location} {c : Content} (h : d.find p = .ok (loc, .file c))
    (hother : ∀ x, (opened d destination).find (unfinished destination) = .ok x → x.1 ≠ loc) :
    (opened d destination).read p = .ok c := by
  obtain ⟨hgrown, hsound⟩ := grown_prepared hd destination
  -- the directories of the destination are made where nothing was
  have hprepared : (prepared d destination).locate true p = .ok (.found loc (.file c)) := by
    have hentry := (entry?_of_find hd h).1
    have hsame : Disk.entry? (prepared d destination) loc = some (.file c) := by
      rcases hgrown.entry loc with he | ⟨hnone, -⟩
      · rw [he, hentry]
      · rw [hentry] at hnone; cases hnone
    have hkept := locate_kept hd hgrown.kept (locate_of_find h)
    rwa [show (Place.found loc (.file c)).location = loc from rfl, place_of_some hsame] at hkept
  -- the unfinished file is emptied where it was, or created
  rcases run_write_vacant hsound (unfinished destination) (.text "") with ⟨e, he⟩ | ⟨onto, hvacant, hrun⟩
  · cases hwrite.symm.trans he
  · have hput : opened d destination = (prepared d destination).put onto (.file (.text "")) :=
      (Prod.mk.inj (hwrite.symm.trans hrun)).2
    have hunfinished : (opened d destination).find (unfinished destination) = .ok (onto, .file (.text "")) := by
      rw [hput]
      exact hvacant.find_put hsound _
    have hbeside := beside_put (ne_nil_of_not_directory hvacant.ne_directory) hvacant.ne_directory hvacant.ne_link
      (.text "")
    rw [← hput] at hbeside
    have hne : loc ≠ onto := (hother _ hunfinished).symm
    exact read_of_locate (hbeside.locate hsound hprepared hne)

/-- An archive of what was collected, once it is written: the names that are handed over are all different, none comes
before the directory that it is below, and the members are the entries whose source is not gone by then, one for each
in their order and of its kind and content. What a file holds is what it held when writing began, unless it is the
unfinished file itself. The entries that were counted are as many, and a reader of the archive finds just these
members. -/
theorem write_packs (ha : Gathered a) (hd : w.disk.Sound) (h : Gives (a.write destination format level) w s w') :
    (a.entries.map handed).Nodup ∧
    (a.entries.Pairwise fun e f => f.2 = .directory → ¬ IsBelow f.1 e.1) ∧
    List.Forall₂ (WrittenAs format (opened w.disk destination))
      (a.entries.filter fun e => !isGone (opened w.disk destination) e.2) s.members ∧
    (∀ p loc c, w.disk.find p = .ok (loc, .file c) →
      (∀ x, (opened w.disk destination).find (unfinished destination) = .ok x → x.1 ≠ loc) →
      (opened w.disk destination).read p = .ok c) ∧
    s.members.length = (a.entries.filter fun e => !isGone (opened w.disk destination) e.2).length ∧
    s.entries = s.members.length ∧
    w'.disk.read destination = .ok (archive format level s.members) ∧
    unpack format (archive format level s.members) = some (s.members.map Member.item) := by
  obtain ⟨hwrite, hpacks⟩ := gives_opened h
  obtain ⟨-, -, -, hentries, hread, hunpack⟩ := write_delivers h
  exact ⟨ha.nodup_handed, ha.pairwise_below, hpacks.forall₂, fun _ _ _ hp hother => read_opened hd hwrite hp hother,
    hpacks.forall₂.length_eq.symm, hentries, hread, hunpack⟩

/-! ### A file that is gone -/

/-- A directory and a file whose name comes between it and what it holds. -/
def between : World where
  disk := {
    entries := [
      (["w"], .directory),
      (["w", "a"], .directory),
      (["w", "a", "x.js"], .file (.text "x")),
      (["w", "a-b.js"], .file (.text "b"))]
    here := ["w"] }
  notes := []

/-- The directory is collected with what it holds, and two files with names between them, of which one is not there. -/
def betweenContents : Contents :=
  ((addAllNamed between.disk ["a"]).run.run ((create between.disk ⟨"/w"⟩).putFiles ["a-b.js", "a-gone.js"])).2

theorem sound_between : between.disk.Sound := ⟨by decide, by decide⟩

/-- Of four entries the third is left out, and three are written and counted. -/
theorem write_packs_between : ∃ s w', Gives (betweenContents.write ⟨"/w/out.zip"⟩ .zip 6) between s w' ∧
    betweenContents.entries.map handed = ["a/", "a-b.js", "a-gone.js", "a/x.js"] ∧
    s.members = [⟨"a/", .directory⟩, ⟨"a-b.js", .file (.text "b")⟩, ⟨"a/x.js", .file (.text "x")⟩] ∧
    s.entries = 3 ∧
    List.Forall₂ (WrittenAs .zip (opened between.disk ⟨"/w/out.zip"⟩))
      (betweenContents.entries.filter fun e => !isGone (opened between.disk ⟨"/w/out.zip"⟩) e.2) s.members ∧
    w'.disk.read ⟨"/w/out.zip"⟩ = .ok (archive .zip 6 s.members) ∧
    unpack .zip (archive .zip 6 s.members) = some (s.members.map Member.item) := by
  have hrun : shown (betweenContents.write ⟨"/w/out.zip"⟩ .zip 6) between (fun s _ => s.members) =
      some [⟨"a/", .directory⟩, ⟨"a-b.js", .file (.text "b")⟩, ⟨"a/x.js", .file (.text "x")⟩] := by decide +kernel
  obtain ⟨s, w', h, hmembers⟩ := exists_gives hrun
  have hgathered : Gathered betweenContents := .extras (.files (.create _ _) _) _ _
  obtain ⟨-, -, hwritten, -, -, hentries, hread, hunpack⟩ := write_packs hgathered sound_between h
  exact ⟨s, w', h, by decide +kernel, hmembers, hentries.trans (by rw [hmembers]; rfl), hwritten, hread, hunpack⟩

end Stowage.Archive
