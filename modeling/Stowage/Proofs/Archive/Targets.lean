/-
Where the links of an archive lead. A link is archived under a name that need not tell where it is on the disk: what
lies outside the root takes the name of the link that leads to it. The target that is recorded for it leads from this
name to the one of what it leads to, whether collecting succeeds or not.
-/
import Stowage.Proofs.Archive.Extras

open Stowage.Path

namespace Stowage.Archive.Contents

open Disk

/-! ## Where the targets lead -/

/-- The name of what a path without links names is made up of ordinary names. -/
theorem exists_names_of_nameBelow? {d : Disk} (hd : d.Sound) (hn : d.WellNamed) {p target root : Path}
    {name : String} (ht : d.canonicalize p = .ok target) (hname : target.nameBelow? root = some name) :
    ∃ qs, (∀ s ∈ qs, IsName s) ∧ name = joined qs := by
  obtain ⟨loc, e, rfl, he, -⟩ := entry?_of_canonicalize hd ht
  have hloc : ∀ s ∈ loc, IsName s := fun s hs => (hn.storable he s hs).toIsName
  unfold Path.nameBelow? at hname
  split at hname
  · refine ⟨_, fun s hs => hloc s ?_, (Option.some.inj hname).symm⟩
    have hmem := ((List.drop_sublist _ _).filterMap _).subset hs
    rwa [filterMap_components, moves_ofLocation fun s hs => (hloc s hs).toIsPiece] at hmem
  · cases hname

theorem ArchivedAs.isLink {d : Disk} (hd : d.Sound) (hn : d.WellNamed) {root : Path} {extras : List String}
    {name : String} {p : Path} (h : ArchivedAs d root extras name p .link) : d.isLink p = true := by
  have htype : d.typeOf p = .ok .link := by
    generalize hlink : EntryType.link = type at h
    cases h with
    | designated _ _ _ ht => exact ht
    | inside _ htree hq =>
      obtain ⟨_, -, -, ht⟩ := mem_tree hd hn htree hq
      exact ht
    | through => split at hlink <;> cases hlink
  unfold Disk.isLink
  rw [htype]; rfl

/-- Every link that extras record, under a name that does not lead up, is one that is archived under this name,
and its target, walked by the names alone from the directory that the name is in, ends at the name of what the link
leads to on the disk. -/
theorem addAllNamed_links {d : Disk} (hd : d.Sound) (hn : d.WellNamed) (extras : List String) (a : Contents)
    {n t : String} (h : (n, .link t) ∈ ((addAllNamed d extras).run.run a).2.entries)
    (hnew : (n, .link t) ∉ a.entries) :
    ∃ link target name, ArchivedAs d a.root extras n link .link ∧ d.isLink link = true ∧
      d.canonicalize link = .ok target ∧ nameBelow target a.root = .ok name ∧
      (".." ∉ (⟨n⟩ : Path).moves →
        (lexically [] ((⟨n⟩ : Path).moves.dropLast ++ (⟨t⟩ : Path).moves)).map joined = some name) := by
  cases (archives_of_mem h).resolve_left hnew with
  | @link _ name link target harchived ht hname =>
    refine ⟨link, target, name, harchived, harchived.isLink hd hn, ht, ?_, fun hup => ?_⟩
    · unfold nameBelow
      rw [hname]
    · obtain ⟨pieces, hpieces, rfl⟩ := harchived.isClean
      obtain ⟨qs, hqs, rfl⟩ := exists_names_of_nameBelow? hd hn ht hname
      rw [moves_joined hpieces] at hup ⊢
      have hdir : ∀ s ∈ pieces.dropLast, IsPiece s := fun s hs => hpieces s (List.dropLast_subset _ hs)
      have hway := lexically_diff_joined hqs hdir
      rw [linkTarget_joined hpieces, moves_joined fun s hs => isPiece_of_mem_moves hs,
        lexically_append _ fun h => hup (List.dropLast_subset _ h), List.nil_append, hway, Option.map_some]

/-! ### A link in a directory outside the root -/

/-- A directory with a link to one beside it, which holds a link back. -/
def around : Disk where
  entries := [(["out"], .directory), (["out", "deep"], .directory), (["out", "deep", "back"], .link "/ws/lib/b.js"),
    (["ws"], .directory), (["ws", "ext"], .link "../out"), (["ws", "lib"], .directory),
    (["ws", "lib", "b.js"], .file (.text "b"))]
  here := []

theorem sound_around : around.Sound := ⟨by decide, by decide⟩

theorem wellNamed_around : around.WellNamed := ⟨by decide, by decide, by decide⟩

/-- The link back is archived two directories deep, from where its target leads up to the file. -/
theorem addAllNamed_links_around :
    ("ext/deep/back", .link "../../lib/b.js") ∈
      ((addAllNamed around ["ext"]).run.run (create around ⟨"/ws"⟩)).2.entries ∧
    ∃ link target, ArchivedAs around ⟨"/ws"⟩ ["ext"] "ext/deep/back" link .link ∧
      around.canonicalize link = .ok target ∧ nameBelow target ⟨"/ws"⟩ = .ok "lib/b.js" ∧
      (lexically [] ["ext", "deep", "..", "..", "lib", "b.js"]).map joined = some "lib/b.js" := by
  have hmem : ("ext/deep/back", .link "../../lib/b.js") ∈
      ((addAllNamed around ["ext"]).run.run (create around ⟨"/ws"⟩)).2.entries := by decide +kernel
  have hroot : (create around ⟨"/ws"⟩).root = ⟨"/ws"⟩ := by decide +kernel
  obtain ⟨link, target, name, harchived, -, ht, hname, hway⟩ :=
    addAllNamed_links sound_around wellNamed_around ["ext"] (create around ⟨"/ws"⟩) hmem List.not_mem_nil
  have hlexical := hway (by decide +kernel)
  have hends : (lexically [] ((⟨"ext/deep/back"⟩ : Path).moves.dropLast ++
      (⟨"../../lib/b.js"⟩ : Path).moves)).map joined = some "lib/b.js" := by decide +kernel
  obtain rfl : "lib/b.js" = name := Option.some.inj (hends.symm.trans hlexical)
  exact ⟨hmem, link, target, hroot ▸ harchived, ht, hroot ▸ hname, by decide +kernel⟩

end Stowage.Archive.Contents
