/-
What the extras add to an archive. Each new entry stands for a path that an extra designates, lies inside the
tree of such a path, or was come to through a link that leads out of the root. From this way its name is clean and
its content comes from the place that the name tells, unless an extra leads up or names the root itself: that a
path lies below the root is told by its spelling, where steps up count as names.
-/
import Stowage.Proofs.Archive.Archived
import Stowage.Proofs.Disk.Direct
import Stowage.Proofs.Glob.Expansion
import Stowage.Proofs.Path.Ways

open Stowage.Path

namespace Stowage.Archive.Contents

open Disk Glob

/-! ## What extras stand for -/

/-- The name that is made up of some pieces stands for a path: one that an extra designates, one inside the
tree of another path, or what a link that leads out of the root is replaced by. -/
inductive Stands (d : Disk) (root : Path) (extras : List String) : List String → Path → Prop
  | designated {extra : String} {p : Path} (he : extra ∈ extras) (h : Designates d root extra p)
      (hp : p.isAbsolute = true) (hin : p.startsWith root = true) {type : EntryType}
      (ht : d.typeOf p = .ok type) : Stands d root extras (p.below root) p
  | inside {pieces names : List String} {p : Path} (h : Stands d root extras pieces p)
      (hnames : ∀ n ∈ names, IsStorable n) {type : EntryType} (ht : d.typeOf (p.extend names) = .ok type) :
    Stands d root extras (pieces ++ names) (p.extend names)
  | through {pieces : List String} {p target : Path} (h : Stands d root extras pieces p)
      (hlink : d.isLink p = true) (ht : d.canonicalize p = .ok target)
      (hout : target.startsWith root = false) : Stands d root extras pieces target

/-- What is recorded for the path that a name stands for. -/
inductive Recorded (d : Disk) (root : Path) (pieces : List String) (p : Path) : Source → Prop
  | file (h : d.isFile p = true) : Recorded d root pieces p (.file p)
  | directory (h : d.isDirectory p = true) : Recorded d root pieces p .directory
  | link {target : Path} {text : String} (hlink : d.isLink p = true) (h : d.canonicalize p = .ok target)
      (hin : target.startsWith root = true)
      (htext : text = linkTarget (joined pieces) (joined (target.below root))) :
    Recorded d root pieces p (.link text)

/-- An entry that extras add. -/
def Added (d : Disk) (root : Path) (extras : List String) (e : String × Source) : Prop :=
  ∃ pieces p, e.1 = joined pieces ∧ Stands d root extras pieces p ∧ Recorded d root pieces p e.2

/-! ## Trees and links -/

section
variable {d : Disk} {root : Path} {extras : List String}

theorem Stands.isPiece {pieces : List String} {p : Path} (h : Stands d root extras pieces p) :
    ∀ s ∈ pieces, IsPiece s := by
  induction h with
  | designated => exact fun s hs => isPiece_of_mem_below hs
  | inside _ hnames _ ih =>
    exact fun s hs => (List.mem_append.1 hs).elim (ih s) fun hs => (hnames s hs).toIsPiece
  | through _ _ _ _ ih => exact ih

theorem Stands.isAbsolute (hd : d.Sound) {pieces : List String} {p : Path}
    (h : Stands d root extras pieces p) : p.isAbsolute = true := by
  induction h with
  | designated _ _ hp => exact hp
  | inside _ _ _ ih => exact isAbsolute_extend _ _ ih
  | through _ _ ht =>
    obtain ⟨loc, _, rfl, -⟩ := entry?_of_canonicalize hd ht
    exact isAbsolute_ofLocation loc

theorem isFile_of_typeOf {p : Path} (h : d.typeOf p = .ok .file) : d.isFile p = true := by
  obtain ⟨l, e, hfind, he⟩ := find_of_typeOf h (by decide)
  unfold isFile
  rw [hfind]
  simp [Except.toOption, he]

theorem isDirectory_of_typeOf {p : Path} (h : d.typeOf p = .ok .directory) : d.isDirectory p = true := by
  obtain ⟨l, e, hfind, he⟩ := find_of_typeOf h (by decide)
  unfold isDirectory
  rw [hfind]
  simp [Except.toOption, he]

theorem typeOf_of_canonicalize (hd : d.Sound) (hn : d.WellNamed) {p q : Path} (h : d.canonicalize p = .ok q) :
    d.typeOf q = .ok (if d.isDirectory q then .directory else .file) := by
  obtain ⟨l, e, rfl, he, hnolink⟩ := entry?_of_canonicalize hd h
  have htype : d.typeOf (ofLocation l) = .ok e.type := by
    unfold typeOf
    rw [locate_ofLocation hd hn he (.inl rfl)]
    rfl
  have hfind : d.locate true (ofLocation l) = .ok (.found l e) := locate_ofLocation hd hn he (.inr hnolink)
  have hdir : d.isDirectory (ofLocation l) = true ↔ e = .directory := by
    rw [isDirectory_iff, hfind]
    constructor
    · rintro ⟨_, h⟩
      cases h
      rfl
    · rintro rfl
      exact ⟨l, rfl⟩
  rw [htype]
  rcases e with c | t | _
  · rw [if_neg fun h => nomatch hdir.1 h]; rfl
  · exact absurd rfl (hnolink t)
  · rw [if_pos (hdir.2 rfl)]; rfl

end

/-! ## Extras -/

section
variable {d : Disk} (hd : d.Sound) (hn : d.WellNamed) {loc : Location} (hloc : ∀ n ∈ loc, IsName n)
  {extras : List String} {extra : String}
include hn hloc

theorem Designates.isAbsolute {p : Path} (h : Designates d (ofLocation loc) extra p) :
    p.isAbsolute = true := by
  cases h with
  | itself => exact isAbsolute_join_name _ _ (isAbsolute_ofLocation loc)
  | matched _ _ h hp => exact (mem_expand hn hloc h hp).1

include hd

/-- The name that a path is archived under stands for it. -/
theorem ArchivedAs.stands {name : String} {p : Path} {type : EntryType}
    (h : ArchivedAs d (ofLocation loc) extras name p type) :
    ∃ pieces, name = joined pieces ∧ Stands d (ofLocation loc) extras pieces p ∧ d.typeOf p = .ok type := by
  have hroot := isAbsolute_ofLocation loc
  induction h with
  | designated he h hname ht =>
    have habs := h.isAbsolute hn hloc
    obtain ⟨hin, rfl⟩ := (nameBelow_ok habs hroot).1 hname
    exact ⟨_, rfl, .designated he h habs hin ht, ht⟩
  | @inside _ p _ _ _ _ htree hq ih =>
    obtain ⟨pieces, rfl, hstands, -⟩ := ih
    obtain ⟨names, rfl, hnames, ht⟩ := mem_tree hd hn htree hq
    have hpieces : ∀ n ∈ names, IsPiece n := fun n hm => (hnames n hm).toIsPiece
    refine ⟨pieces ++ names, ?_, hstands.inside hnames ht, ht⟩
    rw [nameInside_extend p hpieces, slashJoin_joined hstands.isPiece hpieces]
  | @through _ p _ _ ht hout ih =>
    obtain ⟨pieces, rfl, hstands, htype⟩ := ih
    have hlink : d.isLink p = true := by
      unfold isLink
      rw [htype]; rfl
    refine ⟨pieces, rfl, hstands.through hlink ht ?_, typeOf_of_canonicalize hd hn ht⟩
    obtain ⟨l, -, rfl, -⟩ := entry?_of_canonicalize hd ht
    rw [Bool.eq_false_iff]
    intro hin
    rw [(nameBelow?_eq_some (isAbsolute_ofLocation l) hroot).2 ⟨hin, rfl⟩] at hout
    cases hout

theorem Archives.added {e : String × Source} (h : Archives d (ofLocation loc) extras e) :
    Added d (ofLocation loc) extras e := by
  cases h with
  | file h =>
    obtain ⟨pieces, hname, hstands, ht⟩ := h.stands hd hn hloc
    exact ⟨pieces, _, hname, hstands, .file (isFile_of_typeOf ht)⟩
  | directory h =>
    obtain ⟨pieces, hname, hstands, ht⟩ := h.stands hd hn hloc
    exact ⟨pieces, _, hname, hstands, .directory (isDirectory_of_typeOf ht)⟩
  | link h htarget hin =>
    obtain ⟨pieces, rfl, hstands, ht⟩ := h.stands hd hn hloc
    obtain ⟨l, -, rfl, -⟩ := entry?_of_canonicalize hd htarget
    obtain ⟨hbelow, rfl⟩ := (nameBelow?_eq_some (isAbsolute_ofLocation l) (isAbsolute_ofLocation loc)).1 hin
    refine ⟨pieces, _, rfl, hstands, .link ?_ htarget hbelow rfl⟩
    unfold isLink
    rw [ht]; rfl

end

/-! ## What is designated lies below the root -/

section
variable {α : Type} {f : α → Collect PUnit}

/-- Where something is done for each member of a list, it is done on contents of the root. -/
theorem exists_gives_of_mem (hf : ∀ x, Scripted (f x)) {l : List α} {a a' : Contents} {u : PUnit}
    (h : Gives (l.forM f) a u a') {x : α} (hx : x ∈ l) : ∃ b u' b', b.root = a.root ∧ Gives (f x) b u' b' := by
  induction l generalizing a with
  | nil => cases hx
  | cons y l ih =>
    obtain ⟨u', b, hy, hl⟩ := gives_bind.1 h
    rcases List.mem_cons.1 hx with rfl | hx
    · exact ⟨a, u', b, rfl, hy⟩
    · obtain ⟨b', v, c, hroot, hgives⟩ := ih hl hx
      exact ⟨b', v, c, hroot.trans ((hf y).root_eq hy), hgives⟩

end

section
variable {d : Disk} {loc : Location} {extras : List String} {extra : String} {a a' : Contents} {u : Unit}

theorem startsWith_of_addInPlace {p : Path} (hp : p.isAbsolute = true) (ha : a.root = ofLocation loc)
    (h : Gives (addInPlace d p) a u a') : p.startsWith (ofLocation loc) = true := by
  unfold addInPlace at h
  obtain ⟨name, _, hname, -⟩ := gives_bind.1 (gives_get_bind.1 h)
  rw [ha] at hname
  rcases hn : nameBelow p (ofLocation loc) with e | n
  · rw [hn] at hname
    exact absurd hname gives_throw
  · exact ((nameBelow_ok hp (isAbsolute_ofLocation loc)).1 hn).1

/-- What an extra designates is added in its place. -/
theorem Designates.exists_gives {p : Path} (hp : Designates d a.root extra p) (h : Gives (addNamed d extra) a u a') :
    ∃ b u' b', b.root = a.root ∧ Gives (addInPlace d p) b u' b' := by
  unfold addNamed at h
  rw [gives_get_bind] at h
  dsimp only at h
  cases hp with
  | itself ht =>
    rw [ht] at h
    exact ⟨a, u, a', rfl, h⟩
  | @matched paths _ hpattern hmissing hx hp =>
    rw [hmissing] at h
    dsimp only at h
    rw [if_pos hpattern] at h
    unfold addMatching at h
    rw [gives_get_bind] at h
    dsimp only at h
    rw [hx] at h
    obtain ⟨_, _, hpaths, hrest⟩ := gives_bind.1 h
    obtain ⟨rfl, rfl⟩ := gives_pure.1 hpaths
    obtain ⟨_, _, hall, -⟩ := gives_bind.1 hrest
    exact exists_gives_of_mem (scripted_addInPlace d) hall hp

theorem Designates.startsWith (hn : d.WellNamed) (hloc : ∀ n ∈ loc, IsName n) (ha : a.root = ofLocation loc)
    (h : Gives (addNamed d extra) a u a') {p : Path} (hp : Designates d (ofLocation loc) extra p) :
    p.startsWith (ofLocation loc) = true := by
  have habs := hp.isAbsolute hn hloc
  rw [← ha] at hp
  obtain ⟨b, _, _, hb, hg⟩ := hp.exists_gives h
  exact startsWith_of_addInPlace habs (hb.trans ha) hg

/-- An extra that is there but not below the root fails, and adds nothing. -/
theorem run_addNamed_outside {type : EntryType} (ht : d.typeOf (a.root / bareText extra) = .ok type)
    (hout : (a.root / bareText extra).startsWith a.root = false) :
    (addNamed d extra).run.run a =
      (.error (.outsideWorkspace (a.root / bareText extra) a.root), a) := by
  have hname : nameBelow (a.root / bareText extra) a.root =
      .error (.outsideWorkspace (a.root / bareText extra) a.root) := by
    unfold nameBelow Path.nameBelow?
    rw [if_neg (by simp [hout])]
  unfold addNamed
  rw [run_get_bind]
  dsimp only
  rw [ht]
  dsimp only
  unfold addInPlace
  rw [run_get_bind, hname]
  rfl

end

/-! ## Where names lead -/

/-- The target of a link is the way to it from the directory that the name of the link is in. -/
theorem linkTarget_joined {pieces : List String} (hp : ∀ s ∈ pieces, IsPiece s) (target : String) :
    linkTarget (joined pieces) target = joined (diff ⟨target⟩ ⟨joined pieces.dropLast⟩).moves := by
  have hup : ((⟨joined pieces⟩ : Path).parent?.getD ⟨""⟩) = ⟨joined pieces.dropLast⟩ := by
    rcases List.eq_nil_or_concat pieces with rfl | ⟨ps, s, rfl⟩
    · decide
    · rw [List.concat_eq_append] at hp ⊢
      rw [parent?_joined_concat (fun t ht => hp t (by simp [ht])) (hp s (by simp)),
        List.dropLast_concat, Option.getD_some]
  unfold linkTarget
  rw [hup, slashText_eq]

theorem linkTarget_eq_empty {pieces qs : List String} (hp : ∀ s ∈ pieces, IsPiece s)
    (hq : ∀ s ∈ qs, IsPiece s) :
    linkTarget (joined pieces) (joined qs) = "" ↔ qs = pieces.dropLast := by
  have hdir : ∀ s ∈ pieces.dropLast, IsPiece s := fun s hs => hp s (List.dropLast_subset _ hs)
  rw [linkTarget_joined hp, ← moves_diff_joined_eq_nil hq hdir, ← joined_eq_nil fun s hs => isPiece_of_mem_moves hs,
    ← String.toList_inj]
  rfl

section
variable {d : Disk} (hd : d.Sound) (hn : d.WellNamed) {loc : Location} (hloc : ∀ n ∈ loc, IsName n)
  {extras : List String}

/-- The name starts with what an extra designates, and leads up only there. -/
theorem Stands.exists_designated {root : Path} {pieces : List String} {p : Path}
    (h : Stands d root extras pieces p) : ∃ extra ∈ extras, ∃ q, Designates d root extra q ∧
      q.isAbsolute = true ∧ q.startsWith root = true ∧ q.below root <+: pieces ∧
      (".." ∈ pieces → ".." ∈ q.below root) := by
  induction h with
  | @designated extra p he h hp hin =>
    exact ⟨extra, he, p, h, hp, hin, List.prefix_rfl, id⟩
  | inside _ hnames _ ih =>
    obtain ⟨extra, he, q, hq, habs, hin, hpre, hup⟩ := ih
    refine ⟨extra, he, q, hq, habs, hin, hpre.trans (List.prefix_append _ _), fun h => ?_⟩
    rcases List.mem_append.1 h with h | h
    · exact hup h
    · exact absurd rfl (hnames _ h).ne_up
  | through _ _ _ _ ih => exact ih

include hn hloc in
/-- An extra that designates a path with a step up below the root climbs. -/
theorem Designates.climbs {extra : String} {p : Path} (h : Designates d (ofLocation loc) extra p)
    (hup : ".." ∈ p.below (ofLocation loc)) : Climbs caseless (bareText extra) := by
  cases h with
  | itself =>
    refine climbs_of_up ?_
    by_cases hx : (⟨bareText extra⟩ : Path).isAbsolute = true
    · have hjoin : ofLocation loc / bareText extra = ⟨bareText extra⟩ := join_absolute _ hx
      rw [hjoin] at hup
      exact List.mem_of_mem_drop hup
    · have hmoves : (ofLocation loc / bareText extra).moves = _ :=
        moves_join_path (ofLocation loc) ⟨bareText extra⟩ (Bool.eq_false_of_not_eq_true hx)
      unfold Path.below at hup
      rwa [hmoves, List.drop_left] at hup
  | matched _ _ h hp => exact (mem_expand hn hloc h hp).2.2 hup

include hd hn

theorem Stands.exists_type {root : Path} {pieces : List String} {p : Path}
    (h : Stands d root extras pieces p) : ∃ type, d.typeOf p = .ok type := by
  cases h with
  | designated _ _ _ _ ht => exact ⟨_, ht⟩
  | inside _ _ ht => exact ⟨_, ht⟩
  | through _ _ ht => exact ⟨_, typeOf_of_canonicalize hd hn ht⟩

include hloc

variable {e : Entry} (he : d.entry? loc = some e) (hlink : ∀ t, e ≠ .link t)
include he hlink

/-- A path with names after those of the root leads where they do, unless some of them lead to a link. -/
theorem locate_below {pieces : List String} (hpieces : ∀ s ∈ pieces, IsName s)
    (hno : ∀ m, m ≠ [] → m <+: pieces → d.isLink ((ofLocation loc).extend m) = false) {p : Path}
    (hp : p.isAbsolute = true) (hmoves : p.moves = loc ++ pieces) {type : EntryType}
    (ht : d.typeOf p = .ok type) :
    ∃ e, d.entry? (loc ++ pieces) = some e ∧ (∀ t, e ≠ .link t) ∧
      d.locate false p = .ok (.found (loc ++ pieces) e) := by
  have hnames : ∀ n ∈ p.moves, IsName n := fun n hm =>
    (List.mem_append.1 (hmoves ▸ hm)).elim (hloc n) (hpieces n)
  -- what comes before the end of the root is a directory, and what comes after it is no link
  have hway : ∀ m t, m ≠ [] → m <+: loc ++ pieces → d.entry? m ≠ some (.link t) := by
    intro m t _ hm hentry
    rcases Nat.lt_or_ge loc.length m.length with hlen | hlen
    · obtain ⟨inner, rfl⟩ := List.prefix_of_prefix_length_le (List.prefix_append loc pieces) hm hlen.le
      have hinner : inner ≠ [] := by rintro rfl; simp at hlen
      have htype := typeOf_below hd hn hinner hentry
      have hlinked := hno inner hinner ((List.prefix_append_right_inj loc).1 hm)
      unfold isLink at hlinked
      rw [htype] at hlinked
      cases hlinked
    · obtain ⟨rest, hrest⟩ := List.prefix_of_prefix_length_le hm (List.prefix_append loc pieces) hlen
      by_cases hr : rest = []
      · rw [hr, List.append_nil] at hrest
        rw [hrest, he] at hentry
        exact hlink t (Option.some.inj hentry)
      · rw [← hrest] at he
        rw [hd.directory_of_append hr he] at hentry
        cases hentry
  unfold typeOf at ht
  rcases hl : d.locate false p with f | place
  · rw [hl] at ht; cases ht
  rw [hl] at ht
  rcases locate_direct hp hnames hl with rfl | ⟨m, t, hne, hm, hentry⟩
  · rw [hmoves] at ht ⊢
    rcases hplace : d.entry? (loc ++ pieces) with _ | e'
    · rw [place_of_none hplace] at ht; cases ht
    · rw [place_of_some hplace]
      refine ⟨e', rfl, ?_, rfl⟩
      rintro t rfl
      by_cases hall : loc ++ pieces = []
      · rw [hall] at hplace; cases hplace
      · exact hway _ t hall List.prefix_rfl hplace
  · exact absurd hentry (hway m t hne (hmoves ▸ hm))

/-- Without links and steps up a name stands for the path that it tells. -/
theorem Stands.moves_eq {pieces : List String} {p : Path} (h : Stands d (ofLocation loc) extras pieces p)
    (hup : ".." ∉ pieces)
    (hno : ∀ m, m ≠ [] → m <+: pieces → d.isLink ((ofLocation loc).extend m) = false) :
    p.moves = loc ++ pieces := by
  have hmoves := moves_ofLocation fun n hm => (hloc n hm).toIsPiece
  induction h with
  | designated _ _ hp hin =>
    rw [moves_eq_of_startsWith hp (isAbsolute_ofLocation loc) hin, hmoves]
  | inside h hnames _ ih =>
    rw [moves_extend _ fun n hm => (hnames n hm).toIsPiece,
      ih (fun hm => hup (List.mem_append_left _ hm)) fun m hne hm =>
        hno m hne (hm.trans (List.prefix_append _ _)), List.append_assoc]
  | through h hthrough _ _ ih =>
    -- up to here the name told its path, so that the link would be one of the root
    have hpieces : ∀ s ∈ _, IsName s := fun s hs => ⟨h.isPiece s hs, fun he => hup (he ▸ hs)⟩
    obtain ⟨type, ht⟩ := h.exists_type hd hn
    obtain ⟨e', -, hnolink, hl⟩ := locate_below hd hn hloc he hlink hpieces hno (h.isAbsolute hd)
      (ih hup hno) ht
    unfold isLink typeOf at hthrough
    rw [hl] at hthrough
    rcases e' with _ | t | _
    · cases hthrough
    · exact absurd rfl (hnolink t)
    · cases hthrough

/-- Without links and steps up a name leads to what it tells. -/
theorem Stands.canonicalize_eq {pieces : List String} {p : Path}
    (h : Stands d (ofLocation loc) extras pieces p) (hup : ".." ∉ pieces)
    (hno : ∀ m, m ≠ [] → m <+: pieces → d.isLink ((ofLocation loc).extend m) = false) :
    d.canonicalize p = .ok (ofLocation (loc ++ pieces)) := by
  have hpieces : ∀ s ∈ pieces, IsName s := fun s hs => ⟨h.isPiece s hs, fun he => hup (he ▸ hs)⟩
  obtain ⟨type, ht⟩ := h.exists_type hd hn
  obtain ⟨e', -, hnolink, hl⟩ := locate_below hd hn hloc he hlink hpieces hno (h.isAbsolute hd)
    (h.moves_eq hd hn hloc he hlink hup hno) ht
  have hnot : d.isLink p = false := by
    unfold isLink typeOf
    rw [hl]
    rcases e' with _ | t | _
    · rfl
    · exact absurd rfl (hnolink t)
    · rfl
  unfold canonicalize find
  rw [locate_true hnot, hl]
  rfl

end

/-! ## What extras add -/

/-- How an entry that extras add keeps to the root: its name is made up of plain pieces, is empty only if an
extra designates the root itself and leads up only if an extra climbs. The target of a link is empty exactly if
the link leads to the directory that it is in, and a file is the one that its name tells unless the name leads up
or through a link. -/
structure Confined (d : Disk) (loc : Location) (extras pieces : List String) (p : Path)
    (source : Source) : Prop where
  plain : ∀ s ∈ pieces, IsPiece s
  root : pieces = [] → ∃ extra ∈ extras, ∃ q, Designates d (ofLocation loc) extra q ∧
    q.same (ofLocation loc) = true
  up : ".." ∈ pieces → ∃ extra ∈ extras, Climbs caseless (bareText extra)
  link : ∀ t, source = .link t → d.isLink p = true ∧ ∃ target, d.canonicalize p = .ok target ∧
    target.startsWith (ofLocation loc) = true ∧ (t = "" ↔ target.below (ofLocation loc) = pieces.dropLast)
  file : ∀ q, source = .file q → q = p ∧ (".." ∉ pieces →
    d.canonicalize q = .ok (ofLocation (loc ++ pieces)) ∨
      ∃ m, m ≠ [] ∧ m <+: pieces ∧ d.isLink ((ofLocation loc).extend m) = true)

section
variable {d : Disk} (hd : d.Sound) (hn : d.WellNamed) {loc : Location} (hloc : ∀ n ∈ loc, IsName n)
  {extras : List String}
include hd hn hloc

theorem confined {e : Entry} (he : d.entry? loc = some e) (hlink : ∀ t, e ≠ .link t)
    {pieces : List String} {p : Path} {source : Source} (h : Stands d (ofLocation loc) extras pieces p)
    (hsource : Recorded d (ofLocation loc) pieces p source) :
    Confined d loc extras pieces p source := by
  have habs := isAbsolute_ofLocation loc
  obtain ⟨extra, hextra, q, hq, hqabs, hin, hpre, hqup⟩ := h.exists_designated
  refine ⟨h.isPiece, fun hnil => ⟨extra, hextra, q, hq, ?_⟩,
    fun hup => ⟨extra, hextra, hq.climbs hn hloc (hqup hup)⟩, fun t ht => ?_, fun f hf => ?_⟩
  · have hbelow : q.below (ofLocation loc) = [] := List.prefix_nil.1 (hnil ▸ hpre)
    have hmoves := moves_eq_of_startsWith hqabs habs hin
    rw [hbelow, List.append_nil] at hmoves
    rw [same_iff, components_of_absolute hqabs, components_of_absolute habs, hmoves]
  · subst ht
    cases hsource with
    | @link target _ hp htarget hinside htext =>
      rw [htext]
      exact ⟨hp, target, htarget, hinside,
        linkTarget_eq_empty h.isPiece fun s hs => isPiece_of_mem_below hs⟩
  · subst hf
    cases hsource with
    | file =>
      refine ⟨rfl, fun hup => ?_⟩
      by_cases hway : ∃ m, m ≠ [] ∧ m <+: pieces ∧ d.isLink ((ofLocation loc).extend m) = true
      · exact .inr hway
      · exact .inl (h.canonicalize_eq hd hn hloc he hlink hup fun m hne hm =>
          Bool.eq_false_iff.2 fun hl => hway ⟨m, hne, hm, hl⟩)

end

/-- Extras that are added to the contents of a root, whatever was collected before: if that succeeds, every path
that an extra designates is spelled below the root, and every new entry is confined to it. An extra that names
something which is not spelled below the root makes it fail, with what the extras before it have added. -/
theorem addAllNamed_confined {d : Disk} (hd : d.Sound) (hn : d.WellNamed) {start : Path} {loc : Location}
    {e : Entry} (hstart : d.find start = .ok (loc, e)) {a : Contents} (hroot : a.root = ofLocation loc)
    (extras : List String) :
    (∀ a', Gives (addAllNamed d extras) a () a' →
      (∀ extra ∈ extras, ∀ p, Designates d a.root extra p → p.startsWith a.root = true) ∧
      ∀ n source, (n, source) ∈ a'.entries → (n, source) ∈ a.entries ∨
        ∃ pieces p, n = joined pieces ∧ Stands d a.root extras pieces p ∧
          Confined d loc extras pieces p source) ∧
    ∀ before extra after a' type, extras = before ++ extra :: after →
      Gives (addAllNamed d before) a () a' → d.typeOf (a.root / bareText extra) = .ok type →
      (a.root / bareText extra).startsWith a.root = false →
      (addAllNamed d extras).run.run a =
        (.error (.outsideWorkspace (a.root / bareText extra) a.root), a') := by
  obtain ⟨he, hlink⟩ := entry?_of_find hd hstart
  have hnames : ∀ n ∈ loc, IsName n := fun n hm => (hn.storable he n hm).toIsName
  rw [hroot]
  refine ⟨fun a' h => ⟨fun extra hextra p hp => ?_, fun n source hentry => ?_⟩, ?_⟩
  · obtain ⟨b, u, b', hb, hg⟩ := exists_gives_of_mem (scripted_addNamed d) h hextra
    exact hp.startsWith hn hnames (hb.trans hroot) hg
  · have hend : (addAllNamed d extras).run.run a = (.ok (), a') := h
    rcases archives_of_mem (by rw [hend]; exact hentry) with hold | harchives
    · exact .inl hold
    · obtain ⟨pieces, p, hname, hstands, hrecorded⟩ := (hroot ▸ harchives).added hd hn hnames
      exact .inr ⟨pieces, p, hname, hstands, confined hd hn hnames he hlink hstands hrecorded⟩
  · rintro before extra after a' type rfl hbefore ht hout
    have hroot' : a'.root = ofLocation loc := ((scripted_addAllNamed d before).root_eq hbefore).trans hroot
    have hfail := run_addNamed_outside (a := a') (hroot' ▸ ht) (hroot' ▸ hout)
    unfold addAllNamed
    rw [run_forM_append hbefore, run_forM_cons, hfail, hroot']

/-! ### A file beside the root -/

/-- A directory with a file beside it. -/
def besides : Disk where
  entries := [(["ws"], .directory), (["x.txt"], .file (.text "x"))]
  here := []

theorem sound_besides : besides.Sound := ⟨by decide, by decide⟩

theorem wellNamed_besides : besides.WellNamed := ⟨by decide, by decide, by decide⟩

/-- The file is collected where an extra climbs to it, and refused where one names it from the top. -/
theorem addAllNamed_confined_besides :
    (∃ a', Gives (addAllNamed besides ["../x.txt"]) (create besides ⟨"/ws"⟩) () a' ∧
      a'.entries = [("../x.txt", .file ⟨"/ws/../x.txt"⟩)] ∧
      ∃ pieces p, "../x.txt" = joined pieces ∧
        Confined besides ["ws"] ["../x.txt"] pieces p (.file ⟨"/ws/../x.txt"⟩)) ∧
    (addAllNamed besides ["/x.txt"]).run.run (create besides ⟨"/ws"⟩) =
      (.error (.outsideWorkspace ⟨"/x.txt"⟩ ⟨"/ws"⟩), create besides ⟨"/ws"⟩) := by
  have hstart : besides.find ⟨"/ws"⟩ = .ok (["ws"], .directory) := by decide +kernel
  have hroot : (create besides ⟨"/ws"⟩).root = ofLocation ["ws"] := by decide +kernel
  have hconfined := addAllNamed_confined sound_besides wellNamed_besides hstart hroot
  refine ⟨?_, (hconfined ["/x.txt"]).2 [] "/x.txt" [] _ .file rfl rfl (by decide +kernel)
    (by decide +kernel)⟩
  have hrun : shown (addAllNamed besides ["../x.txt"]) (create besides ⟨"/ws"⟩) (fun _ a => a.entries) =
      some [("../x.txt", .file ⟨"/ws/../x.txt"⟩)] := by decide +kernel
  obtain ⟨_, a', ha, hentries⟩ := exists_gives hrun
  rcases ((hconfined ["../x.txt"]).1 a' ha).2 "../x.txt" (.file ⟨"/ws/../x.txt"⟩)
    (by rw [show a'.entries = _ from hentries]; simp) with h | ⟨pieces, p, hname, -, hinside⟩
  · cases h
  · exact ⟨a', ha, hentries, pieces, p, hname, hinside⟩

end Stowage.Archive.Contents
