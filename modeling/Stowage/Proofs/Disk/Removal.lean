/-
Removing a tree: nothing changes but at and below the directory or the link that the path names. What leads to a
place on a disk with less on it leads there on the full one.
-/
import Stowage.Proofs.Disk.Direct
import Stowage.Proofs.Disk.Effects

open Stowage.Path

namespace Stowage.Disk

variable {d d' : Disk} {p : Path} {top : Location}

/-! ## Separators at the end -/

theorem components_slash {p q : Path} (hne : p.text.toList ≠ [])
    (hq : q.text.toList = p.text.toList ++ ['/']) : q.components = p.components := by
  have hsegments : ∀ r, segments (r ++ ['/']) = segments r ++ [[]] := fun r => by
    rw [segments_append]; rfl
  have hempty : List.filterMap Component.ofSegment [[]] = [] := rfl
  obtain ⟨c, r, hp⟩ := List.exists_cons_of_ne_nil hne
  by_cases hc : c = '/'
  · subst hc
    rw [hp, List.cons_append] at hq
    rw [components_absolute hp, components_absolute hq, hsegments, List.filterMap_append, hempty,
      List.append_nil]
  · obtain ⟨s, ss, hs⟩ := List.exists_cons_of_ne_nil (segments_ne_nil p.text.toList)
    rw [components_relative (by rw [hq, hp]; simpa using hc),
      components_relative (by rw [hp]; simpa using hc), hq, hsegments, hs]
    have hrest : (ss ++ [[]]).filterMap Component.ofSegment = ss.filterMap Component.ofSegment := by
      rw [List.filterMap_append, hempty, List.append_nil]
    by_cases hdot : s = ['.']
    · subst hdot
      simp [hrest]
    · simp [List.filterMap_cons, hrest, hdot]

theorem same_withoutSlash (p : Path) : (withoutSlash p).same p = true := by
  have hstrip : ∀ (r : List Char), (r.dropWhile (· = '/')).reverse ≠ [] →
      (⟨String.ofList (r.dropWhile (· = '/')).reverse⟩ : Path).components =
        (⟨String.ofList r.reverse⟩ : Path).components := by
    intro r
    induction r with
    | nil => exact fun _ => rfl
    | cons c r ih =>
      by_cases hc : c = '/'
      · subst hc
        rw [List.dropWhile_cons_of_pos (by simp)]
        intro hne
        have hr : r ≠ [] := by rintro rfl; exact hne rfl
        rw [ih hne]
        refine (components_slash ?_ ?_).symm
        · simpa using hr
        · simp
      · rw [List.dropWhile_cons_of_neg (by simpa using hc)]
        exact fun _ => rfl
  rw [same_iff]
  have h := hstrip p.text.toList.reverse
  rw [List.reverse_reverse, String.ofList_toList] at h
  unfold withoutSlash
  split
  · rfl
  · rename_i heq
    exact h heq

/-! ## Disks with less on them -/

section
variable {Q : Entry → Prop} (hsub : ∀ l e, d'.entry? l = some e → Q e → d.entry? l = some e)
  (hdir : Q .directory) (hlink : ∀ t, Q (.link t)) {followLast : Bool}
include hsub hdir hlink

/-- A walk past some of the entries of another disk goes the same way on that. -/
theorem stride_sub {loc : Location} {steps : List String} {stop : Stop}
    (h : d'.stride followLast loc steps = .ok stop)
    (hstop : ∀ q, stop = .at q → ∃ l e, q = .found l e ∧ Q e) :
    d.stride followLast loc steps = .ok stop := by
  induction steps generalizing loc with
  | nil => rw [stride] at h ⊢; exact h
  | cons s rest ih =>
    by_cases h1 : s = "."
    · subst h1; rw [stride] at h ⊢; exact ih h
    by_cases h2 : s = ".."
    · subst h2; rw [stride] at h ⊢; exact ih h
    rw [stride_name _ _ _ h1 h2] at h ⊢
    split at h
    · cases h
    rename_i hlong
    rw [if_neg hlong]
    split at h
    · split at h <;> cases h
      obtain ⟨l, e, hq, -⟩ := hstop _ rfl
      cases hq
    · rename_i he
      rw [hsub _ _ he hdir]
      exact ih h
    · rename_i c he
      split at h
      · rename_i hrest
        cases h
        obtain ⟨l, e, hq, hQ⟩ := hstop _ rfl
        cases hq
        rw [hsub _ _ he hQ]
        exact if_pos hrest
      · cases h
    · rename_i t he
      rw [hsub _ _ he (hlink t)]
      exact h

theorem walk_sub {links : Nat} {loc : Location} {steps : List String} {l : Location} {e : Entry}
    (he : Q e) (h : d'.walk followLast links loc steps = .ok (.found l e)) :
    d.walk followLast links loc steps = .ok (.found l e) := by
  induction links generalizing loc steps with
  | zero =>
    unfold walk at h ⊢
    split at h
    · cases h
    · rename_i hs
      cases h
      rw [stride_sub hsub hdir hlink hs fun q hq => ⟨l, e, (Stop.at.inj hq).symm, he⟩]
    · cases h
  | succ n ih =>
    unfold walk at h ⊢
    split at h
    · cases h
    · rename_i hs
      cases h
      rw [stride_sub hsub hdir hlink hs fun q hq => ⟨l, e, (Stop.at.inj hq).symm, he⟩]
    · rename_i hs
      rw [stride_sub hsub hdir hlink hs fun q hq => nomatch hq]
      exact ih h

/-- What a path leads to on a disk with less on it, it leads to on the full one. -/
theorem locate_sub (hhere : d'.here = d.here) {l : Location} {e : Entry} (he : Q e)
    (h : d'.locate followLast p = .ok (.found l e)) : d.locate followLast p = .ok (.found l e) := by
  have horigin : d'.origin p = d.origin p := by unfold origin; rw [hhere]
  rw [locate_eq] at h ⊢
  rcases hc : checked p with f | u
  · rw [hc] at h; cases h
  · rw [hc, horigin] at h
    exact walk_sub hsub hdir hlink he h

end

/-- What a path leads to on a part of a disk, it leads to on the whole. -/
theorem find_sub (hsub : ∀ l e, d'.entry? l = some e → d.entry? l = some e) (hhere : d'.here = d.here)
    {l : Location} {e : Entry} (h : d'.find p = .ok (l, e)) : d.find p = .ok (l, e) := by
  have hlocate := locate_sub (Q := fun _ => True) (fun l e he _ => hsub l e he) trivial (fun _ => trivial)
    hhere trivial (locate_of_find h)
  unfold find
  rw [hlocate]
  rfl

/-! ## Pruned disks -/

/-- The disk without some of what was at a place and below it. -/
structure Pruned (top : Location) (d d' : Disk) : Prop where
  entry : ∀ l, d'.entry? l = d.entry? l ∨ top <+: l ∧ d'.entry? l = none
  here : d'.here = d.here

theorem Pruned.entry?_of_not_below (h : Pruned top d d') {l : Location} (hl : ¬ top <+: l) :
    d'.entry? l = d.entry? l := (h.entry l).resolve_right fun hbelow => hl hbelow.1

/-- What is left was there. -/
theorem Pruned.sub (h : Pruned top d d') {l : Location} {e : Entry} (he : d'.entry? l = some e) :
    d.entry? l = some e := by
  rcases h.entry l with hsame | ⟨-, hnone⟩
  · rw [← hsame, he]
  · rw [hnone] at he; cases he

theorem Pruned.locate (h : Pruned top d d') {followLast : Bool} {l : Location} {e : Entry}
    (hl : d'.locate followLast p = .ok (.found l e)) : d.locate followLast p = .ok (.found l e) :=
  locate_sub (Q := fun _ => True) (fun _ _ he _ => h.sub he) trivial (fun _ => trivial) h.here trivial hl

/-- What is removed when a tree is: everything below the directory, and the directory itself if that is called by
its name; of a link the link alone. -/
inductive Removes (d : Disk) (p : Path) : Except FileFault Unit → Disk → Prop
  | nothing {e : FileFault} (htop : ∀ l e, d.locate false p = .ok (.found l e) → e.type = .file) :
      Removes d p (.error e) d
  | link {l : Location} {t : String} (hlink : d.locate false p = .ok (.found l (.link t))) :
      Removes d p (.ok ()) (d.erase l)
  | tree {top : Location} {r : Except FileFault Unit} {d' : Disk}
      (htop : d.locate false p = .ok (.found top .directory)) (hpruned : Pruned top d d')
      (hbelow : ∀ l, top <+: l → l ≠ top → d'.entry? l = none)
      (hself : r = .ok () → top ≠ [] → d'.entry? top = none)
      (hsound : ¬ top <+: d.here → d'.Sound) : Removes d p r d'

/-- The disk without what is strictly below a place. -/
def emptied (d : Disk) (top : Location) : Disk :=
  { d with entries := d.entries.filter fun e => !(top.isPrefixOf e.1 && e.1 ≠ top) }

theorem entry?_emptied (d : Disk) (top l : Location) :
    Disk.entry? (d.emptied top) l = if top <+: l ∧ l ≠ top then none else d.entry? l := by
  unfold entry? emptied
  by_cases hl : l = []
  · subst hl
    rw [if_pos rfl, if_pos rfl, if_neg]
    rintro ⟨hbelow, hne⟩
    exact hne (List.prefix_nil.1 hbelow).symm
  · rw [if_neg hl, if_neg hl, lookup_filter fun m => !(top.isPrefixOf m && m ≠ top)]
    by_cases h : top <+: l ∧ l ≠ top
    · have hgone : (!(top.isPrefixOf l && decide (l ≠ top))) = false := by
        rw [List.isPrefixOf_iff_prefix.2 h.1, decide_eq_true h.2]
        rfl
      rw [if_pos h, hgone]
      rfl
    · have hstays : (!(top.isPrefixOf l && decide (l ≠ top))) = true := by
        rw [Bool.not_eq_true', Bool.and_eq_false_iff]
        by_cases hbelow : top <+: l
        · exact .inr (decide_eq_false fun hne => h ⟨hbelow, hne⟩)
        · exact .inl (Bool.eq_false_iff.2 (mt List.isPrefixOf_iff_prefix.1 hbelow))
      rw [if_neg h, hstays]
      rfl

/-- A disk that keeps only what does not lie below a place is sound if relative paths start elsewhere. -/
theorem Sound.of_filter (hd : d.Sound) (keep : Location → Bool)
    (hkeep : ∀ l, keep l = true ∨ top <+: l) (hbelow : ∀ l, top <+: l → l ≠ top → keep l = false)
    (hhere : ¬ top <+: d.here) :
    Sound { d with entries := d.entries.filter fun e => keep e.1 } := by
  have hentry : ∀ l, ¬ top <+: l →
      entry? { d with entries := d.entries.filter fun e => keep e.1 } l = d.entry? l := by
    intro l hl
    unfold entry?
    rw [lookup_filter keep, if_pos ((hkeep l).resolve_right hl)]
  refine ⟨fun e he => ?_, (hentry _ hhere).trans hd.here⟩
  obtain ⟨hmem, hkept⟩ := List.mem_filter.1 he
  have hin := hd.inside e hmem
  rw [hentry, hin]
  -- what is kept does not lie in the place
  intro habove
  have hne : e.1 ≠ top := by
    intro he
    have hlength := habove.length_le
    rw [he, List.length_dropLast] at hlength
    have hnil : top = [] := List.eq_nil_of_length_eq_zero (by omega)
    exact hhere (hnil ▸ List.nil_prefix)
  rw [hbelow e.1 (habove.trans (List.dropLast_prefix _)) hne] at hkept
  cases hkept

theorem pruned_emptied (d : Disk) (top : Location) : Pruned top d (d.emptied top) := by
  refine ⟨fun l => ?_, rfl⟩
  rw [entry?_emptied]
  split
  · rename_i h
    exact .inr ⟨h.1, rfl⟩
  · exact .inl rfl

theorem pruned_erase (d : Disk) (top : Location) : Pruned top d (d.erase top) := by
  refine ⟨fun l => ?_, rfl⟩
  by_cases hl : l = []
  · subst hl
    exact .inl rfl
  · rw [entry?_erase d hl]
    split
    · rename_i h
      exact .inr ⟨List.isPrefixOf_iff_prefix.1 h, rfl⟩
    · exact .inl rfl

theorem erase_emptied (d : Disk) (top : Location) : (d.emptied top).erase top = d.erase top := by
  unfold erase emptied
  rw [List.filter_filter]
  congr 2
  funext e
  by_cases hpre : top.isPrefixOf e.1 = true <;> simp [hpre]

section
variable (hd : d.Sound) (hhere : ¬ top <+: d.here)
include hd hhere

theorem Sound.emptied : (d.emptied top).Sound := by
  refine hd.of_filter (fun l => !(top.isPrefixOf l && l ≠ top)) (fun l => ?_)
    (fun l hl hne => ?_) hhere
  · by_cases hl : top <+: l
    · exact .inr hl
    · exact .inl (by rw [Bool.eq_false_iff.2 (mt List.isPrefixOf_iff_prefix.1 hl)]; rfl)
  · rw [List.isPrefixOf_iff_prefix.2 hl, decide_eq_true hne]
    rfl

theorem Sound.erase_tree : (d.erase top).Sound := by
  refine hd.of_filter (fun l => !top.isPrefixOf l) (fun l => ?_) (fun l hl _ => ?_) hhere
  · by_cases hl : top <+: l
    · exact .inr hl
    · exact .inl (by rw [Bool.eq_false_iff.2 (mt List.isPrefixOf_iff_prefix.1 hl)]; rfl)
  · rw [List.isPrefixOf_iff_prefix.2 hl]
    rfl

end

theorem locate_true_of_directory {l : Location} (h : d.locate false p = .ok (.found l .directory)) :
    d.locate true p = .ok (.found l .directory) := by
  rw [locate_true, h]
  unfold isLink typeOf
  rw [h]
  rfl

theorem run_removeEmpty (p : Path) (d : Disk) :
    (∃ e, (removeEmpty p).run.run d = (.error e, d)) ∨
    ∃ l, d.locate false (withoutSlash p) = .ok (.found l .directory) ∧
      checkName (withoutSlash p) .invalidInput .directoryNotEmpty = .ok () ∧
      (removeEmpty p).run.run d = (.ok (), d.erase l) := by
  unfold removeEmpty
  simp only [run_bind, run_ask]
  rcases hl : d.locate false (withoutSlash p) with e | q
  · exact .inl ⟨e, rfl⟩
  dsimp only
  rcases hname : checkName (withoutSlash p) .invalidInput .directoryNotEmpty with e | u
  · exact .inl ⟨e, rfl⟩
  dsimp only
  rcases q with ⟨l, c | t | _⟩ | l
  · exact .inl ⟨_, rfl⟩
  · exact .inl ⟨_, rfl⟩
  · have hget : (get : Change Disk).run.run d = (.ok d, d) := rfl
    dsimp only
    rw [run_bind, hget]
    dsimp only
    by_cases hempty : (d.names l).isEmpty = true
    · rw [if_pos hempty]
      exact .inr ⟨l, rfl, rfl, rfl⟩
    · rw [if_neg hempty]
      exact .inl ⟨_, rfl⟩
  · exact .inl ⟨_, rfl⟩

/-- Removing a tree fails with nothing changed, or removes a link, or empties a directory, which is removed itself
if it is called by its name. -/
theorem run_removeTree (p : Path) (d : Disk) :
    (∃ e, (removeTree p).run.run d = (.error e, d) ∧
      ∀ l e, d.locate false p = .ok (.found l e) → e.type = .file) ∨
    (∃ l t, d.locate false p = .ok (.found l (.link t)) ∧ (removeTree p).run.run d = (.ok (), d.erase l)) ∨
    ∃ top, d.locate false p = .ok (.found top .directory) ∧
      ((∃ e, (removeTree p).run.run d = (.error e, d.emptied top)) ∨
        d.locate false (withoutSlash p) = .ok (.found top .directory) ∧
          checkName (withoutSlash p) .invalidInput .directoryNotEmpty = .ok () ∧
          (removeTree p).run.run d = (.ok (), d.erase top)) := by
  unfold removeTree
  rw [run_bind, run_ask]
  rcases hl : d.locate false p with e | ⟨top, c | t | _⟩ | l
  · exact .inl ⟨e, rfl, nofun⟩
  · refine .inl ⟨.notADirectory, rfl, fun l e h => ?_⟩
    cases h
    rfl
  · refine .inr (.inl ⟨top, t, rfl, ?_⟩)
    dsimp only
    unfold removeFile
    rw [run_bind, run_ask, hl]
    rfl
  · refine .inr (.inr ⟨top, rfl, ?_⟩)
    have hmodify : (modify fun d : Disk => { d with entries := d.entries.filter fun e =>
        !(top.isPrefixOf e.1 && e.1 ≠ top) } : Change PUnit).run.run d =
        (.ok ⟨⟩, d.emptied top) := rfl
    dsimp only
    rw [run_bind, hmodify]
    dsimp only
    rcases run_removeEmpty p (d.emptied top) with ⟨e, he⟩ | ⟨l, hfound, hname, he⟩
    · rw [he]
      exact .inl ⟨e, rfl⟩
    · -- the directory that is removed in the end is the one that was emptied
      have hfull := (pruned_emptied d top).locate hfound
      obtain rfl : l = top := by
        have hsame := d.locate_directory_of_same (same_withoutSlash p) (locate_true_of_directory hfull)
        rw [locate_true_of_directory hl] at hsame
        cases hsame
        rfl
      rw [he, erase_emptied]
      exact .inr ⟨hfull, hname, rfl⟩
  · exact .inl ⟨.notFound, rfl, nofun⟩

/-- Removing a tree. -/
theorem removes (hd : d.Sound) (p : Path) :
    Removes d p ((removeTree p).run.run d).1 ((removeTree p).run.run d).2 := by
  rcases run_removeTree p d with ⟨e, hrun, hfile⟩ | ⟨l, t, hlink, hrun⟩ | ⟨top, htop, ⟨e, hrun⟩ | ⟨-, -, hrun⟩⟩
  · rw [hrun]
    exact .nothing hfile
  · rw [hrun]
    exact .link hlink
  · rw [hrun]
    refine .tree htop (pruned_emptied d top) (fun l hbelow hne => ?_) (fun h => nomatch h) hd.emptied
    rw [entry?_emptied, if_pos ⟨hbelow, hne⟩]
  · rw [hrun]
    refine .tree htop (pruned_erase d top) (fun x hbelow hne => ?_) (fun _ hne => ?_) hd.erase_tree
    · have hx : x ≠ [] := by
        rintro rfl
        exact hne (List.prefix_nil.1 hbelow).symm
      rw [entry?_erase d hx, if_pos (List.isPrefixOf_iff_prefix.2 hbelow)]
    · rw [entry?_erase d hne, if_pos (List.isPrefixOf_iff_prefix.2 (List.prefix_refl top))]

/-! ## Where something is gone -/

theorem steps_ne_nil {p : Path} (h : checked p = .ok ()) : p.steps ≠ [] := by
  have hne : p.text.toList ≠ [] := by
    intro hempty
    have hnil : p.text.isEmpty = true := by
      rw [String.isEmpty_iff, ← String.toList_inj, hempty]; rfl
    unfold checked at h
    rw [hempty, hnil] at h
    cases h
  rw [steps_eq]
  split
  · simp
  · rename_i hslash
    -- the last character stands in a piece
    obtain ⟨c, hc⟩ : ∃ c, p.text.toList.getLast? = some c := ⟨_, List.getLast?_eq_some_getLast hne⟩
    obtain ⟨s, hs, hmem⟩ := (mem_segments_iff (by rintro rfl; exact hslash hc)).1 (List.mem_of_getLast? hc)
    unfold pieces
    intro hnil
    have hnone := List.filter_eq_nil_iff.1 (List.map_eq_nil_iff.1 hnil) s hs
    simp only [ne_eq, decide_not, Bool.not_eq_true', decide_eq_false_iff_not, not_not] at hnone
    exact absurd hmem (hnone ▸ List.not_mem_nil)

theorem checked_of_locate {followLast : Bool} {place : Place} (h : d.locate followLast p = .ok place) :
    checked p = .ok () := by
  rw [locate_eq] at h
  rcases hc : checked p with e | u
  · rw [hc] at h; cases h
  · rfl

/-- What is called by its name lies under that name. -/
theorem exists_name_of_checkName {here up : FileFault} {l : Location} {e : Entry}
    (hl : d.locate false p = .ok (.found l e)) (h : checkName p here up = .ok ()) :
    ∃ before s top, p.steps = before ++ [s] ∧ s ≠ "." ∧ s ≠ ".." ∧ l = top ++ [s] := by
  obtain ⟨before, s, hs⟩ :=
    (List.eq_nil_or_concat' p.steps).resolve_left (steps_ne_nil (checked_of_locate hl))
  have h1 : s ≠ "." := by
    rintro rfl
    unfold checkName at h
    rw [hs, List.getLast?_concat] at h
    cases h
  have h2 : s ≠ ".." := by
    rintro rfl
    unfold checkName at h
    rw [hs, List.getLast?_concat] at h
    cases h
  obtain ⟨top, hplace⟩ := place_of_locate hs h1 h2 hl
  refine ⟨before, s, top, hs, h1, h2, ?_⟩
  have := congrArg Place.location hplace
  rwa [location_place] at this

/-- A name leads nowhere where what it named is gone. -/
theorem find_ne_of_gone {before : List String} {s : String} (hsteps : p.steps = before ++ [s]) (h1 : s ≠ ".")
    (h2 : s ≠ "..") (hsub : ∀ l e, d'.entry? l = some e → d.entry? l = some e) (hhere : d'.here = d.here)
    {l : Location} {e : Entry} (hl : d.locate false p = .ok (.found l e)) (hgone : d'.entry? l = none)
    (x : Location × Entry) : d'.find p ≠ .ok x := by
  intro hx
  have horigin : d'.origin p = d.origin p := by unfold origin; rw [hhere]
  obtain ⟨-, top, k, hbefore, hlast⟩ := locate_concat hsteps hl
  obtain ⟨-, top', k', hbefore', hlast'⟩ := locate_concat hsteps (locate_of_find hx)
  have hsame := walk_sub (Q := fun _ => True) (fun m e he _ => hsub m e he) trivial (fun _ => trivial) trivial
    hbefore'
  rw [horigin, hbefore] at hsame
  cases hsame
  have hplace := walk_single h1 h2 hlast
  have hat : l = top ++ [s] := by
    have := congrArg Place.location hplace
    rwa [location_place] at this
  subst hat
  have hstride : d'.stride true top [s] = .error .nameTooLong ∨
      d'.stride true top [s] = .ok (.at (.free (top ++ [s]))) := by
    rw [stride_name d' _ _ h1 h2, hgone]
    split
    · exact .inl rfl
    · exact .inr rfl
  rcases walksTo hlast' with hs | ⟨hs, -⟩ <;>
    rcases hstride with h | h <;> rw [h] at hs <;> cases hs

end Stowage.Disk
