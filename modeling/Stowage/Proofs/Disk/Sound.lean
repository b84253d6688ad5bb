/-
Disks on which everything lies in a directory. A walk on such a disk ends at what is stored where it ends,
and it ends at the same location on every disk that has the same directories and links.
-/
import Stowage.Proofs.Disk.Walk

open Stowage.Path

namespace Stowage.Disk

/-! ## What is stored after a change -/

theorem lookup_cons (m : Location) (e : Entry) (rest : List (Location × Entry)) (l : Location) :
    ((m, e) :: rest).lookup l = if l = m then some e else rest.lookup l := by
  rw [List.lookup_cons]
  by_cases h : l = m <;> simp [h, beq_eq_false_iff_ne.2]

theorem lookup_insert (loc : Location) (e : Entry) (entries : List (Location × Entry)) (l : Location) :
    (insert loc e entries).lookup l = if l = loc then some e else entries.lookup l := by
  induction entries with
  | nil => rw [insert, lookup_cons]
  | cons x rest ih =>
    obtain ⟨m, y⟩ := x
    unfold insert
    split
    · rename_i hm
      rw [lookup_cons, lookup_cons, hm]
      split <;> rfl
    · split
      · rw [lookup_cons]
      · rename_i hm _
        rw [lookup_cons, ih, lookup_cons]
        by_cases h : l = loc
        · rw [if_pos h, if_pos h, if_neg (fun he => hm (he.symm.trans h))]
        · rw [if_neg h, if_neg h]

theorem mem_insert {loc : Location} {e : Entry} {entries : List (Location × Entry)}
    {x : Location × Entry} (h : x ∈ insert loc e entries) : x = (loc, e) ∨ x ∈ entries := by
  induction entries with
  | nil => exact .inl (List.mem_singleton.1 h)
  | cons y rest ih =>
    obtain ⟨m, z⟩ := y
    unfold insert at h
    split at h
    · exact (List.mem_cons.1 h).imp_right (List.mem_cons_of_mem _)
    · split at h
      · exact List.mem_cons.1 h
      · rcases List.mem_cons.1 h with rfl | h
        · exact .inr List.mem_cons_self
        · exact (ih h).imp_right (List.mem_cons_of_mem _)

theorem entry?_put (d : Disk) {loc : Location} (hloc : loc ≠ []) (e : Entry) (l : Location) :
    entry? (d.put loc e) l = if l = loc then some e else d.entry? l := by
  unfold entry? put
  rw [lookup_insert]
  by_cases h : l = []
  · subst h
    rw [if_pos rfl, if_pos rfl, if_neg (Ne.symm hloc)]
  · rw [if_neg h, if_neg h]

theorem lookup_filter (keep : Location → Bool) (entries : List (Location × Entry)) (l : Location) :
    (entries.filter fun e => keep e.1).lookup l = if keep l then entries.lookup l else none := by
  induction entries with
  | nil => simp
  | cons x rest ih =>
    obtain ⟨m, y⟩ := x
    by_cases hm : keep m = true
    · rw [List.filter_cons_of_pos (by simpa using hm), lookup_cons, ih, lookup_cons]
      by_cases h : l = m
      · rw [h, if_pos rfl, if_pos rfl, if_pos hm]
      · rw [if_neg h, if_neg h]
    · rw [List.filter_cons_of_neg (by simpa using hm), ih, lookup_cons]
      by_cases h : l = m
      · rw [h, if_neg hm, if_neg hm]
      · rw [if_neg h]

theorem entry?_erase (d : Disk) {l : Location} (hl : l ≠ []) (loc : Location) :
    entry? (d.erase loc) l = if loc.isPrefixOf l then none else d.entry? l := by
  unfold entry? erase
  rw [if_neg hl, if_neg hl, lookup_filter (fun m => !loc.isPrefixOf m)]
  by_cases h : loc.isPrefixOf l = true <;> simp [h]

/-! ## Sound disks -/

structure Sound (d : Disk) : Prop where
  /-- What is stored lies in a directory. -/
  inside : ∀ e ∈ d.entries, d.entry? e.1.dropLast = some .directory
  /-- Relative paths start from a directory. -/
  here : d.entry? d.here = some .directory

variable {d d' : Disk}

theorem ne_nil_of_not_directory {l : Location} (h : d.entry? l ≠ some .directory) : l ≠ [] := by
  rintro rfl
  exact h rfl

theorem mem_entries {l : Location} (hl : l ≠ []) {e : Entry} (h : d.entry? l = some e) :
    (l, e) ∈ d.entries := by
  unfold entry? at h
  rw [if_neg hl] at h
  obtain ⟨before, after, he, -⟩ := List.lookup_eq_some_iff.1 h
  rw [he]
  exact List.mem_append_right _ (List.mem_cons_self ..)

namespace Sound

theorem above (hd : d.Sound) {l : Location} {e : Entry} (h : d.entry? l = some e) :
    d.entry? l.dropLast = some .directory := by
  by_cases hl : l = []
  · subst hl; rfl
  · exact hd.inside _ (mem_entries hl h)

theorem directory_of_append (hd : d.Sound) {l m : Location} (hm : m ≠ []) {e : Entry}
    (h : d.entry? (l ++ m) = some e) : d.entry? l = some .directory := by
  induction m using List.reverseRecOn generalizing e with
  | nil => exact absurd rfl hm
  | append_singleton m n ih =>
    have hup := hd.above h
    rw [← List.append_assoc, List.dropLast_concat] at hup
    by_cases hn : m = []
    · rwa [hn, List.append_nil] at hup
    · exact ih hn hup

/-- What is stored above something that is no link is none either. -/
theorem entry?_of_prefix (hd : d.Sound) {upper loc : Location} (hupper : upper <+: loc) {e : Entry}
    (h : d.entry? loc = some e) (hlink : ∀ t, e ≠ .link t) : ∃ e, d.entry? upper = some e ∧ ∀ t, e ≠ .link t := by
  obtain ⟨rest, rfl⟩ := hupper
  by_cases hrest : rest = []
  · rw [hrest, List.append_nil] at h
    exact ⟨e, h, hlink⟩
  · exact ⟨.directory, hd.directory_of_append hrest h, nofun⟩

/-- Nothing is stored below what is no directory. -/
theorem entry?_erase (hd : d.Sound) {loc : Location} (hloc : d.entry? loc ≠ some .directory)
    (l : Location) : entry? (d.erase loc) l = if l = loc then none else d.entry? l := by
  by_cases hl : l = []
  · subst hl
    rw [if_neg (ne_nil_of_not_directory hloc).symm]; rfl
  · rw [Disk.entry?_erase d hl]
    by_cases h : loc.isPrefixOf l = true
    · rw [if_pos h]
      obtain ⟨m, rfl⟩ := List.isPrefixOf_iff_prefix.1 h
      by_cases hm : m = []
      · rw [hm, List.append_nil, if_pos rfl]
      · have hnone : d.entry? (loc ++ m) = none :=
          Option.eq_none_iff_forall_ne_some.2 fun e he => hloc (hd.directory_of_append hm he)
        rw [hnone, ite_self]
    · have hne : l ≠ loc := by
        rintro rfl
        exact h (List.isPrefixOf_iff_prefix.2 List.prefix_rfl)
      rw [if_neg h, if_neg hne]

theorem put (hd : d.Sound) {loc : Location} (hne : loc ≠ [])
    (hup : d.entry? loc.dropLast = some .directory) {e : Entry}
    (hdir : d.entry? loc = some .directory → e = .directory) : (d.put loc e).Sound := by
  have hkeep : ∀ l, d.entry? l = some .directory → entry? (d.put loc e) l = some .directory := by
    intro l hl
    rw [entry?_put d hne]
    split
    · rename_i h
      rw [hdir (h ▸ hl)]
    · exact hl
  refine ⟨fun x hx => hkeep _ ?_, hkeep _ hd.here⟩
  rcases mem_insert hx with rfl | hx
  · exact hup
  · exact hd.inside x hx

theorem erase (hd : d.Sound) {loc : Location} (hloc : d.entry? loc ≠ some .directory) :
    (d.erase loc).Sound := by
  have hkeep : ∀ l, d.entry? l = some .directory → entry? (d.erase loc) l = some .directory := by
    intro l hl
    rw [hd.entry?_erase hloc, if_neg, hl]
    rintro rfl
    exact hloc hl
  exact ⟨fun x hx => hkeep _ (hd.inside x (List.mem_of_mem_filter hx)), hkeep _ hd.here⟩

end Sound

/-! ## Where walks end -/

def Place.location : Place → Location
  | .found loc _ => loc
  | .free loc => loc

/-- What there is at a location. -/
def place (d : Disk) (loc : Location) : Place :=
  match d.entry? loc with
  | some e => .found loc e
  | none => .free loc

@[simp] theorem location_place (loc : Location) : (d.place loc).location = loc := by
  unfold place
  split <;> rfl

theorem place_of_some {loc : Location} {e : Entry} (h : d.entry? loc = some e) :
    d.place loc = .found loc e := by
  unfold place; rw [h]

theorem place_of_none {loc : Location} (h : d.entry? loc = none) : d.place loc = .free loc := by
  unfold place; rw [h]

/-- The stop is what there is on the disk, in a directory. -/
def Stop.Real (d : Disk) : Stop → Prop
  | .at p => p = d.place p.location ∧ d.entry? p.location.dropLast = some .directory
  | .link loc _ _ => d.entry? loc = some .directory

section
variable (hd : d.Sound) {followLast : Bool} {links : Nat} {loc : Location} {steps : List String}
include hd

theorem real_stride (hloc : d.entry? loc = some .directory) {stop : Stop}
    (h : d.stride followLast loc steps = .ok stop) : stop.Real d := by
  induction steps generalizing loc with
  | nil =>
    rw [stride] at h
    cases h
    exact ⟨(place_of_some hloc).symm, hd.above hloc⟩
  | cons s rest ih =>
    by_cases h1 : s = "."
    · subst h1; rw [stride] at h; exact ih hloc h
    by_cases h2 : s = ".."
    · subst h2; rw [stride] at h; exact ih (hd.above hloc) h
    have hup : d.entry? (loc ++ [s]).dropLast = some .directory := by
      rw [List.dropLast_concat]; exact hloc
    rw [stride_name d _ _ h1 h2] at h
    split at h
    · cases h
    · split at h
      · rename_i he
        split at h <;> cases h
        exact ⟨(place_of_none he).symm, hup⟩
      · rename_i he
        exact ih he h
      · rename_i he
        split at h <;> cases h
        exact ⟨(place_of_some he).symm, hup⟩
      · rename_i he
        split at h <;> cases h
        · exact ⟨(place_of_some he).symm, hup⟩
        · exact hloc

omit hd in
theorem entry?_linkBase (hloc : d.entry? loc = some .directory) (target : String) :
    d.entry? (linkBase loc target) = some .directory := by
  unfold linkBase
  split
  · rfl
  · exact hloc

theorem real_walk (hloc : d.entry? loc = some .directory) {p : Place}
    (h : d.walk followLast links loc steps = .ok p) : (Stop.at p).Real d := by
  induction links generalizing loc steps with
  | zero =>
    unfold walk at h
    split at h
    · cases h
    · rename_i hs
      cases h
      exact real_stride hd hloc hs
    · cases h
  | succ n ih =>
    unfold walk at h
    split at h
    · cases h
    · rename_i hs
      cases h
      exact real_stride hd hloc hs
    · rename_i hs
      exact ih (entry?_linkBase (real_stride hd hloc hs) _) h

theorem entry?_origin (p : Path) : d.entry? (d.origin p) = some .directory := by
  unfold origin
  split
  · rfl
  · exact hd.here

/-- A path leads to what there is at the location that it leads to, and this lies in a directory. -/
theorem real_locate {path : Path} {p : Place} (h : d.locate followLast path = .ok p) :
    p = d.place p.location ∧ d.entry? p.location.dropLast = some .directory := by
  rw [locate_eq] at h
  rcases hc : checked path with e | u
  · rw [hc] at h; cases h
  · rw [hc] at h
    exact real_walk hd (entry?_origin hd path) h

theorem entry?_of_locate {path : Path} {l : Location} {e : Entry}
    (h : d.locate followLast path = .ok (.found l e)) : d.entry? l = some e := by
  have hplace : Place.found l e = d.place l := (real_locate hd h).1
  rcases he : d.entry? l with _ | e'
  · rw [place_of_none he] at hplace; cases hplace
  · rw [place_of_some he] at hplace; cases hplace; rfl

theorem entry?_of_locate_free {path : Path} {l : Location}
    (h : d.locate followLast path = .ok (.free l)) : d.entry? l = none := by
  have hplace : Place.free l = d.place l := (real_locate hd h).1
  rcases he : d.entry? l with _ | e'
  · rfl
  · rw [place_of_some he] at hplace; cases hplace

end

/-! ## Links at the end -/

theorem stride_true {loc : Location} {steps : List String}
    (h : ∀ l t, d.stride false loc steps ≠ .ok (.at (.found l (.link t)))) :
    d.stride true loc steps = d.stride false loc steps := by
  induction steps generalizing loc with
  | nil => rfl
  | cons s rest ih =>
    by_cases h1 : s = "."
    · subst h1; rw [stride] at h; rw [stride, stride]; exact ih h
    by_cases h2 : s = ".."
    · subst h2; rw [stride] at h; rw [stride, stride]; exact ih h
    rw [stride_name d _ _ h1 h2] at h
    rw [stride_name d _ _ h1 h2, stride_name d _ _ h1 h2]
    split
    · rfl
    · rename_i hlong
      rw [if_neg hlong] at h
      split
      · rfl
      · rename_i he
        rw [he] at h
        exact ih h
      · rfl
      · rename_i t he
        rw [he] at h
        rw [if_neg (by simp), if_neg]
        rintro ⟨rfl, -⟩
        exact h (loc ++ [s]) t rfl

theorem walk_true {links : Nat} {loc : Location} {steps : List String}
    (h : ∀ l t, d.walk false links loc steps ≠ .ok (.found l (.link t))) :
    d.walk true links loc steps = d.walk false links loc steps := by
  induction links generalizing loc steps with
  | zero =>
    have hs : d.stride true loc steps = d.stride false loc steps := by
      refine stride_true fun l t hlink => h l t ?_
      unfold walk
      rw [hlink]
    unfold walk
    rw [hs]
  | succ n ih =>
    have hs : d.stride true loc steps = d.stride false loc steps := by
      refine stride_true fun l t hlink => h l t ?_
      unfold walk
      rw [hlink]
    unfold walk at h ⊢
    rw [hs]
    rcases hstop : d.stride false loc steps with e | p | ⟨l, t, rest⟩
    · rfl
    · rfl
    · rw [hstop] at h
      exact ih h

/-- Following the last link makes no difference for a path that names no link. -/
theorem locate_true {path : Path} (h : d.isLink path = false) :
    d.locate true path = d.locate false path := by
  have hno : ∀ l t, d.locate false path ≠ .ok (.found l (.link t)) := by
    intro l t hlink
    unfold isLink typeOf at h
    rw [hlink] at h
    cases h
  rw [locate_eq] at hno
  rw [locate_eq, locate_eq]
  rcases hc : checked path with e | u
  · rfl
  · rw [hc] at hno
    exact walk_true hno

/-! ## The name of a place -/

/-- What steps lead to is a directory or has the name of the last step, which is neither `.` nor `..`. -/
def Named (steps : List String) (p : Place) : Prop :=
  (∃ l, p = .found l .directory) ∨
    ∃ l s, steps.getLast? = some s ∧ s ≠ "." ∧ s ≠ ".." ∧ p.location = l ++ [s]

theorem Named.cons {s : String} {steps : List String} {p : Place} (h : Named steps p) :
    Named (s :: steps) p := by
  rcases h with h | ⟨l, n, hn, h⟩
  · exact .inl h
  · refine .inr ⟨l, n, ?_, h⟩
    rw [List.getLast?_cons, hn]; rfl

/-- A stop at a place that is named by the last step, or at a link with steps left over. -/
def Stop.Named (steps : List String) : Stop → Prop
  | .at p => Disk.Named steps p
  | .link _ _ rest => rest ≠ [] ∧ rest <:+ steps

theorem named_stride {loc : Location} {steps : List String} {stop : Stop}
    (h : d.stride false loc steps = .ok stop) : stop.Named steps := by
  induction steps generalizing loc with
  | nil =>
    rw [stride] at h
    cases h
    exact .inl ⟨loc, rfl⟩
  | cons s rest ih =>
    have later : ∀ {l : Location}, d.stride false l rest = .ok stop → stop.Named (s :: rest) := by
      intro l h
      have hrest := ih h
      rcases stop with p | ⟨l, t, r⟩
      · exact Named.cons hrest
      · exact ⟨hrest.1, hrest.2.trans (List.suffix_cons ..)⟩
    by_cases h1 : s = "."
    · subst h1; rw [stride] at h; exact later h
    by_cases h2 : s = ".."
    · subst h2; rw [stride] at h; exact later h
    have hlast : ∀ p : Place, p.location = loc ++ [s] → Named [s] p := fun p hp =>
      .inr ⟨loc, s, rfl, h1, h2, hp⟩
    rw [stride_name d _ _ h1 h2] at h
    split at h
    · cases h
    · split at h
      · split at h <;> cases h
        rename_i hr
        rw [hr]
        exact hlast _ rfl
      · exact later h
      · split at h <;> cases h
        rename_i hr
        rw [hr]
        exact hlast _ rfl
      · split at h <;> cases h
        · rename_i hr
          rw [hr.1]
          exact hlast _ rfl
        · rename_i hr
          exact ⟨fun he => hr ⟨he, rfl⟩, List.suffix_cons ..⟩

theorem Named.of_suffix {rest steps : List String} {p : Place} (hne : rest ≠ [])
    (hsub : rest <:+ steps) {before : List String} (h : Named (before ++ rest) p) : Named steps p := by
  obtain ⟨m, rfl⟩ := hsub
  have hlast : ∀ m : List String, (m ++ rest).getLast? = rest.getLast? := fun m => by
    rw [List.getLast?_append, Option.or_of_isSome]
    simpa using hne
  unfold Named at h ⊢
  rwa [hlast] at h ⊢

theorem named_walk {links : Nat} {loc : Location} {steps : List String} {p : Place}
    (h : d.walk false links loc steps = .ok p) : Named steps p := by
  induction links generalizing loc steps with
  | zero =>
    unfold walk at h
    split at h
    · cases h
    · rename_i hs
      cases h
      exact named_stride hs
    · cases h
  | succ n ih =>
    unfold walk at h
    split at h
    · cases h
    · rename_i hs
      cases h
      exact named_stride hs
    · rename_i hs
      obtain ⟨hne, hsub⟩ := named_stride hs
      exact (ih h).of_suffix hne hsub

theorem named_locate {path : Path} {p : Place} (h : d.locate false path = .ok p) :
    Named path.steps p := by
  rw [locate_eq] at h
  rcases hc : checked path with e | u
  · rw [hc] at h; cases h
  · rw [hc] at h
    exact named_walk h

/-! ## The same way on another disk -/

/-- The directories and links of one disk are on another one, which has no more links. -/
structure Kept (d d' : Disk) : Prop where
  directory : ∀ l, d.entry? l = some .directory → d'.entry? l = some .directory
  link : ∀ l t, d'.entry? l = some (.link t) ↔ d.entry? l = some (.link t)
  here : d'.here = d.here

/-- The last step leads to what there is, unless it has to follow a link. -/
theorem stride_single {followLast : Bool} {loc : Location} {s : String} (h1 : s ≠ ".") (h2 : s ≠ "..")
    (hlong : ¬ maxName < s.utf8ByteSize)
    (hlink : followLast = false ∨ ∀ t, d.entry? (loc ++ [s]) ≠ some (.link t)) :
    d.stride followLast loc [s] = .ok (.at (d.place (loc ++ [s]))) := by
  rw [stride_name d _ _ h1 h2, if_neg hlong]
  rcases he : d.entry? (loc ++ [s]) with _ | (c | t | _)
  · rw [place_of_none he]; rfl
  · rw [place_of_some he]; rfl
  · rw [place_of_some he]
    rcases hlink with rfl | hno
    · rfl
    · exact absurd he (hno t)
  · rw [place_of_some he]; rfl

/-- The same stop on another disk. -/
def Stop.on (d : Disk) : Stop → Stop
  | .at p => .at (d.place p.location)
  | stop => stop

section
variable (hd : d.Sound) (hk : Kept d d') {followLast : Bool} {links : Nat} {loc : Location}
  {steps : List String}
include hd hk

theorem stride_kept (hloc : d.entry? loc = some .directory) {stop : Stop}
    (h : d.stride followLast loc steps = .ok stop) :
    d'.stride followLast loc steps = .ok (stop.on d') := by
  induction steps generalizing loc with
  | nil =>
    rw [stride] at h ⊢
    cases h
    exact congrArg _ (congrArg _ (place_of_some (hk.directory _ hloc)).symm)
  | cons s rest ih =>
    by_cases h1 : s = "."
    · subst h1; rw [stride] at h ⊢; exact ih hloc h
    by_cases h2 : s = ".."
    · subst h2; rw [stride] at h ⊢; exact ih (hd.above hloc) h
    rw [stride_name d _ _ h1 h2] at h
    split at h
    · cases h
    rename_i hlong
    -- what was no link at the end of the way may be anything but a link now
    have hend : (∀ t, d.entry? (loc ++ [s]) ≠ some (.link t)) →
        d'.stride followLast loc [s] = .ok (.at (d'.place (loc ++ [s]))) := fun hno =>
      stride_single h1 h2 hlong (.inr fun t ht => hno t ((hk.link _ t).1 ht))
    split at h
    · rename_i he
      split at h <;> cases h
      rename_i hr
      rw [hr]
      exact hend fun t ht => by rw [he] at ht; cases ht
    · rename_i he
      rw [stride_name d' _ _ h1 h2, if_neg hlong, hk.directory _ he]
      exact ih he h
    · rename_i he
      split at h <;> cases h
      rename_i hr
      rw [hr]
      exact hend fun t ht => by rw [he] at ht; cases ht
    · rename_i t he
      split at h
      · rename_i hr
        cases h
        rw [hr.1]
        exact stride_single h1 h2 hlong (.inl hr.2)
      · rename_i hr
        cases h
        rw [stride_name d' _ _ h1 h2, if_neg hlong, (hk.link _ t).2 he]
        exact if_neg hr

theorem walk_kept (hloc : d.entry? loc = some .directory) {p : Place}
    (h : d.walk followLast links loc steps = .ok p) :
    d'.walk followLast links loc steps = .ok (d'.place p.location) := by
  induction links generalizing loc steps with
  | zero =>
    unfold walk at h ⊢
    split at h
    · cases h
    · rename_i hs
      cases h
      rw [stride_kept hd hk hloc hs]; rfl
    · cases h
  | succ n ih =>
    unfold walk at h ⊢
    split at h
    · cases h
    · rename_i hs
      cases h
      rw [stride_kept hd hk hloc hs]; rfl
    · rename_i hs
      rw [stride_kept hd hk hloc hs]
      exact ih (entry?_linkBase (real_stride hd hloc hs) _) h

/-- A path leads to the same location. -/
theorem locate_kept {path : Path} {p : Place} (h : d.locate followLast path = .ok p) :
    d'.locate followLast path = .ok (d'.place p.location) := by
  rw [locate_eq] at h ⊢
  have ho : d'.origin path = d.origin path := by unfold origin; rw [hk.here]
  rw [ho]
  rcases hc : checked path with e | u
  · rw [hc] at h; cases h
  · rw [hc] at h
    exact walk_kept hd hk (entry?_origin hd path) h

end

/-! ## A file in place of a link -/

section
variable (hd : d.Sound) {followLast : Bool} {links : Nat} {loc onto : Location} {steps : List String}
  (hk : ∀ l, l ≠ onto → d.entry? l = some .directory ∨ (∃ t, d.entry? l = some (.link t)) →
    d'.entry? l = d.entry? l)
  (honto : d.entry? onto ≠ some .directory)
  {c : Content} (hc : d'.entry? onto = some (.file c))
include hd hk honto hc

/-- Where a file took the place of something, some steps lead to the same location, unless they need a link
that was there before. -/
theorem stride_over (hloc : d.entry? loc = some .directory) {stop : Stop}
    (h : d.stride false loc steps = .ok stop)
    (hend : ∀ p, stop = .at p → followLast = false ∨ ∀ t, d'.entry? p.location ≠ some (.link t)) :
    d'.stride followLast loc steps = .ok (stop.on d') ∨
      (∃ t, d.entry? onto = some (.link t)) ∧ ∃ e, d'.stride followLast loc steps = .error e := by
  induction steps generalizing loc with
  | nil =>
    rw [stride] at h ⊢
    cases h
    have hne : loc ≠ onto := fun he => honto (he ▸ hloc)
    have hloc' : d'.entry? loc = some .directory := (hk _ hne (.inl hloc)).trans hloc
    exact .inl (congrArg _ (congrArg _ (place_of_some hloc').symm))
  | cons s rest ih =>
    by_cases h1 : s = "."
    · subst h1; rw [stride] at h ⊢; exact ih hloc h
    by_cases h2 : s = ".."
    · subst h2; rw [stride] at h ⊢; exact ih (hd.above hloc) h
    rw [stride_name d _ _ h1 h2] at h
    split at h
    · cases h
    rename_i hlong
    have hlast : followLast = false ∨ (∀ t, d'.entry? (loc ++ [s]) ≠ some (.link t)) →
        d'.stride followLast loc [s] = .ok (.at (d'.place (loc ++ [s]))) :=
      stride_single h1 h2 hlong
    split at h
    · split at h <;> cases h
      rename_i hr
      rw [hr]
      exact .inl (hlast (hend _ rfl))
    · rename_i he
      have hne : loc ++ [s] ≠ onto := fun h => honto (h ▸ he)
      rw [stride_name d' _ _ h1 h2, if_neg hlong, hk _ hne (.inl he), he]
      exact ih he h
    · split at h <;> cases h
      rename_i hr
      rw [hr]
      exact .inl (hlast (hend _ rfl))
    · rename_i t he
      split at h
      · rename_i hr
        cases h
        rw [hr.1]
        exact .inl (hlast (hend _ rfl))
      · rename_i hr
        have hrest : rest ≠ [] := fun h => hr ⟨h, rfl⟩
        cases h
        rw [stride_name d' _ _ h1 h2, if_neg hlong]
        -- the way may lead through the very link that was replaced
        by_cases hin : loc ++ [s] = onto
        · refine .inr ⟨⟨t, hin ▸ he⟩, .notADirectory, ?_⟩
          rw [hin, hc]
          exact if_neg hrest
        · left
          rw [hk _ hin (.inr ⟨t, he⟩), he]
          exact if_neg fun h => hrest h.1

theorem walk_over (hloc : d.entry? loc = some .directory) {p : Place}
    (h : d.walk false links loc steps = .ok p)
    (hp : followLast = false ∨ ∀ t, d'.entry? p.location ≠ some (.link t)) :
    d'.walk followLast links loc steps = .ok (d'.place p.location) ∨
      (∃ t, d.entry? onto = some (.link t)) ∧ ∃ e, d'.walk followLast links loc steps = .error e := by
  have hat : ∀ {loc : Location} {steps : List String}, d.entry? loc = some .directory →
      d.stride false loc steps = .ok (.at p) →
      d'.stride followLast loc steps = .ok (.at (d'.place p.location)) ∨
        (∃ t, d.entry? onto = some (.link t)) ∧ ∃ e, d'.stride followLast loc steps = .error e :=
    fun hloc hs => stride_over hd hk honto hc hloc hs fun q hq => by
      cases hq
      exact hp
  induction links generalizing loc steps with
  | zero =>
    unfold walk at h ⊢
    split at h
    · cases h
    · rename_i hs
      cases h
      rcases hat hloc hs with he | ⟨ht, e, he⟩ <;> rw [he]
      · exact .inl rfl
      · exact .inr ⟨ht, e, rfl⟩
    · cases h
  | succ n ih =>
    unfold walk at h ⊢
    split at h
    · cases h
    · rename_i hs
      cases h
      rcases hat hloc hs with he | ⟨ht, e, he⟩ <;> rw [he]
      · exact .inl rfl
      · exact .inr ⟨ht, e, rfl⟩
    · rename_i hs
      rcases stride_over hd hk honto hc hloc hs (fun _ he => nomatch he) with he | ⟨ht, e, he⟩ <;>
        rw [he]
      · exact ih (entry?_linkBase (real_stride hd hloc hs) _) h
      · exact .inr ⟨ht, e, rfl⟩

theorem locate_over (hhere : d'.here = d.here) {path : Path} {p : Place}
    (h : d.locate false path = .ok p)
    (hp : followLast = false ∨ ∀ t, d'.entry? p.location ≠ some (.link t)) :
    d'.locate followLast path = .ok (d'.place p.location) ∨
      (∃ t, d.entry? onto = some (.link t)) ∧ ∃ e, d'.locate followLast path = .error e := by
  rw [locate_eq] at h ⊢
  have ho : d'.origin path = d.origin path := by unfold origin; rw [hhere]
  rw [ho]
  rcases hch : checked path with e | u
  · rw [hch] at h; cases h
  · rw [hch] at h
    exact walk_over hd hk honto hc (entry?_origin hd path) h hp

end

end Stowage.Disk
