/-
Disks on which everything is stored once and under names that paths can be spelled with. What lies below a
directory is then found by the names that lead to it from there.
-/
import Stowage.Proofs.Disk.Sound
import Stowage.Proofs.Path.Below

open Stowage.Path

namespace Stowage.Disk

/-- A name that something can be stored under. -/
structure IsStorable (n : String) : Prop extends IsName n where
  short : n.utf8ByteSize ≤ maxName
  no_nul : '\x00' ∉ n.toList

instance (n : String) : Decidable (IsStorable n) :=
  decidable_of_iff (n.toList ≠ [] ∧ n ≠ "." ∧ '/' ∉ n.toList ∧ n ≠ ".." ∧ n.utf8ByteSize ≤ maxName ∧
      '\x00' ∉ n.toList)
    ⟨fun ⟨h1, h2, h3, h4, h5, h6⟩ => ⟨⟨⟨h1, h2, h3⟩, h4⟩, h5, h6⟩, fun h =>
      ⟨h.ne_nil, h.ne_dot, h.no_slash, h.ne_up, h.short, h.no_nul⟩⟩

structure WellNamed (d : Disk) : Prop where
  stored : ∀ e ∈ d.entries, ∀ n ∈ e.1, IsStorable n
  here : ∀ n ∈ d.here, IsStorable n
  /-- Nothing is stored twice. -/
  once : (d.entries.map Prod.fst).Nodup

variable {d : Disk}

namespace WellNamed

theorem spelled (hn : d.WellNamed) : Spelled d.here := fun n h => (hn.here n h).toIsPiece

theorem storable (hn : d.WellNamed) {loc : Location} {e : Entry} (h : d.entry? loc = some e) :
    ∀ n ∈ loc, IsStorable n := by
  by_cases hl : loc = []
  · subst hl
    exact fun n h => absurd h List.not_mem_nil
  · exact hn.stored _ (mem_entries hl h)

theorem entry?_of_mem (hn : d.WellNamed) {loc : Location} {e : Entry} (hl : loc ≠ [])
    (h : (loc, e) ∈ d.entries) : d.entry? loc = some e := by
  have honce := hn.once
  unfold entry?
  rw [if_neg hl]
  generalize d.entries = entries at h honce
  induction entries with
  | nil => cases h
  | cons x rest ih =>
    obtain ⟨l, y⟩ := x
    rw [List.map_cons, List.nodup_cons] at honce
    rw [lookup_cons]
    rcases List.mem_cons.1 h with he | h
    · cases he
      rw [if_pos rfl]
    · rw [if_neg, ih h honce.2]
      intro he
      exact honce.1 (List.mem_map.2 ⟨(loc, e), h, he⟩)

theorem mem_below (hn : d.WellNamed) {loc l : Location} {e : Entry} (h : (l, e) ∈ d.below loc) :
    ∃ names, names ≠ [] ∧ l = loc ++ names ∧ (∀ n ∈ names, IsStorable n) ∧
      d.entry? (loc ++ names) = some e := by
  unfold below at h
  obtain ⟨hmem, hbelow⟩ := List.mem_filter.1 h
  simp only [Bool.and_eq_true, List.isPrefixOf_iff_prefix, decide_eq_true_eq] at hbelow
  obtain ⟨⟨names, rfl⟩, hne⟩ := hbelow
  have hnames : names ≠ [] := fun h => hne (by rw [h, List.append_nil])
  exact ⟨names, hnames, rfl, fun n hm => hn.stored _ hmem n (List.mem_append_right _ hm),
    hn.entry?_of_mem (by simp [hnames]) hmem⟩

/-- The directories of a disk are spelled with names. -/
theorem of_mem_directories (hn : d.WellNamed) {p : Path} (h : p ∈ d.directories) :
    ∃ names, (∀ n ∈ names, IsStorable n) ∧ p = ofLocation names := by
  unfold directories at h
  obtain ⟨e, he, hp⟩ := List.mem_flatMap.1 h
  obtain ⟨upper, hupper, rfl⟩ :=
    mem_ancestors_ofLocation (fun n hm => (hn.stored e he n hm).toIsPiece) hp
  exact ⟨upper, fun n hm => hn.stored e he n (hupper.subset hm), rfl⟩

/-- The names in a directory are names. -/
theorem mem_names (hn : d.WellNamed) {loc : Location} {n : String} (h : n ∈ d.names loc) :
    IsStorable n := by
  unfold names at h
  obtain ⟨⟨l, e⟩, hb, hl⟩ := List.mem_filterMap.1 h
  obtain ⟨names, -, rfl, hnames, -⟩ := hn.mem_below hb
  rw [List.drop_left] at hl
  split at hl
  · rename_i m
    cases hl
    exact hnames n (by simp)
  · cases hl

end WellNamed

/-! ## Walking along names -/

section
variable (hd : d.Sound) {followLast : Bool} {loc : Location} {names : List String}
include hd

/-- Names lead to what is stored below a directory, unless it is a link that is to be followed. -/
theorem stride_names (hnames : ∀ n ∈ names, IsStorable n) {e : Entry}
    (he : d.entry? (loc ++ names) = some e)
    (hlink : followLast = false ∨ ∀ t, e ≠ .link t) :
    d.stride followLast loc names = .ok (.at (.found (loc ++ names) e)) ∨ names = [] := by
  induction names generalizing loc with
  | nil => exact .inr rfl
  | cons n rest ih =>
    left
    have hn := hnames n (by simp)
    by_cases hr : rest = []
    · subst hr
      rw [stride_single hn.ne_dot hn.ne_up (Nat.not_lt.2 hn.short), place_of_some he]
      exact hlink.imp id fun h t ht => h t (Option.some.inj (he.symm.trans ht))
    · rw [List.append_cons] at he ⊢
      have hdir : d.entry? (loc ++ [n]) = some .directory := hd.directory_of_append hr he
      rw [stride_name d _ _ hn.ne_dot hn.ne_up, if_neg (Nat.not_lt.2 hn.short), hdir]
      exact (ih (fun m hm => hnames m (by simp [hm])) he).resolve_right hr

omit hd in
/-- After steps that lead to a directory, more steps lead on from there. -/
theorem stride_append {steps : List String} {stop : Stop} (hne : names ≠ [])
    (h : d.stride true loc steps = .ok stop) :
    (∀ l, stop = .at (.found l .directory) →
      d.stride followLast loc (steps ++ names) = d.stride followLast l names) ∧
    ∀ l t rest, stop = .link l t rest →
      d.stride followLast loc (steps ++ names) = .ok (.link l t (rest ++ names)) := by
  induction steps generalizing loc with
  | nil =>
    rw [stride] at h
    cases h
    exact ⟨fun l hl => (by cases hl; rfl), fun _ _ _ hl => (by cases hl)⟩
  | cons s rest ih =>
    rw [List.cons_append]
    by_cases h1 : s = "."
    · subst h1; rw [stride] at h ⊢; exact ih h
    by_cases h2 : s = ".."
    · subst h2; rw [stride] at h ⊢; exact ih h
    rw [stride_name d _ _ h1 h2] at h ⊢
    split at h
    · cases h
    · rename_i hlong
      rw [if_neg hlong]
      split at h
      · split at h <;> cases h
        exact ⟨fun _ hl => (by cases hl), fun _ _ _ hl => (by cases hl)⟩
      · rename_i he
        exact ih h
      · split at h <;> cases h
        exact ⟨fun _ hl => (by cases hl), fun _ _ _ hl => (by cases hl)⟩
      · rw [if_neg (by simp)] at h
        cases h
        refine ⟨fun _ hl => (by cases hl), fun l t r hl => ?_⟩
        cases hl
        exact if_neg fun h => hne (List.append_eq_nil_iff.1 h.1).2

omit hd in
theorem walk_append {links : Nat} {steps : List String} {l : Location} {q : Place} (hne : names ≠ [])
    (h : d.walk true links loc steps = .ok (.found l .directory))
    (hq : d.stride followLast l names = .ok (.at q)) :
    d.walk followLast links loc (steps ++ names) = .ok q := by
  induction links generalizing loc steps with
  | zero =>
    unfold walk at h ⊢
    split at h
    · cases h
    · rename_i hs
      cases h
      rw [(stride_append hne hs).1 l rfl, hq]
    · cases h
  | succ n ih =>
    unfold walk at h ⊢
    split at h
    · cases h
    · rename_i hs
      cases h
      rw [(stride_append hne hs).1 l rfl, hq]
    · rename_i hs
      rw [(stride_append hne hs).2 _ _ _ rfl]
      show d.walk followLast n _ (_ ++ (_ ++ names)) = _
      rw [← List.append_assoc]
      exact ih h

omit hd in
theorem checked_extend {p : Path} (hnames : ∀ n ∈ names, IsStorable n) (h : checked p = .ok ()) :
    checked (p.extend names) = .ok () := by
  induction names using List.reverseRecOn with
  | nil => exact h
  | append_singleton names n ih =>
    have hn := hnames n (by simp)
    have hchecked := ih fun m hm => hnames m (by simp [hm])
    rw [extend_concat]
    have hnul : (p.extend names / n).text.toList.contains '\x00' = false := by
      rw [Bool.eq_false_iff, ne_eq, contains_iff_moves _ (by decide) (by decide),
        moves_join _ hn.toIsPiece]
      rintro ⟨s, hs, hc⟩
      rcases List.mem_append.1 hs with hs | hs
      · have hno : (p.extend names).text.toList.contains '\x00' = true :=
          (contains_iff_moves _ (by decide) (by decide)).2 ⟨s, hs, hc⟩
        unfold checked at hchecked
        rw [if_pos hno] at hchecked
        cases hchecked
      · rw [List.mem_singleton.1 hs] at hc
        exact hn.no_nul hc
    have hempty : (p.extend names / n).text.isEmpty = false := by
      rw [Bool.eq_false_iff, ne_eq, String.isEmpty_iff, ← String.toList_inj]
      exact toList_join_ne_nil _ hn.toIsPiece
    unfold checked
    rw [hnul, hempty]
    rfl

omit hd in
/-- Where a path leads to a directory, its pieces do: a separator at its end asks for the directory that is there
anyway. -/
theorem walk_of_locate {p : Path} (h : d.locate true p = .ok (.found loc .directory)) :
    checked p = .ok () ∧ d.walk true maxLinks (d.origin p) p.pieces = .ok (.found loc .directory) := by
  rw [locate_eq] at h
  rcases hc : checked p with f | u
  · rw [hc] at h; cases h
  rw [hc] at h
  change d.walk true maxLinks (d.origin p) p.steps = _ at h
  refine ⟨rfl, ?_⟩
  rw [steps_eq] at h
  split at h
  · rw [walk_append_dot] at h
    rcases hw : d.walk true maxLinks (d.origin p) p.pieces with f | place
    · rw [hw] at h; cases h
    · rw [hw] at h
      rw [Place.entered_eq_directory.1 h]
  · exact h

/-- What is stored below a directory is found by its names from there. -/
theorem locate_extend {p : Path} (hp : d.locate true p = .ok (.found loc .directory))
    (hne : names ≠ []) (hnames : ∀ n ∈ names, IsStorable n) {e : Entry}
    (he : d.entry? (loc ++ names) = some e) (hlink : followLast = false ∨ ∀ t, e ≠ .link t) :
    d.locate followLast (p.extend names) = .ok (.found (loc ++ names) e) := by
  have hpieces : ∀ n ∈ names, IsPiece n := fun n hn => (hnames n hn).toIsPiece
  obtain ⟨hcheck, hwalk⟩ := walk_of_locate hp
  have horigin : d.origin (p.extend names) = d.origin p := by
    unfold origin
    rw [isAbsolute_extend_eq p hpieces]
  rw [locate_eq, checked_extend hnames hcheck, horigin, steps_extend p hne hpieces]
  exact walk_append hne hwalk ((stride_names hd hnames he hlink).resolve_right hne)

theorem typeOf_extend {p : Path} (hp : d.locate true p = .ok (.found loc .directory))
    (hne : names ≠ []) (hnames : ∀ n ∈ names, IsStorable n) {e : Entry}
    (he : d.entry? (loc ++ names) = some e) : d.typeOf (p.extend names) = .ok e.type := by
  unfold typeOf
  rw [locate_extend hd hp hne hnames he (.inl rfl)]
  rfl

end

/-- A name in a directory leads to what there is, a link that is not to be followed included. -/
theorem locate_child {d : Disk} {p : Path} {top : Location} {n : String} (hn : IsStorable n)
    (hp : d.locate true p = .ok (.found top .directory)) :
    d.locate false (p / n) = .ok (d.place (top ++ [n])) := by
  obtain ⟨hcheck, hwalk⟩ := walk_of_locate hp
  have hnames : ∀ m ∈ [n], IsStorable m := fun m hm => List.mem_singleton.1 hm ▸ hn
  have horigin : d.origin (p.extend [n]) = d.origin p := by
    unfold origin
    rw [isAbsolute_extend_eq p fun m hm => (hnames m hm).toIsPiece]
  have hstride : d.stride false top [n] = .ok (.at (d.place (top ++ [n]))) :=
    stride_single hn.ne_dot hn.ne_up (Nat.not_lt.2 hn.short) (.inl rfl)
  show d.locate false (p.extend [n]) = _
  rw [locate_eq, checked_extend hnames hcheck, horigin,
    steps_extend p (by simp) fun m hm => (hnames m hm).toIsPiece]
  exact walk_append (by simp) hwalk hstride

section
variable {d : Disk} {followLast : Bool} {n : String}

/-- A last step is taken in a directory, or left over at a link before it. -/
theorem stride_concat {loc : Location} {steps : List String} {stop : Stop}
    (h : d.stride followLast loc (steps ++ [n]) = .ok stop) :
    (∃ l, d.stride true loc steps = .ok (.at (.found l .directory)) ∧ d.stride followLast l [n] = .ok stop) ∨
      ∃ l t rest, stop = .link l t (rest ++ [n]) ∧ d.stride true loc steps = .ok (.link l t rest) := by
  induction steps generalizing loc with
  | nil => exact .inl ⟨loc, rfl, h⟩
  | cons s rest ih =>
    rw [List.cons_append] at h
    by_cases h1 : s = "."
    · subst h1; rw [stride] at h ⊢; exact ih h
    by_cases h2 : s = ".."
    · subst h2; rw [stride] at h ⊢; exact ih h
    rw [stride_name d _ _ h1 h2] at h ⊢
    split at h
    · cases h
    · rename_i hlong
      rw [if_neg hlong]
      split at h
      · rw [if_neg (by simp)] at h; cases h
      · exact ih h
      · rw [if_neg (by simp)] at h; cases h
      · rename_i t _
        rw [if_neg (by simp)] at h ⊢
        cases h
        exact .inr ⟨loc, t, rest, rfl, rfl⟩

theorem walk_at {links : Nat} {loc : Location} {steps : List String} {place : Place}
    (h : d.stride followLast loc steps = .ok (.at place)) :
    d.walk followLast links loc steps = .ok place := by
  unfold walk
  rw [h]

theorem walk_link {links : Nat} {loc l : Location} {steps rest : List String} {target : String}
    (h : d.stride followLast loc steps = .ok (.link l target rest)) :
    d.walk followLast (links + 1) loc steps =
      d.walk followLast links (linkBase l target) ((⟨target⟩ : Path).steps ++ rest) := by
  rw [walk, h]

/-- How a walk comes to its end: from link to link, until the steps are taken. -/
inductive WalksTo (d : Disk) (followLast : Bool) (place : Place) : Nat → Location → List String → Prop
  | ends {links : Nat} {loc : Location} {steps : List String}
      (hs : d.stride followLast loc steps = .ok (.at place)) : WalksTo d followLast place links loc steps
  | link {links : Nat} {loc l : Location} {steps rest : List String} {target : String}
      (hs : d.stride followLast loc steps = .ok (.link l target rest))
      (hrest : WalksTo d followLast place links (linkBase l target) ((⟨target⟩ : Path).steps ++ rest)) :
      WalksTo d followLast place (links + 1) loc steps

theorem WalksTo.walk_eq {links : Nat} {loc : Location} {steps : List String} {place : Place}
    (h : WalksTo d followLast place links loc steps) : d.walk followLast links loc steps = .ok place := by
  induction h with
  | ends hs => exact walk_at hs
  | link hs _ ih => exact (walk_link hs).trans ih

theorem walksTo {links : Nat} {loc : Location} {steps : List String} {place : Place}
    (h : d.walk followLast links loc steps = .ok place) : WalksTo d followLast place links loc steps := by
  induction links generalizing loc steps with
  | zero =>
    unfold walk at h
    split at h
    · cases h
    · rename_i hs
      cases h
      exact .ends hs
    · cases h
  | succ links ih =>
    unfold walk at h
    split at h
    · cases h
    · rename_i hs
      cases h
      exact .ends hs
    · rename_i hs
      exact .link hs (ih h)

/-- A walk comes to a directory before its last step. -/
theorem walk_concat {links : Nat} {loc : Location} {steps : List String} {place : Place}
    (h : d.walk followLast links loc (steps ++ [n]) = .ok place) :
    ∃ l k, d.walk true links loc steps = .ok (.found l .directory) ∧
      d.walk followLast k l [n] = .ok place := by
  generalize hall : steps ++ [n] = all at h
  replace h := walksTo h
  induction h generalizing steps with
  | @ends links _ _ hs =>
    subst hall
    rcases stride_concat hs with ⟨l, hl, hn⟩ | ⟨_, _, _, hstop, -⟩
    · exact ⟨l, links, walk_at hl, walk_at hn⟩
    · cases hstop
  | @link links _ _ _ _ _ hs hrest ih =>
    subst hall
    rcases stride_concat hs with ⟨l', hl, hn⟩ | ⟨l', t', rest', hstop, hl⟩
    · exact ⟨l', links + 1, walk_at hl, (walk_link hn).trans hrest.walk_eq⟩
    · cases hstop
      rw [walk_link hl]
      exact ih (List.append_assoc ..)

theorem short_of_walk {links : Nat} {loc : Location} {place : Place} (h1 : n ≠ ".") (h2 : n ≠ "..")
    (h : d.walk followLast links loc [n] = .ok place) : ¬ maxName < n.utf8ByteSize := by
  intro hlong
  unfold walk at h
  rw [stride_name d _ _ h1 h2, if_pos hlong] at h
  cases h

/-- A last step that is not to be followed leads to what there is. -/
theorem walk_single {links : Nat} {loc : Location} {place : Place} (h1 : n ≠ ".") (h2 : n ≠ "..")
    (h : d.walk false links loc [n] = .ok place) : place = d.place (loc ++ [n]) := by
  rw [walk_at (stride_single h1 h2 (short_of_walk h1 h2 h) (.inl rfl))] at h
  exact (Except.ok.inj h).symm

/-- What a path with a name at its end leads to lies in the directory that the steps before lead to. -/
theorem locate_concat {p : Path} {before : List String} {place : Place} (hsteps : p.steps = before ++ [n])
    (h : d.locate followLast p = .ok place) : checked p = .ok () ∧ ∃ l k,
      d.walk true maxLinks (d.origin p) before = .ok (.found l .directory) ∧
      d.walk followLast k l [n] = .ok place := by
  rw [locate_eq, hsteps] at h
  rcases hc : checked p with e | u
  · rw [hc] at h; cases h
  · rw [hc] at h
    exact ⟨rfl, walk_concat h⟩

/-- A path with a name at its end names what there is under that name. -/
theorem place_of_locate {p : Path} {before : List String} {place : Place} (hsteps : p.steps = before ++ [n])
    (h1 : n ≠ ".") (h2 : n ≠ "..") (h : d.locate false p = .ok place) :
    ∃ top, place = d.place (top ++ [n]) := by
  obtain ⟨-, top, k, -, hlast⟩ := locate_concat hsteps h
  exact ⟨top, walk_single h1 h2 hlast⟩

/-- What a name leads to from a path, the path is a directory. -/
theorem exists_directory_of_locate (hn : IsPiece n) {p : Path} (hp : checked p = .ok ()) {place : Place}
    (h : d.locate followLast (p / n) = .ok place) : ∃ top, d.locate true p = .ok (.found top .directory) := by
  have horigin : d.origin (p / n) = d.origin p := by
    unfold origin
    rw [isAbsolute_join p hn]
  rw [locate_eq, horigin, steps_join p hn] at h
  rcases hc : checked (p / n) with e | u
  · rw [hc] at h; cases h
  rw [hc] at h
  obtain ⟨top, -, hwalk, -⟩ := walk_concat h
  refine ⟨top, ?_⟩
  rw [locate_eq, hp, steps_eq]
  show d.walk true maxLinks (d.origin p) _ = _
  split
  · rw [walk_append_dot, hwalk]; rfl
  · exact hwalk

end

theorem locate_of_find {p : Path} {loc : Location} {e : Entry} (h : d.find p = .ok (loc, e)) :
    d.locate true p = .ok (.found loc e) := by
  unfold find at h
  rcases hl : d.locate true p with f | ⟨l, e'⟩ | l
  · rw [hl] at h; cases h
  · rw [hl] at h
    cases h; rfl
  · rw [hl] at h; cases h

/-! ## Trees -/

/-- A tree holds the path itself and, if that leads to a directory, what is stored below it. -/
theorem mem_tree_cases (hn : d.WellNamed) {p q : Path} {type : EntryType}
    {entries : List (Path × EntryType)} (h : d.tree p = .ok entries) (hq : (q, type) ∈ entries) :
    (q = p ∧ d.typeOf p = .ok type) ∨
      ∃ top names e, d.locate true p = .ok (.found top .directory) ∧ names ≠ [] ∧ (∀ n ∈ names, IsStorable n) ∧
        d.entry? (top ++ names) = some e ∧ e.type = type ∧ q = p.extend names := by
  unfold tree at h
  rcases ht : d.typeOf p with e | t
  · rw [ht] at h; cases h
  rw [ht] at h
  rcases hf : d.find p with e | ⟨loc, e⟩
  · rw [hf] at h; cases h
  rw [hf] at h
  change (if e.type ≠ .directory then Except.ok [(p, t)] else _) = _ at h
  -- only in a directory there is more than the path itself
  by_cases hdir : e.type ≠ .directory
  · rw [if_pos hdir] at h
    cases h
    cases List.mem_singleton.1 hq
    exact .inl ⟨rfl, rfl⟩
  · have hdir := not_not.1 hdir
    have he : e = .directory := by
      rcases e with _ | _ | _
      · cases hdir
      · cases hdir
      · rfl
    subst he
    cases h
    rcases List.mem_cons.1 hq with hq | hq
    · cases hq
      exact .inl ⟨rfl, rfl⟩
    · obtain ⟨⟨l, e⟩, hmem, hl⟩ := List.mem_map.1 hq
      obtain ⟨names, hne, rfl, hnames, he⟩ := hn.mem_below hmem
      change (((loc ++ names).drop loc.length).foldl (fun (q : Path) name => q / name) p, e.type) = _ at hl
      rw [List.drop_left] at hl
      cases hl
      exact .inr ⟨loc, names, e, locate_of_find hf, hne, hnames, he, rfl, rfl⟩

/-- A tree holds the path itself and what is below it, of the type that its path names. -/
theorem mem_tree (hd : d.Sound) (hn : d.WellNamed) {p q : Path} {type : EntryType}
    {entries : List (Path × EntryType)} (h : d.tree p = .ok entries) (hq : (q, type) ∈ entries) :
    ∃ names, q = p.extend names ∧ (∀ n ∈ names, IsStorable n) ∧ d.typeOf q = .ok type := by
  obtain ⟨rfl, ht⟩ | ⟨top, names, e, hp, hne, hnames, he, rfl, rfl⟩ := mem_tree_cases hn h hq
  · exact ⟨[], rfl, fun _ h => absurd h List.not_mem_nil, ht⟩
  · exact ⟨names, rfl, hnames, typeOf_extend hd hp hne hnames he⟩

end Stowage.Disk
