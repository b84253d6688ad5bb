/-
Ways without links. A path whose names come by no link leads to the location that they spell, so where a path
leads elsewhere some of its names are the way to a link.
-/
import Stowage.Proofs.Disk.WellNamed
import Stowage.Proofs.Path.Joined

open Stowage.Path

namespace Stowage

namespace Disk

variable {d : Disk}

/-! ## Locations as paths -/

theorem stride_ne_link {loc : Location} {steps : List String} (l : Location) (t : String) :
    d.stride true loc steps ≠ .ok (.at (.found l (.link t))) := by
  induction steps generalizing loc with
  | nil =>
    intro h
    rw [stride] at h
    cases h
  | cons s rest ih =>
    by_cases h1 : s = "."
    · subst h1; rw [stride]; exact ih
    by_cases h2 : s = ".."
    · subst h2; rw [stride]; exact ih
    intro h
    rw [stride_name d _ _ h1 h2] at h
    split at h
    · cases h
    · split at h
      · split at h <;> cases h
      · exact ih h
      · split at h <;> cases h
      · rw [if_neg (by simp)] at h
        cases h

theorem walk_ne_link {links : Nat} {loc : Location} {steps : List String} (l : Location) (t : String) :
    d.walk true links loc steps ≠ .ok (.found l (.link t)) := by
  intro h
  induction links generalizing loc steps with
  | zero =>
    unfold walk at h
    split at h
    · cases h
    · rename_i hs
      cases h
      exact stride_ne_link l t hs
    · cases h
  | succ n ih =>
    unfold walk at h
    split at h
    · cases h
    · rename_i hs
      cases h
      exact stride_ne_link l t hs
    · exact ih h

/-- What a path leads to is no link. -/
theorem locate_ne_link {p : Path} (l : Location) (t : String) :
    d.locate true p ≠ .ok (.found l (.link t)) := by
  intro h
  rw [locate_eq] at h
  rcases hc : checked p with f | u
  · rw [hc] at h; cases h
  · rw [hc] at h
    exact walk_ne_link l t h

theorem find_of_typeOf {p : Path} {type : EntryType} (h : d.typeOf p = .ok type) (hlink : type ≠ .link) :
    ∃ l e, d.find p = .ok (l, e) ∧ e.type = type := by
  have hno : d.isLink p = false := by
    unfold isLink
    rw [h]
    simpa [Except.toOption] using hlink
  unfold typeOf at h
  rcases hl : d.locate false p with f | ⟨l, e⟩ | l
  · rw [hl] at h; cases h
  · rw [hl] at h
    cases h
    refine ⟨l, e, ?_, rfl⟩
    unfold find
    rw [locate_true hno, hl]
    rfl
  · rw [hl] at h; cases h

theorem exists_typeOf_of_find {p : Path} {l : Location} {e : Entry} (h : d.find p = .ok (l, e)) :
    ∃ type, d.typeOf p = .ok type := by
  rcases ht : d.typeOf p with f | type
  · have hlink : d.isLink p = false := by
      unfold isLink
      rw [ht]
      rfl
    have hl := locate_of_find h
    rw [locate_true hlink] at hl
    unfold typeOf at ht
    rw [hl] at ht
    cases ht
  · exact ⟨type, rfl⟩

/-- What a path leads to is stored there, and is no link. -/
theorem entry?_of_find (hd : d.Sound) {p : Path} {loc : Location} {e : Entry}
    (h : d.find p = .ok (loc, e)) : d.entry? loc = some e ∧ ∀ t, e ≠ .link t := by
  have hl := locate_of_find h
  exact ⟨entry?_of_locate hd hl, fun t ht => locate_ne_link loc t (ht ▸ hl)⟩

/-- What a path leads to is a directory if it is no file. -/
theorem directory_of_find (hd : d.Sound) {p : Path} {loc : Location} {e : Entry}
    (h : d.find p = .ok (loc, e)) (hfile : d.isFile p = false) : d.entry? loc = some .directory := by
  obtain ⟨hentry, hlink⟩ := entry?_of_find hd h
  rcases e with c | t | _
  · unfold isFile at hfile
    rw [h] at hfile
    cases hfile
  · exact absurd rfl (hlink t)
  · exact hentry

/-- A canonical path names the location of something that is no link. -/
theorem entry?_of_canonicalize (hd : d.Sound) {p q : Path} (h : d.canonicalize p = .ok q) :
    ∃ loc e, q = ofLocation loc ∧ d.entry? loc = some e ∧ ∀ t, e ≠ .link t := by
  unfold canonicalize at h
  rcases hf : d.find p with f | ⟨loc, e⟩
  · rw [hf] at h; cases h
  · rw [hf] at h
    cases h
    exact ⟨loc, e, rfl, entry?_of_find hd hf⟩

section
variable (hd : d.Sound) (hn : d.WellNamed) {loc : Location}
include hd hn

theorem locate_ofLocation {followLast : Bool} {e : Entry} (h : d.entry? loc = some e)
    (hlink : followLast = false ∨ ∀ t, e ≠ .link t) :
    d.locate followLast (ofLocation loc) = .ok (.found loc e) := by
  have hnames := hn.storable h
  have htop : ∀ f, d.locate f (ofLocation []) = .ok (.found [] .directory) := by
    intro f
    have hsteps : (ofLocation []).steps = ["."] := by decide
    have hcheck : checked (ofLocation []) = .ok () := by decide
    rw [locate_eq, hcheck, hsteps]
    show d.walk f maxLinks [] ["."] = _
    unfold walk
    rw [stride, stride]
  by_cases hloc : loc = []
  · subst hloc
    cases h
    exact htop _
  · rw [ofLocation_eq_extend fun n hm => (hnames n hm).toIsPiece]
    exact locate_extend hd (htop true) hloc hnames h hlink

/-- What is stored below a directory is there under its names. -/
theorem typeOf_below {names : List String} (hne : names ≠ []) {e : Entry}
    (h : d.entry? (loc ++ names) = some e) : d.typeOf ((ofLocation loc).extend names) = .ok e.type :=
  typeOf_extend hd (locate_ofLocation hd hn (hd.directory_of_append hne h) (.inr nofun)) hne
    (fun n hm => hn.storable h n (List.mem_append_right _ hm)) h

end

/-! ## Trees -/

/-- A tree starts with the path itself. -/
theorem tree_head {p : Path} {entries : List (Path × EntryType)} (h : d.tree p = .ok entries) :
    ∃ type rest, entries = (p, type) :: rest := by
  unfold tree at h
  rcases ht : d.typeOf p with f | type
  · rw [ht] at h; cases h
  rw [ht] at h
  rcases hf : d.find p with f | ⟨l, e⟩
  · rw [hf] at h; cases h
  rw [hf] at h
  change (if e.type ≠ .directory then Except.ok [(p, type)] else _) = _ at h
  split at h <;> cases h <;> exact ⟨type, _, rfl⟩

/-- A tree that was told holds everything that is stored below the directory. -/
theorem mem_tree_of_entry? {p : Path} {top : Location} {names : List String} {e : Entry}
    {entries : List (Path × EntryType)} (h : d.tree p = .ok entries) (hp : d.find p = .ok (top, .directory))
    (hne : names ≠ []) (he : d.entry? (top ++ names) = some e) : (p.extend names, e.type) ∈ entries := by
  have hbelow : (top ++ names, e) ∈ d.below top := by
    unfold below
    refine List.mem_filter.2 ⟨mem_entries (by simp [hne]) he, ?_⟩
    simp [hne]
  unfold tree at h
  rw [hp] at h
  rcases ht : d.typeOf p with f | type
  · rw [ht] at h; cases h
  · rw [ht] at h
    cases h
    refine List.mem_cons_of_mem _ (List.mem_map.2 ⟨_, hbelow, ?_⟩)
    dsimp only
    rw [List.drop_left]
    rfl

/-- What a walk from a path comes to: the path itself, and all that is stored below it if it leads to a directory. -/
inductive WalkedTo (d : Disk) (start : Path) : EntryType → Path → Prop
  | itself {type : EntryType} {place : Location × Entry} (ht : d.typeOf start = .ok type)
      (hf : d.find start = .ok place) : WalkedTo d start type start
  | below {top : Location} {names : List String} {e : Entry} (hf : d.find start = .ok (top, .directory))
      (hne : names ≠ []) (he : d.entry? (top ++ names) = some e) : WalkedTo d start e.type (start.extend names)

theorem exists_tree {p : Path} {type : EntryType} {place : Location × Entry} (ht : d.typeOf p = .ok type)
    (hf : d.find p = .ok place) : ∃ rest, d.tree p = .ok ((p, type) :: rest) := by
  obtain ⟨loc, e⟩ := place
  unfold tree
  rw [ht, hf]
  show ∃ rest, (if e.type ≠ .directory then Except.ok [(p, type)] else _) = _
  split
  · exact ⟨[], rfl⟩
  · exact ⟨_, rfl⟩

theorem exists_find_of_tree {p : Path} {tree : List (Path × EntryType)} (h : d.tree p = .ok tree) :
    ∃ place, d.find p = .ok place := by
  unfold Disk.tree at h
  rcases ht : d.typeOf p with f | type
  · rw [ht] at h; cases h
  rcases hf : d.find p with f | place
  · rw [ht, hf] at h; cases h
  · exact ⟨place, rfl⟩

theorem walkedTo_iff (hn : d.WellNamed) {start path : Path} {type : EntryType} :
    WalkedTo d start type path ↔ ∃ tree, d.tree start = .ok tree ∧ (path, type) ∈ tree := by
  constructor
  · rintro (⟨ht, hf⟩ | ⟨hf, hne, he⟩)
    · obtain ⟨rest, htree⟩ := exists_tree ht hf
      exact ⟨_, htree, List.mem_cons_self⟩
    · obtain ⟨_, ht⟩ := exists_typeOf_of_find hf
      obtain ⟨rest, htree⟩ := exists_tree ht hf
      exact ⟨_, htree, mem_tree_of_entry? htree hf hne he⟩
  · rintro ⟨tree, htree, hmem⟩
    obtain ⟨rfl, ht⟩ | ⟨top, names, e, hl, hne, -, he, rfl, rfl⟩ := mem_tree_cases hn htree hmem
    · obtain ⟨place, hf⟩ := exists_find_of_tree htree
      exact .itself ht hf
    · have hf : d.find start = .ok (top, .directory) := by unfold find; rw [hl]; rfl
      exact .below hf hne he

/-- The files of a tree are stored below the directory. -/
theorem entry?_of_mem_tree {p q : Path} {top : Location}
    {entries : List (Path × EntryType)} (h : d.tree p = .ok entries) (hp : d.find p = .ok (top, .directory))
    (hq : (q, .file) ∈ entries) :
    ∃ l e, (l, e) ∈ d.entries ∧ top <+: l ∧ q = p.extend (l.drop top.length) := by
  unfold tree at h
  rw [hp] at h
  rcases ht : d.typeOf p with f | type
  · rw [ht] at h; cases h
  · rw [ht] at h
    cases h
    rcases List.mem_cons.1 hq with hq | hq
    · -- the directory itself is no file
      cases hq
      obtain ⟨l, e, hf, he⟩ := find_of_typeOf ht nofun
      rw [hp] at hf
      cases hf
      exact absurd he nofun
    · obtain ⟨⟨l, e⟩, hmem, hl⟩ := List.mem_map.1 hq
      unfold below at hmem
      obtain ⟨hentry, hbelow⟩ := List.mem_filter.1 hmem
      simp only [Bool.and_eq_true, List.isPrefixOf_iff_prefix] at hbelow
      obtain ⟨rfl, -⟩ := Prod.mk.inj hl
      exact ⟨l, e, hentry, hbelow.1, rfl⟩

/-! ## Walking without links -/

section
variable {names : List String} (hnames : ∀ n ∈ names, IsName n)
include hnames

/-- A walk along names ends where they lead, or at a link on the way. -/
theorem stride_direct {loc : Location} {ending : List String} (hend : ending = [] ∨ ending = ["."])
    (hloc : d.entry? loc = some .directory) {stop : Stop}
    (h : d.stride false loc (names ++ ending) = .ok stop) :
    stop = .at (d.place (loc ++ names)) ∨
      ∃ m t, m ≠ [] ∧ m <+: names ∧ d.entry? (loc ++ m) = some (.link t) := by
  induction names generalizing loc with
  | nil =>
    left
    rw [List.append_nil, place_of_some hloc]
    rcases hend with rfl | rfl
    · rw [List.append_nil, stride] at h; cases h; rfl
    · rw [List.nil_append, stride, stride] at h; cases h; rfl
  | cons n rest ih =>
    rw [List.forall_mem_cons] at hnames
    rw [List.cons_append, stride_name d _ _ hnames.1.ne_dot hnames.1.ne_up] at h
    have hends : rest ++ ending = [] → rest = [] := fun h => (List.append_eq_nil_iff.1 h).1
    split at h
    · cases h
    · split at h
      · rename_i he
        split at h
        · rename_i hr
          cases h
          rw [hends hr, place_of_none he]
          exact .inl rfl
        · cases h
      · rename_i he
        rw [List.append_cons]
        rcases ih hnames.2 he h with hstop | ⟨m, t, -, hm, ht⟩
        · exact .inl hstop
        · exact .inr ⟨n :: m, t, by simp, (List.prefix_cons_inj n).2 hm, by rwa [List.append_cons]⟩
      · rename_i c he
        split at h
        · rename_i hr
          cases h
          rw [hends hr, place_of_some he]
          exact .inl rfl
        · cases h
      · rename_i t he
        exact .inr ⟨[n], t, by simp, by simp, he⟩

end

/-- A path of names leads where they do, or some of them lead to a link. -/
theorem locate_direct {p : Path} (hp : p.isAbsolute = true) (hmoves : ∀ n ∈ p.moves, IsName n)
    {place : Place} (h : d.locate false p = .ok place) :
    place = d.place p.moves ∨ ∃ m t, m ≠ [] ∧ m <+: p.moves ∧ d.entry? m = some (.link t) := by
  rw [locate_eq] at h
  rcases hc : checked p with f | u
  · rw [hc] at h; cases h
  rw [hc] at h
  change d.walk false maxLinks (d.origin p) p.steps = _ at h
  have horigin : d.origin p = [] := by unfold origin; rw [if_pos hp]
  -- a separator at the end is one more step, which stays where it is
  obtain ⟨ending, hend, hsteps⟩ : ∃ ending, (ending = [] ∨ ending = ["."]) ∧
      tidy p.steps = p.moves ++ ending := by
    rcases steps_cases p with h | h
    · exact ⟨[], .inl rfl, by rw [h, List.append_nil]⟩
    · exact ⟨["."], .inr rfl, h⟩
  rw [← walk_tidy, hsteps, horigin] at h
  unfold walk at h
  split at h
  · cases h
  · rename_i hs
    cases h
    rcases stride_direct hmoves hend rfl hs with he | hlink
    · cases he; exact .inl rfl
    · exact .inr hlink
  · rename_i hs
    rcases stride_direct hmoves hend rfl hs with he | hlink
    · cases he
    · exact .inr hlink

/-! ## Links above what is stored -/

theorem tidy_extend (p : Path) {names : List String} (hne : names ≠ []) (h : ∀ n ∈ names, IsPiece n) :
    tidy (p.extend names).steps = (p.extend names).moves := by
  refine tidy_steps fun hlast => ?_
  rw [steps_extend p hne h, List.getLast?_append_of_ne_nil _ hne] at hlast
  exact (h _ (List.mem_of_getLast? hlast)).ne_dot rfl

/-- Only what names a directory may ask for one at its end. -/
theorem tidy_of_typeOf {p : Path} {type : EntryType} (h : d.typeOf p = .ok type) (htype : type ≠ .directory) :
    tidy p.steps = p.moves := by
  refine tidy_steps fun hlast => htype ?_
  obtain ⟨before, hsteps⟩ := List.getLast?_eq_some_iff.1 hlast
  unfold typeOf at h
  rcases hl : d.locate false p with e | place
  · rw [hl] at h; cases h
  · obtain ⟨-, l, k, -, hwalk⟩ := locate_concat hsteps hl
    have hhere : d.walk false k l ["."] = .ok (.found l .directory) := walk_at rfl
    cases hhere.symm.trans hwalk
    rw [hl] at h
    cases h
    rfl

/-- Two spellings of one path name the same if neither asks for a directory at its end. -/
theorem typeOf_of_moves {p q : Path} (hp : p.isAbsolute = true) (hq : q.isAbsolute = true) (h : p.moves = q.moves)
    (hp' : tidy p.steps = p.moves) (hq' : tidy q.steps = q.moves) : d.typeOf p = d.typeOf q := by
  have hsame : p.same q = true := same_iff.2 (by rw [components_of_absolute hp, components_of_absolute hq, h])
  unfold typeOf
  rw [d.locate_of_same hsame hp' hq']

section
variable (hd : d.Sound) (hn : d.WellNamed) {link : Path} (habs : link.isAbsolute = true)
  (hlink : d.typeOf link = .ok .link)
include hd hn habs hlink

/-- No link is spelled like what is stored and is no link itself, or like the way to it. -/
theorem not_prefix_of_stored {loc : Location} {e : Entry} (h : d.entry? loc = some e) (he : ∀ t, e ≠ .link t) :
    ¬ link.moves <+: loc := by
  intro hupper
  have hnames : ∀ n ∈ link.moves, IsName n := fun n hm => (hn.storable h n (hupper.subset hm)).toIsName
  obtain ⟨l, t, hl⟩ := d.isLink_iff.1 (by rw [isLink, hlink]; rfl)
  obtain hplace | ⟨m, t', -, hm, ht⟩ := locate_direct habs hnames hl
  · obtain ⟨e', he', hno⟩ := hd.entry?_of_prefix hupper h he
    rw [place_of_some he'] at hplace
    cases hplace
    exact hno t rfl
  · obtain ⟨e', he', hno⟩ := hd.entry?_of_prefix (hm.trans hupper) h he
    exact hno t' (Option.some.inj (he'.symm.trans ht))

/-- A tree follows no link below its start: a link above something in it lies at the start or above. -/
theorem prefix_of_mem_tree {start path : Path} {type : EntryType} {tree : List (Path × EntryType)}
    (hstart : start.isAbsolute = true) (htree : d.tree start = .ok tree) (hmem : (path, type) ∈ tree)
    {rest : List String} (hne : rest ≠ []) (hmoves : path.moves = link.moves ++ rest) :
    link.moves <+: start.moves := by
  obtain ⟨rfl, -⟩ | ⟨top, names, e, htop, -, hnames, he, -, rfl⟩ := mem_tree_cases hn htree hmem
  · exact ⟨rest, hmoves.symm⟩
  rw [moves_extend start fun n hm => (hnames n hm).toIsPiece] at hmoves
  obtain ⟨inner, hinner, rfl⟩ | ⟨above, habove, -⟩ := List.append_eq_append_iff.1 hmoves
  · by_cases hinner_ne : inner = []
    · rw [hinner, hinner_ne, List.append_nil]
    · -- between the start and the end there are directories only
      have hstored : ∀ n ∈ inner, IsStorable n := fun n hm => hnames n (List.mem_append_left _ hm)
      have hpieces : ∀ n ∈ inner, IsPiece n := fun n hm => (hstored n hm).toIsPiece
      rw [← List.append_assoc] at he
      have hdir := typeOf_extend hd htop hinner_ne hstored (hd.directory_of_append hne he)
      have hsame := typeOf_of_moves (d := d) habs (isAbsolute_extend start inner hstart)
        (hinner.trans (moves_extend start hpieces).symm) (tidy_of_typeOf hlink nofun)
        (tidy_extend start hinner_ne hpieces)
      rw [hlink, hdir] at hsame
      cases hsame
  · exact ⟨above, habove.symm⟩

end

end Disk
end Stowage
