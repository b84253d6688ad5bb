/-
Filling a disk: directories are created and files are written, and nothing else changes. Where a directory holds
no links, what is created and written under names below it lies below it.
-/
import Stowage.Proofs.Disk.Direct
import Stowage.Proofs.Disk.Effects

open Stowage.Path

namespace Stowage.Disk

variable {d d' d₀ : Disk} {p : Path} {loc : Location} {P Q : Location → Prop}

/-! ## Filled disks -/

/-- What filling may do at one location. -/
inductive Fill : Option Entry → Option Entry → Prop
  | same (e : Option Entry) : Fill e e
  | created : Fill none (some .directory)
  | written {e : Option Entry} (c : Content) (hdir : e ≠ some .directory)
      (hlink : ∀ t, e ≠ some (.link t)) : Fill e (some (.file c))

namespace Fill

variable {a b c : Option Entry}

theorem trans (h : Fill a b) (h' : Fill b c) : Fill a c := by
  cases h' with
  | same => exact h
  | created =>
    cases h with
    | same => exact .created
  | written x hdir hlink =>
    cases h with
    | same => exact .written x hdir hlink
    | created => exact absurd rfl hdir
    | written _ hdir' hlink' => exact .written x hdir' hlink'

theorem directory (h : Fill a b) (ha : a = some .directory) : b = some .directory := by
  cases h with
  | same => exact ha
  | created => rfl
  | written _ hdir _ => exact absurd ha hdir

theorem link_iff (h : Fill a b) (t : String) : b = some (.link t) ↔ a = some (.link t) := by
  cases h with
  | same => exact Iff.rfl
  | created => simp
  | written _ _ hlink => exact ⟨fun h => (nomatch h), fun h => absurd h (hlink t)⟩

theorem ne_none (h : Fill a b) (ha : a ≠ none) : b ≠ none := by
  cases h with
  | same => exact ha
  | created => simp
  | written => simp

/-- A file stays a file. -/
theorem file (h : Fill a b) {x : Content} (ha : a = some (.file x)) : ∃ y, b = some (.file y) := by
  cases h with
  | same => exact ⟨x, ha⟩
  | created => cases ha
  | written y _ _ => exact ⟨y, rfl⟩

/-- What is there and is no directory does not become one. -/
theorem ne_directory (h : Fill a b) (ha : a ≠ none) (hdir : a ≠ some .directory) :
    b ≠ some .directory := by
  cases h with
  | same => exact hdir
  | created => exact absurd rfl ha
  | written => simp

end Fill

/-- The disk with some directories and files more, and some files written anew, at locations of which `P` holds. -/
structure Filled (P : Location → Prop) (d d' : Disk) : Prop where
  entry : ∀ l, Fill (d.entry? l) (d'.entry? l)
  only : ∀ l, ¬ P l → d'.entry? l = d.entry? l
  here : d'.here = d.here

namespace Filled

theorem refl (P : Location → Prop) (d : Disk) : Filled P d d :=
  ⟨fun _ => .same _, fun _ _ => rfl, rfl⟩

theorem trans {d'' : Disk} (h : Filled P d d') (h' : Filled P d' d'') : Filled P d d'' :=
  ⟨fun l => (h.entry l).trans (h'.entry l), fun l hl => (h'.only l hl).trans (h.only l hl),
    h'.here.trans h.here⟩

theorem mono (h : Filled P d d') (hPQ : ∀ l, P l → Q l) : Filled Q d d' :=
  ⟨h.entry, fun l hl => h.only l fun hp => hl (hPQ l hp), h.here⟩

theorem kept (h : Filled P d d') : Kept d d' :=
  ⟨fun l hl => (h.entry l).directory hl, fun l t => (h.entry l).link_iff t, h.here⟩

end Filled

theorem Grown.filled (h : Grown d d') : Filled (fun _ => True) d d' := by
  refine ⟨fun l => ?_, fun l hl => absurd trivial hl, h.here⟩
  rcases h.entry l with he | ⟨hn, hdir⟩
  · rw [he]; exact .same _
  · rw [hn, hdir]; exact .created

/-- A file is written where there is neither a directory nor a link. -/
theorem filled_put (hP : P loc) (hdir : d.entry? loc ≠ some .directory)
    (hlink : ∀ t, d.entry? loc ≠ some (.link t)) (c : Content) :
    Filled P d (d.put loc (.file c)) := by
  have hne : loc ≠ [] := ne_nil_of_not_directory hdir
  refine ⟨fun l => ?_, fun l hl => ?_, rfl⟩
  · rw [entry?_put d hne]
    split
    · rename_i he
      exact he ▸ .written c hdir hlink
    · exact .same _
  · rw [entry?_put d hne, if_neg]
    rintro rfl
    exact hl hP

/-! ## Writing and copying -/

theorem run_checkSlash (p : Path) (d : Disk) :
    (∃ e, (checkSlash p).run.run d = (.error e, d)) ∨ (checkSlash p).run.run d = (.ok (), d) := by
  unfold checkSlash
  rw [run_bind, run_ask]
  rcases d.locate true (withoutSlash p) with e | ⟨l, e⟩ | l
  · exact .inl ⟨e, rfl⟩
  · exact .inr rfl
  · exact .inl ⟨_, rfl⟩

/-- The path leads, links followed, to a location with neither a directory nor a link. -/
structure Vacant (d : Disk) (p : Path) (loc : Location) : Prop where
  leads : d.locate true p = .ok (d.place loc)
  ne_directory : d.entry? loc ≠ some .directory
  ne_link : ∀ t, d.entry? loc ≠ some (.link t)

section
variable (hd : d.Sound)
include hd

theorem Vacant.sound_put (h : d.Vacant p loc) (c : Content) : (d.put loc (.file c)).Sound := by
  have habove := (real_locate hd h.leads).2
  rw [location_place] at habove
  exact hd.put (ne_nil_of_not_directory h.ne_directory) habove fun he => absurd he h.ne_directory

/-- What was written is what the path leads to. -/
theorem Vacant.find_put (h : d.Vacant p loc) (c : Content) :
    find (d.put loc (.file c)) p = .ok (loc, .file c) := by
  have hat : entry? (d.put loc (.file c)) loc = some (.file c) := by
    rw [entry?_put d (ne_nil_of_not_directory h.ne_directory), if_pos rfl]
  have hkept := (filled_put (P := fun _ => True) trivial h.ne_directory h.ne_link c).kept
  have hl := locate_kept hd hkept h.leads
  rw [location_place, place_of_some hat] at hl
  unfold find
  rw [hl]
  rfl

theorem Vacant.read_put (h : d.Vacant p loc) (c : Content) :
    Disk.read (d.put loc (.file c)) p = .ok c := by
  unfold Disk.read
  rw [h.find_put hd c]
  rfl

/-- A file is written where the path leads, or nothing changes. -/
theorem run_write_vacant (p : Path) (c : Content) :
    (∃ e, (write p c).run.run d = (.error e, d)) ∨
    ∃ loc, d.Vacant p loc ∧ (write p c).run.run d = (.ok (), d.put loc (.file c)) := by
  have hstore : (∃ e, (store p c).run.run d = (.error e, d)) ∨
      ∃ loc, d.Vacant p loc ∧ (store p c).run.run d = (.ok (), d.put loc (.file c)) := by
    unfold store
    rw [run_bind, run_ask]
    rcases hl : d.locate true p with e | q
    · exact .inl ⟨e, rfl⟩
    · have hq := (real_locate hd hl).1
      have hvacant : ∀ {l}, q.location = l → d.entry? l ≠ some .directory →
          (∀ t, d.entry? l ≠ some (.link t)) → d.Vacant p l := by
        rintro l rfl hdir hlink
        exact ⟨hl.trans (congrArg _ hq), hdir, hlink⟩
      rcases q with ⟨l, e⟩ | l
      · have he := entry?_of_locate hd hl
        rcases e with c' | t | _
        · exact .inr ⟨l, hvacant rfl (by rw [he]; simp) (by rw [he]; simp), rfl⟩
        · exact absurd hl (locate_ne_link l t)
        · exact .inl ⟨_, rfl⟩
      · have he := entry?_of_locate_free hd hl
        exact .inr ⟨l, hvacant rfl (by rw [he]; simp) (by rw [he]; simp), rfl⟩
  unfold write
  split
  · rw [run_bind]
    rcases run_checkSlash p d with ⟨e, he⟩ | he
    · rw [he]
      exact .inl ⟨e, rfl⟩
    · rw [he]
      exact hstore
  · exact hstore

/-- A copy writes what a file holds; onto itself it writes nothing. -/
theorem run_copy (source target : Path) :
    (∃ e, (copy source target).run.run d = (.error e, d)) ∨
    ∃ l loc c c', d.find source = .ok (l, .file c) ∧ d.Vacant target loc ∧
      c' = (if loc = l then .text "" else c) ∧
      (copy source target).run.run d = (.ok (), d.put loc (.file c')) := by
  unfold copy
  rw [run_bind, run_ask]
  rcases hf : d.find source with e | ⟨l, c | t | _⟩
  · exact .inl ⟨e, rfl⟩
  · dsimp only
    rw [run_bind, run_ask]
    have hentry : d.entry? l = some (.file c) := (entry?_of_find hd hf).1
    rcases hl : d.locate true target with e | q
    · exact .inl ⟨e, rfl⟩
    · -- the location that is written is the one that was looked up before
      have hwrite : ∀ x, (∃ e, (write target x).run.run d = (.error e, d)) ∨
          d.Vacant target q.location ∧
            (write target x).run.run d = (.ok (), d.put q.location (.file x)) := by
        intro x
        rcases run_write_vacant hd target x with he | ⟨loc, hvacant, hrun⟩
        · exact .inl he
        · have hloc : loc = q.location := by
            have := hvacant.leads
            rw [hl] at this
            rw [Except.ok.inj this, location_place]
          exact .inr (hloc ▸ ⟨hvacant, hrun⟩)
      rcases q with ⟨onto, e⟩ | onto
      · rcases hwrite (if onto = l then .text "" else c) with he | ⟨hvacant, hrun⟩
        · exact .inl he
        · exact .inr ⟨l, onto, c, _, rfl, hvacant, rfl, hrun⟩
      · rcases hwrite c with he | ⟨hvacant, hrun⟩
        · exact .inl he
        · have hne : onto ≠ l := by
            rintro rfl
            rw [entry?_of_locate_free hd hl] at hentry
            cases hentry
          exact .inr ⟨l, onto, c, c, rfl, hvacant, (if_neg hne).symm, hrun⟩
  · exact .inl ⟨_, rfl⟩
  · exact .inl ⟨_, rfl⟩

end

/-! ## Ways without links -/

/-- Above what is no link there is none. -/
theorem no_link_above (hd : d.Sound) {l : Location} {e : Entry} (he : d.entry? l = some e)
    (hlink : ∀ t, e ≠ .link t) : ∀ m t, m <+: l → d.entry? m ≠ some (.link t) := by
  rintro m t ⟨r, rfl⟩ ht
  by_cases hr : r = []
  · rw [hr, List.append_nil, ht] at he
    cases he
    exact hlink t rfl
  · rw [hd.directory_of_append hr he] at ht
    cases ht

/-- Names lead to the same if the same is stored on the way. -/
theorem stride_congr {names ending : List String} (hnames : ∀ n ∈ names, IsName n)
    (hend : ending = [] ∨ ending = ["."]) {followLast : Bool} {loc : Location}
    (hsame : ∀ m, m <+: names → d'.entry? (loc ++ m) = d.entry? (loc ++ m)) :
    d'.stride followLast loc (names ++ ending) = d.stride followLast loc (names ++ ending) := by
  induction names generalizing loc with
  | nil =>
    rw [List.nil_append]
    rcases hend with rfl | rfl
    · rw [stride, stride]
    · rw [stride, stride, stride, stride]
  | cons n rest ih =>
    rw [List.forall_mem_cons] at hnames
    have hlater : d'.stride followLast (loc ++ [n]) (rest ++ ending) =
        d.stride followLast (loc ++ [n]) (rest ++ ending) := by
      refine ih hnames.2 fun m hm => ?_
      have := hsame (n :: m) ((List.prefix_cons_inj n).2 hm)
      rwa [List.append_cons] at this
    rw [List.cons_append, stride_name d' _ _ hnames.1.ne_dot hnames.1.ne_up,
      stride_name d _ _ hnames.1.ne_dot hnames.1.ne_up, hsame [n] (by simp), hlater]

section
variable {l : Location} (hnames : ∀ n ∈ l, IsName n)
  (hway : ∀ m t, m <+: l → d.entry? m ≠ some (.link t))
include hnames hway

theorem locate_false_unlinked {q : Place} (h : d.locate false (ofLocation l) = .ok q) :
    q = d.place l := by
  have hmoves : (ofLocation l).moves = l := moves_ofLocation fun n hn => (hnames n hn).toIsPiece
  rcases locate_direct (isAbsolute_ofLocation l) (by rwa [hmoves]) h with he | ⟨m, t, -, hm, ht⟩
  · rwa [hmoves] at he
  · rw [hmoves] at hm
    exact absurd ht (hway m t hm)

theorem isLink_unlinked : d.isLink (ofLocation l) = false := by
  rcases hq : d.locate false (ofLocation l) with e | q
  · unfold isLink typeOf; rw [hq]; rfl
  · unfold isLink typeOf
    rw [hq, locate_false_unlinked hnames hway hq]
    rcases he : d.entry? l with _ | (c | t | _)
    · rw [place_of_none he]; rfl
    · rw [place_of_some he]; rfl
    · exact absurd he (hway l t (List.prefix_refl _))
    · rw [place_of_some he]; rfl

/-- Where no link is on its way a path leads to the location that it spells. -/
theorem locate_unlinked {followLast : Bool} {q : Place}
    (h : d.locate followLast (ofLocation l) = .ok q) : q = d.place l := by
  cases followLast with
  | false => exact locate_false_unlinked hnames hway h
  | true =>
    rw [locate_true (isLink_unlinked hnames hway)] at h
    exact locate_false_unlinked hnames hway h

/-- It leads there on any disk with the same on the way. -/
theorem locate_congr (hsame : ∀ m, m <+: l → d'.entry? m = d.entry? m) :
    d'.locate true (ofLocation l) = d.locate true (ofLocation l) := by
  have hmoves : (ofLocation l).moves = l := moves_ofLocation fun n hn => (hnames n hn).toIsPiece
  have horigin : ∀ x : Disk, x.origin (ofLocation l) = [] := fun x => by
    unfold origin
    rw [if_pos (isAbsolute_ofLocation l)]
  obtain ⟨ending, hend, hsteps⟩ : ∃ ending, (ending = [] ∨ ending = ["."]) ∧
      tidy (ofLocation l).steps = l ++ ending := by
    rcases steps_cases (ofLocation l) with h | h
    · exact ⟨[], .inl rfl, by rw [h, hmoves, List.append_nil]⟩
    · exact ⟨["."], .inr rfl, by rw [h, hmoves]⟩
  have hstride : d'.stride false [] (l ++ ending) = d.stride false [] (l ++ ending) :=
    stride_congr hnames hend fun m hm => by simpa using hsame m hm
  have hdirect : d'.locate false (ofLocation l) = d.locate false (ofLocation l) := by
    rw [locate_eq, locate_eq, horigin, horigin, ← walk_tidy, ← walk_tidy d, hsteps]
    unfold walk
    rw [hstride]
    rcases hs : d.stride false [] (l ++ ending) with e | place | ⟨loc, t, rest⟩
    · rfl
    · rfl
    · rcases stride_direct hnames hend rfl hs with he | ⟨m, u, -, hm, hu⟩
      · cases he
      · exact absurd hu (hway m u hm)
  have hway' : ∀ m t, m <+: l → d'.entry? m ≠ some (.link t) := fun m t hm => by
    rw [hsame m hm]
    exact hway m t hm
  rw [locate_true (isLink_unlinked hnames hway), locate_true (isLink_unlinked hnames hway'), hdirect]

end

/-- The path spells the location of something that is no link. -/
def Located (d : Disk) (p : Path) : Prop :=
  ∃ loc e, p = ofLocation loc ∧ (∀ n ∈ loc, IsName n) ∧ d.entry? loc = some e ∧ ∀ t, e ≠ .link t

theorem isName_of_find (hhere : ∀ n ∈ d.here, IsName n) {l : Location} {e : Entry}
    (h : d.find p = .ok (l, e)) : ∀ n ∈ l, IsName n :=
  locate_enters d (P := IsName) (fun _ _ hs h1 h2 => ⟨isPiece_of_mem_steps hs h1, h2⟩) hhere
    (locate_of_find h)

theorem find_of_canonicalize {q : Path} (h : d.canonicalize p = .ok q) :
    ∃ l e, d.find p = .ok (l, e) ∧ q = ofLocation l := by
  unfold canonicalize at h
  rcases hf : d.find p with f | ⟨l, e⟩
  · rw [hf] at h; cases h
  · rw [hf] at h; cases h; exact ⟨l, e, rfl, rfl⟩

theorem located_of_canonicalize (hd : d.Sound) (hhere : ∀ n ∈ d.here, IsName n) {p q : Path}
    (h : d.canonicalize p = .ok q) : d.Located q := by
  obtain ⟨l, e, hf, rfl⟩ := find_of_canonicalize h
  obtain ⟨he, hlink⟩ := entry?_of_find hd hf
  exact ⟨l, e, rfl, isName_of_find hhere hf, he, hlink⟩

/-- A file is read alike where nothing on the way to it has changed. -/
theorem readText_congr (hd : d.Sound) {l : Location} (hnames : ∀ n ∈ l, IsName n) {c : Content}
    (hfile : d.entry? l = some (.file c)) (hsame : ∀ m, m <+: l → d'.entry? m = d.entry? m) :
    d'.readText (ofLocation l) = d.readText (ofLocation l) := by
  unfold readText read find
  rw [locate_congr hnames (no_link_above hd hfile nofun) hsame]

theorem Located.isPlain (h : d.Located p) : p.IsPlain := by
  obtain ⟨loc, _, hp, hnames, -⟩ := h
  exact ⟨loc, fun n hn => (hnames n hn).toIsPiece, hp⟩

theorem Located.filled (h : d.Located p) (hf : Filled P d d') : d'.Located p := by
  obtain ⟨loc, e, hp, hnames, he, hlink⟩ := h
  have hsome := (hf.entry loc).ne_none (by rw [he]; simp)
  obtain ⟨e', he'⟩ := Option.ne_none_iff_exists'.1 hsome
  refine ⟨loc, e', hp, hnames, he', fun t ht => ?_⟩
  subst ht
  have := (hf.kept.link loc t).1 he'
  rw [he] at this
  cases this
  exact hlink t rfl

/-- What is found under a located path is stored at the location that it spells. -/
theorem Located.of_find (hd : d.Sound) {l : Location} (h : d.Located (ofLocation l))
    (hnames : ∀ n ∈ l, IsName n) {m : Location} {e : Entry} (hf : d.find (ofLocation l) = .ok (m, e)) :
    m = l ∧ d.entry? l = some e := by
  obtain ⟨loc, e', hp, hloc, he, hlink⟩ := h
  have hmoves := congrArg moves hp
  rw [moves_ofLocation fun n hn => (hnames n hn).toIsPiece,
    moves_ofLocation fun n hn => (hloc n hn).toIsPiece] at hmoves
  subst hmoves
  have hplace := locate_unlinked hnames (no_link_above hd he hlink) (locate_of_find hf)
  rw [place_of_some he] at hplace
  cases hplace
  exact ⟨rfl, he⟩

/-! ## Directories without links -/

/-- A place with no links at it and below it. -/
structure Linkless (d : Disk) (top : Location) : Prop where
  stored : d.entry? top ≠ none
  no_link : ∀ l t, top <+: l → d.entry? l ≠ some (.link t)

theorem Linkless.filled {top : Location} (h : d.Linkless top) (hf : Filled P d d') :
    d'.Linkless top :=
  ⟨(hf.entry top).ne_none h.stored, fun l t hl ht => h.no_link l t hl ((hf.kept.link l t).1 ht)⟩

section
variable {top : Location} (hd : d.Sound) (h : d.Linkless top)
include hd h

/-- On the way to it and to what lies below it there is no link either. -/
theorem Linkless.no_link_on_way {l m : Location} (hl : top <+: l ∨ l <+: top) (hm : m <+: l)
    (t : String) : d.entry? m ≠ some (.link t) := by
  have habove : ∀ m, m <+: top → d.entry? m ≠ some (.link t) := by
    intro m hm
    obtain ⟨e, he⟩ := Option.ne_none_iff_exists'.1 h.stored
    exact no_link_above hd he (fun u hu => h.no_link top u (List.prefix_refl _) (hu ▸ he)) m t hm
  rcases hl with hl | hl
  · rcases List.prefix_or_prefix_of_prefix hm hl with hm | hm
    · exact habove m hm
    · exact h.no_link m t hm
  · exact habove m (hm.trans hl)

/-- A path above or below leads to the location that it spells. -/
theorem locate_linkless {l : Location} (hl : top <+: l ∨ l <+: top) (hnames : ∀ n ∈ l, IsName n)
    {followLast : Bool} {q : Place} (hlocate : d.locate followLast (ofLocation l) = .ok q) :
    q = d.place l :=
  locate_unlinked hnames (fun _ t hm => h.no_link_on_way hd hl hm t) hlocate

end

/-- The location lies below the place, and is not the place itself. -/
def Under (top l : Location) : Prop := top <+: l ∧ l ≠ top

section
variable {top l : Location} (h : d₀.Linkless top) (hl : Under top l) (hnames : ∀ n ∈ l, IsName n)
include h hl hnames

theorem keeps_put_below {d : Disk} (hd : d.Sound ∧ Filled (Under top) d₀ d)
    (hvacant : d.Vacant (ofLocation l) loc) (c : Content) :
    (d.put loc (.file c)).Sound ∧ Filled (Under top) d₀ (d.put loc (.file c)) := by
  have hloc : loc = l := by
    have := locate_linkless hd.1 (h.filled hd.2) (.inl hl.1) hnames hvacant.leads
    rw [← location_place (d := d) loc, this, location_place]
  exact ⟨hvacant.sound_put hd.1 c, hd.2.trans
    (filled_put (hloc ▸ hl) hvacant.ne_directory hvacant.ne_link c)⟩

theorem keeps_write_below (c : Content) :
    Keeps (fun d => d.Sound ∧ Filled (Under top) d₀ d) (write (ofLocation l) c) := by
  intro d hd
  rcases run_write_vacant hd.1 (ofLocation l) c with ⟨e, he⟩ | ⟨loc, hvacant, hrun⟩
  · rw [he]; exact hd
  · rw [hrun]; exact keeps_put_below h hl hnames hd hvacant c

theorem keeps_copy_below (source : Path) :
    Keeps (fun d => d.Sound ∧ Filled (Under top) d₀ d) (copy source (ofLocation l)) := by
  intro d hd
  rcases run_copy hd.1 source (ofLocation l) with ⟨e, he⟩ | ⟨_, loc, _, c, -, hvacant, -, hrun⟩
  · rw [he]; exact hd
  · rw [hrun]; exact keeps_put_below h hl hnames hd hvacant c

end

theorem endsInSlash_ofLocation {l : Location} (hnames : ∀ n ∈ l, IsName n) (hne : l ≠ []) :
    endsInSlash (ofLocation l) = false := by
  have hpieces : ∀ n ∈ l, IsPiece n := fun n hn => (hnames n hn).toIsPiece
  unfold endsInSlash
  rw [decide_eq_false_iff_not, toList_ofLocation_joined]
  obtain ⟨c, r, hr⟩ := List.exists_cons_of_ne_nil (mt (joined_eq_nil hpieces).1 hne)
  rw [hr, List.getLast?_cons_cons, ← hr]
  exact getLast?_joined hpieces

section
variable {top l : Location} (h : d₀.Linkless top) (hnames : ∀ n ∈ l, IsName n)
  (hl : top <+: l ∨ l <+: top)
include h hnames hl

/-- A directory is created below the top; on the way to it there is one everywhere. -/
theorem keeps_createDirectory_below :
    Keeps (fun d => d.Sound ∧ Filled (Under top) d₀ d) (createDirectory (ofLocation l)) := by
  intro d hd
  have hlinkless := h.filled hd.2
  have hsound := (grown_createDirectory d (ofLocation l) d ⟨.refl d, hd.1⟩).2
  unfold createDirectory at hsound ⊢
  rw [run_bind, run_ask] at hsound ⊢
  by_cases hne : l = []
  · have hup : d.locate false (withoutSlash (ofLocation [])) = .ok (.found [] .directory) := rfl
    subst hne
    rw [hup] at hsound ⊢
    exact hd
  rw [withoutSlash_eq (endsInSlash_ofLocation hnames hne)] at hsound ⊢
  rcases hq : d.locate false (ofLocation l) with e | q
  · exact hd
  have hplace := locate_linkless hd.1 hlinkless hl hnames hq
  rw [hq, hplace] at hsound
  rcases he : d.entry? l with _ | e
  · rw [place_of_none he] at hsound hplace
    obtain ⟨e, hstored⟩ := Option.ne_none_iff_exists'.1 hlinkless.stored
    have hunder : Under top l := by
      have hself : l ≠ top := by
        rintro rfl
        rw [he] at hstored
        cases hstored
      refine ⟨hl.resolve_right ?_, hself⟩
      rintro ⟨r, rfl⟩
      by_cases hr : r = []
      · exact hself (by rw [hr, List.append_nil])
      · rw [hd.1.directory_of_append hr hstored] at he
        cases he
    subst hplace
    refine ⟨hsound, hd.2.trans ⟨fun m => ?_, fun m hm => ?_, rfl⟩⟩
    · show Fill _ (Disk.entry? (d.put l .directory) m)
      rw [entry?_put d hne]
      split
      · rename_i hm
        rw [hm, he]; exact .created
      · exact .same _
    · show entry? (d.put l .directory) m = _
      rw [entry?_put d hne, if_neg]
      rintro rfl
      exact hm hunder
  · rw [place_of_some he] at hplace
    subst hplace
    exact hd

theorem keeps_createDirectories_below :
    Keeps (fun d => d.Sound ∧ Filled (Under top) d₀ d) (createDirectories (ofLocation l)) := by
  refine keeps_createChain fun p hp => ?_
  obtain ⟨upper, hupper, rfl⟩ := mem_ancestors_ofLocation (fun n hn => (hnames n hn).toIsPiece) hp
  refine keeps_createDirectory_below h (fun n hn => hnames n (hupper.subset hn)) ?_
  rcases hl with hl | hl
  · exact List.prefix_or_prefix_of_prefix hl hupper
  · exact .inr (hupper.trans hl)

end

end Stowage.Disk
