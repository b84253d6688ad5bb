/-
Collecting the entries of an archive. What is collected depends on the disk and on the root, and on nothing that
was collected before, so a stage of a bundle adds the same entries on its own as after the stages before it. An entry
takes the place of an earlier one of its name, and no name is lost.
-/
import Stowage.Archive.Contents
import Stowage.Proofs.Named
import Stowage.Proofs.Path.Joined
import Stowage.Proofs.Steps
import Mathlib.Data.String.Basic

open Stowage.Path

namespace Stowage.Archive.Contents

/-! ## Names -/

theorem mem_insert {n name : String} {source : Source} {entries : List (String × Source)} :
    n ∈ (insert name source entries).map Prod.fst ↔ n = name ∨ n ∈ entries.map Prod.fst := by
  induction entries with
  | nil => simp [insert]
  | cons e rest ih =>
    obtain ⟨m, s⟩ := e
    unfold insert
    split
    · rename_i hm
      simp [hm]
    · split
      · simp
      · rw [List.map_cons, List.mem_cons, ih, List.map_cons, List.mem_cons]
        tauto

@[simp] theorem mem_names_put {n name : String} {source : Source} {a : Contents} :
    n ∈ (a.put name source).names ↔ n = name ∨ n ∈ a.names := mem_insert

/-- The names are in order, so that none is there twice. -/
def Ordered (a : Contents) : Prop := a.names.Pairwise (· < ·)

theorem Ordered.nodup {a : Contents} (h : a.Ordered) : a.names.Nodup :=
  List.Pairwise.imp (fun hlt => ne_of_lt hlt) h

theorem ordered_create (d : Disk) (root : Path) : (create d root).Ordered := .nil

theorem ordered_insert {entries : List (String × Source)}
    (h : (entries.map Prod.fst).Pairwise (· < ·)) (name : String) (source : Source) :
    ((insert name source entries).map Prod.fst).Pairwise (· < ·) := by
  induction entries with
  | nil => exact List.pairwise_singleton ..
  | cons e rest ih =>
    obtain ⟨n, s⟩ := e
    rw [List.map_cons, List.pairwise_cons] at h
    unfold insert
    split
    · rename_i he
      exact List.pairwise_cons.2 (he ▸ h)
    · rename_i hne
      split
      · rename_i hlt
        refine List.pairwise_cons.2 ⟨fun m hm => ?_, List.pairwise_cons.2 h⟩
        rcases List.mem_cons.1 hm with rfl | hm
        · exact hlt
        · exact hlt.trans (h.1 m hm)
      · rename_i hge
        refine List.pairwise_cons.2 ⟨fun m hm => ?_, ih h.2⟩
        rcases mem_insert.1 hm with rfl | hm
        · exact lt_of_le_of_ne (not_lt.1 hge) hne
        · exact h.1 m hm

theorem ordered_put {a : Contents} (h : a.Ordered) (name : String) (source : Source) :
    (a.put name source).Ordered := ordered_insert h name source

/-! ## Sources -/

/-- What the content of the entry of a name comes from. -/
def source? (a : Contents) (n : String) : Option Source := a.entries.lookup n

theorem source?_put (a : Contents) (name : String) (source : Source) (n : String) :
    (a.put name source).source? n = if n = name then some source else a.source? n := by
  unfold source? put
  dsimp only
  induction a.entries with
  | nil => exact Named.lookup_cons ..
  | cons e rest ih =>
    obtain ⟨m, s⟩ := e
    unfold insert
    split
    · rename_i hm
      subst hm
      rw [Named.lookup_cons, Named.lookup_cons]
      split <;> rfl
    · rename_i hne
      split
      · exact Named.lookup_cons ..
      · rw [Named.lookup_cons, Named.lookup_cons, ih]
        split
        · rename_i hm
          rw [if_neg (hm ▸ hne)]
        · rfl

theorem mem_of_source? {a : Contents} {n : String} {source : Source} (h : a.source? n = some source) :
    (n, source) ∈ a.entries := by
  unfold source? at h
  rw [List.lookup_eq_some_iff] at h
  obtain ⟨before, after, he, -⟩ := h
  rw [he]
  exact List.mem_append_right _ List.mem_cons_self

/-! ## Additions -/

/-- One thing that collecting does to the contents. -/
inductive Addition where
  | entry (name : String) (source : Source)
  | note (text : String)

def Addition.apply (a : Contents) : Addition → Contents
  | .entry name source => a.put name source
  | .note text => a.note text

/-- Adds some things in order. -/
def addAll (a : Contents) (additions : List Addition) : Contents := additions.foldl Addition.apply a

theorem addAll_append (a : Contents) (additions more : List Addition) :
    a.addAll (additions ++ more) = (a.addAll additions).addAll more := List.foldl_append ..

section
variable {a : Contents} {additions : List Addition}

theorem addAll_keeps {P : Contents → Prop} (hput : ∀ a name source, P a → P (a.put name source))
    (hnote : ∀ a text, P a → P (a.note text)) (h : P a) : P (a.addAll additions) := by
  unfold addAll
  induction additions generalizing a with
  | nil => exact h
  | cons x rest ih =>
    refine ih ?_
    cases x with
    | entry name source => exact hput a name source h
    | note text => exact hnote a text h

@[simp] theorem root_addAll : (a.addAll additions).root = a.root :=
  addAll_keeps (P := fun b => b.root = a.root) (fun _ _ _ h => h) (fun _ _ h => h) rfl

theorem mem_names_addAll {n : String} :
    n ∈ (a.addAll additions).names ↔ n ∈ a.names ∨ ∃ source, .entry n source ∈ additions := by
  unfold addAll
  induction additions generalizing a with
  | nil => simp
  | cons x rest ih =>
    rw [List.foldl_cons, ih]
    cases x with
    | entry name source =>
      show n ∈ (a.put name source).names ∨ _ ↔ _
      simp only [mem_names_put, List.mem_cons, Addition.entry.injEq, exists_or, exists_and_left, exists_eq,
        and_true]
      tauto
    | note text =>
      show n ∈ a.names ∨ _ ↔ _
      simp

/-- What is added under other names leaves an entry as it is. -/
theorem source?_addAll_of_notMem {n : String} (h : ∀ source, .entry n source ∉ additions) :
    (a.addAll additions).source? n = a.source? n := by
  unfold addAll
  induction additions generalizing a with
  | nil => rfl
  | cons x rest ih =>
    rw [List.foldl_cons, ih fun source hm => h source (List.mem_cons_of_mem _ hm)]
    cases x with
    | entry name source =>
      have hne : n ≠ name := by rintro rfl; exact h source List.mem_cons_self
      exact (source?_put a name source n).trans (if_neg hne)
    | note text => rfl

/-- What is added under one name from one place only comes from there. -/
theorem source?_addAll_of_mem {n : String} {source : Source} (hmem : .entry n source ∈ additions)
    (h : ∀ s, .entry n s ∈ additions → s = source) : (a.addAll additions).source? n = some source := by
  unfold addAll
  induction additions generalizing a with
  | nil => cases hmem
  | cons x rest ih =>
    by_cases hlater : .entry n source ∈ rest
    · exact ih hlater fun s hs => h s (List.mem_cons_of_mem _ hs)
    · have hnone : ∀ s, .entry n s ∉ rest := fun s hs =>
        hlater (h s (List.mem_cons_of_mem _ hs) ▸ hs)
      obtain rfl : Addition.entry n source = x := (List.mem_cons.1 hmem).resolve_right hlater
      refine (source?_addAll_of_notMem hnone).trans ?_
      exact (source?_put a n source n).trans (if_pos rfl)

end

/-! ## Collecting by a script -/

/-- Collecting reads of the contents only their root: it ends the same way on all contents of a root, and adds
the same to them. -/
def Scripted {α : Type} (c : Collect α) : Prop :=
  ∀ root, ∃ r additions, ∀ a : Contents, a.root = root → c.run.run a = (r, a.addAll additions)

section
variable {α β : Type}

theorem scripted_pure (x : α) : Scripted (pure x) := fun _ => ⟨.ok x, [], fun _ _ => rfl⟩

theorem scripted_throw (e : Error) : Scripted (throw e : Collect α) := fun _ =>
  ⟨.error e, [], fun _ _ => rfl⟩

theorem scripted_bind {c : Collect α} {k : α → Collect β} (hc : Scripted c) (hk : ∀ x, Scripted (k x)) :
    Scripted (c >>= k) := by
  intro root
  obtain ⟨r, additions, hr⟩ := hc root
  rcases r with e | x
  · refine ⟨.error e, additions, fun a ha => ?_⟩
    rw [run_bind, hr a ha]
  · obtain ⟨r, more, hr'⟩ := hk x root
    refine ⟨r, additions ++ more, fun a ha => ?_⟩
    rw [run_bind, hr a ha, addAll_append]
    exact hr' _ (root_addAll.trans ha)

theorem scripted_get {k : Contents → Collect β} (hk : ∀ a, Scripted (k a))
    (hroot : ∀ a b : Contents, a.root = b.root → k a = k b) : Scripted (get >>= k) := by
  intro root
  obtain ⟨r, additions, hr⟩ := hk ⟨root, [], []⟩ root
  refine ⟨r, additions, fun a ha => ?_⟩
  show (k a).run.run a = _
  rw [hroot a ⟨root, [], []⟩ ha]
  exact hr a ha

theorem scripted_forM {f : α → Collect PUnit} (hf : ∀ x, Scripted (f x)) (l : List α) :
    Scripted (l.forM f) := by
  induction l with
  | nil => exact scripted_pure _
  | cons x l ih => exact scripted_bind (hf x) fun _ => ih

theorem scripted_ofExcept (r : Except Error α) : Scripted (Collect.ofExcept r) := by
  rcases r with e | x
  · exact scripted_throw e
  · exact scripted_pure x

theorem scripted_ofDisk (r : Except FileFault α) : Scripted (Collect.ofDisk r) := by
  rcases r with e | x
  · exact scripted_throw _
  · exact scripted_pure x

end

theorem scripted_add (name : String) (source : Source) : Scripted (Collect.add name source) :=
  fun _ => ⟨.ok (), [.entry name source], fun _ _ => rfl⟩

theorem scripted_note (text : String) : Scripted (modify (·.note text)) :=
  fun _ => ⟨.ok (), [.note text], fun _ _ => rfl⟩

theorem putFiles_eq (a : Contents) (files : List String) : a.putFiles files = a.addAll
    (files.map fun file => .entry (Path.bareText file) (.file (a.root / Path.bareText file))) := by
  unfold putFiles addAll
  induction files generalizing a with
  | nil => rfl
  | cons file rest ih => exact ih _

theorem scripted_putFiles (files : List String) : Scripted (modify (·.putFiles files)) := by
  refine fun root => ⟨.ok (), files.map fun file =>
    .entry (Path.bareText file) (.file (root / Path.bareText file)), fun a ha => ?_⟩
  subst ha
  exact congrArg (Prod.mk _) (putFiles_eq a files)

theorem mem_names_putFiles {n : String} {files : List String} {a : Contents} :
    n ∈ (a.putFiles files).names ↔ n ∈ a.names ∨ n ∈ files.map Path.bareText := by
  unfold putFiles
  induction files generalizing a with
  | nil => simp
  | cons file rest ih =>
    rw [List.foldl_cons, ih, mem_names_put, List.map_cons, List.mem_cons]
    tauto

/-- What lies below a directory has there the name that is made up of the names that lead to it. -/
theorem nameInside_extend (p : Path) {names : List String} (hnames : ∀ n ∈ names, IsPiece n) :
    nameInside p (p.extend names) = joined names := by
  obtain ⟨q, hq, hbelow⟩ := moves_stripPrefix (startsWith_extend p hnames)
  unfold nameInside
  rw [hq, Option.getD_some, slashText_eq, hbelow]
  unfold Path.below
  rw [moves_extend p hnames, List.drop_left]

section
variable (d : Disk)

/-- What is added for the files of a generated tree. -/
def generatedFiles (location : String) (dir : Path) (entries : List (Path × EntryType)) : List Addition :=
  (entries.filter fun e => e.2 = .file).map fun e =>
    .entry (Path.bareText (Path.slashJoin location (nameInside dir e.1))) (.file e.1)

theorem run_replaceTree {location : String} {dir : Path} (a : Contents) :
    (replaceTree d location dir).run.run a = match d.tree dir with
      | .error e => (.error (.file e), a)
      | .ok entries => (.ok (), a.addAll (generatedFiles location dir entries)) := by
  unfold replaceTree
  rcases d.tree dir with e | entries
  · rfl
  dsimp only [Collect.ofDisk]
  rw [run_bind]
  show (forIn entries PUnit.unit _ >>= fun _ => pure () : Collect Unit).run.run a = _
  unfold generatedFiles addAll
  induction entries generalizing a with
  | nil => rfl
  | cons e rest ih =>
    obtain ⟨path, type⟩ := e
    rw [List.forIn_cons]
    by_cases htype : type = .file
    · subst htype
      rw [List.filter_cons_of_pos (by simp), List.map_cons, List.foldl_cons, ← ih]
      rfl
    · rw [List.filter_cons_of_neg (by simpa using htype), ← ih]
      dsimp only
      rw [if_neg htype]
      rfl

theorem scripted_replaceTree (location : String) (dir : Path) : Scripted (replaceTree d location dir) := by
  intro root
  rcases htree : d.tree dir with e | entries
  · exact ⟨.error (.file e), [], fun a _ => by rw [run_replaceTree, htree]; rfl⟩
  · exact ⟨.ok (), generatedFiles location dir entries, fun a _ => by rw [run_replaceTree, htree]⟩

theorem scripted_addEntries {link : String → Path → Collect Unit}
    (hlink : ∀ name path, Scripted (link name path)) (name : String) (dir : Path)
    (entries : List (Path × EntryType)) : Scripted (addEntries link name dir entries) := by
  induction entries with
  | nil => exact scripted_pure _
  | cons e rest ih =>
    obtain ⟨path, _ | _ | _⟩ := e
    · exact scripted_bind (scripted_add _ _) fun _ => ih
    · exact scripted_bind (hlink _ _) fun _ => ih
    · exact scripted_bind (scripted_add _ _) fun _ => ih

theorem scripted_addBelow {link : String → Path → Collect Unit}
    (hlink : ∀ name path, Scripted (link name path)) (name : String) (dir : Path) :
    Scripted (addBelow d link name dir) :=
  scripted_bind (scripted_ofDisk _) fun entries => scripted_addEntries hlink name dir entries

theorem scripted_addLink (fuel : Nat) (name : String) (link : Path) :
    Scripted (addLink d fuel name link) := by
  induction fuel generalizing name link with
  | zero => exact scripted_throw _
  | succ fuel ih =>
    unfold addLink
    split
    · exact scripted_note _
    · exact scripted_throw _
    · refine scripted_get (fun a => ?_) fun a b h => by rw [h]
      split
      · exact scripted_add _ _
      · split
        · exact scripted_addBelow d ih name _
        · exact scripted_add _ _

theorem scripted_addInPlace (path : Path) : Scripted (addInPlace d path) := by
  refine scripted_get (fun a => scripted_bind (scripted_ofExcept _) fun name =>
    scripted_bind (scripted_ofDisk _) fun type => ?_) fun a b h => by rw [h]
  split
  · exact scripted_addLink d _ _ _
  · exact scripted_addBelow d (scripted_addLink d _) _ _
  · exact scripted_add _ _

theorem scripted_addMatching (pattern : String) : Scripted (addMatching d pattern) := by
  refine scripted_get (fun a => scripted_bind (scripted_ofExcept _) fun paths =>
    scripted_bind (scripted_forM (scripted_addInPlace d) paths) fun _ => ?_) fun a b h => by rw [h]
  split
  · exact scripted_note _
  · exact scripted_pure _

theorem scripted_addNamed (extra : String) : Scripted (addNamed d extra) := by
  refine scripted_get (fun a => ?_) fun a b h => by rw [h]
  dsimp only
  split
  · exact scripted_addInPlace d _
  · split
    · exact scripted_addMatching d _
    · exact scripted_note _
  · exact scripted_throw _

theorem scripted_addAllNamed (extras : List String) : Scripted (addAllNamed d extras) :=
  scripted_forM (scripted_addNamed d) extras

end

/-! ## Collecting that succeeds -/

section
variable {α β : Type} {c : Collect α} {a a' : Contents} {x : α}

theorem run_get_bind (k : Contents → Collect β) (a : Contents) :
    (get >>= k).run.run a = (k a).run.run a := rfl

theorem gives_get_bind {k : Contents → Collect β} {a a' : Contents} {y : β} :
    Gives (get >>= k) a y a' ↔ Gives (k a) a y a' := Iff.rfl

theorem gives_ofExcept {r : Except Error α} : Gives (Collect.ofExcept r) a x a' ↔ r = .ok x ∧ a' = a := by
  rcases r with e | y
  · exact ⟨fun h => absurd h gives_throw, fun h => nomatch h.1⟩
  · rw [Except.ok.injEq, @eq_comm _ y x]
    exact gives_pure

theorem gives_ofDisk {r : Except FileFault α} : Gives (Collect.ofDisk r) a x a' ↔ r = .ok x ∧ a' = a := by
  rcases r with e | y
  · exact ⟨fun h => absurd h gives_throw, fun h => nomatch h.1⟩
  · rw [Except.ok.injEq, @eq_comm _ y x]
    exact gives_pure

/-- What collecting adds to some contents it adds to all others of the same root. -/
theorem Scripted.exists_additions (hc : Scripted c) (h : Gives c a x a') :
    ∃ additions, a' = a.addAll additions ∧
      ∀ b : Contents, b.root = a.root → Gives c b x (b.addAll additions) := by
  obtain ⟨r, additions, hr⟩ := hc a.root
  have ha := hr a rfl
  rw [show c.run.run a = _ from h] at ha
  obtain ⟨rfl, rfl⟩ := Prod.mk.inj ha
  exact ⟨additions, rfl, hr⟩

theorem Scripted.root_eq (hc : Scripted c) (h : Gives c a x a') : a'.root = a.root := by
  obtain ⟨additions, rfl, -⟩ := hc.exists_additions h
  exact root_addAll

theorem Scripted.mem_names (hc : Scripted c) (h : Gives c a x a') {n : String} (hn : n ∈ a.names) :
    n ∈ a'.names := by
  obtain ⟨additions, rfl, -⟩ := hc.exists_additions h
  exact mem_names_addAll.2 (.inl hn)

theorem Scripted.ordered (hc : Scripted c) (h : Gives c a x a') (ha : a.Ordered) : a'.Ordered := by
  obtain ⟨additions, rfl, -⟩ := hc.exists_additions h
  exact addAll_keeps (fun _ name source h => ordered_put h name source) (fun _ _ h => h) ha

end

/-- Extras that are added on their own, to nothing that was collected before, bring in an entry of this name. -/
def Brings (d : Disk) (root : Path) (extras : List String) (n : String) : Prop :=
  ∃ b, Gives (addAllNamed d extras) (create d root) () b ∧ n ∈ b.names

section
variable {d : Disk} {root : Path} {extras : List String} {a a' : Contents}

/-- The names after some extras are those before them and those that the extras bring in. -/
theorem mem_names_addAllNamed (ha : a.root = (create d root).root)
    (h : Gives (addAllNamed d extras) a () a') {n : String} :
    n ∈ a'.names ↔ n ∈ a.names ∨ Brings d root extras n := by
  obtain ⟨additions, rfl, hb⟩ := (scripted_addAllNamed d extras).exists_additions h
  have hown := hb (create d root) ha.symm
  have hbrings : Brings d root extras n ↔ n ∈ ((create d root).addAll additions).names := by
    refine ⟨?_, fun hn => ⟨_, hown, hn⟩⟩
    rintro ⟨b, hgives, hn⟩
    obtain ⟨-, rfl⟩ := Prod.mk.inj (hgives.symm.trans hown)
    exact hn
  rw [hbrings, mem_names_addAll, mem_names_addAll]
  exact or_congr_right (or_iff_right List.not_mem_nil).symm

/-- Where the extras bring in no entry of a name the one from before is left as it is. -/
theorem source?_addAllNamed (ha : a.root = (create d root).root)
    (h : Gives (addAllNamed d extras) a () a') {n : String} (hn : ¬ Brings d root extras n) :
    a'.source? n = a.source? n := by
  obtain ⟨additions, rfl, hb⟩ := (scripted_addAllNamed d extras).exists_additions h
  refine source?_addAll_of_notMem fun source hm => hn ⟨_, hb _ ha.symm, ?_⟩
  exact mem_names_addAll.2 (.inr ⟨source, hm⟩)

end

end Stowage.Archive.Contents
