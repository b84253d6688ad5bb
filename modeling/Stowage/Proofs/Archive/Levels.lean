/-
How many links out of the root are followed into each other. Where some number of them is enough, more of them change
nothing. Each of them leads to one of the directories of the disk, so that with one more of them than there are
directories nothing changes either, even where they are not enough.
-/
import Stowage.Proofs.Archive.Extras

open Stowage.Path

namespace Stowage.Archive.Contents

open Disk Glob

/-! ## Extras with any way of adding links -/

section
variable (d : Disk) (link : String → Path → Collect Unit)

def addInPlaceBy (path : Path) : Collect Unit := do
  let name ← Collect.ofExcept (nameBelow path (← get).root)
  match ← Collect.ofDisk (d.typeOf path) with
  | .link => link name path
  | .directory => addBelow d link name path
  | .file => Collect.add name (.file path)

def addMatchingBy (pattern : String) : Collect Unit := do
  let pattern := literal (← get).root.text ++ "/" ++ pattern
  let paths ← Collect.ofExcept ((expand d caseless pattern).mapError Error.pattern)
  paths.forM (addInPlaceBy d link)
  if paths.isEmpty then modify (·.note ("No matches for extra pattern " ++ pattern))

def addNamedBy (extra : String) : Collect Unit := do
  let name := bareText extra
  let path := (← get).root / name
  match d.typeOf path with
  | .ok _ => addInPlaceBy d link path
  | .error .notFound =>
    if isPattern name then addMatchingBy d link name
    else modify (·.note ("Skip missing extra " ++ extra))
  | .error fault => throw (.file fault)

def addAllNamedBy (extras : List String) : Collect Unit := extras.forM (addNamedBy d link)

end

theorem addInPlace_eq (d : Disk) : addInPlace d = addInPlaceBy d (addLink d (linkDepth d)) := rfl

theorem addAllNamed_eq (d : Disk) (extras : List String) :
    addAllNamed d extras = addAllNamedBy d (addLink d (linkDepth d)) extras := by
  have hmatching : addMatching d = addMatchingBy d (addLink d (linkDepth d)) := by
    funext pattern
    unfold addMatching addMatchingBy
    rw [addInPlace_eq]
  have hnamed : addNamed d = addNamedBy d (addLink d (linkDepth d)) := by
    funext extra
    unfold addNamed addNamedBy
    refine congrArg (get >>= ·) (funext fun a => ?_)
    dsimp only
    rcases d.typeOf (a.root / bareText extra) with e | type
    · rewrite [hmatching]
      cases e <;> rfl
    · rfl
  unfold addAllNamed addAllNamedBy
  rw [hnamed]

/-- The link leads to a directory outside the root. -/
structure LeadsOut (d : Disk) (root link target : Path) : Prop where
  canonical : d.canonicalize link = .ok target
  outside : target.nameBelow? root = none
  directory : d.isDirectory target = true

/-- The link is met before any other one is followed: an extra designates it, or a directory with it in its tree. -/
inductive Met (d : Disk) (root : Path) (extras : List String) : Path → Prop
  | itself {extra : String} {p : Path} (he : extra ∈ extras) (h : Designates d root extra p)
      (ht : d.typeOf p = .ok .link) : Met d root extras p
  | inside {extra : String} {p q : Path} {entries : List (Path × EntryType)} (he : extra ∈ extras)
      (h : Designates d root extra p) (ht : d.typeOf p = .ok .directory) (htree : d.tree p = .ok entries)
      (hq : (q, .link) ∈ entries) : Met d root extras q

/-! ## Comparing part by part -/

/-- A relation between ways of collecting on contents of a root that holds where it holds of their parts. -/
structure Parts (root : Path) (R : {α : Type} → Collect α → Collect α → Prop) : Prop where
  refl : ∀ {α : Type} {c : Collect α}, Scripted c → Fails (· ≠ .endlessLinks) c → R c c
  bind : ∀ {α β : Type} {c c' : Collect α} {k k' : α → Collect β}, R c c' → (∀ x, R (k x) (k' x)) →
    R (c >>= k) (c' >>= k')
  get : ∀ {β : Type} {k k' : Contents → Collect β}, (∀ a a', a.root = root → a'.root = root → R (k a) (k' a')) →
    R (get >>= k) (get >>= k')

section
variable {d : Disk} {root : Path} {R : {α : Type} → Collect α → Collect α → Prop} (hR : Parts root R)
include hR

namespace Parts

theorem pure {α : Type} (x : α) : R (Pure.pure x : Collect α) (Pure.pure x) := hR.refl (scripted_pure x) (fails_pure x)

theorem fault {α : Type} (fault : FileFault) : R (throw (.file fault) : Collect α) (throw (.file fault)) :=
  hR.refl (scripted_throw _) (fails_throw nofun)

theorem add (name : String) (source : Source) : R (Collect.add name source) (Collect.add name source) :=
  hR.refl (scripted_add name source) fun _ _ h => nomatch h

theorem note (text : String) : R (modify (·.note text) : Collect PUnit) (modify (·.note text)) :=
  hR.refl (scripted_note text) fun _ _ h => nomatch h

theorem ofDisk_bind {α β : Type} {r : Except FileFault α} {k k' : α → Collect β}
    (hk : ∀ x, r = .ok x → R (k x) (k' x)) : R (Collect.ofDisk r >>= k) (Collect.ofDisk r >>= k') := by
  rcases r with f | x
  · exact hR.fault f
  · exact hk x rfl

theorem ofExcept_bind {α β : Type} {r : Except Error α} (hr : r ≠ .error .endlessLinks) {k k' : α → Collect β}
    (hk : ∀ x, r = .ok x → R (k x) (k' x)) : R (Collect.ofExcept r >>= k) (Collect.ofExcept r >>= k') := by
  rcases r with e | x
  · refine hR.refl (c := (throw e : Collect β)) (scripted_throw e) (fails_throw ?_)
    rintro rfl
    exact hr rfl
  · exact hk x rfl

theorem forM {α : Type} {f g : α → Collect PUnit} {l : List α} (h : ∀ x ∈ l, R (f x) (g x)) :
    R (l.forM f) (l.forM g) := by
  induction l with
  | nil => exact hR.pure _
  | cons x l ih =>
    rw [List.forall_mem_cons] at h
    exact hR.bind h.1 fun _ => ih h.2

variable {link link' : String → Path → Collect Unit}

theorem addEntries {name : String} {dir : Path} {entries : List (Path × EntryType)}
    (h : ∀ q, (q, .link) ∈ entries → ∀ n, R (link n q) (link' n q)) :
    R (addEntries link name dir entries) (Contents.addEntries link' name dir entries) := by
  induction entries with
  | nil => exact hR.pure _
  | cons e rest ih =>
    have hrest := ih fun q hq => h q (List.mem_cons_of_mem _ hq)
    obtain ⟨q, _ | _ | _⟩ := e
    · exact hR.bind (hR.add _ _) fun _ => hrest
    · exact hR.bind (h q List.mem_cons_self _) fun _ => hrest
    · exact hR.bind (hR.add _ _) fun _ => hrest

theorem addBelow {name : String} {dir : Path}
    (h : ∀ entries q, d.tree dir = .ok entries → (q, .link) ∈ entries → ∀ n, R (link n q) (link' n q)) :
    R (addBelow d link name dir) (Contents.addBelow d link' name dir) :=
  hR.ofDisk_bind fun entries htree => hR.addEntries fun q hq => h entries q htree hq

/-- One more link out of the root. -/
theorem addLink {n m : Nat} {name : String} {p : Path} (h : ∀ q, LeadsOut d root p q →
      R (Contents.addBelow d (addLink d n) name q) (Contents.addBelow d (addLink d m) name q)) :
    R (addLink d (n + 1) name p) (Contents.addLink d (m + 1) name p) := by
  unfold Contents.addLink
  split
  · exact hR.note _
  · exact hR.fault _
  · rename_i target ht
    refine hR.get fun a a' ha ha' => ?_
    rw [ha, ha']
    split
    · exact hR.add _ _
    · rename_i hout
      split
      · rename_i hdir
        exact h target ⟨ht, hout, hdir⟩
      · exact hR.add _ _

theorem addAllNamedBy {extras : List String}
    (h : ∀ q, Met d root extras q → ∀ n, R (link n q) (link' n q)) :
    R (addAllNamedBy d link extras) (Contents.addAllNamedBy d link' extras) := by
  have hplace : ∀ extra ∈ extras, ∀ p, Designates d root extra p →
      R (addInPlaceBy d link p) (addInPlaceBy d link' p) := by
    intro extra he p hp
    refine hR.get fun a a' ha ha' => ?_
    rw [ha, ha']
    refine hR.ofExcept_bind ?_ fun name _ => hR.ofDisk_bind fun type ht => ?_
    · unfold nameBelow
      split <;> nofun
    · rcases type with _ | _ | _
      · exact hR.add _ _
      · exact h p (.itself he hp ht) name
      · exact hR.addBelow fun entries q htree hq => h q (.inside he hp ht htree hq)
  refine hR.forM fun extra he => hR.get fun a a' ha ha' => ?_
  dsimp only
  rw [ha, ha']
  split
  · rename_i ht
    exact hplace extra he _ (.itself ht)
  · rename_i hmissing
    split
    · rename_i hpattern
      refine hR.get fun a a' ha ha' => ?_
      dsimp only
      rw [ha, ha']
      rcases hx : expand d caseless (literal root.text ++ "/" ++ bareText extra) with f | paths
      · exact hR.ofExcept_bind (r := .error (.pattern f)) nofun fun _ hnone => nomatch hnone
      · refine hR.ofExcept_bind (r := .ok paths) nofun fun x hsome => ?_
        cases hsome
        refine hR.bind (hR.forM fun p hp => hplace extra he p (.matched hpattern hmissing hx hp)) fun _ => ?_
        split
        · exact hR.note _
        · exact hR.pure _
    · exact hR.note _
  · exact hR.fault _

end Parts

end

/-! ## More links change nothing -/

/-- On contents of the root either there are links without end, or the other way does the same. -/
def Refines (root : Path) {α : Type} (c c' : Collect α) : Prop :=
  ∀ a, a.root = root → (c.run.run a).1 = .error .endlessLinks ∨
    c.run.run a = c'.run.run a ∧ (c.run.run a).2.root = root

/-- On contents of the root both ways end in the same, whatever else was collected before. -/
def SameEnd (root : Path) {α : Type} (c c' : Collect α) : Prop :=
  ∀ a a', a.root = root → a'.root = root → (c.run.run a).1 = (c'.run.run a').1 ∧
    (c.run.run a).2.root = root ∧ (c'.run.run a').2.root = root

theorem root_run {α : Type} {c : Collect α} (hc : Scripted c) (a : Contents) : (c.run.run a).2.root = a.root := by
  obtain ⟨r, additions, hr⟩ := hc a.root
  rw [hr a rfl]
  exact root_addAll

theorem parts_refines (root : Path) : Parts root (Refines root) := by
  constructor
  · intro α c hc _ a ha
    exact .inr ⟨rfl, (root_run hc a).trans ha⟩
  · intro α β c c' k k' hc hk a ha
    rw [run_bind, run_bind]
    rcases hc a ha with hend | ⟨hsame, hroot⟩
    · rcases hrun : c.run.run a with ⟨e | x, b⟩
      · rw [hrun] at hend
        cases hend
        exact .inl rfl
      · rw [hrun] at hend; cases hend
    · rw [← hsame]
      rcases hrun : c.run.run a with ⟨e | x, b⟩
      · rw [hrun] at hroot
        exact .inr ⟨rfl, hroot⟩
      · rw [hrun] at hroot
        exact hk x b hroot
  · intro β k k' hk a ha
    exact hk a a ha ha a ha

theorem parts_sameEnd (root : Path) : Parts root (SameEnd root) := by
  constructor
  · intro α c hc _ a a' ha ha'
    obtain ⟨r, additions, hr⟩ := hc root
    rw [hr a ha, hr a' ha']
    exact ⟨rfl, root_addAll.trans ha, root_addAll.trans ha'⟩
  · intro α β c c' k k' hc hk a a' ha ha'
    obtain ⟨hsame, hroot, hroot'⟩ := hc a a' ha ha'
    rw [run_bind, run_bind]
    rcases hrun : c.run.run a with ⟨e | x, b⟩ <;> rcases hrun' : c'.run.run a' with ⟨e' | x', b'⟩ <;>
      rw [hrun] at hsame hroot <;> rw [hrun'] at hsame hroot' <;> cases hsame
    · exact ⟨rfl, hroot, hroot'⟩
    · exact hk x b b' hroot hroot'
  · intro β k k' hk a a' ha ha'
    exact hk a a' ha ha' a a' ha ha'

/-- Where some links out of the root are enough, more of them do the same. -/
theorem refines_addLink (d : Disk) (root : Path) {n m : Nat} (hnm : n ≤ m) (name : String) (p : Path) :
    Refines root (addLink d n name p) (addLink d m name p) := by
  induction n generalizing m name p with
  | zero => exact fun _ _ => .inl rfl
  | succ n ih =>
    obtain ⟨m, rfl⟩ : ∃ k, m = k + 1 := ⟨m - 1, by omega⟩
    apply (parts_refines root).addLink
    intro q _
    apply (parts_refines root).addBelow
    intro _ l _ _ name
    exact ih (by omega) name l

section
variable (d : Disk) (root : Path)

theorem sameEnd_addBelow {link : String → Path → Collect Unit}
    (hlink : ∀ n n' p, SameEnd root (link n p) (link n' p)) (name name' : String) (dir : Path) :
    SameEnd root (addBelow d link name dir) (addBelow d link name' dir) := by
  have hadd : ∀ n n' source, SameEnd root (Collect.add n source) (Collect.add n' source) :=
    fun _ _ _ _ _ ha ha' => ⟨rfl, ha, ha'⟩
  refine (parts_sameEnd root).ofDisk_bind fun entries htree => ?_
  clear htree
  induction entries with
  | nil => exact (parts_sameEnd root).pure _
  | cons e rest ih =>
    obtain ⟨q, _ | _ | _⟩ := e
    · exact (parts_sameEnd root).bind (hadd _ _ _) fun _ => ih
    · exact (parts_sameEnd root).bind (hlink _ _ _) fun _ => ih
    · exact (parts_sameEnd root).bind (hadd _ _ _) fun _ => ih

/-- How adding a link ends does not depend on its name. -/
theorem sameEnd_addLink (n : Nat) (name name' : String) (p : Path) :
    SameEnd root (addLink d n name p) (addLink d n name' p) := by
  induction n generalizing name name' p with
  | zero => exact fun _ _ ha ha' => ⟨rfl, ha, ha'⟩
  | succ n ih =>
    unfold addLink
    split
    · exact fun _ _ ha ha' => ⟨rfl, ha, ha'⟩
    · exact (parts_sameEnd root).fault _
    · refine (parts_sameEnd root).get fun a a' ha ha' => ?_
      rw [ha, ha']
      split
      · exact fun _ _ ha ha' => ⟨rfl, ha, ha'⟩
      · split
        · exact sameEnd_addBelow d root ih name name' _
        · exact fun _ _ ha ha' => ⟨rfl, ha, ha'⟩

/-! ## Enough links -/

/-- How adding the tree of a directory ends if some number of links out of the root may follow each other in it. -/
def ending (n : Nat) (dir : Path) : Except Error Unit :=
  ((addBelow d (addLink d n) "" dir).run.run ⟨root, [], []⟩).1

variable {d root}

theorem run_addBelow {n : Nat} {name : String} {dir : Path} {a : Contents} (ha : a.root = root) :
    ((addBelow d (addLink d n) name dir).run.run a).1 = ending d root n dir :=
  (sameEnd_addBelow d root (sameEnd_addLink d root n) name "" dir a ⟨root, [], []⟩ ha rfl).1

variable (d root) in
theorem ending_mono {n m : Nat} (hnm : n ≤ m) (dir : Path) :
    ending d root n dir = .error .endlessLinks ∨ ending d root n dir = ending d root m dir := by
  have hrefines : Refines root (addBelow d (addLink d n) "" dir) (addBelow d (addLink d m) "" dir) :=
    (parts_refines root).addBelow fun _ q _ _ name => refines_addLink d root hnm name q
  rcases hrefines ⟨root, [], []⟩ rfl with hend | ⟨hsame, -⟩
  · exact .inl hend
  · exact .inr (congrArg Prod.fst hsame)

/-- One more link out of the root changes nothing for the directories that links lead to. -/
def Enough (d : Disk) (root : Path) (n : Nat) : Prop :=
  ∀ link dir, LeadsOut d root link dir → ending d root n dir = ending d root (n + 1) dir

/-- If one more link changes nothing, then neither do two. -/
theorem Enough.succ {n : Nat} (h : Enough d root n) : Enough d root (n + 1) := by
  intro _ dir _
  have hsame : SameEnd root (addBelow d (addLink d (n + 1)) "" dir) (addBelow d (addLink d (n + 1 + 1)) "" dir) := by
    apply (parts_sameEnd root).addBelow
    intro _ link _ _ name
    apply (parts_sameEnd root).addLink
    intro q hq a a' ha ha'
    refine ⟨?_, ?_, ?_⟩
    · rw [run_addBelow ha, run_addBelow ha', h link q hq]
    · exact (root_run (scripted_addBelow d (scripted_addLink d n) name q) a).trans ha
    · exact (root_run (scripted_addBelow d (scripted_addLink d (n + 1)) name q) a').trans ha'
  exact (hsame ⟨root, [], []⟩ ⟨root, [], []⟩ rfl rfl).1

/-- Links out of the root lead to the directories of the disk. -/
def places (d : Disk) : Finset Path := (([] :: d.entries.map Prod.fst).map ofLocation).toFinset

theorem card_places_le (d : Disk) : (places d).card ≤ d.entries.length + 1 := by
  have hlist := List.toFinset_card_le (([] :: d.entries.map Prod.fst).map ofLocation)
  refine hlist.trans ?_
  simp

theorem LeadsOut.mem_places (hd : d.Sound) {link dir : Path} (h : LeadsOut d root link dir) : dir ∈ places d := by
  obtain ⟨loc, e, rfl, he, -⟩ := entry?_of_canonicalize hd h.canonical
  apply List.mem_toFinset.2
  apply List.mem_map_of_mem
  by_cases hloc : loc = []
  · rw [hloc]
    exact List.mem_cons_self
  · exact List.mem_cons_of_mem _ (List.mem_map_of_mem (mem_entries hloc he))

/-- There are no more directories than links are enough: while one more link changes something it does so for a
directory for which no link changed anything before. -/
theorem exists_enough (hd : d.Sound) : ∃ n ≤ d.entries.length + 1, Enough d root n := by
  by_contra hnone
  have hchange : ∀ n : Fin (d.entries.length + 2), ∃ dir ∈ places d,
      ending d root n dir ≠ ending d root (n + 1) dir := by
    intro n
    by_contra hno
    refine hnone ⟨n, by omega, fun link dir hout => ?_⟩
    by_contra hne
    exact hno ⟨dir, hout.mem_places hd, hne⟩
  choose f hmem hf using hchange
  have hcard : (places d).card < (Finset.univ : Finset (Fin (d.entries.length + 2))).card := by
    rw [Finset.card_univ, Fintype.card_fin]
    have := card_places_le d
    omega
  obtain ⟨i, -, j, -, hij, heq⟩ := Finset.exists_ne_map_eq_of_card_lt_of_maps_to hcard fun n _ => hmem n
  wlog hlt : i < j generalizing i j
  · exact this j i hij.symm heq.symm (lt_of_le_of_ne (not_lt.1 hlt) hij.symm)
  -- the first change is that the links are enough, so there is no second one
  have hbefore := hf i
  have hafter := hf j
  rw [← heq] at hafter
  have hle : (i : Nat) + 1 ≤ j := hlt
  rcases ending_mono d root (Nat.le_succ j) (f i) with hj | hj
  · rcases ending_mono d root hle (f i) with hi | hi
    · rcases ending_mono d root (Nat.le_succ i) (f i) with hi' | hi'
      · exact hbefore (hi'.trans hi.symm)
      · exact hbefore hi'
    · rcases ending_mono d root (Nat.le_succ i) (f i) with hi' | hi'
      · exact hbefore (hi'.trans (hi.trans hj).symm)
      · exact hbefore hi'
  · exact hafter hj

/-- With as many links as there are directories nothing changes any more. -/
theorem ending_eq (hd : d.Sound) {link dir : Path} (h : LeadsOut d root link dir) {n : Nat}
    (hn : d.entries.length + 1 ≤ n) : ending d root n dir = ending d root (d.entries.length + 1) dir := by
  obtain ⟨m, hm, henough⟩ : ∃ m ≤ d.entries.length + 1, Enough d root m := exists_enough hd
  have hall : ∀ k, m ≤ k → Enough d root k := by
    intro k hk
    induction k, hk using Nat.le_induction with
    | base => exact henough
    | succ k _ ih => exact ih.succ
  induction n, hn using Nat.le_induction with
  | base => rfl
  | succ n hn ih => rw [← hall n (by omega) link dir h, ih]

end

/-- Extras are added the same way with any number of links out of the root that follow each other, from one more than
there are directories on: if the links come to an end then all is the same, and else they do not come to an end for
any number. -/
theorem run_addAllNamedBy {d : Disk} (hd : d.Sound) (extras : List String) (a : Contents) :
    (((addAllNamed d extras).run.run a).1 ≠ .error .endlessLinks → ∀ levels, linkDepth d ≤ levels →
      (addAllNamedBy d (addLink d levels) extras).run.run a = (addAllNamed d extras).run.run a) ∧
    (((addAllNamed d extras).run.run a).1 = .error .endlessLinks → ∀ levels,
      ((addAllNamedBy d (addLink d levels) extras).run.run a).1 = .error .endlessLinks) := by
  rw [addAllNamed_eq]
  have hrefines : ∀ {n m}, n ≤ m → Refines a.root (addAllNamedBy d (addLink d n) extras)
      (addAllNamedBy d (addLink d m) extras) := fun hnm =>
    (parts_refines a.root).addAllNamedBy fun q _ name => refines_addLink d a.root hnm name q
  constructor
  · intro hends levels hlevels
    rcases hrefines hlevels a rfl with hend | ⟨hsame, -⟩
    · exact absurd hend hends
    · exact hsame.symm
  · intro hend levels
    rcases Nat.le_total levels (linkDepth d) with hle | hle
    · rcases hrefines hle a rfl with h | ⟨hsame, -⟩
      · exact h
      · rw [hsame, hend]
    · obtain ⟨n, rfl⟩ : ∃ n, levels = n + 1 := ⟨levels - 1, by unfold linkDepth at hle; omega⟩
      have hsame : SameEnd a.root (addAllNamedBy d (addLink d (linkDepth d)) extras)
          (addAllNamedBy d (addLink d (n + 1)) extras) := by
        apply (parts_sameEnd a.root).addAllNamedBy
        intro p _ name
        apply (parts_sameEnd a.root).addLink
        intro q hq b b' hb hb'
        have hn : d.entries.length + 1 ≤ n := by unfold linkDepth at hle; omega
        refine ⟨?_, ?_, ?_⟩
        · rw [run_addBelow hb, run_addBelow hb', ending_eq hd hq hn]
        · exact (root_run (scripted_addBelow d (scripted_addLink d _) name q) b).trans hb
        · exact (root_run (scripted_addBelow d (scripted_addLink d n) name q) b').trans hb'
      rw [← (hsame a a rfl rfl).1, hend]

end Stowage.Archive.Contents
