/-
Links out of the root that have no end. What such a link leads to is added in its place, links in it that lead out
again included, and nothing remembers which directories were there before. So adding has no end exactly where links
lead in a circle outside the root, and a circle that is reached keeps it from succeeding.
-/
import Stowage.Proofs.Archive.Levels
import Stowage.Proofs.Archive.Targets

open Stowage.Path Relation

namespace Stowage.Archive.Contents

open Disk Glob

/-- A link in the tree of a directory leads to another one outside the root. -/
def Onward (d : Disk) (root dir next : Path) : Prop :=
  ∃ entries link, d.tree dir = .ok entries ∧ (link, EntryType.link) ∈ entries ∧ LeadsOut d root link next

/-- The directory is outside the root, and links lead to it from what extras designate. -/
def Reached (d : Disk) (root : Path) (extras : List String) (dir : Path) : Prop :=
  ∃ link first, Met d root extras link ∧ LeadsOut d root link first ∧ ReflTransGen (Onward d root) first dir

theorem Reached.onward {d : Disk} {root dir next : Path} {extras : List String} (h : Reached d root extras dir)
    (hnext : Onward d root dir next) : Reached d root extras next := by
  obtain ⟨link, first, hmet, hout, hway⟩ := h
  exact ⟨link, first, hmet, hout, hway.tail hnext⟩

theorem Reached.leadsOut {d : Disk} {root dir : Path} {extras : List String} (h : Reached d root extras dir) :
    ∃ link, LeadsOut d root link dir := by
  obtain ⟨link, first, -, hout, hway⟩ := h
  cases hway with
  | refl => exact ⟨link, hout⟩
  | tail _ hlast =>
    obtain ⟨_, l, -, -, h⟩ := hlast
    exact ⟨l, h⟩

/-! ## Where there is no end -/

/-- If collecting on contents of the root has no end, then something holds. This is a relation of one way to itself, so
that `Parts` puts it together. -/
def Unless (root : Path) (Q : Prop) {α : Type} (c _ : Collect α) : Prop :=
  ∀ a, a.root = root → (c.run.run a).2.root = root ∧ ((c.run.run a).1 = .error .endlessLinks → Q)

theorem parts_unless (root : Path) (Q : Prop) : Parts root (Unless root Q) := by
  constructor
  · intro α c hc hfails a ha
    exact ⟨(root_run hc a).trans ha, fun h => absurd rfl (hfails a _ h)⟩
  · intro α β c c' k k' hc hk a ha
    obtain ⟨hroot, hend⟩ := hc a ha
    rw [run_bind]
    rcases hrun : c.run.run a with ⟨e | x, b⟩ <;> rw [hrun] at hroot hend
    · exact ⟨hroot, fun h => hend (by cases h; rfl)⟩
    · exact hk x b hroot
  · intro β k k' hk a ha
    exact hk a a ha ha a ha

section
variable {d : Disk} {root : Path} (hd : d.Sound)

variable (d root) in
/-- A link without an end leads out of the root, to a directory without an end. -/
theorem unless_addLink (n : Nat) (name : String) (link : Path) :
    Unless root (∃ dir, LeadsOut d root link dir ∧ ending d root n dir = .error .endlessLinks)
      (addLink d (n + 1) name link) (addLink d (n + 1) name link) := by
  apply (parts_unless root _).addLink
  intro dir hout a ha
  refine ⟨(root_run (scripted_addBelow d (scripted_addLink d n) name dir) a).trans ha, fun h => ?_⟩
  rw [run_addBelow ha] at h
  exact ⟨dir, hout, h⟩

include hd

/-- Where there is no end for as many links as there are directories there is none for any number. -/
theorem endless_of_ending {link dir : Path} (hout : LeadsOut d root link dir)
    (h : ending d root (d.entries.length + 1) dir = .error .endlessLinks) (n : Nat) :
    ending d root n dir = .error .endlessLinks := by
  rcases Nat.le_total n (d.entries.length + 1) with hle | hle
  · rcases ending_mono d root hle dir with hn | hn
    · exact hn
    · rw [hn, h]
  · rw [ending_eq hd hout hle, h]

/-- From a directory without an end a link leads on to another one. -/
theorem exists_onward {dir : Path} (h : ∀ n, ending d root n dir = .error .endlessLinks) :
    ∃ next, Onward d root dir next ∧ ∀ n, ending d root n next = .error .endlessLinks := by
  have hbelow : Unless root (∃ next, Onward d root dir next ∧ ∀ n, ending d root n next = .error .endlessLinks)
      (addBelow d (addLink d (d.entries.length + 1 + 1)) "" dir)
      (addBelow d (addLink d (d.entries.length + 1 + 1)) "" dir) := by
    apply (parts_unless root _).addBelow
    intro entries link htree hmem name a ha
    obtain ⟨hroot, hend⟩ := unless_addLink d root (d.entries.length + 1) name link a ha
    refine ⟨hroot, fun hlink => ?_⟩
    obtain ⟨next, hout, hnext⟩ := hend hlink
    exact ⟨next, ⟨entries, link, htree, hmem, hout⟩, endless_of_ending hd hout hnext⟩
  exact (hbelow ⟨root, [], []⟩ rfl).2 (h _)

/-- If adding extras has no end, then they reach a directory without one. -/
theorem exists_reached {extras : List String} {a : Contents} (ha : a.root = root)
    (h : ((addAllNamed d extras).run.run a).1 = .error .endlessLinks) :
    ∃ dir, Reached d root extras dir ∧ ∀ n, ending d root n dir = .error .endlessLinks := by
  have hall : Unless root (∃ dir, Reached d root extras dir ∧ ∀ n, ending d root n dir = .error .endlessLinks)
      (addAllNamedBy d (addLink d (linkDepth d)) extras) (addAllNamedBy d (addLink d (linkDepth d)) extras) := by
    apply (parts_unless root _).addAllNamedBy
    intro link hmet name b hb
    obtain ⟨hroot, hend⟩ := unless_addLink d root (d.entries.length + 1) name link b hb
    refine ⟨hroot, fun hlink => ?_⟩
    obtain ⟨dir, hout, hdir⟩ := hend hlink
    exact ⟨dir, ⟨link, dir, hmet, hout, .refl⟩, endless_of_ending hd hout hdir⟩
  rw [addAllNamed_eq] at h
  exact (hall a ha).2 h

/-- Links lead on from every directory without an end, and there are finitely many directories. -/
theorem exists_circle {extras : List String} {start : Path} (hstart : Reached d root extras start)
    (h : ∀ n, ending d root n start = .error .endlessLinks) :
    ∃ dir, Reached d root extras dir ∧ TransGen (Onward d root) dir dir := by
  by_contra hnone
  let Endless := {dir : Path // Reached d root extras dir ∧ ∀ n, ending d root n dir = .error .endlessLinks}
  have hfinite : Finite Endless := by
    refine Set.Finite.subset (places d).finite_toSet fun dir hdir => ?_
    obtain ⟨link, hout⟩ := hdir.1.leadsOut
    exact hout.mem_places hd
  let Before : Endless → Endless → Prop := fun x y => TransGen (Onward d root) y.1 x.1
  have htrans : IsTrans Endless Before := ⟨fun _ _ _ hxy hyz => hyz.trans hxy⟩
  have hirrefl : Std.Irrefl Before := ⟨fun x hx => hnone ⟨x.1, x.2.1, hx⟩⟩
  have hwf : WellFounded Before := Finite.wellFounded_of_trans_of_irrefl Before
  obtain ⟨last, -, hlast⟩ := hwf.has_min Set.univ ⟨⟨start, hstart, h⟩, trivial⟩
  obtain ⟨next, honward, hnext⟩ := exists_onward hd last.2.2
  exact hlast ⟨next, last.2.1.onward honward, hnext⟩ trivial (.single honward)

end

/-! ## Where adding succeeds -/

section
variable {d : Disk} {root : Path}

theorem gives_addEntries_link {link : String → Path → Collect Unit} (hlink : ∀ n p, Scripted (link n p))
    {name : String} {dir q : Path} {entries : List (Path × EntryType)} (hq : (q, .link) ∈ entries)
    {a a' : Contents} {u : Unit} (h : Gives (addEntries link name dir entries) a u a') :
    ∃ n b u' b', b.root = a.root ∧ Gives (link n q) b u' b' := by
  induction entries generalizing a with
  | nil => cases hq
  | cons e rest ih =>
    obtain ⟨p, type⟩ := e
    rcases List.mem_cons.1 hq with heq | hrest
    · cases heq
      obtain ⟨u', b, hfirst, -⟩ := gives_bind.1 h
      exact ⟨_, a, u', b, rfl, hfirst⟩
    · obtain ⟨b, hroot, hgives⟩ : ∃ b, b.root = a.root ∧ Gives (addEntries link name dir rest) b u a' := by
        rcases type with _ | _ | _
        · obtain ⟨_, b, hfirst, h⟩ := gives_bind.1 h
          exact ⟨b, (scripted_add _ _).root_eq hfirst, h⟩
        · obtain ⟨_, b, hfirst, h⟩ := gives_bind.1 h
          exact ⟨b, (hlink _ _).root_eq hfirst, h⟩
        · obtain ⟨_, b, hfirst, h⟩ := gives_bind.1 h
          exact ⟨b, (scripted_add _ _).root_eq hfirst, h⟩
      obtain ⟨n, c, v, c', hc, hlinked⟩ := ih hrest hgives
      exact ⟨n, c, v, c', hc.trans hroot, hlinked⟩

/-- What a link out of the root leads to is added with one link less. -/
theorem ending_of_gives {n : Nat} {name : String} {link dir : Path} (hout : LeadsOut d root link dir)
    {a a' : Contents} {u : Unit} (ha : a.root = root) (h : Gives (addLink d n name link) a u a') :
    ∃ m, n = m + 1 ∧ ending d root m dir = .ok () := by
  cases n with
  | zero => exact absurd h gives_throw
  | succ m =>
    refine ⟨m, rfl, ?_⟩
    unfold addLink at h
    rw [hout.canonical] at h
    dsimp only at h
    rw [gives_get_bind, ha, hout.outside] at h
    dsimp only at h
    rw [if_pos hout.directory] at h
    rw [← run_addBelow ha, show (addBelow d (addLink d m) name dir).run.run a = _ from h]

/-- A directory that was added with some links is left with fewer of them. -/
theorem ending_of_onward {n : Nat} {dir next : Path} (h : ending d root n dir = .ok ())
    (hnext : Onward d root dir next) : ∃ m < n, ending d root m next = .ok () := by
  obtain ⟨entries, link, htree, hmem, hout⟩ := hnext
  rcases hrun : (addBelow d (addLink d n) "" dir).run.run ⟨root, [], []⟩ with ⟨e | u, b⟩
  · unfold ending at h
    rw [hrun] at h
    cases h
  · obtain ⟨_, _, htree', hbelow⟩ := gives_bind.1 (show Gives (addBelow d (addLink d n) "" dir) _ u b from hrun)
    obtain ⟨hsame, rfl⟩ := gives_ofDisk.1 htree'
    cases htree.symm.trans hsame
    obtain ⟨name, c, v, c', hroot, hgives⟩ := gives_addEntries_link (scripted_addLink d n) hmem hbelow
    obtain ⟨m, rfl, hm⟩ := ending_of_gives hout hroot hgives
    exact ⟨m, Nat.lt_succ_self m, hm⟩

/-- A directory in a circle cannot have been added: each time around there would be fewer links left. -/
theorem ending_ne_of_circle {dir : Path} (h : TransGen (Onward d root) dir dir) (n : Nat) :
    ending d root n dir ≠ .ok () := by
  induction n using Nat.strong_induction_on with
  | _ n ih =>
    intro hn
    have hfewer : ∀ {next}, TransGen (Onward d root) dir next → ∃ m < n, ending d root m next = .ok () := by
      intro next hway
      induction hway with
      | single hfirst => exact ending_of_onward hn hfirst
      | tail _ hlast ih =>
        obtain ⟨k, hk, hend⟩ := ih
        obtain ⟨m, hm, hend⟩ := ending_of_onward hend hlast
        exact ⟨m, by omega, hend⟩
    obtain ⟨m, hm, hend⟩ := hfewer h
    exact ih m hm hend

/-- Extras that were added have added every link that is met. -/
theorem Met.exists_gives {extras : List String} {a a' : Contents} {u : Unit} {p : Path}
    (hp : Met d a.root extras p) (h : Gives (addAllNamed d extras) a u a') :
    ∃ name b u' b', b.root = a.root ∧ Gives (addLink d (linkDepth d) name p) b u' b' := by
  have hplace : ∀ {extra p type}, extra ∈ extras → Designates d a.root extra p → d.typeOf p = .ok type →
      ∃ name b u' b', b.root = a.root ∧
        (type = .link → Gives (addLink d (linkDepth d) name p) b u' b') ∧
        (type = .directory → Gives (addBelow d (addLink d (linkDepth d)) name p) b u' b') := by
    intro extra p type he hdes ht
    obtain ⟨b, _, b', hb, hnamed⟩ := exists_gives_of_mem (scripted_addNamed d) h he
    obtain ⟨c, v, c', hc, hgives⟩ := (hb.symm ▸ hdes).exists_gives hnamed
    obtain ⟨name, c₁, hname, h₁⟩ := gives_bind.1 (gives_get_bind.1 hgives)
    obtain ⟨-, rfl⟩ := gives_ofExcept.1 hname
    obtain ⟨type', c₂, htype, h₂⟩ := gives_bind.1 h₁
    obtain ⟨hsame, rfl⟩ := gives_ofDisk.1 htype
    cases ht.symm.trans hsame
    refine ⟨name, c₂, v, c', hc.trans hb, ?_, ?_⟩ <;> rintro rfl <;> exact h₂
  cases hp with
  | itself he hdes ht =>
    obtain ⟨name, b, v, b', hb, hlink, -⟩ := hplace he hdes ht
    exact ⟨name, b, v, b', hb, hlink rfl⟩
  | inside he hdes ht htree hq =>
    obtain ⟨name, b, v, b', hb, -, hbelow⟩ := hplace he hdes ht
    obtain ⟨_, _, htree', hentries⟩ := gives_bind.1 (hbelow rfl)
    obtain ⟨hsame, rfl⟩ := gives_ofDisk.1 htree'
    cases htree.symm.trans hsame
    obtain ⟨n, c, v, c', hc, hgives⟩ := gives_addEntries_link (scripted_addLink d _) hq hentries
    exact ⟨n, c, v, c', hc.trans hb, hgives⟩

end

/-- Whatever the disk, adding extras comes to an end with as many links out of the root following each other as there
are directories on it and one more, and then more of them do the same; or it comes to no end with any number of them,
and then links lead from what the extras designate to a circle of directories outside the root. Where such a circle is
reached, extras are not added with success. -/
theorem addAllNamed_ends {d : Disk} (hd : d.Sound) (extras : List String) (a : Contents) :
    (((addAllNamed d extras).run.run a).1 ≠ .error .endlessLinks → ∀ levels, linkDepth d ≤ levels →
      (addAllNamedBy d (addLink d levels) extras).run.run a = (addAllNamed d extras).run.run a) ∧
    (((addAllNamed d extras).run.run a).1 = .error .endlessLinks →
      (∀ levels, ((addAllNamedBy d (addLink d levels) extras).run.run a).1 = .error .endlessLinks) ∧
      ∃ dir, Reached d a.root extras dir ∧ TransGen (Onward d a.root) dir dir) ∧
    ∀ a', Gives (addAllNamed d extras) a () a' → ∀ dir, Reached d a.root extras dir →
      ¬ TransGen (Onward d a.root) dir dir := by
  obtain ⟨hends, hendless⟩ := run_addAllNamedBy hd extras a
  refine ⟨hends, fun h => ⟨hendless h, ?_⟩, ?_⟩
  · obtain ⟨start, hstart, hend⟩ := exists_reached hd rfl h
    exact exists_circle hd hstart hend
  · rintro a' h dir ⟨link, first, hmet, hout, hway⟩ hcircle
    obtain ⟨name, b, u, b', hb, hlink⟩ := hmet.exists_gives h
    obtain ⟨n, -, hfirst⟩ := ending_of_gives hout hb hlink
    -- the circle is reached with some links left
    obtain ⟨m, hm⟩ : ∃ m, ending d a.root m dir = .ok () := by
      clear hcircle
      induction hway with
      | refl => exact ⟨n, hfirst⟩
      | tail _ hlast ih =>
        obtain ⟨k, hk⟩ := ih
        obtain ⟨m, -, hm⟩ := ending_of_onward hk hlast
        exact ⟨m, hm⟩
    exact ending_ne_of_circle hcircle m hm

/-! ### A directory with a link to itself -/

/-- A directory with a link to one beside it, which holds a link to itself. -/
def looped : Disk where
  entries := [(["out"], .directory), (["out", "loop"], .link "."), (["ws"], .directory),
    (["ws", "a.js"], .file (.text "a")), (["ws", "ext"], .link "../out")]
  here := []

theorem sound_looped : looped.Sound := ⟨by decide, by decide⟩

def isEndlessLinks : Error → Bool
  | .endlessLinks => true
  | _ => false

def isEndless : Except Error Unit → Bool
  | .error e => isEndlessLinks e
  | .ok _ => false

theorem eq_of_isEndless {r : Except Error Unit} (h : isEndless r = true) : r = .error .endlessLinks := by
  rcases r with e | _
  · change isEndlessLinks e = true at h
    unfold isEndlessLinks at h
    split at h
    · rfl
    · cases h
  · cases h

/-- The directory is added in its own place again and again, however often. The directory beside the root that holds a
link back into it is added once. -/
theorem addAllNamed_ends_looped :
    Onward looped ⟨"/ws"⟩ ⟨"/out"⟩ ⟨"/out"⟩ ∧
    (∀ levels, ((addAllNamedBy looped (addLink looped levels) ["ext"]).run.run (create looped ⟨"/ws"⟩)).1 =
      .error .endlessLinks) ∧
    ∀ levels, linkDepth around ≤ levels →
      ((addAllNamedBy around (addLink around levels) ["ext"]).run.run (create around ⟨"/ws"⟩)).2.names =
        ["ext", "ext/deep", "ext/deep/back"] := by
  refine ⟨⟨[(⟨"/out"⟩, .directory), (⟨"/out/loop"⟩, .link)], ⟨"/out/loop"⟩, by decide +kernel, by simp,
    by decide +kernel, by decide +kernel, by decide +kernel⟩, ?_, fun levels hlevels => ?_⟩
  · have hend : isEndless ((addAllNamed looped ["ext"]).run.run (create looped ⟨"/ws"⟩)).1 = true := by decide +kernel
    exact ((addAllNamed_ends sound_looped ["ext"] _).2.1 (eq_of_isEndless hend)).1
  · have hok : isEndless ((addAllNamed around ["ext"]).run.run (create around ⟨"/ws"⟩)).1 = false := by decide +kernel
    rw [(addAllNamed_ends sound_around ["ext"] _).1 (fun h => by rw [h] at hok; cases hok) levels hlevels]
    decide +kernel

end Stowage.Archive.Contents
