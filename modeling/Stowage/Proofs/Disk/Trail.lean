/-
What the way of a path depends on. A walk looks at some locations, one after the other, and goes the same way on
every disk with the same things there. So where less is stored a path leads to what it led to, or to nothing, and
it leads to nothing if anything is missing on its way.
-/
import Stowage.Proofs.Disk.Removal

open Stowage.Path

namespace Stowage.Disk

/-! ## Trails -/

/-- The locations that are looked at before a link has to be followed. -/
def strideTrail (d : Disk) (loc : Location) : List String → List Location
  | [] => []
  | "." :: rest => strideTrail d loc rest
  | ".." :: rest => strideTrail d loc.dropLast rest
  | name :: rest =>
    (loc ++ [name]) ::
      if d.entry? (loc ++ [name]) = some .directory then strideTrail d (loc ++ [name]) rest else []

/-- The locations that are looked at on a way through at most `links` links. -/
def walkTrail (d : Disk) (links : Nat) (loc : Location) (steps : List String) : List Location :=
  d.strideTrail loc steps ++
    match d.stride true loc steps with
    | .ok (.link l target rest) =>
      match links with
      | 0 => []
      | n + 1 => walkTrail d n (linkBase l target) ((⟨target⟩ : Path).steps ++ rest)
    | _ => []

/-- The locations that are looked at to find what a path leads to, links among them. -/
def trail (d : Disk) (p : Path) : List Location := d.walkTrail maxLinks (d.origin p) p.steps

variable {d d' : Disk} {loc : Location} {steps : List String} {links : Nat}

theorem strideTrail_name {name : String} (h1 : name ≠ ".") (h2 : name ≠ "..") (loc : Location)
    (rest : List String) : d.strideTrail loc (name :: rest) = (loc ++ [name]) ::
      if d.entry? (loc ++ [name]) = some .directory then d.strideTrail (loc ++ [name]) rest else [] :=
  strideTrail.eq_4 d loc name rest h1 h2

/-! ## The same way -/

theorem stride_of_trail (followLast : Bool) (h : ∀ l ∈ d.strideTrail loc steps, d'.entry? l = d.entry? l) :
    d'.stride followLast loc steps = d.stride followLast loc steps := by
  induction steps generalizing loc with
  | nil => rfl
  | cons s rest ih =>
    by_cases h1 : s = "."
    · subst h1; exact ih h
    by_cases h2 : s = ".."
    · subst h2; exact ih h
    rw [strideTrail_name h1 h2] at h
    rw [stride_name d' _ _ h1 h2, stride_name d _ _ h1 h2, h _ (List.mem_cons_self ..)]
    split
    · rfl
    · split
      · rfl
      · rename_i he
        rw [if_pos he] at h
        exact ih fun l hl => h l (List.mem_cons_of_mem _ hl)
      · rfl
      · rfl

theorem walk_of_trail (h : ∀ l ∈ d.walkTrail links loc steps, d'.entry? l = d.entry? l) :
    d'.walk true links loc steps = d.walk true links loc steps := by
  induction links generalizing loc steps with
  | zero =>
    unfold walkTrail at h
    have hstride := stride_of_trail true fun l hl => h l (List.mem_append_left _ hl)
    unfold walk
    rw [hstride]
  | succ n ih =>
    unfold walkTrail at h
    have hstride := stride_of_trail true fun l hl => h l (List.mem_append_left _ hl)
    unfold walk
    rw [hstride]
    rcases hs : d.stride true loc steps with e | place | ⟨l, target, rest⟩
    · rfl
    · rfl
    · rw [hs] at h
      exact ih fun m hm => h m (List.mem_append_right _ hm)

/-- With the same things on its way a path leads to the same. -/
theorem find_of_trail {p : Path} (hhere : d'.here = d.here)
    (h : ∀ l ∈ d.trail p, d'.entry? l = d.entry? l) : d'.find p = d.find p := by
  have horigin : d'.origin p = d.origin p := by unfold origin; rw [hhere]
  unfold find
  rw [locate_eq, locate_eq, horigin, walk_of_trail h]

/-! ## The way on a part of a disk -/

section
variable (hsub : ∀ l e, d'.entry? l = some e → d.entry? l = some e)
include hsub

/-- Where a way leads to something, everything on it is there. -/
theorem there_of_stride {stop : Stop} (h : d'.stride true loc steps = .ok stop)
    (hstop : ∀ l, stop ≠ .at (.free l)) :
    ∀ l ∈ d.strideTrail loc steps, d'.entry? l = d.entry? l ∧ d.entry? l ≠ none := by
  induction steps generalizing loc with
  | nil => exact fun l hl => absurd hl List.not_mem_nil
  | cons s rest ih =>
    by_cases h1 : s = "."
    · subst h1; exact ih h
    by_cases h2 : s = ".."
    · subst h2; exact ih h
    rw [stride_name _ _ _ h1 h2] at h
    rw [strideTrail_name h1 h2]
    split at h
    · cases h
    have hthere : ∀ {e : Entry}, d'.entry? (loc ++ [s]) = some e →
        d'.entry? (loc ++ [s]) = d.entry? (loc ++ [s]) ∧ d.entry? (loc ++ [s]) ≠ none := by
      intro e he
      rw [he, hsub _ _ he]
      exact ⟨rfl, nofun⟩
    have hlast : ∀ {e : Entry}, d'.entry? (loc ++ [s]) = some e → e ≠ .directory →
        ∀ l ∈ (loc ++ [s]) ::
          (if d.entry? (loc ++ [s]) = some .directory then d.strideTrail (loc ++ [s]) rest else []),
          d'.entry? l = d.entry? l ∧ d.entry? l ≠ none := by
      intro e he hne l hl
      rw [hsub _ _ he, if_neg fun h => hne (Option.some.inj h)] at hl
      rw [List.mem_singleton.1 hl]
      exact hthere he
    split at h
    · split at h <;> cases h
      exact absurd rfl (hstop _)
    · rename_i he
      rw [if_pos (hsub _ _ he)]
      intro l hl
      rcases List.mem_cons.1 hl with rfl | hl
      · exact hthere he
      · exact ih h l hl
    · rename_i he
      exact hlast he nofun
    · rename_i he
      exact hlast he nofun

theorem there_of_walk {l : Location} {e : Entry} (h : d'.walk true links loc steps = .ok (.found l e)) :
    ∀ m ∈ d.walkTrail links loc steps, d'.entry? m = d.entry? m ∧ d.entry? m ≠ none := by
  have hway : ∀ {loc : Location} {steps : List String} {stop : Stop}, d'.stride true loc steps = .ok stop →
      (∀ l, stop ≠ .at (.free l)) → d.stride true loc steps = .ok stop := by
    intro loc steps stop hs hstop
    rw [← hs]
    exact (stride_of_trail true fun l hl => (there_of_stride hsub hs hstop l hl).1).symm
  replace h := walksTo h
  induction h with
  | ends hs =>
    unfold walkTrail
    rw [hway hs fun _ => nofun]
    simpa using there_of_stride hsub hs fun _ => nofun
  | link hs _ ih =>
    unfold walkTrail
    rw [hway hs fun _ => nofun]
    intro m hm
    rcases List.mem_append.1 hm with hm | hm
    · exact there_of_stride hsub hs (fun _ => nofun) m hm
    · exact ih m hm

/-- Where less is stored a path leads to what it led to if everything on its way is left, and to nothing
otherwise. -/
theorem find_of_part {p : Path} (hhere : d'.here = d.here) {x : Location × Entry} :
    d'.find p = .ok x ↔ d.find p = .ok x ∧ ∀ l ∈ d.trail p, d'.entry? l ≠ none := by
  have horigin : d'.origin p = d.origin p := by unfold origin; rw [hhere]
  constructor
  · intro h
    refine ⟨find_sub hsub hhere h, fun l hl => ?_⟩
    have hfound := locate_of_find h
    rw [locate_eq] at hfound
    rcases hc : checked p with e | u
    · rw [hc] at hfound; cases hfound
    · rw [hc, horigin] at hfound
      obtain ⟨hsame, hsome⟩ := there_of_walk hsub hfound l hl
      rwa [hsame]
  · rintro ⟨h, hway⟩
    rw [find_of_trail hhere fun l hl => ?_, h]
    obtain ⟨e, he⟩ := Option.ne_none_iff_exists'.1 (hway l hl)
    rw [he, hsub _ _ he]

end

/-- Everything on the way of a path that leads to something is there. -/
theorem there_of_find {p : Path} {x : Location × Entry} (h : d.find p = .ok x) :
    ∀ l ∈ d.trail p, d.entry? l ≠ none := ((find_of_part (fun _ _ he => he) rfl).1 h).2

end Stowage.Disk
