/-
A file that is written under one name and then moved to another one in the same directory. What is read there
afterwards is what was written, also where links lead through either of the names.
-/
import Stowage.Proofs.Disk.Removal

open Stowage.Path

namespace Stowage.Disk

variable {d d' : Disk}

/-! ## What walks find -/

/-- The place is told as it is on the disk, unless it is a directory. -/
def Place.Stored (d : Disk) : Place → Prop
  | .free loc => loc ≠ [] ∧ d.entry? loc = none
  | .found loc e => e = .directory ∨ loc ≠ [] ∧ d.entry? loc = some e

section
variable {followLast : Bool} {links : Nat} {loc : Location} {steps : List String} {place : Place}

theorem stored_stride (h : d.stride followLast loc steps = .ok (.at place)) : place.Stored d := by
  induction steps generalizing loc with
  | nil =>
    rw [stride] at h
    cases h
    exact .inl rfl
  | cons s rest ih =>
    by_cases h1 : s = "."
    · subst h1; rw [stride] at h; exact ih h
    by_cases h2 : s = ".."
    · subst h2; rw [stride] at h; exact ih h
    have hne : loc ++ [s] ≠ [] := by simp
    rw [stride_name d _ _ h1 h2] at h
    split at h
    · cases h
    · split at h
      · rename_i he
        split at h <;> cases h
        exact ⟨hne, he⟩
      · exact ih h
      · rename_i he
        split at h <;> cases h
        exact .inr ⟨hne, he⟩
      · rename_i he
        split at h <;> cases h
        exact .inr ⟨hne, he⟩

theorem stored_walk (h : d.walk followLast links loc steps = .ok place) : place.Stored d := by
  replace h := walksTo h
  induction h with
  | ends hs => exact stored_stride hs
  | link _ _ ih => exact ih

theorem stored_locate {p : Path} (h : d.locate followLast p = .ok place) : place.Stored d := by
  rw [locate_eq] at h
  rcases hc : checked p with e | u
  · rw [hc] at h; cases h
  · rw [hc] at h
    exact stored_walk h

/-- Walks that end end at the same place, however many links they may follow. -/
theorem walk_unique {links' : Nat} {place' : Place} (h : d.walk followLast links loc steps = .ok place)
    (h' : d.walk followLast links' loc steps = .ok place') : place = place' := by
  replace h := walksTo h
  induction h generalizing links' with
  | ends hs =>
    rw [walk_at hs] at h'
    exact Except.ok.inj h'
  | link hs _ ih =>
    rcases walksTo h' with hs' | ⟨hs', hrest'⟩ <;> rw [hs] at hs' <;> cases hs'
    exact ih hrest'.walk_eq

/-- Where a file ends the way there are no more steps. -/
theorem eq_nil_of_file {links' : Nat} {l m : Location} {c : Content} {e : Entry} {rest : List String}
    (h : d.walk true links loc steps = .ok (.found l (.file c)))
    (h' : d.walk true links' loc (steps ++ rest) = .ok (.found m e)) : rest = [] ∧ m = l ∧ e = .file c := by
  induction rest using List.reverseRecOn generalizing m e with
  | nil =>
    rw [List.append_nil] at h'
    cases walk_unique h h'
    exact ⟨rfl, rfl, rfl⟩
  | append_singleton rest s ih =>
    rw [← List.append_assoc] at h'
    obtain ⟨top, _, hbefore, -⟩ := walk_concat h'
    obtain ⟨-, -, hfile⟩ := ih hbefore
    cases hfile

end

/-! ## Writing -/

/-- The stop once a file is written where it is. -/
def Stop.written (loc : Location) (c : Content) : Stop → Stop
  | .at _ => .at (.found loc (.file c))
  | stop => stop

section
variable {loc : Location} (hne : loc ≠ []) (hfile : ∀ e, d.entry? loc = some e → e.type = .file)
  {links : Nat} {l : Location} {steps : List String}
include hne hfile

/-- Steps that lead to where a file is written lead to the file. -/
theorem stride_put {stop : Stop} (c : Content) (h : d.stride true l steps = .ok stop)
    (hend : ∀ q, stop = .at q → q.location = loc ∧ ∀ m, q ≠ .found m .directory) :
    (d.put loc (.file c)).stride true l steps = .ok (stop.written loc c) := by
  have hother : ∀ {m : Location} {e : Entry}, d.entry? m = some e → e.type ≠ .file →
      entry? (d.put loc (.file c)) m = some e := by
    intro m e he htype
    rw [entry?_put d hne, if_neg, he]
    rintro rfl
    exact htype (hfile e he)
  have hat : entry? (d.put loc (.file c)) loc = some (.file c) := by rw [entry?_put d hne, if_pos rfl]
  induction steps generalizing l with
  | nil =>
    rw [stride] at h
    cases h
    exact absurd rfl ((hend _ rfl).2 l)
  | cons s rest ih =>
    by_cases h1 : s = "."
    · subst h1; rw [stride] at h ⊢; exact ih h
    by_cases h2 : s = ".."
    · subst h2; rw [stride] at h ⊢; exact ih h
    rw [stride_name _ _ _ h1 h2] at h ⊢
    split at h
    · cases h
    rename_i hlong
    rw [if_neg hlong]
    split at h
    · split at h <;> cases h
      rename_i hrest
      obtain rfl : l ++ [s] = loc := (hend _ rfl).1
      rw [hat]
      exact if_pos hrest
    · rename_i he
      rw [hother he (by simp [Entry.type])]
      exact ih h
    · split at h <;> cases h
      rename_i hrest
      obtain rfl : l ++ [s] = loc := (hend _ rfl).1
      rw [hat]
      exact if_pos hrest
    · rename_i he
      rw [if_neg (by simp)] at h
      cases h
      rw [hother he (by simp [Entry.type])]
      exact if_neg (by simp)

theorem walk_put {place : Place} (c : Content) (h : d.walk true links l steps = .ok place)
    (hloc : place.location = loc) (hdir : ∀ m, place ≠ .found m .directory) :
    (d.put loc (.file c)).walk true links l steps = .ok (.found loc (.file c)) := by
  have hend : ∀ q, Stop.at place = .at q → q.location = loc ∧ ∀ m, q ≠ .found m .directory := by
    intro q hq
    cases hq
    exact ⟨hloc, hdir⟩
  replace h := walksTo h
  induction h with
  | ends hs => exact walk_at (stride_put hne hfile c hs hend)
  | link hs _ ih => exact (walk_link (stride_put hne hfile c hs nofun)).trans ih

end

/-- What was written is where the path leads. -/
theorem locate_of_write {p : Path} {c : Content} (hslash : endsInSlash p = false)
    (h : Gives (write p c) d () d') : ∃ loc, d'.locate true p = .ok (.found loc (.file c)) := by
  have hput : ∀ {place : Place} {loc : Location}, d.locate true p = .ok place → place.location = loc →
      (∀ m, place ≠ .found m .directory) → loc ≠ [] → (∀ e, d.entry? loc = some e → e.type = .file) →
      (d.put loc (.file c)).locate true p = .ok (.found loc (.file c)) := by
    intro place loc hplace hloc hdir hne hfile
    rw [locate_eq] at hplace ⊢
    rcases hc : checked p with e | u
    · rw [hc] at hplace; cases hplace
    · rw [hc] at hplace
      exact walk_put hne hfile c hplace hloc hdir
  unfold write at h
  rw [if_neg (by simp [hslash])] at h
  obtain ⟨place, d₁, hask, hstore⟩ := gives_bind.1 (show Gives (store p c) d () d' from h)
  unfold Gives at hask
  rw [run_ask] at hask
  obtain ⟨hplace, rfl⟩ := Prod.mk.inj hask
  have hstored := stored_locate hplace
  rcases place with ⟨loc, c' | t | _⟩ | loc
  · obtain ⟨hne, he⟩ := hstored.resolve_left nofun
    refine ⟨loc, gives_modify.1 hstore ▸ hput hplace rfl nofun hne fun e h => ?_⟩
    rw [he] at h
    cases h
    rfl
  · exact absurd hplace (locate_ne_link loc t)
  · exact absurd hstore gives_throw
  · obtain ⟨hne, he⟩ := hstored
    refine ⟨loc, gives_modify.1 hstore ▸ hput hplace rfl nofun hne fun e h => ?_⟩
    rw [he] at h
    cases h

/-! ## Moving -/

theorem gives_ask {α : Type} {question : Disk → Except FileFault α} {x : α} :
    Gives (Change.ask question) d x d' ↔ question d = .ok x ∧ d' = d := by
  unfold Gives
  rw [run_ask, Prod.mk.injEq, @eq_comm _ d]

/-- What moving something to a path with nothing at its end comes to. -/
theorem gives_rename {p q : Path} (hslash : endsInSlash q = false) (h : Gives (rename p q) d () d') :
    ∃ loc e place, d.locate false p = .ok (.found loc e) ∧ d.locate false q = .ok place ∧
      (∀ m, place ≠ .found m .directory) ∧ d' = (d.erase loc).put place.location e := by
  obtain ⟨from', d₁, hfrom, h₁⟩ := gives_bind.1 h
  obtain ⟨hfrom, rfl⟩ := gives_ask.1 hfrom
  rcases from' with ⟨loc, e⟩ | loc
  · obtain ⟨place, d₂, hplace, h₂⟩ := gives_bind.1 h₁
    obtain ⟨hplace, rfl⟩ := gives_ask.1 hplace
    obtain ⟨_, d₃, hname, h₃⟩ := gives_bind.1 h₂
    obtain ⟨-, rfl⟩ := gives_ask.1 hname
    rw [withoutSlash_eq hslash] at hplace
    rw [hslash] at h₃
    refine ⟨loc, e, place, hfrom, hplace, ?_, ?_⟩
    · rintro m rfl
      exact gives_throw h₃
    · rcases place with ⟨onto, c | t | _⟩ | onto
      · exact gives_modify.1 h₃
      · exact gives_modify.1 h₃
      · exact absurd h₃ gives_throw
      · exact gives_modify.1 h₃
  · exact absurd h₁ gives_throw

/-- What something is moved to is called by its name. -/
theorem named_of_rename {p q : Path} (h : Gives (rename p q) d () d') :
    ∃ n, q.steps.getLast? = some n ∧ n ≠ "." ∧ n ≠ ".." := by
  obtain ⟨from', d₁, hfrom, h₁⟩ := gives_bind.1 h
  rcases from' with ⟨loc, e⟩ | loc
  · obtain ⟨place, d₂, hplace, h₂⟩ := gives_bind.1 h₁
    obtain ⟨hplace, rfl⟩ := gives_ask.1 hplace
    obtain ⟨_, d₃, hname, h₃⟩ := gives_bind.1 h₂
    obtain ⟨hname, rfl⟩ := gives_ask.1 hname
    rcases hslash : endsInSlash q with _ | _
    · rw [withoutSlash_eq hslash] at hplace hname
      unfold checkName at hname
      split at hname
      · cases hname
      · cases hname
      · rename_i hhere hup
        rcases hlast : q.steps.getLast? with _ | n
        · exact absurd (List.getLast?_eq_none_iff.1 hlast) (steps_ne_nil (checked_of_locate hplace))
        · exact ⟨n, rfl, fun hn => hhere (hn ▸ hlast), fun hn => hup (hn ▸ hlast)⟩
    · rw [hslash] at h₃
      exact absurd h₃ gives_throw
  · exact absurd h₁ gives_throw

section
variable {onto top : Location} {n : String} {e : Entry} (honto : onto = top ++ [n])
  (hsub : ∀ l x, l ≠ onto → d'.entry? l = some x → d.entry? l = some x)
  (hat : d'.entry? onto = some e) (hdir : e ≠ .directory)
include honto hsub hat hdir

/-- What was moved somewhere is come to, or a link that was moved is followed, or the way is as it was. -/
theorem stride_moved {loc : Location} {steps : List String} {stop : Stop}
    (h : d'.stride true loc steps = .ok stop) (hstop : ∀ l, stop ≠ .at (.free l)) :
    d.stride true loc steps = .ok stop ∨ stop = .at (.found onto e) ∨
      ∃ t rest, e = .link t ∧ stop = .link top t rest := by
  induction steps generalizing loc with
  | nil =>
    rw [stride] at h
    exact .inl h
  | cons s rest ih =>
    by_cases h1 : s = "."
    · subst h1; rw [stride] at h ⊢; exact ih h
    by_cases h2 : s = ".."
    · subst h2; rw [stride] at h ⊢; exact ih h
    rw [stride_name _ _ _ h1 h2] at h ⊢
    split at h
    · cases h
    rename_i hlong
    rw [if_neg hlong]
    by_cases hin : loc ++ [s] = onto
    · -- this is where it was moved to
      right
      obtain ⟨rfl, hs⟩ := List.append_inj' (hin.trans honto) rfl
      rw [hin, hat] at h
      rcases e with c | t | _
      · dsimp only at h
        split at h
        · cases h
          exact .inl rfl
        · cases h
      · exact .inr ⟨t, rest, rfl, by simpa using h.symm⟩
      · exact absurd rfl hdir
    · split at h
      · split at h <;> cases h
        exact absurd rfl (hstop _)
      · rename_i he
        rw [hsub _ _ hin he]
        exact ih h
      · rename_i he
        rw [hsub _ _ hin he]
        exact .inl h
      · rename_i he
        rw [hsub _ _ hin he]
        exact .inl h

theorem walk_moved {links : Nat} {loc l : Location} {steps : List String} {x : Entry}
    (h : d'.walk true links loc steps = .ok (.found l x)) :
    d.walk true links loc steps = .ok (.found l x) ∨ x = e ∧ l = onto ∨
      ∃ t k rest, e = .link t ∧
        d.walk true k (linkBase top t) ((⟨t⟩ : Path).steps ++ rest) = .ok (.found l x) := by
  have hfinal : ∀ {links : Nat} {loc : Location} {steps : List String},
      d'.stride true loc steps = .ok (.at (.found l x)) →
      d.walk true links loc steps = .ok (.found l x) ∨ x = e ∧ l = onto := by
    intro links loc steps hs
    rcases stride_moved honto hsub hat hdir hs nofun with hs | hs | ⟨_, _, _, hs⟩
    · exact .inl (walk_at hs)
    · cases hs
      exact .inr ⟨rfl, rfl⟩
    · cases hs
  replace h := walksTo h
  induction h with
  | ends hs => exact (hfinal hs).imp_right .inl
  | link hs _ ih =>
    rcases ih with hsame | hlater
    · rcases stride_moved honto hsub hat hdir hs nofun with hs | hs | ⟨t', rest', he, hs⟩
      · exact .inl ((walk_link hs).trans hsame)
      · cases hs
      · cases hs
        exact .inr (.inr ⟨_, _, _, he, hsame⟩)
    · exact .inr hlater

end

theorem locate_of_read {p : Path} {c : Content} (h : d.read p = .ok c) :
    ∃ l, d.locate true p = .ok (.found l (.file c)) := by
  unfold Disk.read at h
  rcases hf : d.find p with e | ⟨l, c' | t | _⟩
  · rw [hf] at h; cases h
  · rw [hf] at h
    cases h
    exact ⟨l, locate_of_find hf⟩
  · rw [hf] at h; cases h
  · rw [hf] at h; cases h

/-- A name that leads to a file is the name of the file or of a link that leads to it. -/
theorem file_or_link {links : Nat} {top loc : Location} {s : String} {c : Content} (h1 : s ≠ ".") (h2 : s ≠ "..")
    (h : d.walk true links top [s] = .ok (.found loc (.file c))) :
    d.entry? (top ++ [s]) = some (.file c) ∨ ∃ t k, d.entry? (top ++ [s]) = some (.link t) ∧
      d.walk true k (linkBase top t) (⟨t⟩ : Path).steps = .ok (.found loc (.file c)) := by
  have hstride : d.stride true top [s] = _ := stride_name d true top h1 h2 []
  rw [if_neg (short_of_walk h1 h2 h)] at hstride
  split at hstride
  · rw [if_pos rfl] at hstride
    rw [walk_at hstride] at h
    cases h
  · rw [walk_at (hstride.trans (stride.eq_1 ..))] at h
    cases h
  · rename_i he
    rw [if_pos rfl] at hstride
    rw [walk_at hstride] at h
    cases h
    exact .inl he
  · rename_i t he
    rw [if_neg (by simp)] at hstride
    rcases walksTo h with hs | ⟨hs, hrest⟩ <;> rw [hstride] at hs <;> cases hs
    rw [List.append_nil] at hrest
    exact .inr ⟨t, _, he, hrest.walk_eq⟩

/-- What is read where a file was moved to is what was written where it was. A link that was moved leads on to the
file, because it stays in its directory. -/
theorem read_moved {p : Path} {n m : String} (hn : IsName n) (hm : IsName m) {loc source : Location} {c x : Content}
    {e : Entry} {place : Place} (hfile : d.locate true (p / m) = .ok (.found loc (.file c)))
    (hfrom : d.locate false (p / m) = .ok (.found source e)) (hto : d.locate false (p / n) = .ok place)
    (hd' : d' = (d.erase source).put place.location e) (hread : d'.read (p / n) = .ok x) : x = c := by
  have hsteps : ∀ {s : String}, IsPiece s → (p / s).steps = p.pieces ++ [s] := steps_join p
  have horigin : ∀ (b : Disk) {s : String}, IsPiece s → b.origin (p / s) = b.origin p := fun b s hs => by
    unfold origin
    rw [isAbsolute_join p hs]
  -- both names lie in the directory that the path leads to
  obtain ⟨-, top, k, hbefore, hlast⟩ := locate_concat (hsteps hm.toIsPiece) hfile
  obtain ⟨-, _, _, hbefore₁, hlast₁⟩ := locate_concat (hsteps hm.toIsPiece) hfrom
  obtain ⟨-, _, _, hbefore₂, hlast₂⟩ := locate_concat (hsteps hn.toIsPiece) hto
  rw [horigin d hm.toIsPiece] at hbefore hbefore₁
  rw [horigin d hn.toIsPiece, hbefore] at hbefore₂
  rw [hbefore] at hbefore₁
  cases hbefore₁
  cases hbefore₂
  have honto : place.location = top ++ [n] := by
    rw [walk_single hn.ne_dot hn.ne_up hlast₂, location_place]
  have hplace : Place.found source e = d.place (top ++ [m]) := walk_single hm.ne_dot hm.ne_up hlast₁
  have hmoved : e = .file c ∨ ∃ t k, e = .link t ∧
      d.walk true k (linkBase top t) (⟨t⟩ : Path).steps = .ok (.found loc (.file c)) := by
    rcases file_or_link hm.ne_dot hm.ne_up hlast with he | ⟨t, k, he, hfollow⟩
    · rw [place_of_some he] at hplace
      cases hplace
      exact .inl rfl
    · rw [place_of_some he] at hplace
      cases hplace
      exact .inr ⟨t, k, rfl, hfollow⟩
  have hdir : e ≠ .directory := by
    rintro rfl
    rcases hmoved with h | ⟨_, _, h, -⟩ <;> cases h
  have hne : top ++ [n] ≠ [] := by simp
  have hat : d'.entry? (top ++ [n]) = some e := by
    rw [hd', honto, entry?_put _ hne, if_pos rfl]
  have hsub : ∀ l y, l ≠ top ++ [n] → d'.entry? l = some y → d.entry? l = some y := by
    intro l y hl hy
    rw [hd', honto, entry?_put _ hne, if_neg hl] at hy
    exact (pruned_erase d source).sub hy
  -- a way that leads through what was moved ends at the file
  have hway : ∀ {links : Nat} {b l : Location} {steps : List String} {y : Entry},
      d'.walk true links b steps = .ok (.found l y) → (∀ t, y ≠ .link t) → y = .file c ∨
        d.walk true links b steps = .ok (.found l y) := by
    intro links b l steps y hwalk hlink
    rcases walk_moved rfl hsub hat hdir hwalk with hsame | ⟨rfl, -⟩ | ⟨t, j, rest, rfl, hrest⟩
    · exact .inr hsame
    · rcases hmoved with h | ⟨t, _, h, -⟩
      · exact .inl h
      · exact absurd h (hlink t)
    · rcases hmoved with h | ⟨t', i, h, hfollow⟩
      · cases h
      · cases h
        exact .inl (eq_nil_of_file hfollow hrest).2.2
  obtain ⟨l, hl⟩ := locate_of_read hread
  obtain ⟨-, top', k', hbefore', hlast'⟩ := locate_concat (hsteps hn.toIsPiece) hl
  have hhere : d'.origin p = d.origin p := by rw [hd']; rfl
  rw [horigin d' hn.toIsPiece, hhere] at hbefore'
  obtain rfl : top' = top := by
    rcases hway hbefore' nofun with h | hsame
    · cases h
    · rw [hbefore] at hsame
      cases hsame
      rfl
  rcases file_or_link hn.ne_dot hn.ne_up hlast' with he | ⟨t, j, he, hfollow'⟩
  · rw [hat] at he
    rcases hmoved with rfl | ⟨_, _, rfl, -⟩
    · cases he
      rfl
    · cases he
  · rw [hat] at he
    rcases hmoved with rfl | ⟨t', i, rfl, hfollow⟩
    · cases he
    · cases he
      rcases hway hfollow' nofun with h | hsame
      · cases h
        rfl
      · cases walk_unique hfollow hsame
        rfl

end Stowage.Disk
