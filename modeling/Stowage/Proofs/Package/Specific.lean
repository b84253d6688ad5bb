/-
The most specific of the keys that take in a key: the one with the most text before its star, and then the longest. The
order of the members of the exports counts as well, so that the most specific one is used in every order exactly if each
other one is a pattern with less before its star.
-/
import Stowage.Proofs.Package.Patterns
import Mathlib.Data.List.TakeWhile
import Mathlib.Data.Prod.Lex

namespace Stowage.Exports

/-! ## Comparing keys -/

/-- How specific a key of the exports is: by what stands before its star, then by its length. -/
def rank (pattern : String) : Nat ×ₗ Nat := toLex (reach pattern, pattern.length)

section
variable {key pattern pattern' start m stop rest : String}

theorem reach_of_notMem (h : '*' ∉ pattern.toList) : reach pattern = pattern.length := by
  unfold reach
  rw [List.takeWhile_eq_self_iff.2 fun c hc => by
    rw [decide_eq_true_eq]
    rintro rfl
    exact h hc, String.length_toList]

theorem reach_lt_of_mem (h : '*' ∈ pattern.toList) : reach pattern < pattern.length := by
  have hne : pattern.toList.takeWhile (· ≠ '*') ≠ pattern.toList := fun he => by
    simpa using List.takeWhile_eq_self_iff.1 he '*' h
  unfold reach
  rw [← String.length_toList]
  exact Nat.lt_of_le_of_ne (List.takeWhile_prefix _).length_le
    fun hl => hne ((List.takeWhile_prefix _).eq_of_length hl)

theorem eq_of_start {a b : String} (ha : a.toList <+: key.toList) (hb : b.toList <+: key.toList)
    (h : a.length = b.length) : a = b := by
  rw [← String.length_toList, ← String.length_toList] at h
  exact String.toList_inj.1 ((List.prefix_of_prefix_length_le ha hb h.le).eq_of_length h)

theorem eq_of_stop {a b : String} (ha : a.toList <:+ key.toList) (hb : b.toList <:+ key.toList)
    (h : a.length = b.length) : a = b := by
  rw [← String.length_toList, ← String.length_toList] at h
  exact String.toList_inj.1 ((List.suffix_of_suffix_length_le ha hb h.le).eq_of_length h)

/-- A pattern is longer than what stands before its star. -/
theorem mem_star_iff : '*' ∈ pattern.toList ↔ reach pattern < pattern.length := by
  refine ⟨reach_lt_of_mem, fun h => ?_⟩
  by_contra hstar
  rw [reach_of_notMem hstar] at h
  exact lt_irrefl _ h

/-- Two keys of the exports that take in one key are told apart by their rank. -/
theorem TakesIn.eq_of_rank (h : TakesIn key pattern) (h' : TakesIn key pattern') (hrank : rank pattern = rank pattern') :
    pattern = pattern' := by
  have hreach : reach pattern = reach pattern' := congrArg (fun r => (ofLex r).1) hrank
  have hlength : pattern.length = pattern'.length := congrArg (fun r => (ofLex r).2) hrank
  have hkinds : '*' ∈ pattern.toList ↔ '*' ∈ pattern'.toList := by
    rw [mem_star_iff, mem_star_iff, hreach, hlength]
  obtain ⟨⟨start, m, stop⟩ | rest, hfits⟩ := h <;> obtain ⟨⟨start', m', stop'⟩ | rest', hfits'⟩ := h'
  · obtain ⟨-, hstart, hstop⟩ := exists_middle_iff.2 ⟨m, hfits.2.2⟩
    obtain ⟨-, hstart', hstop'⟩ := exists_middle_iff.2 ⟨m', hfits'.2.2⟩
    rw [hfits.reach_star, hfits'.reach_star] at hreach
    rw [hfits.1, hfits'.1] at hlength ⊢
    simp only [String.length_append] at hlength
    rw [eq_of_start hstart hstart' hreach, eq_of_stop hstop hstop' (by omega)]
  · exact absurd (hkinds.1 hfits.mem_star) hfits'.1
  · exact absurd (hkinds.2 hfits'.mem_star) hfits.1
  · have hdir : ∀ {dir rest : String}, key = dir ++ rest → dir.toList <+: key.toList := by
      rintro dir rest rfl
      rw [String.toList_append]
      exact List.prefix_append ..
    exact eq_of_start (hdir hfits.2.2) (hdir hfits'.2.2) hlength

/-! ## The most specific member -/

/-- The member takes in the key, and every other one that does is less specific. -/
structure MostSpecific (members : List (String × Json)) (key : String) (e : String × Json) : Prop where
  mem : e ∈ members
  takesIn : TakesIn key e.1
  greatest : ∀ e' ∈ members, TakesIn key e'.1 → e' ≠ e → rank e'.1 < rank e.1

/-- Every other member that takes in the key is a pattern with less before its star. -/
def Unrivalled (members : List (String × Json)) (key : String) (e : String × Json) : Prop :=
  ∀ e' ∈ members, TakesIn key e'.1 → e' ≠ e → '*' ∈ e'.1.toList ∧ reach e'.1 < reach e.1

end

section
variable {members order : List (String × Json)} {key : String} {e : String × Json}

theorem exists_mostSpecific (hnodup : (members.map Prod.fst).Nodup) (h : ∃ e ∈ members, TakesIn key e.1) :
    ∃ e, MostSpecific members key e := by
  have hfinite : {e | e ∈ members ∧ TakesIn key e.1}.Finite := members.finite_toSet.subset fun _ he => he.1
  obtain ⟨e, ⟨he, htakes⟩, hmax⟩ := Set.exists_max_image _ (fun e => rank e.1) hfinite h
  refine ⟨e, he, htakes, fun e' he' htakes' hne => ?_⟩
  refine lt_of_le_of_ne (hmax e' ⟨he', htakes'⟩) fun heq => hne ?_
  exact List.inj_on_of_nodup_map hnodup he' he (htakes'.eq_of_rank htakes heq)

/-- A member without rivals is used whatever the order is. -/
theorem Unrivalled.used (h : Unrivalled members key e) (he : e ∈ members) (htakes : TakesIn key e.1)
    (horder : order.Perm members) : Used order key e := by
  obtain ⟨first, hfirst⟩ := exists_used ⟨e, horder.mem_iff.2 he, htakes⟩
  have hcontends := hfirst.contends
  by_cases hne : first = e
  · exact hne ▸ hfirst
  · obtain ⟨hstar, hlt⟩ := h first (horder.mem_iff.1 hcontends.mem) hcontends.takesIn hne
    have hle := (hcontends.best.resolve_left (not_not_intro hstar) e (horder.mem_iff.2 he) htakes).2
    omega

/-- A rival of the most specific member keeps it from being used where it comes first. -/
theorem MostSpecific.unrivalled (h : MostSpecific members key e)
    (hused : ∀ order : List (String × Json), order.Perm members → Used order key e) : Unrivalled members key e := by
  intro e' he' htakes' hne
  obtain ⟨a, b, rfl⟩ := List.append_of_mem he'
  -- the rival comes first
  have hperm : (e' :: (a ++ b)).Perm (a ++ e' :: b) := List.perm_middle.symm
  obtain ⟨before, after, hsplit, hcontends, hbefore⟩ := hused _ hperm
  have hnot : ¬ Contends (e' :: (a ++ b)) key e' := by
    rcases before with _ | ⟨first, before⟩
    · exact absurd (List.cons.inj hsplit).1 hne
    · exact (List.cons.inj hsplit).1 ▸ hbefore first (List.mem_cons_self ..)
  have hmem : e' ∈ e' :: (a ++ b) := List.mem_cons_self ..
  rcases hcontends.best with hdir | hbest
  · have hstar : '*' ∈ e'.1.toList := by
      by_contra hstar
      exact hnot ⟨hmem, htakes', .inl hstar⟩
    refine ⟨hstar, ?_⟩
    have hlonger := reach_lt_of_mem hstar
    have hwhole := reach_of_notMem hdir
    rcases Prod.Lex.toLex_lt_toLex.1 (h.greatest e' he' htakes' hne) with hlt | ⟨heq, hlt⟩
    · exact hlt
    · dsimp only at heq hlt
      omega
  · obtain ⟨hstar, hle⟩ := hbest e' hmem htakes'
    exact ⟨hstar, Nat.lt_of_le_of_ne hle fun heq => hnot ⟨hmem, htakes', .inr (heq ▸ hbest)⟩⟩

/-! ## The order of the members -/

theorem resolve_empty (key : String) (conditions : List String) : resolve (.object []) key conditions = none :=
  ite_self none

/-- The member that is used in an order, and how it takes in the key. -/
theorem exists_resolve (hdot : ∀ m ∈ members, m.1.toList.head? = some '.') (hkey : ∀ m ∈ members, m.1 ≠ key)
    (h : ∃ e ∈ members, TakesIn key e.1) (horder : order.Perm members) :
    ∃ e reading, Used order key e ∧ Fits key e.1 reading ∧
      ∀ conditions, resolve (.object order) key conditions = reading.resolve conditions e.2 := by
  obtain ⟨e, he, htakes⟩ := h
  obtain ⟨first, hfirst⟩ := exists_used ⟨e, horder.mem_iff.2 he, htakes⟩
  obtain ⟨reading, hfits⟩ := hfirst.contends.takesIn
  have hdot' : ∃ m ∈ order, m.1.toList.head? = some '.' := ⟨e, horder.mem_iff.2 he, hdot e he⟩
  have hkey' : ∀ m ∈ order, m.1 ≠ key := fun m hm => hkey m (horder.mem_iff.1 hm)
  exact ⟨first, reading, hfirst, hfits, resolve_of_used hdot' hkey' hfirst hfits⟩

/-- Exports all of whose keys start with a dot, and a key that is not given. In every order of the members the first one
that contends is used. One of those that take in the key is the most specific. If each other one is a pattern with less
before its star, the most specific one is what the key is resolved by in every order; otherwise there is an order in which
it is another one, whatever the conditions are. -/
theorem resolve_specific (hdot : ∀ m ∈ members, m.1.toList.head? = some '.')
    (hnodup : (members.map Prod.fst).Nodup) (hkey : ∀ m ∈ members, m.1 ≠ key) :
    ((∀ e ∈ members, ¬ TakesIn key e.1) → ∀ order : List (String × Json), order.Perm members → ∀ conditions,
      resolve (.object order) key conditions = none) ∧
    ((∃ e ∈ members, TakesIn key e.1) → ∀ order : List (String × Json), order.Perm members →
      ∃ e reading, Used order key e ∧ Fits key e.1 reading ∧
        ∀ conditions, resolve (.object order) key conditions = reading.resolve conditions e.2) ∧
    ((∃ e ∈ members, TakesIn key e.1) → ∃ e reading, MostSpecific members key e ∧ Fits key e.1 reading ∧
      (Unrivalled members key e → ∀ order : List (String × Json), order.Perm members → ∀ conditions,
        resolve (.object order) key conditions = reading.resolve conditions e.2) ∧
      (¬ Unrivalled members key e → ∃ order : List (String × Json), order.Perm members ∧
        ∃ rival ∈ members, rival ≠ e ∧ ∃ reading', Fits key rival.1 reading' ∧
          ∀ conditions, resolve (.object order) key conditions = reading'.resolve conditions rival.2)) := by
  refine ⟨fun hnone order horder conditions => ?_, fun h order horder => exists_resolve hdot hkey h horder, fun h => ?_⟩
  · rcases order with _ | ⟨m, order⟩
    · exact resolve_empty key conditions
    · have hm := horder.mem_iff.1 (List.mem_cons_self (a := m) (l := order))
      exact resolve_of_none ⟨m, List.mem_cons_self .., hdot m hm⟩ (fun m hm => hkey m (horder.mem_iff.1 hm))
        (fun e he => hnone e (horder.mem_iff.1 he)) conditions
  · obtain ⟨e, he⟩ := exists_mostSpecific hnodup h
    obtain ⟨reading, hfits⟩ := he.takesIn
    refine ⟨e, reading, he, hfits, fun hsole order horder => ?_, fun hrival => ?_⟩
    · have hused := hsole.used he.mem he.takesIn horder
      exact resolve_of_used ⟨e, horder.mem_iff.2 he.mem, hdot e he.mem⟩ (fun m hm => hkey m (horder.mem_iff.1 hm)) hused
        hfits
    · obtain ⟨order, horder, hnot⟩ : ∃ order : List (String × Json), order.Perm members ∧ ¬ Used order key e := by
        by_contra hall
        push Not at hall
        exact hrival (he.unrivalled hall)
      obtain ⟨rival, reading', hused, hfits', hresolve⟩ := exists_resolve hdot hkey h horder
      refine ⟨order, horder, rival, horder.mem_iff.1 hused.contends.mem, ?_, reading', hfits', hresolve⟩
      rintro rfl
      exact hnot hused

end

/-- A directory in a directory, and a pattern in both. -/
def folders : List (String × Json) := [
  ("./a/", .string "./x/"),
  ("./a/b/", .string "./y/"),
  ("./a/b/c*", .string "./z/*")]

theorem resolve_specific_folders :
    (∀ order : List (String × Json), order.Perm folders → resolve (.object order) "./a/e" [] = some "./x/e") ∧
      (∀ order : List (String × Json), order.Perm folders → resolve (.object order) "./c" [] = none) ∧
      MostSpecific folders "./a/b/d" ("./a/b/", .string "./y/") ∧
      ∃ order : List (String × Json), order.Perm folders ∧ resolve (.object order) "./a/b/d" [] = some "./x/b/d" := by
  have hdot : ∀ m ∈ folders, m.1.toList.head? = some '.' := by decide +kernel
  have hnodup : (folders.map Prod.fst).Nodup := by decide +kernel
  have hkey : ∀ key ∈ ["./a/e", "./c", "./a/b/d"], ∀ m ∈ folders, m.1 ≠ key := by decide +kernel
  have hcases : ∀ e ∈ folders, e = ("./a/", .string "./x/") ∨ e = ("./a/b/", .string "./y/") ∨
      e = ("./a/b/c*", .string "./z/*") := by simp [folders]
  refine ⟨?_, ?_, ?_⟩
  · obtain ⟨e, reading, he, hfits, hsole, -⟩ := (resolve_specific hdot hnodup (hkey "./a/e" (by simp))).2.2
      ⟨_, List.mem_cons_self .., by decide +kernel⟩
    have hfirst : ∀ e ∈ folders, TakesIn "./a/e" e.1 → e = ("./a/", .string "./x/") := by
      intro e he htakes
      rcases hcases e he with rfl | rfl | rfl
      · rfl
      · exact absurd htakes (by decide +kernel)
      · exact absurd htakes (by decide +kernel)
    obtain rfl := hfirst e he.mem he.takesIn
    have hbelow : Fits "./a/e" "./a/" (.below "e") := ⟨by decide, by decide, by decide⟩
    cases hfits.unique hbelow
    intro order horder
    exact hsole (fun e' he' htakes hne => absurd (hfirst e' he' htakes) hne) order horder []
  · intro order horder
    exact (resolve_specific hdot hnodup (hkey "./c" (by simp))).1 (by decide +kernel) order horder []
  · obtain ⟨e, reading, he, -, -, hrival⟩ := (resolve_specific hdot hnodup (hkey "./a/b/d" (by simp))).2.2
      ⟨_, List.mem_cons_self .., by decide +kernel⟩
    have hinner : ("./a/b/", Json.string "./y/") ∈ folders := by simp [folders]
    have hsecond : e = ("./a/b/", .string "./y/") := by
      rcases hcases e he.mem with rfl | rfl | rfl
      · exact absurd (he.greatest _ hinner (by decide +kernel) (by simp)) (by decide +kernel)
      · rfl
      · exact absurd he.takesIn (by decide +kernel)
    subst hsecond
    have hnot : ¬ Unrivalled folders "./a/b/d" ("./a/b/", .string "./y/") := fun h =>
      absurd (h _ (List.mem_cons_self ..) (by decide +kernel) (by simp)).1 (by decide +kernel)
    obtain ⟨order, horder, rival, hmem, hne, reading', hfits, hresolve⟩ := hrival hnot
    refine ⟨he, order, horder, ?_⟩
    rcases hcases rival hmem with rfl | rfl | rfl
    · have hbelow : Fits "./a/b/d" "./a/" (.below "b/d") := ⟨by decide, by decide, by decide⟩
      cases hfits.unique hbelow
      exact hresolve []
    · exact absurd rfl hne
    · exact absurd ⟨_, hfits⟩ (show ¬ TakesIn "./a/b/d" "./a/b/c*" by decide +kernel)

end Stowage.Exports
