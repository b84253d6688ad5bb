/-
Configurations on top of each other. It does not matter in which order they are put together as long as they stand in
the same order, nothing on top changes nothing, and neither does a configuration on top of itself. What many of them
give together is told for each setting by what was given for it alone: the last value, the items in the order of their
first places, or the entry points in that order with the last path of each.

Lists are compared with their items in order, so the proofs go through what a single item or entry point does to
those before it.
-/
import Mathlib.Data.List.ReduceOption
import Stowage.Proofs.Config.Entries

namespace Stowage

namespace Json

variable {α : Type} {k p : String} {x y : α} {ms earlier later : List (String × α)}

theorem put_put (k : String) (x y : α) (ms : List (String × α)) : put k x (put k y ms) = put k x ms := by
  induction ms with
  | nil => simp [put]
  | cons m rest ih =>
    by_cases h : m.1 = k
    · simp [put, h]
    · simp [put, h, ih]

/-- A member that is there keeps its place, so another one may be put before it. -/
theorem put_comm (hne : k ≠ p) (hk : k ∈ ms.map Prod.fst) :
    put k x (put p y ms) = put p y (put k x ms) := by
  induction ms with
  | nil => exact absurd hk List.not_mem_nil
  | cons m rest ih =>
    obtain ⟨n, z⟩ := m
    by_cases hn : n = k
    · subst hn
      simp [put, hne]
    · have hrest : k ∈ rest.map Prod.fst := (List.mem_cons.1 hk).resolve_left (Ne.symm hn)
      by_cases hp : n = p
      · subst hp
        simp [put, hn]
      · simp [put, hn, hp, ih hrest]

theorem put_of_mem (hn : (ms.map Prod.fst).Nodup) (h : (k, x) ∈ ms) : put k x ms = ms := by
  induction ms with
  | nil => exact absurd h List.not_mem_nil
  | cons m rest ih =>
    obtain ⟨n, z⟩ := m
    rw [List.map_cons, List.nodup_cons] at hn
    rcases List.mem_cons.1 h with he | hrest
    · cases he
      rw [put, if_pos rfl]
    · have hne : n ≠ k := fun he => hn.1 (he ▸ List.mem_map.2 ⟨_, hrest, rfl⟩)
      rw [put, if_neg hne, ih hn.2 hrest]

theorem put_putAll (hk : k ∈ earlier.map Prod.fst) (hlater : k ∉ later.map Prod.fst) :
    put k x (putAll earlier later) = putAll (put k x earlier) later := by
  induction later generalizing earlier with
  | nil => rfl
  | cons m rest ih =>
    rw [List.map_cons, List.mem_cons, not_or] at hlater
    have hkept : k ∈ (put m.1 m.2 earlier).map Prod.fst := by
      rw [keys_put]
      split
      · exact hk
      · exact List.mem_append_left _ hk
    show put k x (putAll (put m.1 m.2 earlier) rest) = putAll (put m.1 m.2 (put k x earlier)) rest
    rw [ih hkept hlater.2, put_comm hlater.1 hk]

theorem putAll_put (h : (later.map Prod.fst).Nodup) :
    putAll earlier (put k x later) = put k x (putAll earlier later) := by
  induction later generalizing earlier with
  | nil => rfl
  | cons m rest ih =>
    obtain ⟨n, z⟩ := m
    rw [List.map_cons, List.nodup_cons] at h
    by_cases hn : n = k
    · subst hn
      have hkept : n ∈ (put n z earlier).map Prod.fst := by
        rw [keys_put]
        split
        · assumption
        · simp
      rw [put, if_pos rfl]
      show putAll (put n x earlier) rest = put n x (putAll (put n z earlier) rest)
      rw [put_putAll hkept h.1, put_put]
    · rw [put, if_neg hn]
      exact ih h.2

/-- Members on top of others, and those on top of others still. -/
theorem putAll_putAll (last : List (String × α)) (h : (later.map Prod.fst).Nodup) :
    putAll earlier (putAll later last) = putAll (putAll earlier later) last := by
  induction last generalizing later with
  | nil => rfl
  | cons m rest ih =>
    show putAll earlier (putAll (put m.1 m.2 later) rest) = putAll (put m.1 m.2 (putAll earlier later)) rest
    rw [ih (nodup_put h), putAll_put h]

theorem putAll_of_subset (h : (earlier.map Prod.fst).Nodup) (hsub : ∀ m ∈ later, m ∈ earlier) :
    putAll earlier later = earlier := by
  induction later with
  | nil => rfl
  | cons m rest ih =>
    show putAll (put m.1 m.2 earlier) rest = earlier
    rw [put_of_mem h (hsub m List.mem_cons_self)]
    exact ih fun m hm => hsub m (List.mem_cons_of_mem _ hm)

end Json

namespace Config

open Json

variable {α : Type} {a b c : Config}

/-! ## Items -/

/-- The items with one more, if it is not there. -/
def addItem (items : List String) (x : String) : List String := if items.contains x then items else items ++ [x]

theorem union_cons (earlier later : List String) (x : String) :
    union earlier (x :: later) = union (addItem earlier x) later := rfl

theorem union_concat (earlier later : List String) (x : String) :
    union earlier (later ++ [x]) = addItem (union earlier later) x := by
  unfold union
  rw [List.foldl_append]
  rfl

theorem addItem_of_mem {items : List String} {x : String} (h : x ∈ items) : addItem items x = items :=
  if_pos (List.contains_iff_mem.2 h)

theorem addItem_of_notMem {items : List String} {x : String} (h : x ∉ items) : addItem items x = items ++ [x] :=
  if_neg fun hc => h (List.contains_iff_mem.1 hc)

theorem mem_union {earlier later : List String} {x : String} :
    x ∈ union earlier later ↔ x ∈ earlier ∨ x ∈ later := by
  induction later using List.reverseRecOn with
  | nil => simp [union]
  | append_singleton later y ih =>
    rw [union_concat, List.mem_append, List.mem_singleton, ← or_assoc, ← ih]
    by_cases hy : y ∈ union earlier later
    · rw [addItem_of_mem hy]
      exact ⟨.inl, fun h => h.elim id fun hx => hx ▸ hy⟩
    · rw [addItem_of_notMem hy, List.mem_append, List.mem_singleton]

theorem union_union (earlier later last : List String) :
    union earlier (union later last) = union (union earlier later) last := by
  induction last generalizing later with
  | nil => rfl
  | cons x last ih =>
    rw [union_cons, union_cons, ih]
    congr 1
    by_cases hx : x ∈ later
    · rw [addItem_of_mem hx, addItem_of_mem (mem_union.2 (.inr hx))]
    · rw [addItem_of_notMem hx, union_concat]

theorem union_of_subset {earlier later : List String} (h : ∀ x ∈ later, x ∈ earlier) :
    union earlier later = earlier := by
  induction later with
  | nil => rfl
  | cons x later ih =>
    rw [union_cons, addItem_of_mem (h x List.mem_cons_self)]
    exact ih fun y hy => h y (List.mem_cons_of_mem _ hy)

/-- The items of a list, each once, in the order of their first places. -/
structure FirstPlaces (all items : List String) : Prop where
  mem : ∀ x, x ∈ items ↔ x ∈ all
  nodup : items.Nodup
  order : items.Pairwise fun x y => all.idxOf x < all.idxOf y

theorem firstPlaces_nil : FirstPlaces [] [] := ⟨fun _ => Iff.rfl, List.nodup_nil, .nil⟩

/-- One more item comes last, unless it has its place. -/
theorem FirstPlaces.concat {all items : List String} (h : FirstPlaces all items) (x : String) :
    FirstPlaces (all ++ [x]) (addItem items x) := by
  have hplace : ∀ y ∈ items, (all ++ [x]).idxOf y = all.idxOf y := fun y hy =>
    List.idxOf_append_of_mem ((h.mem y).1 hy)
  have horder : items.Pairwise fun y z => (all ++ [x]).idxOf y < (all ++ [x]).idxOf z := by
    refine h.order.imp_of_mem fun hy hz hlt => ?_
    rwa [hplace _ hy, hplace _ hz]
  by_cases hx : x ∈ items
  · rw [addItem_of_mem hx]
    refine ⟨fun y => ?_, h.nodup, horder⟩
    rw [h.mem, List.mem_append, List.mem_singleton]
    exact ⟨.inl, fun hy => hy.elim id fun hyx => hyx ▸ (h.mem x).1 hx⟩
  · have hall : x ∉ all := fun hin => hx ((h.mem x).2 hin)
    rw [addItem_of_notMem hx]
    refine ⟨fun y => ?_, ?_, List.pairwise_append.2 ⟨horder, List.pairwise_singleton _ _, fun y hy z hz => ?_⟩⟩
    · rw [List.mem_append, List.mem_append, h.mem]
    · exact List.nodup_append.2 ⟨h.nodup, List.nodup_singleton x, fun y hy z hz hyz =>
        hx (List.mem_singleton.1 hz ▸ hyz ▸ hy)⟩
    · rw [List.mem_singleton.1 hz, hplace y hy, List.idxOf_append_of_notMem hall]
      have := List.idxOf_lt_length_iff.2 ((h.mem y).1 hy)
      omega

theorem firstPlaces_union (all : List String) : FirstPlaces all (union [] all) := by
  induction all using List.reverseRecOn with
  | nil => exact firstPlaces_nil
  | append_singleton all x ih =>
    rw [union_concat]
    exact ih.concat x

theorem keys_putAll (earlier later : List (String × α)) :
    (Json.putAll earlier later).map Prod.fst = union (earlier.map Prod.fst) (later.map Prod.fst) := by
  induction later generalizing earlier with
  | nil => rfl
  | cons m rest ih =>
    show (Json.putAll (put m.1 m.2 earlier) rest).map Prod.fst = _
    rw [ih, keys_put, List.map_cons, union_cons]
    simp only [addItem, List.contains_iff_mem]

/-! ## Settings -/

section
variable {f : List α → List α → List α} {earlier later last : Option (List α)}

theorem latest_assoc (a b c : Option α) : latest (latest a b) c = latest a (latest b c) := by
  rcases c with _ | x <;> rfl

theorem latest_self (a : Option α) : latest a a = a := by
  rcases a with _ | x <;> rfl

theorem mergeWith_assoc (hnil : ∀ l, f l [] = l)
    (h : f (earlier.getD []) (f (later.getD []) (last.getD [])) =
      f (f (earlier.getD []) (later.getD [])) (last.getD [])) :
    mergeWith f (mergeWith f earlier later) last = mergeWith f earlier (mergeWith f later last) := by
  rcases last with _ | last
  · rfl
  · rcases later with _ | later
    · rw [Option.getD_none, hnil] at h
      exact congrArg some h.symm
    · exact congrArg some h.symm

theorem mergeWith_self (h : ∀ l, earlier = some l → f l l = l) : mergeWith f earlier earlier = earlier := by
  rcases earlier with _ | l
  · rfl
  · exact congrArg some (h l rfl)

end

/-- All that is given for a setting, in order. -/
def given (settings : List (Option (List α))) : List α := settings.flatMap fun s => s.getD []

/-- A setting is given if it is given somewhere, and then it puts together all that is given for it. -/
theorem foldl_mergeWith {f : List α → List α → List α} (hnil : ∀ l, f l [] = l)
    (happend : ∀ l l' l'', f l (l' ++ l'') = f (f l l') l'') (settings : List (Option (List α)))
    (start : Option (List α)) : settings.foldl (mergeWith f) start =
      if start.isSome ∨ ∃ s ∈ settings, s.isSome then some (f (start.getD []) (given settings)) else none := by
  induction settings generalizing start with
  | nil =>
    rcases start with _ | l
    · simp
    · simp [given, hnil]
  | cons s rest ih =>
    rw [List.foldl_cons, ih]
    rcases s with _ | l
    · rw [show mergeWith f start none = start from rfl]
      simp [given]
    · rw [show mergeWith f start (some l) = some (f (start.getD []) l) from rfl]
      simp [given, happend]

theorem foldl_latest (settings : List (Option α)) (start : Option α) :
    settings.foldl latest start = latest start settings.reduceOption.getLast? := by
  induction settings using List.reverseRecOn with
  | nil => rfl
  | append_singleton rest s ih =>
    rw [List.foldl_append, List.foldl_cons, List.foldl_nil, ih, latest_assoc, List.reduceOption_append,
      List.reduceOption_singleton]
    rcases s with _ | x
    · rw [Option.toList_none, List.append_nil]
      rfl
    · rw [Option.toList_some, List.getLast?_concat]
      rfl

/-- A list that is given in several configurations: it is there if it is given at all, with each item where it is
first given. -/
structure Gathers (settings : List (Option (List String))) (result : Option (List String)) : Prop where
  isSome : result.isSome ↔ ∃ s ∈ settings, s.isSome
  items : ∀ items, result = some items → FirstPlaces (given settings) items

/-- Entry points that are given in several configurations: each name where it is first given, with the path that is
given for it last. -/
structure GathersEntries (settings : List (Option (List (String × Path))))
    (result : Option (List (String × Path))) : Prop where
  isSome : result.isSome ↔ ∃ s ∈ settings, s.isSome
  names : ∀ entries, result = some entries →
    FirstPlaces ((given settings).map Prod.fst) (entries.map Prod.fst)
  paths : ∀ entries, result = some entries → ∀ n p, (n, p) ∈ entries ↔
    ∃ before after, given settings = before ++ (n, p) :: after ∧ ∀ e ∈ after, e.1 ≠ n

theorem gathers_foldl (settings : List (Option (List String))) :
    Gathers settings (settings.foldl (mergeWith union) none) := by
  rw [foldl_mergeWith (fun _ => rfl) (fun l l' l'' => List.foldl_append)]
  simp only [Option.isSome_none, Bool.false_eq_true, false_or, Option.getD_none]
  split
  · rename_i hgiven
    refine ⟨iff_of_true rfl hgiven, fun items h => ?_⟩
    cases h
    exact firstPlaces_union _
  · rename_i hnone
    exact ⟨iff_of_false (by simp) hnone, fun items h => nomatch h⟩

theorem gathersEntries_foldl (settings : List (Option (List (String × Path)))) :
    GathersEntries settings (settings.foldl (mergeWith putAll) none) := by
  rw [foldl_mergeWith (fun _ => rfl) (fun l l' l'' => List.foldl_append)]
  simp only [Option.isSome_none, Bool.false_eq_true, false_or, Option.getD_none]
  split
  · rename_i hgiven
    have hempty : (([] : List (String × Path)).map Prod.fst).Nodup := List.nodup_nil
    refine ⟨iff_of_true rfl hgiven, fun entries h => ?_, fun entries h n p => ?_⟩
    · cases h
      show FirstPlaces _ ((Json.putAll [] _).map Prod.fst)
      rw [keys_putAll]
      exact firstPlaces_union _
    · cases h
      show (n, p) ∈ Json.putAll [] _ ↔ _
      rw [Named.mem_iff_lookup (nodup_putAll hempty _), lookup_putAll, ← Named.lookup_reverse_eq_some]
      exact iff_of_eq (congrArg (· = some p) Option.or_none)
  · rename_i hnone
    exact ⟨iff_of_false (by simp) hnone, fun _ h => (nomatch h), fun _ h => nomatch h⟩

/-! ## Configurations -/

/-- What configurations give together, the later ones on top, setting by setting. -/
structure Combines (cs : List Config) (c : Config) : Prop where
  entries : GathersEntries (cs.map (·.entries)) c.entries
  output : c.output = (cs.map (·.output)).reduceOption.getLast?
  format : c.format = (cs.map (·.format)).reduceOption.getLast?
  level : c.level = (cs.map (·.level)).reduceOption.getLast?
  sourceType : c.sourceType = (cs.map (·.sourceType)).reduceOption.getLast?
  externals : Gathers (cs.map (·.externals)) c.externals
  forceInclude : Gathers (cs.map (·.forceInclude)) c.forceInclude
  exclude : Gathers (cs.map (·.exclude)) c.exclude
  extras : Gathers (cs.map (·.extras)) c.extras
  optionalModules : Gathers (cs.map (·.optionalModules)) c.optionalModules
  ignorePaths : Gathers (cs.map (·.ignorePaths)) c.ignorePaths
  buildDir : c.buildDir = (cs.map (·.buildDir)).reduceOption.getLast?
  strict : c.strict = (cs.map (·.strict)).reduceOption.getLast?
  keepBuild : c.keepBuild = (cs.map (·.keepBuild)).reduceOption.getLast?

theorem merge_assoc (a : Config) (hb : b.Distinct) (c : Config) :
    (a.merge b).merge c = a.merge (b.merge c) := by
  have hentries : mergeWith putAll (mergeWith putAll a.entries b.entries) c.entries =
      mergeWith putAll a.entries (mergeWith putAll b.entries c.entries) :=
    mergeWith_assoc (fun _ => rfl) (putAll_putAll _ hb)
  have hitems : ∀ x y z : Option (List String),
      mergeWith union (mergeWith union x y) z = mergeWith union x (mergeWith union y z) := fun x y z =>
    mergeWith_assoc (fun _ => rfl) (union_union _ _ _)
  simp only [merge, hentries, hitems, latest_assoc]

theorem merge_self (ha : a.Distinct) : a.merge a = a := by
  have hentries : mergeWith putAll a.entries a.entries = a.entries := by
    refine mergeWith_self fun l hl => putAll_of_subset ?_ fun _ h => h
    unfold Distinct at ha
    rwa [hl] at ha
  have hitems : ∀ x : Option (List String), mergeWith union x x = x := fun x =>
    mergeWith_self fun l _ => union_of_subset fun _ h => h
  simp only [merge, hentries, hitems, latest_self]

/-- A setting of what configurations give together comes from this setting of each. -/
theorem setting_foldl {β : Type} {get : Config → β} {f : β → β → β}
    (h : ∀ c later, get (c.merge later) = f (get c) (get later)) (cs : List Config) (start : Config) :
    get (cs.foldl merge start) = (cs.map get).foldl f (get start) := by
  induction cs generalizing start with
  | nil => rfl
  | cons c cs ih => rw [List.foldl_cons, ih, h, List.map_cons, List.foldl_cons]

theorem combines_foldl (cs : List Config) : Combines cs (cs.foldl merge empty) := by
  have hlast : ∀ {β : Type} {get : Config → Option β},
      (∀ c later, get (c.merge later) = latest (get c) (get later)) → get empty = none →
      get (cs.foldl merge empty) = (cs.map get).reduceOption.getLast? := by
    intro β get h hempty
    rw [setting_foldl h, hempty, foldl_latest]
    rcases (cs.map get).reduceOption.getLast? with _ | x <;> rfl
  have hitems : ∀ {get : Config → Option (List String)},
      (∀ c later, get (c.merge later) = mergeWith union (get c) (get later)) → get empty = none →
      Gathers (cs.map get) (get (cs.foldl merge empty)) := by
    intro get h hempty
    rw [setting_foldl h, hempty]
    exact gathers_foldl _
  have hentries : GathersEntries (cs.map (·.entries)) (cs.foldl merge empty).entries := by
    have hput : ∀ c later : Config, (c.merge later).entries = mergeWith putAll c.entries later.entries :=
      fun _ _ => rfl
    rw [setting_foldl hput]
    exact gathersEntries_foldl _
  exact ⟨hentries, hlast (fun _ _ => rfl) rfl, hlast (fun _ _ => rfl) rfl, hlast (fun _ _ => rfl) rfl,
    hlast (fun _ _ => rfl) rfl, hitems (fun _ _ => rfl) rfl, hitems (fun _ _ => rfl) rfl,
    hitems (fun _ _ => rfl) rfl, hitems (fun _ _ => rfl) rfl, hitems (fun _ _ => rfl) rfl,
    hitems (fun _ _ => rfl) rfl, hlast (fun _ _ => rfl) rfl, hlast (fun _ _ => rfl) rfl,
    hlast (fun _ _ => rfl) rfl⟩

/-- Configurations whose entry points have names of their own may be put together in any order of the steps, one that
sets nothing changes nothing on top of another, and neither does one on top of itself. On top of nothing any number of
configurations give together, for each setting, what was given for it: the last value, every item once in the order of
the first places, and every entry point in that order with its last path. -/
theorem merge_last_wins (ha : a.Distinct) (hb : b.Distinct) (c : Config) (cs : List Config) :
    (a.merge b).merge c = a.merge (b.merge c) ∧ a.merge empty = a ∧ a.merge a = a ∧
      Combines cs (cs.foldl merge empty) :=
  ⟨merge_assoc a hb c, rfl, merge_self ha, combines_foldl cs⟩

/-! ### Three configurations -/

/-- A configuration that gives a module twice. -/
def committed : Config :=
  { empty with
    entries := some [("api", ⟨"src/api.ts"⟩), ("job", ⟨"src/job.ts"⟩)]
    level := some 3
    exclude := some ["sdk", "sdk"] }

/-- A configuration that gives a list without items. -/
def overriding : Config :=
  { empty with
    entries := some [("job", ⟨"src/local.ts"⟩), ("web", ⟨"src/web.ts"⟩)]
    exclude := some ["sharp", "sdk"]
    extras := some [] }

def typed : Config :=
  { empty with
    entries := some [("web", ⟨"web.ts"⟩), ("api", ⟨"api.ts"⟩)]
    level := some 0
    exclude := some ["x", "sharp", "x"] }

/-- A configuration that gives a module twice keeps it so, but on top of nothing each module is there once. -/
theorem merge_last_wins_layered : committed.Distinct ∧ overriding.Distinct ∧
    (committed.merge overriding).merge typed = committed.merge (overriding.merge typed) ∧
    committed.merge committed = committed ∧ committed.exclude = some ["sdk", "sdk"] ∧
    Combines [committed, overriding, typed] ([committed, overriding, typed].foldl merge empty) ∧
    [committed, overriding, typed].foldl merge empty =
      { empty with
        entries := some [("api", ⟨"api.ts"⟩), ("job", ⟨"src/local.ts"⟩), ("web", ⟨"web.ts"⟩)]
        level := some 0
        exclude := some ["sdk", "sharp", "x"]
        extras := some [] } := by
  have hcommitted : committed.Distinct := by
    unfold Distinct
    decide
  have hlocal : overriding.Distinct := by
    unfold Distinct
    decide
  obtain ⟨hassoc, -, hself, hcombines⟩ := merge_last_wins hcommitted hlocal typed [committed, overriding, typed]
  exact ⟨hcommitted, hlocal, hassoc, hself, rfl, hcombines, by decide⟩

end Config

end Stowage
