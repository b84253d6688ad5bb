/-
The references of a script, told by the positions of its nodes. A position leads down from the items by the index of a
part at every level, so that positions are visited in their lexicographic order. A call anywhere in the tree is a
reference if its callee loads modules: by its specifier, or as a computed one.
-/
import Stowage.Script.References
import Mathlib.Data.List.Lex
import Mathlib.Tactic

namespace Stowage.Script.References

open Stowage.Trace (ReferenceKind)

/-! ## Calls that load modules -/

/-- The callee loads modules. -/
inductive Loader : Node → ReferenceKind → Prop
  | require {line : Nat} {parts : List Node} : Loader (.mk (.name "require") line parts) .require
  | dynamicImport {line : Nat} {parts : List Node} : Loader (.mk (.name "import") line parts) .dynamicImport
  | resolve {line line' : Nat} {parts : List Node} :
      Loader (.mk (.member "resolve" false) line [.mk (.name "require") line' parts]) .resolve

/-- The expression is a text that is written out. -/
inductive Literal : Node → String → Prop
  | string {s : String} {line : Nat} {parts : List Node} : Literal (.mk (.string s) line parts) s
  | parenthesized {s : String} {line : Nat} {e : Node} (h : Literal e s) : Literal (.mk .parenthesized line [e]) s
  | template {text spelled : String} {chunks : List Chunk} {line : Nat} :
      Literal (.mk (.template ((text, spelled) :: chunks)) line []) text

/-- The argument is written out. It may be spread. -/
def Written (argument : Node) (s : String) : Prop :=
  Literal argument s ∨ ∃ line e, argument = .mk .spread line [e] ∧ Literal e s

/-- The node is a call that loads a module, with its first argument. -/
inductive LoadCall : Node → ReferenceKind → Node → Prop
  | mk {isOptional : Bool} {line : Nat} {callee argument : Node} {more : List Node} {kind : ReferenceKind}
      (h : Loader callee kind) : LoadCall (.mk (.call isOptional) line (callee :: argument :: more)) kind argument

theorem referenceKind?_eq_some {callee : Node} {kind : ReferenceKind} :
    referenceKind? callee = some kind ↔ Loader callee kind := by
  constructor
  · intro h
    unfold referenceKind? at h
    split at h <;> cases h
    · exact .require
    · exact .dynamicImport
    · exact .resolve
  · rintro (_ | _ | _) <;> rfl

theorem literal?_eq_some {e : Node} {s : String} : literal? e = some s ↔ Literal e s := by
  constructor
  · intro h
    fun_induction literal? e with
    | case1 => cases h; exact .string
    | case2 _ e ih => exact .parenthesized (ih h)
    | case3 => cases h; exact .template
    | case4 => cases h
  · intro h
    induction h with
    | string => rfl
    | parenthesized _ ih => exact ih
    | template => rfl

theorem literal?_unspread {argument : Node} {s : String} :
    literal? (unspread argument) = some s ↔ Written argument s := by
  unfold Written unspread
  split
  · rw [literal?_eq_some]
    exact ⟨fun h => .inr ⟨_, _, rfl, h⟩, fun h => h.elim nofun fun ⟨_, _, he, h⟩ => by cases he; exact h⟩
  · rename_i hno
    rw [literal?_eq_some]
    exact ⟨.inl, fun h => h.elim id fun ⟨line, e, he, _⟩ => absurd he (hno line e)⟩

theorem load?_eq_static {n : Node} {s : String} {kind : ReferenceKind} :
    load? n = some (.static s kind) ↔ ∃ argument, LoadCall n kind argument ∧ Written argument s := by
  constructor
  · intro h
    unfold load? at h
    split at h
    · obtain ⟨k, hk, h⟩ := Option.map_eq_some_iff.1 h
      split at h <;> cases h
      rename_i hs
      exact ⟨_, .mk (referenceKind?_eq_some.1 hk), literal?_unspread.1 hs⟩
    · cases h
  · rintro ⟨argument, ⟨hcallee⟩, hs⟩
    unfold load?
    dsimp only
    rw [referenceKind?_eq_some.2 hcallee, Option.map_some, literal?_unspread.2 hs]

theorem load?_eq_computed {n : Node} {kind : ReferenceKind} {line : Nat} :
    load? n = some (.computed kind line) ↔
      ∃ argument, LoadCall n kind argument ∧ (∀ s, ¬ Written argument s) ∧ n.line = line := by
  constructor
  · intro h
    unfold load? at h
    split at h
    · obtain ⟨k, hk, h⟩ := Option.map_eq_some_iff.1 h
      split at h <;> cases h
      rename_i hnone
      exact ⟨_, .mk (referenceKind?_eq_some.1 hk),
        fun s hs => Option.some_ne_none s ((literal?_unspread.2 hs).symm.trans hnone), rfl⟩
    · cases h
  · rintro ⟨argument, ⟨hcallee⟩, hno, rfl⟩
    have hnone : literal? (unspread argument) = none := by
      rcases hl : literal? (unspread argument) with _ | s
      · rfl
      · exact absurd (literal?_unspread.1 hl) (hno s)
    unfold load?
    dsimp only
    rw [referenceKind?_eq_some.2 hcallee, Option.map_some, hnone]
    rfl

/-! ## Positions -/

/-- The node at a position below some nodes. -/
inductive At : List Node → List Nat → Node → Prop
  | here {items : List Node} {i : Nat} {n : Node} (h : items[i]? = some n) : At items [i] n
  | inside {items : List Node} {i : Nat} {p : List Nat} {m n : Node} (h : items[i]? = some m)
      (hn : At m.parts p n) : At items (i :: p) n

mutual

/-- A node and all below it with their positions as seen from it, in the order of visits. -/
def visits : Node → List (List Nat × Node)
  | .mk kind line parts => ([], .mk kind line parts) :: visitsFrom 0 parts

/-- The nodes below some nodes, where the first one of these has the given index. -/
def visitsFrom (first : Nat) : List Node → List (List Nat × Node)
  | [] => []
  | n :: ns => (visits n).map (fun v => (first :: v.1, v.2)) ++ visitsFrom (first + 1) ns

end

mutual

/-- What is loaded is told by each node on its own. -/
theorem loads_eq : ∀ n, loads n = (visits n).filterMap fun v => load? v.2
  | .mk kind line parts => by
    rw [loads, visits, loadsOf_eq 0 parts, List.filterMap_cons]
    rcases load? (.mk kind line parts) with _ | l <;> rfl

theorem loadsOf_eq : ∀ first ns, loadsOf ns = (visitsFrom first ns).filterMap fun v => load? v.2
  | _, [] => rfl
  | first, n :: ns => by
    rw [loadsOf, visitsFrom, List.filterMap_append, List.filterMap_map, loads_eq n, loadsOf_eq (first + 1) ns]
    rfl

end

theorem at_cons_zero {n m : Node} {ns : List Node} {p : List Nat} :
    At (n :: ns) (0 :: p) m ↔ p = [] ∧ m = n ∨ At n.parts p m := by
  constructor
  · rintro (h | ⟨h, hn⟩)
    · exact .inl ⟨rfl, (Option.some.inj h).symm⟩
    · cases h
      exact .inr hn
  · rintro (⟨rfl, rfl⟩ | h)
    · exact .here rfl
    · exact .inside rfl h

theorem at_cons_succ {n m : Node} {ns : List Node} {i : Nat} {p : List Nat} :
    At (n :: ns) ((i + 1) :: p) m ↔ At ns (i :: p) m := by
  constructor
  · rintro (h | ⟨h, hn⟩)
    · exact .here h
    · exact .inside h hn
  · rintro (h | ⟨h, hn⟩)
    · exact .here h
    · exact .inside h hn

theorem at_iff {ns : List Node} {p : List Nat} {m : Node} : At ns p m ↔ ∃ i q, p = i :: q ∧ At ns (i :: q) m := by
  constructor
  · intro h
    cases h with
    | here h => exact ⟨_, _, rfl, .here h⟩
    | inside h hn => exact ⟨_, _, rfl, .inside h hn⟩
  · rintro ⟨i, q, rfl, h⟩
    exact h

mutual

/-- The visits of a node come to all positions below it, and to itself. -/
theorem mem_visits : ∀ (n : Node) (p : List Nat) (m : Node), (p, m) ∈ visits n ↔ p = [] ∧ m = n ∨ At n.parts p m
  | .mk kind line parts, p, m => by
    have hparts := mem_visitsFrom 0 parts p m
    simp only [Nat.zero_add] at hparts
    rw [visits, List.mem_cons, Prod.mk.injEq, hparts, ← at_iff]
    rfl

theorem mem_visitsFrom : ∀ (first : Nat) (ns : List Node) (p : List Nat) (m : Node), (p, m) ∈ visitsFrom first ns ↔
    ∃ i q, p = (first + i) :: q ∧ At ns (i :: q) m
  | _, [], _, _ => by
    rw [visitsFrom]
    exact ⟨fun h => absurd h List.not_mem_nil, fun ⟨_, _, _, h⟩ => by cases h <;> contradiction⟩
  | first, n :: ns, p, m => by
    have hnode : (p, m) ∈ (visits n).map (fun v => (first :: v.1, v.2)) ↔
        ∃ q, p = first :: q ∧ At (n :: ns) (0 :: q) m := by
      simp only [List.mem_map, Prod.mk.injEq, Prod.exists, at_cons_zero]
      constructor
      · rintro ⟨q, m', hv, rfl, rfl⟩
        exact ⟨q, rfl, (mem_visits n q m').1 hv⟩
      · rintro ⟨q, rfl, h⟩
        exact ⟨q, m, (mem_visits n q m).2 h, rfl, rfl⟩
    rw [visitsFrom, List.mem_append, hnode, mem_visitsFrom (first + 1) ns p m]
    constructor
    · rintro (⟨q, rfl, h⟩ | ⟨i, q, rfl, h⟩)
      · exact ⟨0, q, rfl, h⟩
      · exact ⟨i + 1, q, by rw [Nat.add_assoc, Nat.add_comm 1], at_cons_succ.2 h⟩
    · rintro ⟨_ | i, q, rfl, h⟩
      · exact .inl ⟨q, rfl, h⟩
      · exact .inr ⟨i, q, by rw [Nat.add_assoc, Nat.add_comm 1], at_cons_succ.1 h⟩

end

mutual

/-- The visits go through the positions in their order. -/
theorem pairwise_visits : ∀ n, ((visits n).map Prod.fst).Pairwise (· < ·)
  | .mk kind line parts => by
    rw [visits, List.map_cons, List.pairwise_cons]
    refine ⟨fun p hp => ?_, pairwise_visitsFrom 0 parts⟩
    obtain ⟨⟨p, m⟩, hv, rfl⟩ := List.mem_map.1 hp
    obtain ⟨i, q, rfl, -⟩ := (mem_visitsFrom 0 parts p m).1 hv
    exact List.Lex.nil

theorem pairwise_visitsFrom : ∀ first ns, ((visitsFrom first ns).map Prod.fst).Pairwise (· < ·)
  | _, [] => List.Pairwise.nil
  | first, n :: ns => by
    rw [visitsFrom, List.map_append, List.map_map, List.pairwise_append]
    refine ⟨?_, pairwise_visitsFrom (first + 1) ns, fun a ha b hb => ?_⟩
    · have h := (pairwise_visits n).map (first :: ·) fun p q hpq => List.Lex.cons hpq
      rwa [List.map_map] at h
    · obtain ⟨v, -, rfl⟩ := List.mem_map.1 ha
      obtain ⟨⟨p, m⟩, hv, rfl⟩ := List.mem_map.1 hb
      obtain ⟨i, q, rfl, -⟩ := (mem_visitsFrom (first + 1) ns p m).1 hv
      exact List.Lex.rel (by omega)

end

theorem mem_visitsFrom_zero {items : List Node} {v : List Nat × Node} :
    v ∈ visitsFrom 0 items ↔ At items v.1 v.2 := by
  have h := mem_visitsFrom 0 items v.1 v.2
  simp only [Nat.zero_add] at h
  exact h.trans at_iff.symm

/-! ## The first entry for a specifier -/

section
variable {l : List (String × ReferenceKind)}

theorem dedupe_concat (e : String × ReferenceKind) : dedupe (l ++ [e]) =
    if (dedupe l).any (·.1 = e.1) then dedupe l else dedupe l ++ [e] := by
  unfold dedupe
  rw [List.foldl_append]
  rfl

/-- An entry is kept if it is the first one for its specifier. -/
theorem mem_dedupe {e : String × ReferenceKind} : e ∈ dedupe l ↔ l.find? (·.1 = e.1) = some e := by
  induction l using List.reverseRecOn generalizing e with
  | nil => exact ⟨fun h => absurd h List.not_mem_nil, nofun⟩
  | append_singleton l x ih =>
    have hkept : (dedupe l).any (·.1 = x.1) = true ↔ ∃ y, l.find? (·.1 = x.1) = some y := by
      simp only [List.any_eq_true, decide_eq_true_eq]
      constructor
      · rintro ⟨y, hy, he⟩
        exact ⟨y, he ▸ ih.1 hy⟩
      · rintro ⟨y, hy⟩
        have he : y.1 = x.1 := by simpa using List.find?_some hy
        exact ⟨y, ih.2 (he ▸ hy), he⟩
    rw [dedupe_concat, List.find?_append, List.find?_singleton]
    by_cases he : e.1 = x.1
    · rw [he, if_pos (decide_eq_true rfl)]
      split
      · obtain ⟨y, hy⟩ := hkept.1 ‹_›
        rw [ih, he, hy]
        rfl
      · have hnone : l.find? (·.1 = x.1) = none := by
          by_contra hsome
          exact absurd (hkept.2 (Option.ne_none_iff_exists'.1 hsome)) ‹_›
        rw [List.mem_append, ih, he, hnone, List.mem_singleton]
        exact ⟨fun h => h.elim nofun fun h => congrArg some h.symm, fun h => .inr (Option.some.inj h).symm⟩
    · have hx : ¬ decide (x.1 = e.1) = true := fun h => he (of_decide_eq_true h).symm
      rw [if_neg hx, Option.or_none, ← ih]
      split
      · rfl
      · rw [List.mem_append, List.mem_singleton]
        exact ⟨fun h => h.resolve_right fun hx => he (hx ▸ rfl), .inl⟩

theorem mem_map_dedupe {s : String} : s ∈ (dedupe l).map Prod.fst ↔ s ∈ l.map Prod.fst := by
  simp only [List.mem_map]
  constructor
  · rintro ⟨e, he, rfl⟩
    exact ⟨e, List.mem_of_find?_eq_some (mem_dedupe.1 he), rfl⟩
  · rintro ⟨e, he, rfl⟩
    have hfound : (l.find? (·.1 = e.1)).isSome = true := List.find?_isSome.2 ⟨e, he, decide_eq_true rfl⟩
    obtain ⟨x, hx⟩ := Option.isSome_iff_exists.1 hfound
    have hsame : x.1 = e.1 := by simpa using List.find?_some hx
    exact ⟨x, mem_dedupe.2 (hsame ▸ hx), hsame⟩

theorem nodup_dedupe (l : List (String × ReferenceKind)) : ((dedupe l).map Prod.fst).Nodup := by
  induction l using List.reverseRecOn with
  | nil => exact List.nodup_nil
  | append_singleton l x ih =>
    rw [dedupe_concat]
    split
    · exact ih
    · rename_i hnew
      rw [List.map_append, List.map_singleton, ← List.concat_eq_append]
      refine ih.concat fun hx => hnew ?_
      obtain ⟨y, hy, he⟩ := List.mem_map.1 hx
      exact List.any_eq_true.2 ⟨y, hy, decide_eq_true he⟩

end

/-- The first of some visits with a property is the one at the least position. -/
theorem find?_eq_some_iff_least {vs : List (List Nat × Node)} (hs : (vs.map Prod.fst).Pairwise (· < ·))
    {q : List Nat × Node → Bool} {v : List Nat × Node} :
    vs.find? q = some v ↔ v ∈ vs ∧ q v = true ∧ ∀ u ∈ vs, q u = true → v.1 ≤ u.1 := by
  induction vs with
  | nil => exact ⟨nofun, fun h => absurd h.1 List.not_mem_nil⟩
  | cons w vs ih =>
    rw [List.map_cons, List.pairwise_cons] at hs
    have hbefore : ∀ u ∈ vs, w.1 < u.1 := fun u hu => hs.1 u.1 (List.mem_map_of_mem hu)
    by_cases hw : q w = true
    · rw [List.find?_cons_of_pos hw, Option.some.injEq]
      constructor
      · rintro rfl
        exact ⟨List.mem_cons_self .., hw, fun u hu _ => (List.mem_cons.1 hu).elim (fun h => h ▸ le_refl _)
          fun h => (hbefore u h).le⟩
      · rintro ⟨hv, -, hleast⟩
        exact ((List.mem_cons.1 hv).resolve_right fun h =>
          absurd (hleast w (List.mem_cons_self ..) hw) (hbefore v h).not_ge).symm
    · rw [List.find?_cons_of_neg hw, ih hs.2]
      constructor
      · rintro ⟨hv, hq, hleast⟩
        exact ⟨List.mem_cons_of_mem _ hv, hq, fun u hu hqu => hleast u
          ((List.mem_cons.1 hu).resolve_left fun h => hw (h ▸ hqu)) hqu⟩
      · rintro ⟨hv, hq, hleast⟩
        exact ⟨(List.mem_cons.1 hv).resolve_left fun h => hw (h ▸ hq), hq,
          fun u hu => hleast u (List.mem_cons_of_mem _ hu)⟩

/-! ## The references of a tree -/

/-- A declaration imports or exports from a module. -/
inductive Declares : Node → String → Prop
  | imports {names : List ImportName} {s : String} {line : Nat} {parts : List Node} :
      Declares (.mk (.importFrom names s) line parts) s
  | exports {names : List (String × String)} {s : String} {line : Nat} {parts : List Node} :
      Declares (.mk (.exportNames names (some s)) line parts) s
  | exportsAll {outer : Option String} {s : String} {line : Nat} {parts : List Node} :
      Declares (.mk (.exportAll outer s) line parts) s

/-- At a position there is a call that loads a module by its specifier. -/
def LoadsAt (items : List Node) (p : List Nat) (kind : ReferenceKind) (s : String) : Prop :=
  ∃ n argument, At items p n ∧ LoadCall n kind argument ∧ Written argument s

/-- At a position there is a call that loads a module whose specifier is computed. -/
def ComputesAt (items : List Node) (p : List Nat) (kind : ReferenceKind) (line : Nat) : Prop :=
  ∃ n argument, At items p n ∧ LoadCall n kind argument ∧ (∀ s, ¬ Written argument s) ∧ n.line = line

theorem declared?_eq_some {n : Node} {s : String} : declared? n = some s ↔ Declares n s := by
  constructor
  · intro h
    rcases n with ⟨kind, line, parts⟩
    unfold declared? Node.kind at h
    dsimp only at h
    split at h
    · cases h; exact .imports
    · cases h; exact .exports
    · cases h; exact .exportsAll
    · cases h
  · rintro (_ | _ | _) <;> rfl

/-- The entry that a visited node gives by itself. -/
def entryOf (v : List Nat × Node) : Option (String × ReferenceKind) := (load? v.2).bind specifier?

theorem entryOf_eq_some {v : List Nat × Node} {s : String} {kind : ReferenceKind} :
    entryOf v = some (s, kind) ↔ ∃ argument, LoadCall v.2 kind argument ∧ Written argument s := by
  rw [← load?_eq_static]
  unfold entryOf
  rcases load? v.2 with _ | (⟨s', kind'⟩ | ⟨kind', line⟩)
  · exact ⟨nofun, nofun⟩
  · show some (s', kind') = some (s, kind) ↔ some (Load.static s' kind') = some (Load.static s kind)
    simp
  · exact ⟨nofun, nofun⟩

section
variable {items : List Node} {s : String} {kind : ReferenceKind} {p : List Nat}

theorem loadsAt_iff : LoadsAt items p kind s ↔ ∃ v ∈ visitsFrom 0 items, v.1 = p ∧ entryOf v = some (s, kind) := by
  constructor
  · rintro ⟨n, argument, hat, hload, hs⟩
    exact ⟨(p, n), mem_visitsFrom_zero.2 hat, rfl, entryOf_eq_some.2 ⟨argument, hload, hs⟩⟩
  · rintro ⟨v, hv, rfl, he⟩
    obtain ⟨argument, hload, hs⟩ := entryOf_eq_some.1 he
    exact ⟨v.2, argument, mem_visitsFrom_zero.1 hv, hload, hs⟩

theorem entries_eq : (loadsOf items).filterMap specifier? = (visitsFrom 0 items).filterMap entryOf := by
  rw [loadsOf_eq 0, List.filterMap_filterMap]
  rfl

/-- The first entry for a specifier comes from the first call that loads it. -/
theorem find?_entries : ((loadsOf items).filterMap specifier?).find? (·.1 = s) = some (s, kind) ↔
    ∃ p, LoadsAt items p kind s ∧ ∀ p' kind', LoadsAt items p' kind' s → p ≤ p' := by
  have hany : ∀ v : List Nat × Node, (entryOf v).any (·.1 = s) = true ↔ ∃ kind, entryOf v = some (s, kind) := by
    intro v
    rw [Option.any_eq_true]
    constructor
    · rintro ⟨⟨s', kind'⟩, he, hs⟩
      exact ⟨kind', of_decide_eq_true hs ▸ he⟩
    · rintro ⟨kind', he⟩
      exact ⟨_, he, decide_eq_true rfl⟩
  rw [entries_eq, List.find?_filterMap, Option.bind_eq_some_iff]
  simp only [find?_eq_some_iff_least (pairwise_visitsFrom 0 items), hany]
  constructor
  · rintro ⟨v, ⟨hv, -, hleast⟩, he⟩
    refine ⟨v.1, loadsAt_iff.2 ⟨v, hv, rfl, he⟩, fun p' kind' h => ?_⟩
    obtain ⟨u, hu, rfl, he'⟩ := loadsAt_iff.1 h
    exact hleast u hu ⟨kind', he'⟩
  · rintro ⟨p, h, hleast⟩
    obtain ⟨v, hv, rfl, he⟩ := loadsAt_iff.1 h
    exact ⟨v, ⟨hv, ⟨kind, he⟩, fun u hu ⟨kind', he'⟩ => hleast u.1 kind' (loadsAt_iff.2 ⟨u, hu, rfl, he'⟩)⟩, he⟩

theorem find?_entries_eq_none : ((loadsOf items).filterMap specifier?).find? (·.1 = s) = none ↔
    ∀ p kind, ¬ LoadsAt items p kind s := by
  rw [entries_eq, List.find?_eq_none]
  constructor
  · intro h p kind hload
    obtain ⟨v, hv, -, he⟩ := loadsAt_iff.1 hload
    exact h _ (List.mem_filterMap.2 ⟨v, hv, he⟩) (decide_eq_true rfl)
  · rintro h ⟨s', kind⟩ he hs
    obtain ⟨v, hv, he⟩ := List.mem_filterMap.1 he
    exact h v.1 kind (loadsAt_iff.2 ⟨v, hv, rfl, of_decide_eq_true hs ▸ he⟩)

theorem mem_entries_iff : (∃ kind, (s, kind) ∈ (loadsOf items).filterMap specifier?) ↔
    ∃ p kind, LoadsAt items p kind s := by
  rw [entries_eq]
  constructor
  · rintro ⟨kind, he⟩
    obtain ⟨v, hv, he⟩ := List.mem_filterMap.1 he
    exact ⟨v.1, kind, loadsAt_iff.2 ⟨v, hv, rfl, he⟩⟩
  · rintro ⟨p, kind, h⟩
    obtain ⟨v, hv, -, he⟩ := loadsAt_iff.1 h
    exact ⟨kind, List.mem_filterMap.2 ⟨v, hv, he⟩⟩

end

/-- The computed calls with their positions, in the order of visits. -/
def computedFrom (items : List Node) : List (List Nat × ReferenceKind × Nat) :=
  (visitsFrom 0 items).filterMap fun v => ((load? v.2).bind computed?).map (v.1, ·)

section
variable {items : List Node}

theorem computed_eq : (loadsOf items).filterMap computed? = (computedFrom items).map Prod.snd := by
  unfold computedFrom
  rw [loadsOf_eq 0, List.filterMap_filterMap, List.map_filterMap]
  congr 1
  funext v
  rcases (load? v.2).bind computed? with _ | c <;> rfl

theorem pairwise_computedFrom : ((computedFrom items).map Prod.fst).Pairwise (· < ·) := by
  have hvisits := List.pairwise_map.1 (pairwise_visitsFrom 0 items)
  unfold computedFrom
  rw [List.pairwise_map, List.pairwise_filterMap]
  refine hvisits.imp fun hlt a ha b hb => ?_
  obtain ⟨_, -, rfl⟩ := Option.map_eq_some_iff.1 ha
  obtain ⟨_, -, rfl⟩ := Option.map_eq_some_iff.1 hb
  exact hlt

theorem mem_computedFrom {p : List Nat} {kind : ReferenceKind} {line : Nat} :
    (p, kind, line) ∈ computedFrom items ↔ ComputesAt items p kind line := by
  have hcomputed : ∀ n, (load? n).bind computed? = some (kind, line) ↔ load? n = some (.computed kind line) := by
    intro n
    rcases load? n with _ | (⟨s, kind'⟩ | ⟨kind', line'⟩)
    · exact ⟨nofun, nofun⟩
    · exact ⟨nofun, nofun⟩
    · show some (kind', line') = some (kind, line) ↔ some (Load.computed kind' line') = some (Load.computed kind line)
      simp
  unfold computedFrom
  rw [List.mem_filterMap]
  constructor
  · rintro ⟨v, hv, he⟩
    obtain ⟨_, hload, he⟩ := Option.map_eq_some_iff.1 he
    cases he
    obtain ⟨argument, hcall⟩ := load?_eq_computed.1 ((hcomputed v.2).1 hload)
    exact ⟨v.2, argument, mem_visitsFrom_zero.1 hv, hcall⟩
  · rintro ⟨n, argument, hat, hcall⟩
    refine ⟨(p, n), mem_visitsFrom_zero.2 hat, Option.map_eq_some_iff.2 ⟨_, ?_, rfl⟩⟩
    exact (hcomputed n).2 (load?_eq_computed.2 ⟨argument, hcall⟩)

end

/-- The references tell what the items load and what they declare. -/
structure Tells (items : List Node) (refs : References) : Prop where
  /-- Every specifier occurs once. -/
  nodup : (refs.static.map Prod.fst).Nodup
  specifiers : ∀ s, s ∈ refs.static.map Prod.fst ↔
    (∃ n ∈ items, Declares n s) ∨ ∃ p kind, LoadsAt items p kind s
  /-- A specifier has the kind of the first call that loads it, or it occurs in none. -/
  kinds : ∀ s kind, (s, kind) ∈ refs.static →
    (∃ p, LoadsAt items p kind s ∧ ∀ p' kind', LoadsAt items p' kind' s → p ≤ p') ∨
      kind = .staticImport ∧ ∀ p kind', ¬ LoadsAt items p kind' s
  /-- The computed calls stand in the order in which they are visited. -/
  computed : ∃ calls : List (List Nat × ReferenceKind × Nat), refs.computed = calls.map Prod.snd ∧
    (calls.map Prod.fst).Pairwise (· < ·) ∧
    ∀ p kind line, (p, kind, line) ∈ calls ↔ ComputesAt items p kind line

/-- What is named besides the calls may be more than what is declared, as long as calls load it. -/
theorem tells_merged {items : List Node} {named : List String}
    (hnamed : ∀ s ∈ named, (∃ n ∈ items, Declares n s) ∨ ∃ p kind, LoadsAt items p kind s)
    (hdeclared : ∀ n ∈ items, ∀ s, Declares n s → s ∈ named) : Tells items (merged (loadsOf items) named) := by
  refine ⟨nodup_dedupe _, fun s => ?_, fun s kind h => ?_,
    _, computed_eq, pairwise_computedFrom, fun _ _ _ => mem_computedFrom⟩
  · have hentry : s ∈ ((loadsOf items).filterMap specifier?).map Prod.fst ↔ ∃ p kind, LoadsAt items p kind s := by
      rw [← mem_entries_iff]
      simp
    have hlisted : s ∈ (named.map fun s => (s, ReferenceKind.staticImport)).map Prod.fst ↔ s ∈ named := by simp
    show s ∈ (dedupe _).map Prod.fst ↔ _
    rw [mem_map_dedupe, List.map_append, List.mem_append, hentry, hlisted]
    constructor
    · exact fun h => h.elim .inr (hnamed s)
    · exact fun h => h.elim (fun ⟨n, hn, hs⟩ => .inr (hdeclared n hn s hs)) .inl
  · change (s, kind) ∈ dedupe _ at h
    rw [mem_dedupe, List.find?_append, Option.or_eq_some_iff] at h
    rcases h with h | ⟨hnone, h⟩
    · exact .inl (find?_entries.1 h)
    · obtain ⟨t, -, ht⟩ := List.mem_map.1 (List.mem_of_find?_eq_some h)
      cases ht
      exact .inr ⟨rfl, find?_entries_eq_none.1 hnone⟩

/-- The references of a tree miss no call and no declaration, whatever calls are named along with the declarations. -/
theorem references_told (items : List Node) : Tells items (ofItems items) ∧
    ∀ named, (∀ s ∈ named, (∃ n ∈ items, Declares n s) ∨ ∃ p kind, LoadsAt items p kind s) →
      (∀ n ∈ items, ∀ s, Declares n s → s ∈ named) → Tells items (merged (loadsOf items) named) := by
  refine ⟨tells_merged (fun s hs => ?_) fun n hn s hs => ?_, fun named => tells_merged⟩
  · obtain ⟨n, hn, hs⟩ := List.mem_filterMap.1 hs
    exact .inl ⟨n, hn, declared?_eq_some.1 hs⟩
  · exact List.mem_filterMap.2 ⟨n, hn, declared?_eq_some.2 hs⟩

/-- A script that loads a module in the argument of a call, and one by an argument that is spread. -/
def nested : String := "import a from './a'; require(require(`b`)); require.resolve(...'c')"

theorem references_told_nested : ∃ items, Parser.parse nested = some items ∧
    ofItems items = ⟨[("b", .require), ("c", .resolve), ("./a", .staticImport)], [(.require, 1)]⟩ ∧
    Tells items (merged (loadsOf items) ["./a", "b"]) := by
  have htold : (Parser.parse nested).map (fun items => (ofItems items, items.filterMap declared?)) =
      some (⟨[("b", .require), ("c", .resolve), ("./a", .staticImport)], [(.require, 1)]⟩, ["./a"]) := by
    decide +kernel
  obtain ⟨items, hparse, htold⟩ := Option.map_eq_some_iff.1 htold
  obtain ⟨hrefs, hdeclared⟩ := Prod.mk.inj htold
  have hnames := (references_told items).1.specifiers
  rw [hrefs] at hnames
  refine ⟨items, hparse, hrefs, (references_told items).2 _ (fun s hs => (hnames s).1 ?_) fun n hn s hs => ?_⟩
  · revert s
    decide
  · have hs := List.mem_filterMap.2 ⟨n, hn, declared?_eq_some.2 hs⟩
    rw [hdeclared] at hs
    exact List.mem_cons.2 (.inl (List.mem_singleton.1 hs))

end Stowage.Script.References
