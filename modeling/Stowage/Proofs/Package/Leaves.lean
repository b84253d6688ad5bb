/-
What a target of the exports resolves to. The strings in it are its leaves, each below the keys of the objects around it;
the target stands for the first leaf, in the order of the text, all of whose keys the conditions admit.
-/
import Stowage.Package.Exports
import Mathlib.Data.List.Basic

namespace Stowage.Exports

/-! ## Leaves -/

/-- A string in a target, with the keys of the objects around it from the outside in. -/
structure Leaf where
  keys : List String
  text : String
  deriving DecidableEq

/-- The leaf as it stands in an object, below a key. -/
def Leaf.below (key : String) (leaf : Leaf) : Leaf := { leaf with keys := key :: leaf.keys }

mutual

/-- The leaves of a target in the order of the text. -/
def leaves : Json → List Leaf
  | .string s => [⟨[], s⟩]
  | .array items => leavesOfItems items
  | .object members => leavesOfMembers members
  | _ => []

def leavesOfItems : List Json → List Leaf
  | [] => []
  | v :: r => leaves v ++ leavesOfItems r

def leavesOfMembers : List (String × Json) → List Leaf
  | [] => []
  | (k, v) :: r => (leaves v).map (Leaf.below k) ++ leavesOfMembers r

end

/-- A key that is entered whatever the conditions are, or one of them. -/
def Admits (conditions : List String) (key : String) : Prop := key = "default" ∨ key ∈ conditions

instance (conditions : List String) : DecidablePred (Admits conditions) := fun _ =>
  inferInstanceAs (Decidable (_ ∨ _))

/-- All the objects around the leaf are entered on its way. -/
def Leaf.isAdmitted (conditions : List String) (leaf : Leaf) : Bool := leaf.keys.all fun key => Admits conditions key

/-- What the leaf says where the star of a pattern stands for `star`. -/
def Leaf.filled (star : Option (List Char)) (leaf : Leaf) : String :=
  match star with
  | some m => fillStars m leaf.text
  | none => leaf.text

@[simp] theorem Leaf.isAdmitted_below (conditions : List String) (key : String) (leaf : Leaf) :
    (leaf.below key).isAdmitted conditions = (decide (Admits conditions key) && leaf.isAdmitted conditions) := rfl

@[simp] theorem Leaf.filled_below (star : Option (List Char)) (key : String) (leaf : Leaf) :
    (leaf.below key).filled star = leaf.filled star := rfl

theorem Leaf.isAdmitted_iff {conditions : List String} {leaf : Leaf} :
    leaf.isAdmitted conditions = true ↔ ∀ key ∈ leaf.keys, Admits conditions key := by
  simp [isAdmitted]

theorem exists_refused_iff {conditions : List String} {leaf : Leaf} :
    (∃ key ∈ leaf.keys, ¬ Admits conditions key) ↔ ¬ leaf.isAdmitted conditions = true := by
  rw [Leaf.isAdmitted_iff]
  push Not
  rfl

theorem Leaf.isAdmitted_mono {conditions more : List String} (h : conditions ⊆ more) {leaf : Leaf}
    (hleaf : leaf.isAdmitted conditions = true) : leaf.isAdmitted more = true := by
  rw [isAdmitted_iff] at hleaf ⊢
  exact fun key hkey => (hleaf key hkey).imp id fun hc => h hc

/-! ## The first admitted leaf -/

/-- The first of some leaves that the conditions admit, as it is filled in. -/
def firstAdmitted (conditions : List String) (star : Option (List Char)) (ls : List Leaf) : Option String :=
  (ls.find? (Leaf.isAdmitted conditions)).map (Leaf.filled star)

section
variable (conditions : List String) (star : Option (List Char))

theorem firstAdmitted_append (l₁ l₂ : List Leaf) : firstAdmitted conditions star (l₁ ++ l₂) =
    (firstAdmitted conditions star l₁ <|> firstAdmitted conditions star l₂) := by
  unfold firstAdmitted
  rw [List.find?_append]
  cases l₁.find? (Leaf.isAdmitted conditions) <;> rfl

/-- Below a key that is entered the same leaves are admitted, below any other one none is. -/
theorem firstAdmitted_below (key : String) (ls : List Leaf) :
    firstAdmitted conditions star (ls.map (Leaf.below key)) =
      if Admits conditions key then firstAdmitted conditions star ls else none := by
  unfold firstAdmitted
  rw [List.find?_map, Option.map_map]
  split
  · rename_i hkey
    congr 2
    funext leaf
    simp [hkey]
  · rename_i hkey
    rw [List.find?_eq_none.2 fun leaf _ => by simp [hkey]]
    rfl

mutual

theorem target_eq_firstAdmitted : ∀ v : Json, target conditions star v = firstAdmitted conditions star (leaves v)
  | .null | .bool _ | .number _ => rfl
  | .string _ => by cases star <;> rfl
  | .array items => targetOfItems_eq_firstAdmitted items
  | .object members => targetOfMembers_eq_firstAdmitted members

theorem targetOfItems_eq_firstAdmitted : ∀ items : List Json,
    targetOfItems conditions star items = firstAdmitted conditions star (leavesOfItems items)
  | [] => rfl
  | v :: r => by
    rw [targetOfItems, leavesOfItems, firstAdmitted_append, target_eq_firstAdmitted v,
      targetOfItems_eq_firstAdmitted r]

theorem targetOfMembers_eq_firstAdmitted : ∀ members : List (String × Json),
    targetOfMembers conditions star members = firstAdmitted conditions star (leavesOfMembers members)
  | [] => rfl
  | (k, v) :: r => by
    rw [targetOfMembers, leavesOfMembers, firstAdmitted_append, firstAdmitted_below, target_eq_firstAdmitted v,
      targetOfMembers_eq_firstAdmitted r]
    by_cases hk : Admits conditions k
    · rw [if_pos hk]
      exact if_pos hk
    · rw [if_neg hk]
      exact if_neg hk

end

theorem target_eq_none_iff {v : Json} :
    target conditions star v = none ↔ ∀ leaf ∈ leaves v, ∃ key ∈ leaf.keys, ¬ Admits conditions key := by
  rw [target_eq_firstAdmitted, firstAdmitted, Option.map_eq_none_iff, List.find?_eq_none]
  simp only [exists_refused_iff]

/-- What a star stands for is put into the string that is chosen, and has no part in the choice. -/
theorem target_some (m : List Char) (v : Json) :
    target conditions (some m) v = (target conditions none v).map (fillStars m) := by
  rw [target_eq_firstAdmitted, target_eq_firstAdmitted]
  unfold firstAdmitted
  rw [Option.map_map]
  rfl

end

/-! ## Stars -/

/-- `t` is the text `s` with `m` in the place of every star: between the stars both are the same. -/
def Filled (m s t : String) : Prop := ∃ parts : List String,
  (∀ part ∈ parts, '*' ∉ part.toList) ∧ s = "*".intercalate parts ∧ t = m.intercalate parts

theorem flatMap_of_no_star (m : List Char) {cs : List Char} (h : '*' ∉ cs) :
    (cs.flatMap fun c => if c = '*' then m else [c]) = cs := by
  induction cs with
  | nil => rfl
  | cons c r ih =>
    rw [List.mem_cons, not_or] at h
    rw [List.flatMap_cons, ih h.2, if_neg (Ne.symm h.1)]
    rfl

theorem flatMap_intercalate_star (m : List Char) {parts : List (List Char)} (h : ∀ part ∈ parts, '*' ∉ part) :
    ((['*'].intercalate parts).flatMap fun c => if c = '*' then m else [c]) = m.intercalate parts := by
  induction parts with
  | nil => rfl
  | cons part rest ih =>
    rw [List.forall_mem_cons] at h
    rcases rest with _ | ⟨next, rest⟩
    · rw [List.intercalate_singleton, List.intercalate_singleton]
      exact flatMap_of_no_star m h.1
    · rw [List.intercalate_cons_cons, List.intercalate_cons_cons, List.flatMap_append, List.flatMap_append,
        flatMap_of_no_star m h.1, ih h.2]
      simp

/-- Every text is cut at its stars. -/
theorem exists_parts (cs : List Char) : ∃ part rest, (∀ p ∈ part :: rest, '*' ∉ p) ∧
    cs = ['*'].intercalate (part :: rest) := by
  induction cs with
  | nil => exact ⟨[], [], by simp, rfl⟩
  | cons c r ih =>
    obtain ⟨part, rest, hparts, rfl⟩ := ih
    by_cases hc : c = '*'
    · subst hc
      refine ⟨[], part :: rest, ?_, by rw [List.intercalate_cons_cons]; rfl⟩
      exact List.forall_mem_cons.2 ⟨List.not_mem_nil, hparts⟩
    · rw [List.forall_mem_cons] at hparts
      refine ⟨c :: part, rest, List.forall_mem_cons.2 ⟨?_, hparts.2⟩, ?_⟩
      · rw [List.mem_cons, not_or]
        exact ⟨Ne.symm hc, hparts.1⟩
      · rcases rest with _ | ⟨next, rest⟩
        · rw [List.intercalate_singleton, List.intercalate_singleton]
        · rw [List.intercalate_cons_cons, List.intercalate_cons_cons]
          rfl

theorem filled_iff {m s t : String} : Filled m s t ↔ t = fillStars m.toList s := by
  constructor
  · rintro ⟨parts, hparts, rfl, rfl⟩
    rw [← String.toList_inj, fillStars, String.toList_ofList, String.toList_intercalate, String.toList_intercalate]
    refine (flatMap_intercalate_star m.toList ?_).symm
    rw [List.forall_mem_map]
    exact hparts
  · rintro rfl
    obtain ⟨part, rest, hparts, hs⟩ := exists_parts s.toList
    refine ⟨(part :: rest).map String.ofList, ?_, ?_, ?_⟩
    · rw [List.forall_mem_map]
      simpa using hparts
    · rw [← String.toList_inj, String.toList_intercalate, hs]
      simp [Function.comp_def]
    · rw [← String.toList_inj, String.toList_intercalate, fillStars, String.toList_ofList, hs,
        flatMap_intercalate_star m.toList hparts]
      simp [Function.comp_def]

/-! ## Targets -/

/-- What the leaf says: its text, with what the star of a pattern stands for in the place of every star. -/
def Leaf.Says (star : Option (List Char)) (leaf : Leaf) (t : String) : Prop :=
  match star with
  | some m => Filled (String.ofList m) leaf.text t
  | none => t = leaf.text

theorem Leaf.says_iff {star : Option (List Char)} {leaf : Leaf} {t : String} :
    leaf.Says star t ↔ t = leaf.filled star := by
  cases star with
  | none => rfl
  | some m =>
    show Filled (String.ofList m) leaf.text t ↔ _
    rw [filled_iff, String.toList_ofList]
    rfl

/-- A target stands for what its first leaf says of those whose keys are all admitted, and for nothing exactly if there is
none. The conditions count as a set, and with more of them a target that stands for something still does. -/
theorem target_first_leaf (conditions : List String) (star : Option (List Char)) (v : Json) :
    (∀ t, target conditions star v = some t ↔ ∃ before leaf after, leaves v = before ++ leaf :: after ∧
      (∀ l ∈ before, ∃ key ∈ l.keys, ¬ Admits conditions key) ∧ (∀ key ∈ leaf.keys, Admits conditions key) ∧
      leaf.Says star t) ∧
    (target conditions star v = none ↔ ∀ leaf ∈ leaves v, ∃ key ∈ leaf.keys, ¬ Admits conditions key) ∧
    (∀ others : List String, (∀ c, c ∈ others ↔ c ∈ conditions) → target others star v = target conditions star v) ∧
    ∀ more : List String, conditions ⊆ more → target conditions star v ≠ none → target more star v ≠ none := by
  refine ⟨fun t => ?_, target_eq_none_iff conditions star, fun others h => ?_, fun more h hv hnone => hv ?_⟩
  · rw [target_eq_firstAdmitted, firstAdmitted, Option.map_eq_some_iff]
    constructor
    · rintro ⟨leaf, hfirst, rfl⟩
      obtain ⟨hleaf, before, after, hv, hbefore⟩ := List.find?_eq_some_iff_append.1 hfirst
      exact ⟨before, leaf, after, hv, fun l hl => exists_refused_iff.2 (by simpa using hbefore l hl),
        Leaf.isAdmitted_iff.1 hleaf, Leaf.says_iff.2 rfl⟩
    · rintro ⟨before, leaf, after, hv, hbefore, hleaf, hsays⟩
      have hfirst := List.find?_eq_some_iff_append.2 ⟨Leaf.isAdmitted_iff.2 hleaf, before, after, hv,
        fun l hl => by simpa using exists_refused_iff.1 (hbefore l hl)⟩
      exact ⟨leaf, hfirst, (Leaf.says_iff.1 hsays).symm⟩
  · have hadmitted : Leaf.isAdmitted others = Leaf.isAdmitted conditions := by
      funext leaf
      rw [Bool.eq_iff_iff]
      exact ⟨Leaf.isAdmitted_mono fun c => (h c).1, Leaf.isAdmitted_mono fun c => (h c).2⟩
    rw [target_eq_firstAdmitted, target_eq_firstAdmitted, firstAdmitted, hadmitted]
    rfl
  · rw [target_eq_none_iff] at hnone ⊢
    intro leaf hleaf
    rw [exists_refused_iff]
    exact mt (Leaf.isAdmitted_mono h) (exists_refused_iff.1 (hnone leaf hleaf))

/-- A target that is a list of choices, some of which depend on more than one condition. -/
def nestedTarget : Json := .array [
  .object [("import", .string "./a.mjs")],
  .null,
  .object [("node", .object [("browser", .string "./b.js"), ("default", .string "./*/c-*.js")])],
  .string "./d.js"]

theorem target_first_leaf_nested :
    target ["node"] (some ['x']) nestedTarget = some "./x/c-x.js" ∧
      target ["node", "node"] none nestedTarget = some "./*/c-*.js" ∧
      target ["import", "node"] none nestedTarget ≠ none ∧
      target ["browser"] none (.object [("node", nestedTarget)]) = none := by
  have hx : target ["node"] (some ['x']) nestedTarget = some "./x/c-x.js" :=
    ((target_first_leaf ["node"] (some ['x']) nestedTarget).1 _).2
      ⟨[⟨["import"], "./a.mjs"⟩, ⟨["node", "browser"], "./b.js"⟩], ⟨["node", "default"], "./*/c-*.js"⟩,
        [⟨[], "./d.js"⟩], rfl, by decide, by decide, Leaf.says_iff.2 (by decide +kernel)⟩
  obtain ⟨hsome, -, hset, hmore⟩ := target_first_leaf ["node"] none nestedTarget
  have hplain : target ["node"] none nestedTarget = some "./*/c-*.js" :=
    (hsome _).2 ⟨[⟨["import"], "./a.mjs"⟩, ⟨["node", "browser"], "./b.js"⟩], ⟨["node", "default"], "./*/c-*.js"⟩,
      [⟨[], "./d.js"⟩], rfl, by decide, by decide, rfl⟩
  refine ⟨hx, (hset _ (by simp)).trans hplain, hmore _ (by simp) ?_, ?_⟩
  · rw [hplain]
    exact Option.some_ne_none _
  · exact (target_first_leaf ["browser"] none _).2.1.2 (by decide)

end Stowage.Exports
