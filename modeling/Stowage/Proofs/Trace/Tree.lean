/-
The tree of a trace reaches every path. The reasons are grounded if every path that is no entry is needed
first by a path before it. In grounded reasons the first parents lead from every path to an entry, and the
tree, which goes the other way from the entries, comes to each of them.

The tree is unfolded depth first. What carries the proof is the set of the paths shown: whatever is shown
after a part of the tree, and was not shown before it, has its children shown as well. The fuel is never
used up, since the chain of paths being unfolded has no path twice.
-/
import Stowage.Trace.Tree
import Stowage.Proofs.Trace.Reasons

namespace Stowage.Trace

namespace Reasons

/-! ## Grounds -/

/-- Every path that is no entry is needed first by one that stands before it, where `before` stand before
all. -/
def Grounded : List String → Reasons → Prop
  | _, [] => True
  | before, (path, r) :: rest =>
    (r.kind ≠ .entry → ∃ q ∈ before, r.parents.head? = some q) ∧ Grounded (before ++ [path]) rest

theorem Grounded.split {known : List String} {rs before after : Reasons} {path : String} {r : Reason}
    (h : Grounded known rs) (hrs : rs = before ++ (path, r) :: after) (hk : r.kind ≠ .entry) :
    ∃ q ∈ known ++ before.map Prod.fst, r.parents.head? = some q := by
  induction before generalizing known rs with
  | nil =>
    subst hrs
    obtain ⟨q, hq, hhead⟩ := h.1 hk
    exact ⟨q, List.mem_append_left _ hq, hhead⟩
  | cons e before ih =>
    subst hrs
    obtain ⟨q, hq, hhead⟩ := ih h.2 rfl
    refine ⟨q, ?_, hhead⟩
    rwa [List.append_assoc] at hq

/-- A path that is added is grounded as an entry, or by a parent that is there. -/
theorem Grounded.add {before : List String} {rs : Reasons} {path : String} {kind : ReasonKind}
    {parent : Option String} (h : Grounded before rs)
    (hp : kind = .entry ∨ ∃ q, parent = some q ∧ q ∈ before ++ rs.map Prod.fst) :
    Grounded before (rs.add path kind parent) := by
  induction rs generalizing before with
  | nil =>
    refine ⟨fun hk => ?_, trivial⟩
    obtain ⟨q, rfl, hq⟩ := hp.resolve_left hk
    rw [List.map_nil, List.append_nil] at hq
    exact ⟨q, hq, rfl⟩
  | cons e rest ih =>
    obtain ⟨p, r⟩ := e
    unfold Reasons.add
    split
    · refine ⟨fun hk => ?_, h.2⟩
      obtain ⟨q, hq, hhead⟩ := h.1 hk
      refine ⟨q, hq, ?_⟩
      rw [List.head?_append, hhead]
      rfl
    · refine ⟨h.1, ih h.2 (hp.imp_right ?_)⟩
      rintro ⟨q, rfl, hq⟩
      refine ⟨q, rfl, ?_⟩
      rw [List.append_assoc]
      exact hq

theorem mem_keys_add {rs : Reasons} {path : String} {kind : ReasonKind} {parent : Option String}
    {n : String} : n ∈ (rs.add path kind parent).map Prod.fst ↔ n ∈ rs.map Prod.fst ∨ n = path := by
  rw [keys_add]
  split
  · rename_i hmem
    constructor
    · exact Or.inl
    · rintro (hn | rfl)
      · exact hn
      · exact hmem
  · rw [List.mem_append, List.mem_singleton]

theorem mem_keys_addAll {rs : Reasons} {log : Log} {n : String} :
    n ∈ (rs.addAll log).map Prod.fst ↔ n ∈ rs.map Prod.fst ∨ ∃ e ∈ log, e.1 = n := by
  induction log generalizing rs with
  | nil => simp [addAll]
  | cons e log ih =>
    have hcons : rs.addAll (e :: log) = (rs.add e.1 e.2.1 e.2.2).addAll log := rfl
    rw [hcons, ih, mem_keys_add, List.exists_mem_cons_iff, or_assoc, eq_comm (a := n)]

/-- What is added for paths that are there is grounded. -/
theorem Grounded.addAll {rs : Reasons} {log : Log} (h : Grounded [] rs)
    (hlog : ∀ e ∈ log, e.2.1 = .entry ∨ ∃ q, e.2.2 = some q ∧ q ∈ rs.map Prod.fst) :
    Grounded [] (rs.addAll log) := by
  induction log generalizing rs with
  | nil => exact h
  | cons e log ih =>
    refine ih (h.add (hlog e (List.mem_cons_self ..))) fun e' he' => ?_
    refine (hlog e' (List.mem_cons_of_mem _ he')).imp_right ?_
    rintro ⟨q, hq, hmem⟩
    exact ⟨q, hq, mem_keys_add.2 (.inl hmem)⟩

/-! ## The way to an entry -/

/-- The way from a path to an entry by first parents. -/
inductive Way (rs : Reasons) : String → List String → Prop
  | entry {path : String} {r : Reason} (h : rs.lookup path = some r) (hk : r.kind = .entry) :
      Way rs path [path]
  | step {path q : String} {r : Reason} {way : List String} (h : rs.lookup path = some r)
      (hk : r.kind ≠ .entry) (hq : r.parents.head? = some q) (hw : Way rs q way) :
      Way rs path (path :: way)

/-- In grounded reasons the first parents lead to an entry, and to no path twice. -/
theorem Grounded.exists_way {rs : Reasons} (h : Grounded [] rs) (hn : (rs.map Prod.fst).Nodup)
    {path : String} (hp : path ∈ rs.map Prod.fst) : ∃ way, Way rs path way ∧ way.Nodup := by
  -- the way stays among the paths up to the one that it starts from
  have key : ∀ (length : Nat) (before after : Reasons) (path : String) (r : Reason),
      before.length = length → rs = before ++ (path, r) :: after →
      ∃ way, Way rs path way ∧ way.Nodup ∧ ∀ x ∈ way, x ∈ before.map Prod.fst ∨ x = path := by
    intro length
    induction length using Nat.strong_induction_on with
    | _ length ih =>
      intro before after path r hlength hrs
      have hl : rs.lookup path = some r := (Named.mem_iff_lookup hn).1 (by rw [hrs]; simp)
      by_cases hk : r.kind = .entry
      · refine ⟨[path], .entry hl hk, List.nodup_singleton _, ?_⟩
        exact fun x hx => .inr (List.mem_singleton.1 hx)
      · obtain ⟨q, hq, hhead⟩ := h.split hrs hk
        obtain ⟨⟨p, rq⟩, hmem, rfl⟩ := List.mem_map.1 hq
        obtain ⟨first, last, hbefore⟩ := List.append_of_mem hmem
        have hshort : first.length < length := by
          rw [← hlength, hbefore, List.length_append, List.length_cons]
          omega
        obtain ⟨way, hway, hnodup, hin⟩ := ih first.length hshort first (last ++ (path, r) :: after)
          p rq rfl (by rw [hrs, hbefore]; simp)
        have hsub : ∀ x ∈ way, x ∈ before.map Prod.fst := by
          intro x hx
          rw [hbefore, List.map_append, List.map_cons, List.mem_append, List.mem_cons]
          rcases hin x hx with hx | rfl
          · exact .inl hx
          · exact .inr (.inl rfl)
        have hnot : path ∉ way := by
          intro hpath
          rw [hrs, List.map_append, List.nodup_append] at hn
          exact hn.2.2 path (hsub path hpath) path (by simp) rfl
        refine ⟨path :: way, .step hl hk hhead hway, List.nodup_cons.2 ⟨hnot, hnodup⟩, ?_⟩
        intro x hx
        rcases List.mem_cons.1 hx with rfl | hx
        · exact .inr rfl
        · exact .inl (hsub x hx)
  obtain ⟨⟨_, r⟩, hmem, rfl⟩ := List.mem_map.1 hp
  obtain ⟨before, after, hrs⟩ := List.append_of_mem hmem
  obtain ⟨way, hway, hnodup, -⟩ := key _ before after _ r rfl hrs
  exact ⟨way, hway, hnodup⟩

theorem mem_children {rs : Reasons} {path child : String} :
    child ∈ rs.children path ↔ ∃ r, (child, r) ∈ rs ∧ path ∈ r.parents := by
  unfold children
  simp

end Reasons

/-! ## Unfolding -/

namespace Tree

def Row.path : Row → String
  | .entry path => path
  | .child line => line.path

variable {rs : Reasons}
variable {unfold : List Bool → List String → String → List String → List Line × List String}
variable {bars : List Bool} {chain : List String} {path : String} {shown shown' shown'' : List String}
variable {lines lines' : List Line}

/-- From `shown` to `shown'` the lines show their paths, and the children of each path that is new. -/
structure Unfolds (rs : Reasons) (shown : List String) (lines : List Line) (shown' : List String) :
    Prop where
  paths : ∀ x, x ∈ shown' ↔ x ∈ shown ∨ x ∈ lines.map Line.path
  known : ∀ x ∈ lines.map Line.path, x ∈ rs.map Prod.fst
  closed : ∀ x ∈ shown', x ∉ shown → ∀ c ∈ rs.children x, c ∈ shown'

theorem unfolds_nil : Unfolds rs shown [] shown :=
  ⟨fun x => by simp, fun _ h => (nomatch h), fun _ hx hnew => absurd hx hnew⟩

/-- A line for a path that was shown is not unfolded. -/
theorem Unfolds.old (h : Unfolds rs shown lines shown') {line : Line} (hs : line.path ∈ shown)
    (hk : line.path ∈ rs.map Prod.fst) : Unfolds rs shown (line :: lines) shown' := by
  refine ⟨fun x => ?_, fun x hx => ?_, h.closed⟩
  · rw [h.paths, List.map_cons, List.mem_cons]
    constructor
    · exact fun hx => hx.imp_right .inr
    · rintro (hx | rfl | hx)
      · exact .inl hx
      · exact .inl hs
      · exact .inr hx
  · rcases List.mem_cons.1 hx with rfl | hx
    · exact hk
    · exact h.known x hx

/-- A line for a new path comes with the lines below it. -/
theorem Unfolds.new {line : Line} (h : Unfolds rs (line.path :: shown) lines shown')
    (hchildren : ∀ c ∈ rs.children line.path, c ∈ shown') (hk : line.path ∈ rs.map Prod.fst)
    (h' : Unfolds rs shown' lines' shown'') :
    Unfolds rs shown (line :: lines ++ lines') shown'' := by
  have hsub : ∀ x ∈ shown', x ∈ shown'' := fun x hx => (h'.paths x).2 (.inl hx)
  refine ⟨fun x => ?_, fun x hx => ?_, fun x hx hnew c hc => ?_⟩
  · rw [h'.paths, h.paths, List.cons_append, List.map_cons, List.map_append]
    simp only [List.mem_cons, List.mem_append]
    tauto
  · rw [List.cons_append, List.map_cons, List.map_append] at hx
    simp only [List.mem_cons, List.mem_append] at hx
    rcases hx with rfl | hx | hx
    · exact hk
    · exact h.known x hx
    · exact h'.known x hx
  · -- the path itself, one of those below it, or one of those beside it
    by_cases hx' : x ∈ shown'
    · by_cases hpath : x = line.path
      · exact hsub c (hchildren c (hpath ▸ hc))
      · refine hsub c (h.closed x hx' (fun hm => ?_) c hc)
        exact (List.mem_cons.1 hm).elim hpath hnew
    · exact h'.closed x hx hx' c hc

variable (unfold bars chain) in
theorem siblings_old (rest : List String) (h : path ∈ shown) :
    siblings unfold bars chain (path :: rest) shown =
      (⟨bars, rest.isEmpty, path, some (if path ∈ chain then .cycle else .repeated)⟩ ::
          (siblings unfold bars chain rest shown).1,
        (siblings unfold bars chain rest shown).2) := by
  have hc : shown.contains path = true := List.contains_iff_mem.2 h
  by_cases hchain : path ∈ chain
  · simp only [siblings, if_pos (List.contains_iff_mem.2 hchain), if_pos hc, if_pos hchain]
  · have hno : ¬ chain.contains path = true := fun hc => hchain (List.contains_iff_mem.1 hc)
    simp only [siblings, if_neg hno, if_pos hc, if_neg hchain]

theorem siblings_new {rest : List String} (hchain : path ∉ chain) (h : path ∉ shown) :
    siblings unfold bars chain (path :: rest) shown =
      (⟨bars, rest.isEmpty, path, none⟩ ::
        (unfold (bars ++ [!rest.isEmpty]) (chain ++ [path]) path (path :: shown)).1 ++
        (siblings unfold bars chain rest
          (unfold (bars ++ [!rest.isEmpty]) (chain ++ [path]) path (path :: shown)).2).1,
        (siblings unfold bars chain rest
          (unfold (bars ++ [!rest.isEmpty]) (chain ++ [path]) path (path :: shown)).2).2) := by
  have hc : ¬ shown.contains path = true := fun hc => h (List.contains_iff_mem.1 hc)
  have hchain : ¬ chain.contains path = true := fun hc => hchain (List.contains_iff_mem.1 hc)
  simp only [siblings, if_neg hchain, if_neg hc]

/-- Unfolding the paths among some siblings shows all of them. -/
theorem unfolds_siblings {rest : List String}
    (hunfold : ∀ bars path shown, path ∈ rs.map Prod.fst → path ∉ chain →
      (∀ c ∈ chain ++ [path], c ∈ shown) →
      Unfolds rs shown (unfold bars (chain ++ [path]) path shown).1
        (unfold bars (chain ++ [path]) path shown).2 ∧
      ∀ c ∈ rs.children path, c ∈ (unfold bars (chain ++ [path]) path shown).2)
    (hrest : ∀ x ∈ rest, x ∈ rs.map Prod.fst) (hchain : ∀ c ∈ chain, c ∈ shown) :
    Unfolds rs shown (siblings unfold bars chain rest shown).1
      (siblings unfold bars chain rest shown).2 ∧
    ∀ x ∈ rest, x ∈ (siblings unfold bars chain rest shown).2 := by
  induction rest generalizing shown with
  | nil => exact ⟨unfolds_nil, fun _ h => nomatch h⟩
  | cons path rest ih =>
    have hpath := hrest path (List.mem_cons_self ..)
    have hrest : ∀ x ∈ rest, x ∈ rs.map Prod.fst := fun x hx => hrest x (List.mem_cons_of_mem _ hx)
    by_cases hshown : path ∈ shown
    · obtain ⟨hu, hall⟩ := ih hrest hchain
      rw [siblings_old unfold bars chain rest hshown]
      refine ⟨hu.old hshown hpath, fun x hx => ?_⟩
      rcases List.mem_cons.1 hx with rfl | hx
      · exact (hu.paths x).2 (.inl hshown)
      · exact hall x hx
    · have hfree : path ∉ chain := fun hc => hshown (hchain path hc)
      have hchain' : ∀ c ∈ chain ++ [path], c ∈ path :: shown := by
        intro c hc
        rcases List.mem_append.1 hc with hc | hc
        · exact List.mem_cons_of_mem _ (hchain c hc)
        · exact List.mem_singleton.1 hc ▸ List.mem_cons_self ..
      obtain ⟨hbelow, hchildren⟩ := hunfold (bars ++ [!rest.isEmpty]) path (path :: shown) hpath
        hfree hchain'
      have hkept : ∀ x ∈ path :: shown,
          x ∈ (unfold (bars ++ [!rest.isEmpty]) (chain ++ [path]) path (path :: shown)).2 :=
        fun x hx => (hbelow.paths x).2 (.inl hx)
      obtain ⟨hu, hall⟩ := ih hrest fun c hc => hkept c (List.mem_cons_of_mem _ (hchain c hc))
      rw [siblings_new hfree hshown]
      refine ⟨Unfolds.new hbelow hchildren hpath hu, fun x hx => ?_⟩
      rcases List.mem_cons.1 hx with rfl | hx
      · exact (hu.paths x).2 (.inl (hkept x (List.mem_cons_self ..)))
      · exact hall x hx

theorem mem_keys_of_mem_children {child : String} (h : child ∈ rs.children path) :
    child ∈ rs.map Prod.fst := by
  obtain ⟨r, hr, -⟩ := Reasons.mem_children.1 h
  exact List.mem_map.2 ⟨_, hr, rfl⟩

/-- Unfolding a path shows its children, as long as the fuel and the chain are more than the paths. -/
theorem unfolds_below (fuel : Nat) (bars : List Bool) (path : String)
    (hknown : ∀ x ∈ chain, x ∈ rs.map Prod.fst) (hnodup : chain.Nodup)
    (hfuel : rs.length < fuel + chain.length) (hchain : ∀ c ∈ chain, c ∈ shown) :
    Unfolds rs shown (below rs fuel bars chain path shown).1 (below rs fuel bars chain path shown).2 ∧
    ∀ c ∈ rs.children path, c ∈ (below rs fuel bars chain path shown).2 := by
  induction fuel generalizing bars chain path shown with
  | zero =>
    have hle := (hnodup.subperm hknown).length_le
    rw [List.length_map] at hle
    omega
  | succ n ih =>
    show Unfolds rs shown (siblings (below rs n) bars chain (rs.children path) shown).1
      (siblings (below rs n) bars chain (rs.children path) shown).2 ∧ _
    refine unfolds_siblings (fun bars path shown hpath hfree hchain => ?_)
      (fun x hx => mem_keys_of_mem_children hx) hchain
    apply ih
    · intro x hx
      rcases List.mem_append.1 hx with hx | hx
      · exact hknown x hx
      · exact List.mem_singleton.1 hx ▸ hpath
    · refine List.nodup_append.2 ⟨hnodup, List.nodup_singleton _, ?_⟩
      rintro a ha b hb rfl
      exact hfree (List.mem_singleton.1 hb ▸ ha)
    · rw [List.length_append, List.length_singleton]
      omega
    · exact hchain

/-! ## The rows -/

/-- The paths shown once an entry is. -/
def entered (path : String) (shown : List String) : List String :=
  if shown.contains path then shown else path :: shown

theorem mem_entered {x : String} : x ∈ entered path shown ↔ x ∈ shown ∨ x = path := by
  unfold entered
  split
  · rename_i hc
    constructor
    · exact Or.inl
    · rintro (hx | rfl)
      · exact hx
      · exact List.contains_iff_mem.1 hc
  · rw [List.mem_cons, or_comm]

theorem entries_entry {r : Reason} (hk : r.kind = .entry) (rest : Reasons) :
    entries rs ((path, r) :: rest) shown =
      .entry path :: (below rs (rs.length + 1) [] [path] path (entered path shown)).1.map .child ++
        entries rs rest (below rs (rs.length + 1) [] [path] path (entered path shown)).2 := by
  simp only [entries, if_pos hk]
  rfl

theorem entries_other {r : Reason} (hk : r.kind ≠ .entry) (rest : Reasons) :
    entries rs ((path, r) :: rest) shown = entries rs rest shown := by
  simp only [entries, if_neg hk]

/-- The rows of the entries show a set of paths that is closed under children. -/
theorem exists_shown (rs : Reasons) (shown : List String) {rest : Reasons} (hrest : ∀ e ∈ rest, e ∈ rs)
    (hclosed : ∀ x ∈ shown, ∀ c ∈ rs.children x, c ∈ shown) :
    ∃ shown' : List String,
      (∀ x, x ∈ shown' ↔ x ∈ shown ∨ x ∈ (entries rs rest shown).map Row.path) ∧
      (∀ x ∈ shown', ∀ c ∈ rs.children x, c ∈ shown') ∧
      (∀ e ∈ rest, e.2.kind = .entry → e.1 ∈ shown') ∧
      ∀ x ∈ (entries rs rest shown).map Row.path, x ∈ rs.map Prod.fst := by
  induction rest generalizing shown with
  | nil =>
    refine ⟨shown, fun x => ?_, hclosed, fun _ h => (nomatch h), fun _ h => (nomatch h)⟩
    simp [entries]
  | cons e rest ih =>
    obtain ⟨path, r⟩ := e
    have hpath : path ∈ rs.map Prod.fst :=
      List.mem_map.2 ⟨_, hrest _ (List.mem_cons_self ..), rfl⟩
    have hrest : ∀ e ∈ rest, e ∈ rs := fun e he => hrest e (List.mem_cons_of_mem _ he)
    by_cases hk : r.kind = .entry
    · rw [entries_entry hk]
      have hchain : ∀ x ∈ [path], x ∈ entered path shown := fun x hx =>
        mem_entered.2 (.inr (List.mem_singleton.1 hx))
      obtain ⟨hu, hchildren⟩ := unfolds_below (rs.length + 1) [] path
        (fun x hx => List.mem_singleton.1 hx ▸ hpath) (List.nodup_singleton path)
        (by rw [List.length_singleton]; omega) hchain
      generalize (below rs (rs.length + 1) [] [path] path (entered path shown)).1 = lines at *
      generalize (below rs (rs.length + 1) [] [path] path (entered path shown)).2 = after at *
      have hkept : ∀ x, x ∈ shown ∨ x = path → x ∈ after := fun x hx =>
        (hu.paths x).2 (.inl (mem_entered.2 hx))
      have hafter : ∀ x ∈ after, ∀ c ∈ rs.children x, c ∈ after := by
        intro x hx c hc
        by_cases hnew : x ∈ entered path shown
        · rcases mem_entered.1 hnew with hold | rfl
          · exact hkept c (.inl (hclosed x hold c hc))
          · exact hchildren c hc
        · exact hu.closed x hx hnew c hc
      obtain ⟨shown', hpaths, hclosed', hentries, hknown⟩ := ih after hrest hafter
      have hlines : (lines.map Row.child).map Row.path = lines.map Line.path := by
        rw [List.map_map]; rfl
      refine ⟨shown', fun x => ?_, hclosed', fun e he hke => ?_, fun x hx => ?_⟩
      · rw [hpaths, hu.paths, mem_entered, List.cons_append, List.map_cons, List.map_append, hlines]
        simp only [List.mem_cons, List.mem_append, Row.path]
        tauto
      · rcases List.mem_cons.1 he with rfl | he
        · exact (hpaths path).2 (.inl (hkept path (.inr rfl)))
        · exact hentries e he hke
      · rw [List.cons_append, List.map_cons, List.map_append, hlines] at hx
        simp only [List.mem_cons, List.mem_append, Row.path] at hx
        rcases hx with rfl | hx | hx
        · exact hpath
        · exact hu.known x hx
        · exact hknown x hx
    · rw [entries_other hk]
      obtain ⟨shown', hpaths, hclosed', hentries, hknown⟩ := ih shown hrest hclosed
      refine ⟨shown', hpaths, hclosed', fun e he hke => ?_, hknown⟩
      rcases List.mem_cons.1 he with rfl | he
      · exact absurd hke hk
      · exact hentries e he hke

theorem mem_of_lookup {r : Reason} (h : rs.lookup path = some r) : (path, r) ∈ rs := by
  obtain ⟨before, after, hsplit, -⟩ := List.lookup_eq_some_iff.1 h
  rw [hsplit]
  simp

/-- The tree has a row for every path that first parents lead to an entry from. -/
theorem mem_rows_of_way {way : List String} (h : rs.Way path way) :
    path ∈ (rows rs).map Row.path := by
  obtain ⟨shown, hpaths, hclosed, hentries, -⟩ :=
    exists_shown rs [] (fun _ he => he) fun _ h => nomatch h
  have hin : path ∈ shown := by
    induction h with
    | entry h hk => exact hentries _ (mem_of_lookup h) hk
    | step h _ hq _ ih =>
      exact hclosed _ ih _ (Reasons.mem_children.2 ⟨_, mem_of_lookup h, List.mem_of_mem_head? hq⟩)
  exact ((hpaths path).1 hin).resolve_left fun h => nomatch h

/-- The tree has rows for paths of the reasons only. -/
theorem mem_keys_of_mem_rows (h : path ∈ (rows rs).map Row.path) : path ∈ rs.map Prod.fst := by
  obtain ⟨-, -, -, -, hknown⟩ :=
    exists_shown rs [] (fun _ he => he) fun _ h => nomatch h
  exact hknown path h

end Tree
end Stowage.Trace
