/-
The tree of a trace as a forest. Below the entries the paths stand as they are met first, depth first: a path that
is met for the first time is unfolded before its later siblings, and whenever it is met again it carries a mark. So
the rows show exactly the paths that the entries lead to, each of them unfolded once besides where it is an entry.

The forest is told without fuel, and the rows are what is drawn of it. What a row says is compared with the rows
before and after it alone: how deep they stand tells what lies above a row and what lies below it.
-/
import Stowage.Proofs.Trace.Tree

namespace Stowage.Trace.Tree

/-! ## Forests -/

/-- Trees beside each other: the first one, with its path, its mark and what is below it, and the others. -/
inductive Forest where
  | nil
  | tree (path : String) (mark : Option Mark) (below rest : Forest)

namespace Forest

def isEmpty : Forest → Bool
  | nil => true
  | tree .. => false

/-- The paths that are not below others. -/
def roots : Forest → List String
  | nil => []
  | tree path _ _ rest => path :: rest.roots

/-- The lines of a forest, where `bars` are the branches to the left of it. -/
def lines (bars : List Bool) : Forest → List Line
  | nil => []
  | tree path mark below rest =>
    ⟨bars, rest.isEmpty, path, mark⟩ :: (below.lines (bars ++ [!rest.isEmpty]) ++ rest.lines bars)

/-- The rows of a forest. -/
def rows (bars : List Bool) (forest : Forest) : List Row := (forest.lines bars).map .child

theorem rows_tree (bars : List Bool) (path : String) (mark : Option Mark) (below rest : Forest) :
    (tree path mark below rest).rows bars = .child ⟨bars, rest.isEmpty, path, mark⟩ ::
      (below.rows (bars ++ [!rest.isEmpty]) ++ rest.rows bars) := by
  simp [rows, lines]

end Forest

/-- From the paths `shown` to the paths `shown'` the siblings `todo` below the paths `chain` unfold into a forest,
depth first: a path of the chain closes a circle, any other path that was shown is repeated, and a new one is
unfolded before its later siblings. -/
inductive FirstVisit (rs : Reasons) :
    List String → List String → List String → Forest → List String → Prop
  | nil {chain shown : List String} : FirstVisit rs chain [] shown .nil shown
  | cycle {chain todo shown shown' : List String} {path : String} {rest : Forest} (hc : path ∈ chain)
      (h : FirstVisit rs chain todo shown rest shown') :
      FirstVisit rs chain (path :: todo) shown (.tree path (some .cycle) .nil rest) shown'
  | repeated {chain todo shown shown' : List String} {path : String} {rest : Forest} (hc : path ∉ chain)
      (hs : path ∈ shown) (h : FirstVisit rs chain todo shown rest shown') :
      FirstVisit rs chain (path :: todo) shown (.tree path (some .repeated) .nil rest) shown'
  | first {chain todo shown shown' shown'' : List String} {path : String} {below rest : Forest}
      (hc : path ∉ chain) (hs : path ∉ shown)
      (hbelow : FirstVisit rs (chain ++ [path]) (rs.children path) (path :: shown) below shown')
      (h : FirstVisit rs chain todo shown' rest shown'') :
      FirstVisit rs chain (path :: todo) shown (.tree path none below rest) shown''

/-- The trees of the entries among some paths, in order. An entry is unfolded whether it was shown or not. -/
inductive FirstVisits (rs : Reasons) : Reasons → List String → List (String × Forest) → Prop
  | nil {shown : List String} : FirstVisits rs [] shown []
  | entry {path : String} {r : Reason} {rest : Reasons} {shown shown' : List String} {below : Forest}
      {trees : List (String × Forest)} (hk : r.kind = .entry)
      (hbelow : FirstVisit rs [path] (rs.children path) (entered path shown) below shown')
      (h : FirstVisits rs rest shown' trees) :
      FirstVisits rs ((path, r) :: rest) shown ((path, below) :: trees)
  | other {path : String} {r : Reason} {rest : Reasons} {shown : List String}
      {trees : List (String × Forest)} (hk : r.kind ≠ .entry) (h : FirstVisits rs rest shown trees) :
      FirstVisits rs ((path, r) :: rest) shown trees

/-- The rows of the entries with what is below them. -/
def drawn (trees : List (String × Forest)) : List Row := trees.flatMap fun t => .entry t.1 :: t.2.rows []

variable {rs rest : Reasons} {unfold : List Bool → List String → String → List String → List Line × List String}
variable {bars : List Bool} {chain todo shown shown' shown₁ : List String} {path : String}
variable {forest forest₁ : Forest} {trees trees₁ : List (String × Forest)}

theorem FirstVisit.roots_eq (h : FirstVisit rs chain todo shown forest shown') : forest.roots = todo := by
  induction h with
  | nil => rfl
  | cycle _ _ ih => exact congrArg _ ih
  | repeated _ _ _ ih => exact congrArg _ ih
  | first _ _ _ _ _ ih => exact congrArg _ ih

theorem FirstVisit.mem_shown (h : FirstVisit rs chain todo shown forest shown') :
    ∀ x ∈ shown, x ∈ shown' := by
  induction h with
  | nil => exact fun _ hx => hx
  | cycle _ _ ih => exact ih
  | repeated _ _ _ ih => exact ih
  | first _ _ _ _ ihbelow ih => exact fun x hx => ih x (ihbelow x (List.mem_cons_of_mem _ hx))

theorem FirstVisit.unique (h : FirstVisit rs chain todo shown forest shown')
    (h₁ : FirstVisit rs chain todo shown forest₁ shown₁) : forest = forest₁ ∧ shown' = shown₁ := by
  induction h generalizing forest₁ shown₁ with
  | nil => cases h₁; exact ⟨rfl, rfl⟩
  | cycle hc _ ih =>
    cases h₁ with
    | cycle _ h₁ =>
      obtain ⟨rfl, rfl⟩ := ih h₁
      exact ⟨rfl, rfl⟩
    | repeated hc₁ => exact absurd hc hc₁
    | first hc₁ => exact absurd hc hc₁
  | repeated hc hs _ ih =>
    cases h₁ with
    | cycle hc₁ => exact absurd hc₁ hc
    | repeated _ _ h₁ =>
      obtain ⟨rfl, rfl⟩ := ih h₁
      exact ⟨rfl, rfl⟩
    | first _ hs₁ => exact absurd hs hs₁
  | first hc hs _ _ ihbelow ih =>
    cases h₁ with
    | cycle hc₁ => exact absurd hc₁ hc
    | repeated _ hs₁ => exact absurd hs₁ hs
    | first _ _ hbelow₁ h₁ =>
      obtain ⟨rfl, rfl⟩ := ihbelow hbelow₁
      obtain ⟨rfl, rfl⟩ := ih h₁
      exact ⟨rfl, rfl⟩

theorem FirstVisits.unique (h : FirstVisits rs rest shown trees) (h₁ : FirstVisits rs rest shown trees₁) :
    trees = trees₁ := by
  induction h generalizing trees₁ with
  | nil => cases h₁; rfl
  | entry hk hbelow _ ih =>
    cases h₁ with
    | entry _ hbelow₁ h₁ =>
      obtain ⟨rfl, rfl⟩ := hbelow.unique hbelow₁
      rw [ih h₁]
    | other hk₁ => exact absurd hk hk₁
  | other hk _ ih =>
    cases h₁ with
    | entry hk₁ => exact absurd hk₁ hk
    | other _ h₁ => exact ih h₁

/-! ## The rows are drawn of the forest -/

/-- Siblings are drawn of their forest, as soon as what is below each of them is. -/
theorem firstVisit_siblings
    (hunfold : ∀ bars path shown, path ∈ rs.map Prod.fst → path ∉ chain →
      (∀ c ∈ chain ++ [path], c ∈ shown) →
      ∃ forest shown', FirstVisit rs (chain ++ [path]) (rs.children path) shown forest shown' ∧
        unfold bars (chain ++ [path]) path shown = (forest.lines bars, shown'))
    (htodo : ∀ x ∈ todo, x ∈ rs.map Prod.fst) (hchain : ∀ c ∈ chain, c ∈ shown) :
    ∃ forest shown', FirstVisit rs chain todo shown forest shown' ∧
      siblings unfold bars chain todo shown = (forest.lines bars, shown') := by
  induction todo generalizing shown with
  | nil => exact ⟨.nil, shown, .nil, rfl⟩
  | cons path todo ih =>
    have hpath := htodo path List.mem_cons_self
    have htodo : ∀ x ∈ todo, x ∈ rs.map Prod.fst := fun x hx => htodo x (List.mem_cons_of_mem _ hx)
    have hlast : ∀ {shown shown' : List String} {forest : Forest},
        FirstVisit rs chain todo shown forest shown' → forest.isEmpty = todo.isEmpty := by
      intro shown shown' forest h
      rw [← h.roots_eq]
      cases forest <;> rfl
    by_cases hs : path ∈ shown
    · obtain ⟨rest, shown', hrest, he⟩ := ih htodo hchain
      rw [siblings_old unfold bars chain todo hs, he, ← hlast hrest]
      by_cases hc : path ∈ chain
      · rw [if_pos hc]
        exact ⟨_, _, .cycle hc hrest, rfl⟩
      · rw [if_neg hc]
        exact ⟨_, _, .repeated hc hs hrest, rfl⟩
    · have hc : path ∉ chain := fun hc => hs (hchain path hc)
      have hchain' : ∀ c ∈ chain ++ [path], c ∈ path :: shown := by
        intro c hc
        rcases List.mem_append.1 hc with hc | hc
        · exact List.mem_cons_of_mem _ (hchain c hc)
        · exact List.mem_singleton.1 hc ▸ List.mem_cons_self
      obtain ⟨below, shown₁, hbelow, hb⟩ := hunfold (bars ++ [!todo.isEmpty]) path (path :: shown) hpath hc hchain'
      obtain ⟨rest, shown', hrest, he⟩ := ih htodo fun c hc =>
        hbelow.mem_shown c (List.mem_cons_of_mem _ (hchain c hc))
      refine ⟨.tree path none below rest, shown', .first hc hs hbelow hrest, ?_⟩
      rw [siblings_new hc hs, hb]
      dsimp only
      rw [he, ← hlast hrest]
      rfl

/-- What is below a path is drawn of its forest, as long as the fuel and the chain are more than the paths. -/
theorem firstVisit_below (fuel : Nat) (bars : List Bool) (path : String)
    (hknown : ∀ x ∈ chain, x ∈ rs.map Prod.fst) (hnodup : chain.Nodup)
    (hfuel : rs.length < fuel + chain.length) (hchain : ∀ c ∈ chain, c ∈ shown) :
    ∃ forest shown', FirstVisit rs chain (rs.children path) shown forest shown' ∧
      below rs fuel bars chain path shown = (forest.lines bars, shown') := by
  induction fuel generalizing bars chain path shown with
  | zero =>
    have hle := (hnodup.subperm hknown).length_le
    rw [List.length_map] at hle
    omega
  | succ fuel ih =>
    show ∃ forest shown', _ ∧ siblings (below rs fuel) bars chain (rs.children path) shown = _
    refine firstVisit_siblings (fun bars path shown hpath hfree hchain => ?_)
      (fun x hx => mem_keys_of_mem_children hx) hchain
    apply ih
    · intro x hx
      rcases List.mem_append.1 hx with hx | hx
      · exact hknown x hx
      · exact List.mem_singleton.1 hx ▸ hpath
    · refine List.nodup_append.2 ⟨hnodup, List.nodup_singleton _, ?_⟩
      rintro a ha b hb rfl
      exact hfree (List.mem_singleton.1 hb ▸ ha)
    · rw [List.length_append, List.length_singleton]
      omega
    · exact hchain

theorem firstVisits_entries (shown : List String) (hrest : ∀ e ∈ rest, e ∈ rs) :
    ∃ trees, FirstVisits rs rest shown trees ∧ entries rs rest shown = drawn trees := by
  induction rest generalizing shown with
  | nil => exact ⟨[], .nil, rfl⟩
  | cons e rest ih =>
    obtain ⟨path, r⟩ := e
    have hpath : path ∈ rs.map Prod.fst := List.mem_map.2 ⟨_, hrest _ List.mem_cons_self, rfl⟩
    have hrest : ∀ e ∈ rest, e ∈ rs := fun e he => hrest e (List.mem_cons_of_mem _ he)
    by_cases hk : r.kind = .entry
    · obtain ⟨forest, shown', hforest, hf⟩ := firstVisit_below (rs.length + 1) [] path
        (fun x hx => List.mem_singleton.1 hx ▸ hpath) (List.nodup_singleton path)
        (by rw [List.length_singleton]; omega)
        (fun x hx => mem_entered.2 (.inr (List.mem_singleton.1 hx)))
      obtain ⟨trees, htrees, ht⟩ := ih shown' hrest
      refine ⟨(path, forest) :: trees, .entry hk hforest htrees, ?_⟩
      rw [entries_entry hk, hf, ht]
      rfl
    · obtain ⟨trees, htrees, ht⟩ := ih shown hrest
      exact ⟨trees, .other hk htrees, by rw [entries_other hk, ht]⟩

/-- The rows are drawn of the forest. -/
theorem exists_trees (rs : Reasons) : ∃ trees, FirstVisits rs rs [] trees ∧ rows rs = drawn trees :=
  firstVisits_entries [] fun _ he => he

/-! ## What the entries lead to -/

/-- The paths that the entries lead to. -/
inductive Reached (rs : Reasons) : String → Prop
  | entry {path : String} {r : Reason} (h : (path, r) ∈ rs) (hk : r.kind = .entry) : Reached rs path
  | child {parent path : String} (h : Reached rs parent) (hc : path ∈ rs.children parent) : Reached rs path

theorem FirstVisit.reached (h : FirstVisit rs chain todo shown forest shown') (htodo : ∀ x ∈ todo, Reached rs x) :
    ∀ l ∈ forest.lines bars, Reached rs l.path := by
  induction h generalizing bars with
  | nil => exact fun _ hl => absurd hl List.not_mem_nil
  | cycle _ _ ih | repeated _ _ _ ih =>
    intro l hl
    rcases List.mem_cons.1 hl with rfl | hl
    · exact htodo _ List.mem_cons_self
    · exact ih (fun x hx => htodo x (List.mem_cons_of_mem _ hx)) l hl
  | first _ _ _ _ ihbelow ih =>
    intro l hl
    have hpath := htodo _ List.mem_cons_self
    rcases List.mem_cons.1 hl with rfl | hl
    · exact hpath
    · rcases List.mem_append.1 hl with hl | hl
      · exact ihbelow (fun x hx => .child hpath hx) l hl
      · exact ih (fun x hx => htodo x (List.mem_cons_of_mem _ hx)) l hl

theorem FirstVisits.reached (h : FirstVisits rs rest shown trees) (hrest : ∀ e ∈ rest, e ∈ rs) :
    ∀ row ∈ drawn trees, Reached rs row.path := by
  induction h with
  | nil => exact fun _ hrow => absurd hrow List.not_mem_nil
  | entry hk hbelow _ ih =>
    intro row hrow
    have hpath : Reached rs _ := .entry (hrest _ List.mem_cons_self) hk
    rcases List.mem_append.1 hrow with hrow | hrow
    · rcases List.mem_cons.1 hrow with rfl | hrow
      · exact hpath
      · obtain ⟨l, hl, rfl⟩ := List.mem_map.1 hrow
        exact hbelow.reached (fun x hx => .child hpath hx) l hl
    · exact ih (fun e he => hrest e (List.mem_cons_of_mem _ he)) row hrow
  | other _ _ ih => exact ih fun e he => hrest e (List.mem_cons_of_mem _ he)

theorem mem_rows_iff_reached {path : String} : path ∈ (rows rs).map Row.path ↔ Reached rs path := by
  constructor
  · obtain ⟨trees, htrees, hrows⟩ := exists_trees rs
    rw [hrows]
    intro hpath
    obtain ⟨row, hrow, rfl⟩ := List.mem_map.1 hpath
    exact htrees.reached (fun _ he => he) row hrow
  · intro h
    obtain ⟨shown, hpaths, hclosed, hentries, -⟩ := exists_shown rs [] (fun _ he => he) fun _ h => nomatch h
    have hin : path ∈ shown := by
      induction h with
      | entry h hk => exact hentries _ h hk
      | child _ hc ih => exact hclosed _ ih _ hc
    exact ((hpaths path).1 hin).resolve_left fun h => nomatch h

/-! ## Rows among others -/

namespace Row

/-- How far below an entry a row stands. -/
def depth : Row → Nat
  | entry _ => 0
  | child l => l.bars.length + 1

def mark : Row → Option Mark
  | entry _ => none
  | child l => l.mark

end Row

/-- What lies above a row that stands at some depth after the rows `before`: for each smaller depth the last row
there. -/
def ancestors (before : List Row) (depth : Nat) : List Row :=
  (List.range depth).filterMap fun k => before.reverse.find? (·.depth = k)

/-- The rows below a row at some depth, among the rows after it. -/
def rowsBelow (depth : Nat) (after : List Row) : List Row := after.takeWhile (depth < ·.depth)

/-- The paths right below a row at some depth. -/
def childrenBelow (depth : Nat) (after : List Row) : List String :=
  ((rowsBelow depth after).filter (·.depth = depth + 1)).map Row.path

/-- The mark of a path that comes at some depth after the rows `before`. -/
def markAfter (before : List Row) (depth : Nat) (path : String) : Option Mark :=
  if path ∈ (ancestors before depth).map Row.path then some .cycle
  else if path ∈ before.map Row.path then some .repeated
  else none

/-- What a row says among the rows before it and after it: below an entry a path is marked by whether it lies
above and whether it was shown before; the children of an entry or of a path without a mark are right below it,
and nothing is below a mark. -/
structure Tells (rs : Reasons) (before : List Row) (row : Row) (after : List Row) : Prop where
  marked : row.depth ≠ 0 → row.mark = markAfter before row.depth row.path
  unfolded : row.mark = none → childrenBelow row.depth after = rs.children row.path
  folded : row.mark ≠ none → rowsBelow row.depth after = []

/-- The relation holds of each of the rows, with the rows before it and after it. -/
def Throughout (P : List Row → Row → List Row → Prop) (before rows after : List Row) : Prop :=
  ∀ first row last, rows = first ++ row :: last → P (before ++ first) row (last ++ after)

section
variable {P : List Row → Row → List Row → Prop} {before rows rows' after : List Row} {row : Row} {depth : Nat}

theorem throughout_nil : Throughout P before [] after := fun first row last h => by simp at h

theorem throughout_cons : Throughout P before (row :: rows) after ↔
    P before row (rows ++ after) ∧ Throughout P (before ++ [row]) rows after := by
  constructor
  · intro h
    refine ⟨by simpa using h [] row rows rfl, fun first row' last hrows => ?_⟩
    have hat := h (row :: first) row' last (congrArg _ hrows)
    rwa [List.append_cons] at hat
  · rintro ⟨hrow, h⟩ first row' last hrows
    rcases first with _ | ⟨r, first⟩
    · cases hrows
      rwa [List.append_nil]
    · cases hrows
      rw [List.append_cons]
      exact h first row' last rfl

theorem throughout_append : Throughout P before (rows ++ rows') after ↔
    Throughout P before rows (rows' ++ after) ∧ Throughout P (before ++ rows) rows' after := by
  induction rows generalizing before with
  | nil => simp [throughout_nil]
  | cons row rows ih =>
    rw [List.cons_append, throughout_cons, throughout_cons, ih, List.append_assoc, List.append_cons before row rows,
      and_assoc]

theorem ancestors_append (h : ∀ r ∈ rows, depth ≤ r.depth) :
    ancestors (before ++ rows) depth = ancestors before depth := by
  unfold ancestors
  refine List.filterMap_congr fun k hk => ?_
  have hnone : rows.reverse.find? (fun r => decide (r.depth = k)) = none := by
    refine List.find?_eq_none.2 fun r hr heq => ?_
    have hle := h r (List.mem_reverse.1 hr)
    have hlt := List.mem_range.1 hk
    have heq := of_decide_eq_true heq
    omega
  rw [List.reverse_append, List.find?_append, hnone, Option.none_or]

theorem ancestors_concat : ancestors (before ++ [row]) (row.depth + 1) = ancestors before row.depth ++ [row] := by
  have hsame : ancestors (before ++ [row]) row.depth = ancestors before row.depth :=
    ancestors_append fun r hr => (congrArg Row.depth (List.mem_singleton.1 hr)).ge
  rw [← hsame]
  unfold ancestors
  rw [List.range_succ, List.filterMap_append]
  simp

theorem mem_of_mem_ancestors (h : row ∈ ancestors before depth) : row ∈ before := by
  obtain ⟨k, -, hk⟩ := List.mem_filterMap.1 h
  exact List.mem_reverse.1 (List.mem_of_find?_eq_some hk)

theorem markAfter_eq_none_iff {path : String} :
    markAfter before depth path = none ↔ path ∉ before.map Row.path := by
  unfold markAfter
  split
  · rename_i h
    obtain ⟨r, hr, rfl⟩ := List.mem_map.1 h
    simp only [reduceCtorEq, false_iff, not_not]
    exact List.mem_map_of_mem (mem_of_mem_ancestors hr)
  · split
    · rename_i h
      simp [h]
    · rename_i h
      simp [h]

theorem rowsBelow_append (h : ∀ r ∈ rows, depth < r.depth) (hafter : ∀ r ∈ after.head?, r.depth ≤ depth) :
    rowsBelow depth (rows ++ after) = rows := by
  have hnone : after.takeWhile (fun r => decide (depth < r.depth)) = [] := by
    rcases after with _ | ⟨r, after⟩
    · rfl
    · have hle := hafter r rfl
      exact List.takeWhile_cons_of_neg (by simpa using hle)
  unfold rowsBelow
  rw [List.takeWhile_append_of_pos fun r hr => decide_eq_true (h r hr), hnone, List.append_nil]

end

theorem length_le_of_mem_lines {l : Line} (h : l ∈ forest.lines bars) : bars.length ≤ l.bars.length := by
  induction forest generalizing bars with
  | nil => exact absurd h List.not_mem_nil
  | tree path mark below rest ihbelow ih =>
    rcases List.mem_cons.1 h with rfl | h
    · exact Nat.le_refl _
    · rcases List.mem_append.1 h with h | h
      · have hle := ihbelow h
        rw [List.length_append] at hle
        omega
      · exact ih h

theorem lt_depth_of_mem_rows {row : Row} (h : row ∈ forest.rows bars) : bars.length < row.depth := by
  obtain ⟨l, hl, rfl⟩ := List.mem_map.1 h
  exact Nat.lt_succ_of_le (length_le_of_mem_lines hl)

theorem lt_depth_of_mem_below {bar : Bool} {row : Row} (h : row ∈ forest.rows (bars ++ [bar])) :
    bars.length + 1 < row.depth := by
  have hlt := lt_depth_of_mem_rows h
  rwa [List.length_append] at hlt

/-- A line and what is below it stand deeper than the branches to the left of it. -/
theorem lt_depth_of_mem_tree {line : Line} (hbars : line.bars = bars) {bar : Bool} :
    ∀ r ∈ .child line :: forest.rows (bars ++ [bar]), bars.length < r.depth := by
  intro r hr
  rcases List.mem_cons.1 hr with rfl | hr
  · rw [← hbars]
    exact Nat.lt_succ_self _
  · exact Nat.lt_of_succ_lt (lt_depth_of_mem_below hr)

/-- The paths right below the branches are those of the trees themselves. -/
theorem filter_depth_rows (bars : List Bool) (forest : Forest) :
    ((forest.rows bars).filter (·.depth = bars.length + 1)).map Row.path = forest.roots := by
  induction forest with
  | nil => rfl
  | tree path mark below rest _ ih =>
    have hdeep : (below.rows (bars ++ [!rest.isEmpty])).filter (·.depth = bars.length + 1) = [] :=
      List.filter_eq_nil_iff.2 fun row hrow heq => (lt_depth_of_mem_below hrow).ne' (of_decide_eq_true heq)
    rw [Forest.rows_tree, List.filter_cons_of_pos (by simp [Row.depth]), List.filter_append, hdeep,
      List.nil_append, List.map_cons, ih]
    rfl

theorem head?_rows_append {after : List Row} {n : Nat} (hn : bars.length < n)
    (h : ∀ r ∈ after.head?, r.depth ≤ bars.length) : ∀ r ∈ (forest.rows bars ++ after).head?, r.depth ≤ n := by
  intro r hr
  cases forest with
  | nil =>
    have hle := h r hr
    omega
  | tree path mark below rest =>
    cases hr
    exact hn

/-! ## What the rows tell -/

/-- After the rows `before` some siblings stand at the branches `bars`: the paths above them are `chain`, and those
shown so far are `shown`. -/
structure Among (before : List Row) (bars : List Bool) (chain shown : List String) : Prop where
  above : chain = (ancestors before (bars.length + 1)).map Row.path
  shown : ∀ x, x ∈ shown ↔ x ∈ before.map Row.path

section
variable {before after : List Row} {line : Line}

theorem Among.beside {rows : List Row} (h : Among before bars chain shown) (hrows : ∀ r ∈ rows, bars.length < r.depth)
    (hshown : ∀ x, x ∈ shown' ↔ x ∈ (before ++ rows).map Row.path) : Among (before ++ rows) bars chain shown' :=
  ⟨by rw [ancestors_append hrows, h.above], hshown⟩

/-- A line for a path that was shown leaves it at that. -/
theorem Among.old (h : Among before bars chain shown) (hbars : line.bars = bars) (hpath : line.path ∈ shown) :
    Among (before ++ [.child line]) bars chain shown := by
  refine h.beside (fun r hr => ?_) fun x => ?_
  · rw [List.mem_singleton.1 hr, ← hbars]
    exact Nat.lt_succ_self _
  · rw [List.map_append, List.mem_append, List.map_singleton, List.mem_singleton, ← h.shown]
    exact ⟨.inl, fun hx => hx.elim id fun hx => hx ▸ hpath⟩

/-- Below a line for a new path it lies above what comes. -/
theorem Among.new (h : Among before bars chain shown) (hbars : line.bars = bars) (bar : Bool) :
    Among (before ++ [.child line]) (bars ++ [bar]) (chain ++ [line.path]) (line.path :: shown) := by
  have hdepth : (bars ++ [bar]).length = (Row.child line).depth := by
    rw [List.length_append, ← hbars]
    rfl
  constructor
  · rw [hdepth, ancestors_concat, List.map_append, h.above, ← hbars]
    rfl
  · intro x
    rw [List.mem_cons, List.map_append, List.mem_append, List.map_singleton, List.mem_singleton, ← h.shown, or_comm]
    rfl

theorem markAfter_cycle (h : Among before bars chain shown) (hc : path ∈ chain) :
    markAfter before (bars.length + 1) path = some .cycle :=
  if_pos (h.above ▸ hc)

theorem markAfter_repeated (h : Among before bars chain shown) (hc : path ∉ chain) (hs : path ∈ shown) :
    markAfter before (bars.length + 1) path = some .repeated :=
  (if_neg (h.above ▸ hc)).trans (if_pos ((h.shown path).1 hs))

/-- Among the paths shown are those above. -/
theorem Among.chain_shown (h : Among before bars chain shown) (hc : path ∈ chain) : path ∈ shown := by
  rw [h.above] at hc
  obtain ⟨row, hrow, rfl⟩ := List.mem_map.1 hc
  exact (h.shown _).2 (List.mem_map_of_mem (mem_of_mem_ancestors hrow))

/-- A line for a path that was shown tells what it should, and so does what comes beside it. -/
theorem throughout_old {mark : Mark} {rest : Forest} (hmark : markAfter before (bars.length + 1) path = some mark)
    (hafter : ∀ r ∈ after.head?, r.depth ≤ bars.length)
    (h : Throughout (Tells rs) (before ++ [.child ⟨bars, rest.isEmpty, path, some mark⟩]) (rest.rows bars) after) :
    Throughout (Tells rs) before ((Forest.tree path (some mark) .nil rest).rows bars) after := by
  rw [Forest.rows_tree]
  refine throughout_cons.2 ⟨⟨fun _ => hmark.symm, fun hno => (nomatch hno), fun _ => ?_⟩, h⟩
  exact rowsBelow_append (fun r hr => absurd hr List.not_mem_nil) (head?_rows_append (Nat.lt_succ_self _) hafter)

/-- A line for a new path tells what it should, and so does what is below it and beside it. -/
theorem throughout_new {below rest : Forest} (hmark : markAfter before (bars.length + 1) path = none)
    (hroots : below.roots = rs.children path) (hafter : ∀ r ∈ after.head?, r.depth ≤ bars.length)
    (hbelow : Throughout (Tells rs) (before ++ [.child ⟨bars, rest.isEmpty, path, none⟩])
      (below.rows (bars ++ [!rest.isEmpty])) (rest.rows bars ++ after))
    (h : Throughout (Tells rs) (before ++ [.child ⟨bars, rest.isEmpty, path, none⟩] ++
      below.rows (bars ++ [!rest.isEmpty])) (rest.rows bars) after) :
    Throughout (Tells rs) before ((Forest.tree path none below rest).rows bars) after := by
  have hlength : (bars ++ [!rest.isEmpty]).length = bars.length + 1 := List.length_append
  rw [Forest.rows_tree]
  refine throughout_cons.2 ⟨⟨fun _ => hmark.symm, fun _ => ?_, fun hno => absurd rfl hno⟩,
    throughout_append.2 ⟨hbelow, h⟩⟩
  show childrenBelow (bars.length + 1) _ = rs.children path
  unfold childrenBelow
  rw [List.append_assoc, rowsBelow_append (fun r => lt_depth_of_mem_below)
    (head?_rows_append (Nat.lt_succ_self _) hafter), ← hlength, filter_depth_rows, hroots]

/-- The rows of a forest tell what they should among the rows that it stands at. -/
theorem FirstVisit.tells (h : FirstVisit rs chain todo shown forest shown') (hbefore : Among before bars chain shown)
    (hafter : ∀ r ∈ after.head?, r.depth ≤ bars.length) :
    Throughout (Tells rs) before (forest.rows bars) after ∧
      Among (before ++ forest.rows bars) bars chain shown' := by
  induction h generalizing bars before after with
  | nil => exact ⟨throughout_nil, by rwa [show Forest.nil.rows bars = [] from rfl, List.append_nil]⟩
  | @cycle _ _ _ _ path rest hc _ ih =>
    have hrow : Among (_ ++ [.child ⟨bars, rest.isEmpty, path, some .cycle⟩]) bars _ _ :=
      hbefore.old rfl (hbefore.chain_shown hc)
    obtain ⟨htells, hend⟩ := ih hrow hafter
    refine ⟨throughout_old (markAfter_cycle hbefore hc) hafter htells, ?_⟩
    rwa [← List.append_cons] at hend
  | @repeated _ _ _ _ path rest hc hs _ ih =>
    have hrow : Among (_ ++ [.child ⟨bars, rest.isEmpty, path, some .repeated⟩]) bars _ _ := hbefore.old rfl hs
    obtain ⟨htells, hend⟩ := ih hrow hafter
    refine ⟨throughout_old (markAfter_repeated hbefore hc hs) hafter htells, ?_⟩
    rwa [← List.append_cons] at hend
  | @first _ _ _ _ _ path below rest hc hs hbelow _ ihbelow ih =>
    have hlength : (bars ++ [!rest.isEmpty]).length = bars.length + 1 := List.length_append
    have hinner : ∀ r ∈ (rest.rows bars ++ after).head?, r.depth ≤ (bars ++ [!rest.isEmpty]).length :=
      hlength ▸ head?_rows_append (Nat.lt_succ_self _) hafter
    have hmark : markAfter before (bars.length + 1) path = none :=
      markAfter_eq_none_iff.2 fun hin => hs ((hbefore.shown path).2 hin)
    have hrow : Among (_ ++ [.child ⟨bars, rest.isEmpty, path, none⟩]) (bars ++ [!rest.isEmpty]) _ _ :=
      hbefore.new rfl (!rest.isEmpty)
    obtain ⟨htells, hend⟩ := ihbelow hrow hinner
    rw [List.append_assoc] at hend
    have hdeep : ∀ r ∈ .child ⟨bars, rest.isEmpty, path, none⟩ :: below.rows (bars ++ [!rest.isEmpty]),
        bars.length < r.depth := lt_depth_of_mem_tree rfl
    obtain ⟨htells', hend'⟩ := ih (hbefore.beside hdeep hend.shown) hafter
    rw [List.append_cons] at htells'
    refine ⟨throughout_new hmark hbelow.roots_eq hafter htells htells', ?_⟩
    rw [Forest.rows_tree]
    rwa [List.append_assoc] at hend'

theorem head?_drawn (trees : List (String × Forest)) : ∀ r ∈ (drawn trees).head?, r.depth ≤ 0 := by
  rcases trees with _ | ⟨t, trees⟩
  · exact fun r hr => nomatch hr
  · rintro r ⟨⟩
    exact Nat.le_refl _

theorem FirstVisits.tells (h : FirstVisits rs rest shown trees)
    (hshown : ∀ x, x ∈ shown ↔ x ∈ before.map Row.path) : Throughout (Tells rs) before (drawn trees) [] := by
  induction h generalizing before with
  | nil => exact throughout_nil
  | other _ _ ih => exact ih hshown
  | @entry path r rest shown shown' below trees hk hbelow _ ih =>
    have hrow : Among (before ++ [.entry path]) [] [path] (entered path shown) := by
      refine ⟨?_, fun x => ?_⟩
      · rw [show [].length + 1 = (Row.entry path).depth + 1 from rfl, ancestors_concat]
        rfl
      · rw [mem_entered, hshown, List.map_append, List.mem_append, List.map_singleton, List.mem_singleton]
        rfl
    obtain ⟨htells, hend⟩ := hbelow.tells hrow (head?_drawn trees)
    have hrest := ih hend.shown
    show Throughout (Tells rs) before (.entry path :: (below.rows [] ++ drawn trees)) []
    refine throughout_cons.2 ⟨⟨fun hno => absurd rfl hno, fun _ => ?_, fun hno => absurd rfl hno⟩,
      throughout_append.2 ⟨by rwa [List.append_nil], hrest⟩⟩
    have hdeep : ∀ r ∈ below.rows [], 0 < r.depth := fun r => lt_depth_of_mem_rows
    show childrenBelow 0 _ = rs.children path
    unfold childrenBelow
    rw [List.append_nil, rowsBelow_append hdeep (head?_drawn trees)]
    exact (filter_depth_rows [] below).trans hbelow.roots_eq

end

/-- Every row tells what it should among the others. -/
theorem tells_rows (h : rows rs = before ++ row :: after) : Tells rs before row after := by
  obtain ⟨trees, htrees, hrows⟩ := exists_trees rs
  have htells : Throughout (Tells rs) [] (drawn trees) [] := htrees.tells fun x => Iff.rfl
  rw [← hrows] at htells
  simpa using htells before row after h

/-! ## Each path once -/

/-- The rows at the top are the entries. -/
theorem FirstVisits.top (h : FirstVisits rs rest shown trees) :
    ((drawn trees).filter (·.depth = 0)).map Row.path = (rest.filter (·.2.kind = .entry)).map Prod.fst := by
  induction h with
  | nil => rfl
  | @entry path _ _ _ _ below trees hk _ _ ih =>
    have hdeep : (below.rows []).filter (·.depth = 0) = [] := by
      refine List.filter_eq_nil_iff.2 fun row hrow heq => ?_
      have hlt := lt_depth_of_mem_rows hrow
      have heq := of_decide_eq_true heq
      omega
    show ((Row.entry path :: (below.rows [] ++ drawn trees)).filter (·.depth = 0)).map Row.path = _
    rw [List.filter_cons_of_pos rfl, List.filter_append, hdeep, List.filter_cons_of_pos (by simpa using hk),
      List.map_cons, List.map_cons, ← ih]
    rfl
  | other hk _ ih =>
    rw [List.filter_cons_of_neg (by simpa using hk)]
    exact ih

/-- Where a path is shown first it has no mark, and from there on it has one. -/
theorem exists_first_row (h : path ∈ (rows rs).map Row.path) : ∃ before row after,
    rows rs = before ++ row :: after ∧ row.path = path ∧ path ∉ before.map Row.path ∧
      (row.depth ≠ 0 → row.mark = none) ∧
      ∀ row' ∈ after, row'.depth ≠ 0 → row'.path = path → row'.mark ≠ none := by
  obtain ⟨first, last, hsplit, hnew⟩ := List.eq_append_cons_of_mem h
  obtain ⟨before, rest, hrows, rfl, hrest⟩ := List.map_eq_append_iff.1 hsplit
  obtain ⟨row, after, rfl, hpath, rfl⟩ := List.map_eq_cons_iff.1 hrest
  refine ⟨before, row, after, hrows, hpath, hnew, fun hdepth => ?_, fun row' hrow' hdepth hpath' => ?_⟩
  · rw [(tells_rows hrows).marked hdepth, markAfter_eq_none_iff, hpath]
    exact hnew
  · obtain ⟨between, beyond, rfl⟩ := List.append_of_mem hrow'
    have hrows' : rows rs = (before ++ row :: between) ++ row' :: beyond := by simpa using hrows
    rw [(tells_rows hrows').marked hdepth, ne_eq, markAfter_eq_none_iff, not_not, hpath', ← hpath]
    exact List.mem_map_of_mem (by simp)

/-- The text of a line with a mark ends in it. -/
theorem text_of_mark {l : Line} {mark : Mark} (h : l.mark = some mark) (withKind : Bool) :
    ∃ stem, Row.text rs withKind (.child l) = stem ++ mark.text := by
  unfold Row.text
  dsimp only
  rw [h]
  exact ⟨_, rfl⟩

/-- The tree of any reasons is the forest of first visits, which is told without a bound: it comes to its end
whatever circles there are. Its rows show exactly the paths that the entries lead to, the entries at the top. Every
path below is marked as one that lies above, or else as one that was shown, and not at all if it is new; below an
entry or a new path stand its children, and nothing below a mark. So a path that is no entry has exactly one line
without a mark, which is its first. -/
theorem rows_visit_once (rs : Reasons) :
    (∃ trees, FirstVisits rs rs [] trees ∧ rows rs = drawn trees) ∧
    (∀ path, path ∈ (rows rs).map Row.path ↔ Reached rs path) ∧
    ((rows rs).filter (·.depth = 0)).map Row.path = (rs.filter (·.2.kind = .entry)).map Prod.fst ∧
    (∀ before row after, rows rs = before ++ row :: after → Tells rs before row after) ∧
    ∀ path, Reached rs path → (∀ r, (path, r) ∈ rs → r.kind ≠ .entry) →
      ∃ before line after, rows rs = before ++ .child line :: after ∧ line.path = path ∧
        (∀ row ∈ before, row.path ≠ path) ∧ line.mark = none ∧
        ∀ line', .child line' ∈ after → line'.path = path → ∃ mark, line'.mark = some mark ∧
          ∀ withKind, ∃ stem, Row.text rs withKind (.child line') = stem ++ mark.text := by
  obtain ⟨trees, htrees, hrows⟩ := exists_trees rs
  have htop := htrees.top
  rw [← hrows] at htop
  refine ⟨⟨trees, htrees, hrows⟩, fun _ => mem_rows_iff_reached, htop, fun before row after h => tells_rows h,
    fun path hpath hentry => ?_⟩
  obtain ⟨before, row, after, hsplit, hrow, hnew, hmark, hlater⟩ :=
    exists_first_row (mem_rows_iff_reached.2 hpath)
  have hbefore : ∀ row ∈ before, row.path ≠ path := fun row hrow he => hnew (he ▸ List.mem_map_of_mem hrow)
  rcases row with p | line
  · -- a row at the top would be an entry
    have hin : p ∈ ((rows rs).filter (·.depth = 0)).map Row.path :=
      List.mem_map.2 ⟨.entry p, List.mem_filter.2 ⟨hsplit ▸ by simp, rfl⟩, rfl⟩
    rw [htop] at hin
    obtain ⟨⟨p, r⟩, hr, rfl⟩ := List.mem_map.1 hin
    obtain ⟨hr, hk⟩ := List.mem_filter.1 hr
    exact absurd (of_decide_eq_true hk) (hentry r (hrow ▸ hr))
  · refine ⟨before, line, after, hsplit, hrow, hbefore, hmark (Nat.succ_ne_zero _), fun line' hline' hpath' => ?_⟩
    obtain ⟨mark, hm⟩ := Option.ne_none_iff_exists'.1 (hlater _ hline' (Nat.succ_ne_zero _) hpath')
    exact ⟨mark, hm, fun withKind => text_of_mark hm withKind⟩

/-! ### Circles -/

/-- Files that need each other and themselves, one that is needed by what is not there, and an entry that another one
needs. -/
def circular : Reasons := [
  ("main.js", ⟨.entry, []⟩),
  ("a.js", ⟨.reference .require, ["main.js", "b.js", "a.js"]⟩),
  ("b.js", ⟨.reference .require, ["a.js", "gone.js"]⟩),
  ("tool.js", ⟨.entry, ["b.js"]⟩),
  ("c.js", ⟨.reference .staticImport, ["tool.js", "main.js"]⟩)]

/-- A file that is needed by two entries is unfolded below the one that comes first. -/
theorem rows_visit_once_circular :
    (∃ before line after, rows circular = before ++ .child line :: after ∧ line.path = "c.js" ∧
      (∀ row ∈ before, row.path ≠ "c.js") ∧ line.mark = none ∧
      ∀ line', .child line' ∈ after → line'.path = "c.js" → ∃ mark, line'.mark = some mark ∧
        ∀ withKind, ∃ stem, Row.text circular withKind (.child line') = stem ++ mark.text) ∧
    draw circular false = ["main.js", "├── a.js", "│   ├── a.js (∞)", "│   └── b.js", "│       ├── a.js (∞)",
      "│       └── tool.js", "│           └── c.js", "└── c.js (*)", "tool.js", "└── c.js (*)"] := by
  have hmain : Reached circular "main.js" := .entry (r := ⟨.entry, []⟩) (by decide) rfl
  have hc : Reached circular "c.js" := .child hmain (by decide)
  have hno : ∀ e ∈ circular, e.1 = "c.js" → e.2.kind ≠ .entry := by decide
  exact ⟨(rows_visit_once circular).2.2.2.2 "c.js" hc fun r hr => hno _ hr rfl, by decide +kernel⟩

end Stowage.Trace.Tree
