/-
How the tree of a trace is drawn. What stands before the path of a line tells how deep it is: a segment for each line
above it, with a bar where that one has later siblings, and a branch, which is a corner for the last of its siblings.
The rows are those of the forest of first visits, and whoever keeps the open branches on a stack draws the same: the
stack is as high after what is below a path as it was before.
-/
import Mathlib.Data.List.ModifyLast
import Stowage.Proofs.Trace.Forest

namespace Stowage.Trace.Tree

variable {rs rest : Reasons} {bars : List Bool} {chain shown : List String} {path : String}
variable {before after : List Row} {line : Line} {forest : Forest} {trees : List (String × Forest)}

/-! ## The outline of a forest -/

/-- The paths of a forest in the order of the rows, each with the number of paths above it, if `depth` are above the
whole forest. -/
def Forest.outline (depth : Nat) : Forest → List (Nat × String)
  | nil => []
  | tree path _ below rest => (depth, path) :: (below.outline (depth + 1) ++ rest.outline depth)

def outline (trees : List (String × Forest)) : List (Nat × String) :=
  trees.flatMap fun t => (0, t.1) :: t.2.outline 1

theorem outline_rows (bars : List Bool) (forest : Forest) :
    (forest.rows bars).map (fun row => (row.depth, row.path)) = forest.outline (bars.length + 1) := by
  induction forest generalizing bars with
  | nil => rfl
  | tree path mark below rest ihbelow ih =>
    rw [Forest.rows_tree, List.map_cons, List.map_append, ihbelow, ih, List.length_append]
    rfl

theorem outline_drawn (trees : List (String × Forest)) :
    (drawn trees).map (fun row => (row.depth, row.path)) = outline trees := by
  induction trees with
  | nil => rfl
  | cons t trees ih =>
    show ((.entry t.1 :: t.2.rows [] ++ drawn trees).map fun row => (row.depth, row.path)) = _
    rw [List.map_append, ih, List.map_cons, outline_rows]
    rfl

/-! ## Bars and corners -/

def Row.isLast : Row → Bool
  | entry _ => true
  | child line => line.isLast

/-- The branch at a depth goes on after a row if the next row that is not deeper stands at this depth: it is a later
sibling. -/
def goesOn (depth : Nat) (after : List Row) : Bool := (after.find? (·.depth ≤ depth)).any (·.depth = depth)

/-- What is drawn before the path of a line is right: there is a bar for each line above it that is not the last of
its siblings, which is for each branch that goes on after it, and the corner is at the end of a branch. -/
structure Draws (before : List Row) (line : Line) (after : List Row) : Prop where
  above : line.bars = (ancestors before (line.bars.length + 1)).tail.map (!·.isLast)
  later : line.bars = (List.range line.bars.length).map fun j => goesOn (j + 1) after
  corner : line.isLast = !goesOn (line.bars.length + 1) after

theorem goesOn_append {depth : Nat} {rows : List Row} (h : ∀ r ∈ rows, depth < r.depth) :
    goesOn depth (rows ++ after) = goesOn depth after := by
  have hnone : rows.find? (fun r => decide (r.depth ≤ depth)) = none :=
    List.find?_eq_none.2 fun r hr hle => by
      have hlt := h r hr
      have hle := of_decide_eq_true hle
      omega
  unfold goesOn
  rw [List.find?_append, hnone, Option.none_or]

/-- The branch of a forest goes on if there is a tree left, and ends with it. -/
theorem goesOn_rows (hafter : ∀ r ∈ after.head?, r.depth ≤ bars.length) :
    goesOn (bars.length + 1) (forest.rows bars ++ after) = !forest.isEmpty := by
  cases forest with
  | nil =>
    rcases after with _ | ⟨r, after⟩
    · rfl
    · have hle := hafter r rfl
      show goesOn (bars.length + 1) (r :: after) = false
      unfold goesOn
      rw [List.find?_cons_of_pos (by simpa using Nat.le_succ_of_le hle)]
      show decide (r.depth = bars.length + 1) = false
      exact decide_eq_false (by omega)
  | tree path mark below rest =>
    rw [Forest.rows_tree, List.cons_append]
    unfold goesOn
    rw [List.find?_cons_of_pos (by simp [Row.depth])]
    simp [Row.depth, Forest.isEmpty]

/-- Below a line the branches that go on are those of the line and its own. -/
theorem goesOn_deeper (hbars : bars = (List.range bars.length).map fun j => goesOn (j + 1) after)
    (hafter : ∀ r ∈ after.head?, r.depth ≤ bars.length) :
    bars ++ [!forest.isEmpty] = (List.range (bars ++ [!forest.isEmpty]).length).map fun j =>
      goesOn (j + 1) (forest.rows bars ++ after) := by
  have hlength : (bars ++ [!forest.isEmpty]).length = bars.length + 1 := List.length_append
  rw [hlength, List.range_succ, List.map_append, List.map_singleton, goesOn_rows hafter]
  refine congrArg (· ++ _) (hbars.trans (List.map_congr_left fun j hj => (goesOn_append fun r hr => ?_).symm))
  have hlt := lt_depth_of_mem_rows hr
  have hj := List.mem_range.1 hj
  omega

/-- After the rows `before` some siblings stand at the branches `bars`, which are those of the rows above. -/
structure Below (before : List Row) (bars : List Bool) : Prop where
  nonempty : ancestors before (bars.length + 1) ≠ []
  bars : bars = (ancestors before (bars.length + 1)).tail.map (!·.isLast)

theorem Below.beside {rows : List Row} (h : Below before bars) (hrows : ∀ r ∈ rows, bars.length < r.depth) :
    Below (before ++ rows) bars := by
  constructor
  · rw [ancestors_append hrows]
    exact h.nonempty
  · rw [ancestors_append hrows, ← h.bars]

theorem Below.deeper (h : Below before bars) (hbars : line.bars = bars) :
    Below (before ++ [.child line]) (bars ++ [!line.isLast]) := by
  have hdepth : (bars ++ [!line.isLast]).length = (Row.child line).depth := by
    rw [List.length_append, ← hbars]
    rfl
  have hancestors : ancestors (before ++ [.child line]) ((bars ++ [!line.isLast]).length + 1) =
      ancestors before (bars.length + 1) ++ [.child line] := by
    rw [hdepth, ancestors_concat, ← hbars]
    rfl
  constructor
  · rw [hancestors]
    simp
  · rw [hancestors, List.tail_append_of_ne_nil h.nonempty, List.map_append, ← h.bars]
    rfl

/-- The relation holds of each of the lines among some rows. -/
abbrev LinesDraw (before rows after : List Row) : Prop :=
  Throughout (fun before row after => ∀ line, row = .child line → Draws before line after) before rows after

theorem Forest.draws (forest : Forest) (hbefore : Below before bars)
    (hbars : bars = (List.range bars.length).map fun j => goesOn (j + 1) after)
    (hafter : ∀ r ∈ after.head?, r.depth ≤ bars.length) : LinesDraw before (forest.rows bars) after := by
  induction forest generalizing bars before after with
  | nil => exact throughout_nil
  | tree path mark below rest ihbelow ih =>
    have hlength : (bars ++ [!rest.isEmpty]).length = bars.length + 1 := List.length_append
    have hinner : Below (before ++ [.child ⟨bars, rest.isEmpty, path, mark⟩]) (bars ++ [!rest.isEmpty]) :=
      hbefore.deeper rfl
    have hnext : Below (before ++ .child ⟨bars, rest.isEmpty, path, mark⟩ :: below.rows (bars ++ [!rest.isEmpty])) bars :=
      hbefore.beside (lt_depth_of_mem_tree rfl)
    rw [Forest.rows_tree]
    refine throughout_cons.2 ⟨?_, throughout_append.2 ⟨ihbelow hinner (goesOn_deeper hbars hafter) ?_, ?_⟩⟩
    · rintro _ ⟨⟩
      refine ⟨hbefore.bars, ?_, ?_⟩
      · -- the rows below the line and its siblings are deeper than the branches to the left of it
        refine hbars.trans (List.map_congr_left fun j hj => ?_)
        have hj := List.mem_range.1 hj
        rw [goesOn_append fun r hr => ?_]
        rcases List.mem_append.1 hr with hr | hr
        · have hlt := lt_depth_of_mem_below hr
          omega
        · have hlt := lt_depth_of_mem_rows hr
          omega
      · rw [List.append_assoc, goesOn_append fun r => lt_depth_of_mem_below, goesOn_rows hafter,
          Bool.not_not]
    · rw [hlength]
      exact head?_rows_append (Nat.lt_succ_self _) hafter
    · rw [← List.append_cons]
      exact ih hnext hbars hafter

theorem draws_drawn (before : List Row) (trees : List (String × Forest)) : LinesDraw before (drawn trees) [] := by
  induction trees generalizing before with
  | nil => exact throughout_nil
  | cons t trees ih =>
    have hrow : Below (before ++ [.entry t.1]) [] := by
      have hancestors : ancestors (before ++ [.entry t.1]) (([] : List Bool).length + 1) = [.entry t.1] :=
        ancestors_concat
      exact ⟨by rw [hancestors]; simp, by rw [hancestors]; rfl⟩
    show LinesDraw before (.entry t.1 :: (t.2.rows [] ++ drawn trees)) []
    refine throughout_cons.2 ⟨fun line h => (nomatch h), throughout_append.2 ⟨?_, ih _⟩⟩
    rw [List.append_nil]
    exact t.2.draws hrow rfl (head?_drawn trees)

/-! ## What stands before a path -/

/-- What is drawn for a row above a line. -/
def segment (bar : Bool) : String := if bar then "│   " else "    "

/-- What is drawn right before a path. -/
def branch (isLast : Bool) : String := if isLast then "└── " else "├── "

theorem intercalate_nil_eq_flatten {α : Type} (l : List (List α)) : [].intercalate l = l.flatten := by
  induction l with
  | nil => rfl
  | cons x l ih =>
    rcases l with _ | ⟨y, l⟩
    · simp [List.intercalate]
    · rw [List.flatten_cons, ← ih]
      rfl

/-- The segments of the rows above, and then the branch. -/
theorem toList_lead (line : Line) : line.lead.toList =
    line.bars.flatMap (fun bar => (segment bar).toList) ++ (branch line.isLast).toList := by
  unfold Line.lead
  rw [String.toList_append, String.toList_intercalate, String.toList_empty, intercalate_nil_eq_flatten,
    List.map_map]
  rfl

theorem length_segment (bar : Bool) : (segment bar).toList.length = 4 := by
  revert bar
  decide

theorem length_branch (isLast : Bool) : (branch isLast).toList.length = 4 := by
  revert isLast
  decide

/-- Segments and branches are told from each other, so what is drawn can be read back from its start. -/
theorem eq_of_drawn_append {bars bars' : List Bool} {isLast isLast' : Bool} {text text' : List Char}
    (h : bars.flatMap (fun bar => (segment bar).toList) ++ ((branch isLast).toList ++ text) =
      bars'.flatMap (fun bar => (segment bar).toList) ++ ((branch isLast').toList ++ text')) :
    bars = bars' ∧ isLast = isLast' := by
  have hsegment : ∀ bar bar', (segment bar).toList = (segment bar').toList → bar = bar' := by decide
  have hbranch : ∀ isLast isLast', (branch isLast).toList = (branch isLast').toList → isLast = isLast' := by
    decide
  have hother : ∀ bar isLast, (segment bar).toList ≠ (branch isLast).toList := by decide
  have hlength : ∀ bar isLast, (segment bar).toList.length = (branch isLast).toList.length := fun bar isLast =>
    (length_segment bar).trans (length_branch isLast).symm
  induction bars generalizing bars' with
  | nil =>
    rw [List.flatMap_nil, List.nil_append] at h
    rcases bars' with _ | ⟨bar', bars'⟩
    · rw [List.flatMap_nil, List.nil_append] at h
      have hsame := (length_branch isLast).trans (length_branch isLast').symm
      exact ⟨rfl, hbranch _ _ (List.append_inj h hsame).1⟩
    · rw [List.flatMap_cons, List.append_assoc] at h
      exact absurd (List.append_inj h (hlength bar' isLast).symm).1.symm (hother bar' isLast)
  | cons bar bars ih =>
    rw [List.flatMap_cons, List.append_assoc] at h
    rcases bars' with _ | ⟨bar', bars'⟩
    · rw [List.flatMap_nil, List.nil_append] at h
      exact absurd (List.append_inj h (hlength bar isLast')).1 (hother bar isLast')
    · rw [List.flatMap_cons, List.append_assoc] at h
      have hsame := (length_segment bar).trans (length_segment bar').symm
      obtain ⟨hbar, hrest⟩ := List.append_inj h hsame
      obtain ⟨rfl, hlast⟩ := ih hrest
      exact ⟨congrArg (· :: bars) (hsegment _ _ hbar), hlast⟩

/-- A text starts with the lead of one line at most, so the lead tells how deep a line is. -/
theorem eq_of_lead_isPrefix {line line' : Line} {text : List Char} (h : line.lead.toList <+: text)
    (h' : line'.lead.toList <+: text) : line.bars = line'.bars ∧ line.isLast = line'.isLast := by
  obtain ⟨rest, hrest⟩ := h
  obtain ⟨rest', hrest'⟩ := h'
  rw [toList_lead, List.append_assoc] at hrest hrest'
  exact eq_of_drawn_append (hrest.trans hrest'.symm)

/-! ## Branches on a stack -/

/-- The tree as it is being drawn. -/
structure Pen where
  /-- For each open branch whether it has come to its last line. -/
  branches : List Bool
  /-- The paths from the entry down to the one that is unfolded. -/
  chain : List String
  shown : List String
  /-- What is drawn so far. -/
  lines : List String

namespace Pen

variable (rs : Reasons) (withKind : Bool)

/-- What stands before a path where some branches are open, the one on top its own. -/
def lead (branches : List Bool) (isLast : Bool) : String :=
  "".intercalate (branches.dropLast.map fun last => segment !last) ++ branch isLast

/-- What stands after a path. -/
def kind (path : String) : String :=
  match rs.lookup path with
  | some r => if withKind then s!" ({r.kind.title})" else ""
  | none => ""

/-- Draws some siblings, whose branch is on top of the stack. -/
def drawSiblings (descend : String → Pen → Pen) : List String → Pen → Pen
  | [], pen => pen
  | path :: rest, pen =>
    let pen := { pen with branches := pen.branches.modifyLast fun _ => rest.isEmpty }
    let text := lead pen.branches rest.isEmpty ++ path ++ kind rs withKind path
    if pen.chain.contains path then
      drawSiblings descend rest
        { pen with shown := entered path pen.shown, lines := pen.lines ++ [text ++ Mark.cycle.text] }
    else if pen.shown.contains path then
      drawSiblings descend rest { pen with lines := pen.lines ++ [text ++ Mark.repeated.text] }
    else
      let pen := descend path
        { pen with chain := pen.chain ++ [path], shown := path :: pen.shown, lines := pen.lines ++ [text] }
      drawSiblings descend rest { pen with chain := pen.chain.dropLast }

/-- Draws what is below a path. A branch is opened for it unless there is nothing. -/
def drawBelow : Nat → String → Pen → Pen
  | 0, _, pen => pen
  | fuel + 1, path, pen =>
    if (rs.children path).isEmpty then pen
    else
      let pen := drawSiblings rs withKind (drawBelow fuel) (rs.children path)
        { pen with branches := pen.branches ++ [false] }
      { pen with branches := pen.branches.dropLast }

/-- Draws the entries among some paths with what is below them. -/
def drawEntries : Reasons → Pen → Pen
  | [], pen => pen
  | (path, r) :: rest, pen =>
    if r.kind = .entry then
      let pen := drawBelow rs withKind (rs.length + 1) path
        { pen with
          chain := pen.chain ++ [path]
          shown := entered path pen.shown
          lines := pen.lines ++ [path] }
      drawEntries rest { pen with chain := pen.chain.dropLast }
    else drawEntries rest pen

/-- The pen that has drawn the whole tree. -/
def drawTree : Pen := drawEntries rs withKind rs ⟨[], [], [], []⟩

variable {rs withKind} {descend : String → Pen → Pen} {pen : Pen}

/-! ### The stack -/

/-- Whatever siblings are drawn, the branches below theirs stay as they are. -/
theorem branches_drawSiblings (hdescend : ∀ path pen, (descend path pen).branches = pen.branches)
    {above : List Bool} {last : Bool} (h : pen.branches = above ++ [last]) (todo : List String) :
    ∃ last', (drawSiblings rs withKind descend todo pen).branches = above ++ [last'] := by
  induction todo generalizing pen last with
  | nil => exact ⟨last, h⟩
  | cons path rest ih =>
    have htop : pen.branches.modifyLast (fun _ => rest.isEmpty) = above ++ [rest.isEmpty] := by
      rw [h, List.modifyLast_concat]
    unfold drawSiblings
    dsimp only
    split
    · exact ih htop
    · split
      · exact ih htop
      · exact ih ((hdescend _ _).trans htop)

/-- The stack is after what is below a path as it was before. -/
theorem branches_drawBelow (fuel : Nat) (path : String) (pen : Pen) :
    (drawBelow rs withKind fuel path pen).branches = pen.branches := by
  induction fuel generalizing path pen with
  | zero => rfl
  | succ fuel ih =>
    unfold drawBelow
    split
    · rfl
    · have hopen : { pen with branches := pen.branches ++ [false] : Pen }.branches = pen.branches ++ [false] := rfl
      obtain ⟨last, hlast⟩ := branches_drawSiblings ih hopen (rs.children path)
      dsimp only
      rw [hlast, List.dropLast_concat]

/-! ### What is drawn -/

theorem lead_branches (bars : List Bool) (isLast : Bool) (path : String) (mark : Option Mark) :
    lead (bars.map (!·) ++ [isLast]) isLast = Line.lead ⟨bars, isLast, path, mark⟩ := by
  unfold lead Line.lead
  rw [List.dropLast_concat, List.map_map]
  congr 2
  exact List.map_congr_left fun bar _ => congrArg segment (Bool.not_not bar)

theorem text_none (bars : List Bool) (isLast : Bool) (path : String) :
    lead (bars.map (!·) ++ [isLast]) isLast ++ path ++ kind rs withKind path =
      Row.text rs withKind (.child ⟨bars, isLast, path, none⟩) := by
  rw [lead_branches bars isLast path none]
  exact (String.append_empty).symm

theorem text_some (bars : List Bool) (isLast : Bool) (path : String) (mark : Mark) :
    lead (bars.map (!·) ++ [isLast]) isLast ++ path ++ kind rs withKind path ++ mark.text =
      Row.text rs withKind (.child ⟨bars, isLast, path, some mark⟩) := by
  rw [lead_branches bars isLast path (some mark)]
  rfl

/-- The texts of some lines. -/
def texts (rs : Reasons) (withKind : Bool) (lines : List Line) : List String :=
  lines.map fun line => Row.text rs withKind (.child line)

/-- The pen draws some siblings as their lines are, if it does what is below each of them. -/
theorem drawSiblings_eq
    {unfold : List Bool → List String → String → List String → List Line × List String}
    (hdescend : ∀ bars chain path shown lines, descend path ⟨bars.map (!·), chain, shown, lines⟩ =
      ⟨bars.map (!·), chain, (unfold bars chain path shown).2,
        lines ++ texts rs withKind (unfold bars chain path shown).1⟩)
    (bars : List Bool) (chain todo shown lines : List String) (last : Bool) :
    ∃ last', drawSiblings rs withKind descend todo ⟨bars.map (!·) ++ [last], chain, shown, lines⟩ =
      ⟨bars.map (!·) ++ [last'], chain, (siblings unfold bars chain todo shown).2,
        lines ++ texts rs withKind (siblings unfold bars chain todo shown).1⟩ := by
  induction todo generalizing shown lines last with
  | nil => exact ⟨last, by simp [drawSiblings, siblings, texts]⟩
  | cons path rest ih =>
    unfold drawSiblings siblings
    dsimp only
    rw [List.modifyLast_concat]
    split
    · obtain ⟨last', h⟩ := ih (entered path shown) (lines ++ [Row.text rs withKind
        (.child ⟨bars, rest.isEmpty, path, some .cycle⟩)]) rest.isEmpty
      refine ⟨last', ?_⟩
      rw [text_some, h, List.append_assoc]
      rfl
    · split
      · obtain ⟨last', h⟩ := ih shown (lines ++ [Row.text rs withKind
          (.child ⟨bars, rest.isEmpty, path, some .repeated⟩)]) rest.isEmpty
        refine ⟨last', ?_⟩
        rw [text_some, h, List.append_assoc]
        rfl
      · have hbars : bars.map (!·) ++ [rest.isEmpty] = (bars ++ [!rest.isEmpty]).map (!·) := by simp
        rw [text_none, hbars, hdescend]
        dsimp only
        rw [List.dropLast_concat, ← hbars]
        obtain ⟨last', h⟩ := ih _ (lines ++ [Row.text rs withKind (.child ⟨bars, rest.isEmpty, path, none⟩)] ++
          texts rs withKind (unfold (bars ++ [!rest.isEmpty]) (chain ++ [path]) path (path :: shown)).1) rest.isEmpty
        refine ⟨last', h.trans ?_⟩
        simp [texts]

/-- The pen draws what is below a path as its lines are. -/
theorem drawBelow_eq (fuel : Nat) (bars : List Bool) (chain : List String) (path : String)
    (shown lines : List String) :
    drawBelow rs withKind fuel path ⟨bars.map (!·), chain, shown, lines⟩ =
      ⟨bars.map (!·), chain, (below rs fuel bars chain path shown).2,
        lines ++ texts rs withKind (below rs fuel bars chain path shown).1⟩ := by
  induction fuel generalizing bars chain path shown lines with
  | zero => simp [drawBelow, below, texts]
  | succ fuel ih =>
    unfold drawBelow below
    split
    next hnil =>
      rw [List.isEmpty_iff.1 hnil]
      simp [siblings, texts]
    next =>
      obtain ⟨last, h⟩ := drawSiblings_eq ih bars chain (rs.children path) shown lines false
      dsimp only
      rw [h]
      dsimp only
      rw [List.dropLast_concat]

theorem drawEntries_eq (rest : Reasons) (shown lines : List String) :
    ∃ shown', drawEntries rs withKind rest ⟨[], [], shown, lines⟩ =
      ⟨[], [], shown', lines ++ (entries rs rest shown).map (Row.text rs withKind)⟩ := by
  induction rest generalizing shown lines with
  | nil => exact ⟨shown, by simp [drawEntries, entries]⟩
  | cons e rest ih =>
    obtain ⟨path, r⟩ := e
    unfold drawEntries
    split
    next hk =>
      have hbelow : drawBelow rs withKind (rs.length + 1) path ⟨[], [path], entered path shown, lines ++ [path]⟩ = _ :=
        drawBelow_eq (rs.length + 1) [] [path] path (entered path shown) (lines ++ [path])
      rw [entries_entry hk]
      dsimp only
      rw [List.nil_append, hbelow]
      generalize below rs (rs.length + 1) [] [path] path (entered path shown) = inner
      obtain ⟨shown', hrest⟩ := ih inner.2 (lines ++ [path] ++ texts rs withKind inner.1)
      exact ⟨shown', hrest.trans (by simp [texts, Row.text])⟩
    next hk =>
      rw [entries_other hk]
      exact ih shown lines

/-- The pen draws the tree of a trace. -/
theorem lines_drawTree (rs : Reasons) (withKind : Bool) : (drawTree rs withKind).lines = draw rs withKind := by
  unfold drawTree
  obtain ⟨shown, h⟩ := drawEntries_eq rs [] []
  rw [h]
  exact List.nil_append _

end Pen

/-! ## The drawn tree -/

/-- A line starts with its segments and its branch, and then comes its path. -/
theorem toList_text (rs : Reasons) (withKind : Bool) (line : Line) : ∃ tail,
    (Row.text rs withKind (.child line)).toList =
      line.bars.flatMap (fun bar => (segment bar).toList) ++ (branch line.isLast).toList ++ line.path.toList ++ tail := by
  rw [← toList_lead]
  unfold Row.text
  dsimp only
  rw [String.toList_append, String.toList_append, String.toList_append, List.append_assoc _ (String.toList _)]
  exact ⟨_, rfl⟩

/-- The tree is drawn of the forest of first visits: as many paths lie above a line as its depth tells. A line starts
with a segment for each line above it, a bar where that one is not the last of its siblings and its branch goes on,
and then has a corner if it is the last of its own. What a line starts with tells its depth. The tree is what the
pen draws that keeps the open branches on a stack, which is left as it was below every path. -/
theorem draw_branches (rs : Reasons) (withKind : Bool) :
    (∃ trees, FirstVisits rs rs [] trees ∧ (∀ trees', FirstVisits rs rs [] trees' → trees' = trees) ∧
      rows rs = drawn trees ∧ (rows rs).map (fun row => (row.depth, row.path)) = outline trees) ∧
    (∀ before line after, rows rs = before ++ .child line :: after → Draws before line after) ∧
    (∀ line : Line, ∃ tail, (Row.text rs withKind (.child line)).toList =
      line.bars.flatMap (fun bar => (segment bar).toList) ++ (branch line.isLast).toList ++ line.path.toList ++ tail) ∧
    (∀ (line line' : Line) (text : List Char), line.lead.toList <+: text → line'.lead.toList <+: text →
      line.bars = line'.bars ∧ line.isLast = line'.isLast) ∧
    (Pen.drawTree rs withKind).lines = draw rs withKind ∧
    ∀ fuel path pen, (Pen.drawBelow rs withKind fuel path pen).branches = pen.branches := by
  obtain ⟨trees, htrees, hrows⟩ := exists_trees rs
  have hdraws := draws_drawn [] trees
  refine ⟨⟨trees, htrees, fun _ h => h.unique htrees, hrows, hrows ▸ outline_drawn trees⟩, ?_, toList_text rs withKind,
    fun _ _ _ => eq_of_lead_isPrefix, Pen.lines_drawTree rs withKind, Pen.branches_drawBelow⟩
  intro before line after h
  have hline := hdraws before (.child line) after (hrows ▸ h) line rfl
  rwa [List.nil_append, List.append_nil] at hline

/-! ### Below a branch that goes on -/

/-- The last file below the last one below the first of two. -/
def deepLine : Line := ⟨[true, false], true, "tool.js", none⟩

theorem draw_branches_circular :
    (∃ before after, rows circular = before ++ .child deepLine :: after ∧ Draws before deepLine after ∧
      goesOn 1 after = true ∧ goesOn 2 after = false ∧ goesOn 3 after = false) ∧
    deepLine.lead = "│       └── " ∧
    (Pen.drawTree circular true).lines = draw circular true := by
  have hrows : rows circular = (rows circular).take 5 ++ .child deepLine :: (rows circular).drop 6 := by
    decide +kernel
  obtain ⟨-, hdraws, -, -, hpen, -⟩ := draw_branches circular true
  refine ⟨⟨_, _, hrows, hdraws _ _ _ hrows, ?_, ?_, ?_⟩, ?_, hpen⟩ <;> decide +kernel

end Stowage.Trace.Tree
