/-
The root of a workspace. The nearest manifest with workspace patterns on the way up from a directory governs it, and the
last pattern that fits the name of the directory decides whether it is a member; a directory that is none is a workspace
by itself. The search fails where a manifest on the way cannot be read or a pattern is malformed, and only there.
-/
import Stowage.Project
import Stowage.Proofs.Package.Manifests
import Stowage.Proofs.Path.Joined

open Stowage.Path

namespace Stowage.Workspace

open Manifests

/-! ## Patterns -/

/-- The text of a pattern without the mark of its negation. -/
def unmarked (text : String) : String :=
  match text.toList with
  | '!' :: r => String.ofList r
  | _ => text

def isNegation (text : String) : Bool := text.toList.head? = some '!'

def IsMalformed (text : String) : Prop := ∃ fault, Glob.compile (bareText (unmarked text)) = .error fault

/-- The pattern, negated or not, matches the name. -/
def Fits (text name : String) : Prop :=
  ∃ p, Glob.compile (bareText (unmarked text)) = .ok p ∧ p.accepts Glob.levels name = true

/-- The last of the patterns that fits the name is not negated. -/
def TakesIn (patterns : List String) (name : String) : Prop := ∃ before text after,
  patterns = before ++ text :: after ∧ Fits text name ∧ isNegation text = false ∧ ∀ t ∈ after, ¬ Fits t name

theorem parse_eq (text : String) : Rule.parse text = match Glob.compile (bareText (unmarked text)) with
    | .ok p => .ok ⟨isNegation text, p⟩
    | .error fault => .error (.pattern fault) := by
  have hparse : ∀ negated body, (do return ⟨negated, ← compilePattern (bareText body)⟩ : Except Error Rule) =
      match Glob.compile (bareText body) with
        | .ok p => .ok ⟨negated, p⟩
        | .error fault => .error (.pattern fault) := by
    intro negated body
    unfold compilePattern
    rcases Glob.compile (bareText body) with fault | p <;> rfl
  unfold Rule.parse
  split
  · rename_i r htext
    have hunmarked : unmarked text = String.ofList r := by simp [unmarked, htext]
    have hmark : isNegation text = true := by
      unfold isNegation
      rw [htext]
      rfl
    rw [hparse, hunmarked, hmark]
  · rename_i hplain
    have hunmarked : unmarked text = text := by
      unfold unmarked
      split
      · exact absurd ‹_› (hplain _)
      · rfl
    have hmark : isNegation text = false := decide_eq_false fun h => by
      obtain ⟨r, hr⟩ := List.head?_eq_some_iff.1 h
      exact hplain r hr
    rw [hparse, hunmarked, hmark]

theorem isMember_concat (patterns : List String) (text name : String) :
    isMember (patterns ++ [text]) name = isMember patterns name >>= fun v => Rule.parse text >>= fun r =>
      .ok (if r.pattern.accepts Glob.levels name then !r.isNegated else v) := by
  unfold isMember
  rw [List.mapM_append, List.mapM_cons, List.mapM_nil]
  rcases patterns.mapM Rule.parse with e | rules
  · rfl
  · rcases Rule.parse text with e | r
    · rfl
    · show Except.ok (verdict name (rules ++ [r])) = _
      unfold verdict
      rw [List.foldl_append]
      rfl

theorem takesIn_concat {patterns : List String} {text name : String} : TakesIn (patterns ++ [text]) name ↔
    Fits text name ∧ isNegation text = false ∨ ¬ Fits text name ∧ TakesIn patterns name := by
  constructor
  · rintro ⟨before, t, after, hsplit, hfits, hneg, hafter⟩
    rcases List.eq_nil_or_concat after with rfl | ⟨after, u, rfl⟩
    · obtain ⟨-, ht⟩ := List.append_inj' hsplit rfl
      cases ht
      exact .inl ⟨hfits, hneg⟩
    · rw [List.concat_eq_append] at hafter hsplit
      rw [← List.cons_append, ← List.append_assoc] at hsplit
      obtain ⟨rfl, hu⟩ := List.append_inj' hsplit rfl
      cases hu
      exact .inr ⟨hafter text (by simp), before, t, after, rfl, hfits, hneg,
        fun x hx => hafter x (List.mem_append_left _ hx)⟩
  · rintro (⟨hfits, hneg⟩ | ⟨hno, before, t, after, rfl, hfits, hneg, hafter⟩)
    · exact ⟨patterns, text, [], rfl, hfits, hneg, fun _ h => nomatch h⟩
    · refine ⟨before, t, after ++ [text], by simp, hfits, hneg, fun x hx => ?_⟩
      rcases List.mem_append.1 hx with hx | hx
      · exact hafter x hx
      · rwa [List.mem_singleton.1 hx]

/-- Membership can be told unless a pattern is malformed, and the last pattern that fits decides. -/
theorem isMember_cases (patterns : List String) (name : String) :
    (∃ e, isMember patterns name = .error e) ∧ (∃ text ∈ patterns, IsMalformed text) ∨
    ∃ v, isMember patterns name = .ok v ∧ (∀ text ∈ patterns, ¬ IsMalformed text) ∧
      (v = true ↔ TakesIn patterns name) := by
  -- from the last pattern backwards, since it overrules those before it
  induction patterns using List.reverseRecOn with
  | nil =>
    refine .inr ⟨false, rfl, List.forall_mem_nil _, ?_⟩
    constructor
    · intro h
      cases h
    · rintro ⟨before, t, after, hsplit, -⟩
      simp at hsplit
  | append_singleton patterns text ih =>
    rw [isMember_concat]
    obtain ⟨⟨e, he⟩, t, ht, hbad⟩ | ⟨v, hv, hgood, hin⟩ := ih
    · rw [he]
      exact .inl ⟨⟨e, rfl⟩, t, List.mem_append_left _ ht, hbad⟩
    · rw [hv, parse_eq]
      -- a malformed pattern fails even where an earlier one has fitted
      rcases hc : Glob.compile (bareText (unmarked text)) with fault | p
      · exact .inl ⟨⟨.pattern fault, rfl⟩, text, by simp, fault, hc⟩
      · have hfits : Fits text name ↔ p.accepts Glob.levels name = true := by
          unfold Fits
          simp [hc]
        have hwell : ¬ IsMalformed text := by
          rintro ⟨fault, hf⟩
          rw [hc] at hf
          cases hf
        refine .inr ⟨_, rfl, ?_, ?_⟩
        · intro t ht
          rcases List.mem_append.1 ht with ht | ht
          · exact hgood t ht
          · rwa [List.mem_singleton.1 ht]
        · dsimp only
          rw [takesIn_concat, hfits, ← hin]
          by_cases ha : p.accepts Glob.levels name = true <;> simp [ha]

/-! ## On the way up -/

section
variable (d : Disk) (known : Manifests)

/-- The workspace patterns that the manifest of a directory declares. -/
def declared (dir : Path) : Option (List String) :=
  match manifestAt d known dir with
  | .ok (some m) => m.workspaces
  | _ => none

/-- The directory has a manifest, which was not read before and cannot be read. -/
def Unreadable (dir : Path) : Prop :=
  known.lookup? dir = none ∧ d.isFile (manifestPath dir) = true ∧ ∃ e, readAt d dir = .error e

/-- The directory is on the way through some directories up to the first one that declares patterns, or to the last. -/
def OnWay (dirs : List Path) (dir : Path) : Prop := ∃ before after, dirs = before ++ dir :: after ∧
  ∀ x ∈ before, declared d known x = none

/-- The first of some directories that declares patterns. -/
def Governs (dirs : List Path) (dir : Path) (patterns : List String) : Prop :=
  OnWay d known dirs dir ∧ declared d known dir = some patterns

/-- The root of the workspace of `start`, where `dirs` are the directories from `start` on upwards. -/
inductive RootOf (start : Path) (dirs : List Path) : Path → Prop
  | alone (h : ∀ dir ∈ dirs, declared d known dir = none) : RootOf start dirs start
  | own {patterns : List String} (h : Governs d known dirs start patterns) : RootOf start dirs start
  | member {dir : Path} {patterns : List String} {name : String} (h : Governs d known dirs dir patterns)
      (hne : dir ≠ start) (hname : start.nameBelow? dir = some name) (hin : TakesIn patterns name) :
      RootOf start dirs dir
  | outside {dir : Path} {patterns : List String} {name : String} (h : Governs d known dirs dir patterns)
      (hne : dir ≠ start) (hname : start.nameBelow? dir = some name) (hout : ¬ TakesIn patterns name) :
      RootOf start dirs start

/-- Why the root of the workspace of `start` cannot be told. -/
inductive Untold (start : Path) (dirs : List Path) : Prop
  | unreadable {dir : Path} (h : OnWay d known dirs dir) (hdir : Unreadable d known dir)
  | malformed {dir : Path} {patterns : List String} {text : String} (h : Governs d known dirs dir patterns)
      (hne : dir ≠ start) (hmem : text ∈ patterns) (ht : IsMalformed text)

end

section
variable {d : Disk} {known : Manifests}

theorem manifestAt_eq (d : Disk) (known : Manifests) (dir : Path) :
    manifestAt d known dir = match known.lookup? dir with
      | some m => .ok m
      | none => readAt d dir := by
  unfold manifestAt Query.answer
  rw [run_load]
  rcases known.lookup? dir with _ | m
  · rcases readAt d dir with e | m <;> rfl
  · rfl

theorem unreadable_iff {dir : Path} : Unreadable d known dir ↔ ∃ e, manifestAt d known dir = .error e := by
  rw [manifestAt_eq]
  unfold Unreadable
  rcases known.lookup? dir with _ | m
  · refine ⟨fun ⟨_, _, h⟩ => h, fun ⟨e, he⟩ => ⟨rfl, ?_, e, he⟩⟩
    dsimp only [readAt] at he
    split at he
    · assumption
    · cases he
  · simp

theorem onWay_cons {dir x : Path} {rest : List Path} : OnWay d known (dir :: rest) x ↔
    x = dir ∨ declared d known dir = none ∧ OnWay d known rest x := by
  constructor
  · rintro ⟨before, after, hsplit, hb⟩
    rcases before with _ | ⟨y, before⟩
    · cases hsplit
      exact .inl rfl
    · cases hsplit
      exact .inr ⟨hb dir (List.mem_cons_self ..), before, after, rfl, fun z hz => hb z (List.mem_cons_of_mem _ hz)⟩
  · rintro (rfl | ⟨hnone, before, after, rfl, hb⟩)
    · exact ⟨[], rest, rfl, fun _ h => nomatch h⟩
    · refine ⟨dir :: before, after, rfl, fun z hz => ?_⟩
      rcases List.mem_cons.1 hz with rfl | hz
      · exact hnone
      · exact hb z hz

theorem governs_of_none {dir x : Path} {rest : List Path} {patterns : List String} (h : declared d known dir = none) :
    Governs d known (dir :: rest) x patterns ↔ Governs d known rest x patterns := by
  unfold Governs
  rw [onWay_cons]
  constructor
  · rintro ⟨rfl | ⟨-, hway⟩, hx⟩
    · rw [h] at hx
      cases hx
    · exact ⟨hway, hx⟩
  · rintro ⟨hway, hx⟩
    exact ⟨.inr ⟨h, hway⟩, hx⟩

theorem governs_of_some {dir x : Path} {rest : List Path} {patterns patterns' : List String}
    (h : declared d known dir = some patterns) :
    Governs d known (dir :: rest) x patterns' ↔ x = dir ∧ patterns' = patterns := by
  unfold Governs
  rw [onWay_cons]
  constructor
  · rintro ⟨rfl | ⟨hno, -⟩, hx⟩
    · rw [h] at hx
      cases hx
      exact ⟨rfl, rfl⟩
    · rw [h] at hno
      cases hno
  · rintro ⟨rfl, rfl⟩
    exact ⟨.inl rfl, h⟩

section
variable {start dir : Path} {rest : List Path} (h : declared d known dir = none)
include h

theorem untold_of_none {m : Option Manifest} (hm : manifestAt d known dir = .ok m) :
    Untold d known start (dir :: rest) ↔ Untold d known start rest := by
  constructor
  · rintro (⟨hway, hx⟩ | ⟨hgov, hne, hmem, ht⟩)
    · rcases onWay_cons.1 hway with rfl | ⟨-, hway⟩
      · obtain ⟨e, he⟩ := unreadable_iff.1 hx
        rw [hm] at he
        cases he
      · exact .unreadable hway hx
    · exact .malformed ((governs_of_none h).1 hgov) hne hmem ht
  · rintro (⟨hway, hx⟩ | ⟨hgov, hne, hmem, ht⟩)
    · exact .unreadable (onWay_cons.2 (.inr ⟨h, hway⟩)) hx
    · exact .malformed ((governs_of_none h).2 hgov) hne hmem ht

theorem rootOf_of_none {x : Path} : RootOf d known start (dir :: rest) x ↔ RootOf d known start rest x := by
  constructor
  · rintro (hall | hgov | ⟨hgov, hne, hname, hin⟩ | ⟨hgov, hne, hname, hout⟩)
    · exact .alone (List.forall_mem_cons.1 hall).2
    · exact .own ((governs_of_none h).1 hgov)
    · exact .member ((governs_of_none h).1 hgov) hne hname hin
    · exact .outside ((governs_of_none h).1 hgov) hne hname hout
  · rintro (hall | hgov | ⟨hgov, hne, hname, hin⟩ | ⟨hgov, hne, hname, hout⟩)
    · exact .alone (List.forall_mem_cons.2 ⟨h, hall⟩)
    · exact .own ((governs_of_none h).2 hgov)
    · exact .member ((governs_of_none h).2 hgov) hne hname hin
    · exact .outside ((governs_of_none h).2 hgov) hne hname hout

end

section
variable {start dir : Path} {rest : List Path} {patterns : List String} (h : declared d known dir = some patterns)
include h

theorem untold_of_some : Untold d known start (dir :: rest) ↔ dir ≠ start ∧ ∃ text ∈ patterns, IsMalformed text := by
  constructor
  · rintro (⟨hway, hx⟩ | ⟨hgov, hne, hmem, ht⟩)
    · obtain ⟨e, he⟩ := unreadable_iff.1 hx
      rcases onWay_cons.1 hway with rfl | ⟨hnone, -⟩
      · unfold declared at h
        rw [he] at h
        cases h
      · rw [h] at hnone
        cases hnone
    · obtain ⟨rfl, rfl⟩ := (governs_of_some h).1 hgov
      exact ⟨hne, _, hmem, ht⟩
  · rintro ⟨hne, text, hmem, ht⟩
    exact .malformed ((governs_of_some h).2 ⟨rfl, rfl⟩) hne hmem ht

theorem rootOf_of_some {x : Path} {name : String} (hname : start.nameBelow? dir = some name) :
    RootOf d known start (dir :: rest) x ↔
      x = dir ∧ (dir = start ∨ TakesIn patterns name) ∨ x = start ∧ dir ≠ start ∧ ¬ TakesIn patterns name := by
  constructor
  · rintro (hall | hgov | ⟨hgov, -, hname', hin⟩ | ⟨hgov, hne, hname', hout⟩)
    · have := hall dir (List.mem_cons_self ..)
      rw [h] at this
      cases this
    · obtain ⟨rfl, -⟩ := (governs_of_some h).1 hgov
      exact .inl ⟨rfl, .inl rfl⟩
    · obtain ⟨rfl, rfl⟩ := (governs_of_some h).1 hgov
      rw [hname] at hname'
      cases hname'
      exact .inl ⟨rfl, .inr hin⟩
    · obtain ⟨rfl, rfl⟩ := (governs_of_some h).1 hgov
      rw [hname] at hname'
      cases hname'
      exact .inr ⟨rfl, hne, hout⟩
  · have hgov : Governs d known (dir :: rest) dir patterns := (governs_of_some h).2 ⟨rfl, rfl⟩
    rintro (⟨rfl, rfl | hin⟩ | ⟨rfl, hne, hout⟩)
    · exact .own hgov
    · by_cases heq : x = start
      · subst heq
        exact .own hgov
      · exact .member hgov heq hname hin
    · exact .outside hgov hne hname hout

end

/-! ## Names on the way -/

/-- The name of a directory below one on its way up is empty only below itself. -/
theorem name_of_mem_ancestors {start dir : Path} (hstart : start.IsPlain) (h : dir ∈ start.ancestors) :
    start.nameBelow? dir = some ((start.stripPrefix? dir).getD start).slashText ∧
      (((start.stripPrefix? dir).getD start).slashText.isEmpty = true ↔ dir = start) := by
  obtain ⟨names, hnames, rfl⟩ := hstart
  obtain ⟨upper, hupper, rfl⟩ := mem_ancestors_ofLocation hnames h
  have hmoves : (ofLocation names).moves = names := moves_ofLocation hnames
  have hmovesUpper : (ofLocation upper).moves = upper := moves_ofLocation fun n hn => hnames n (hupper.subset hn)
  have hin : (ofLocation names).startsWith (ofLocation upper) = true := by
    rwa [startsWith_iff (isAbsolute_ofLocation _) (isAbsolute_ofLocation _), hmoves, hmovesUpper]
  obtain ⟨q, hq, hbelow⟩ := moves_stripPrefix hin
  rw [hq, Option.getD_some, slashText_eq, hbelow]
  refine ⟨(nameBelow?_eq_some (isAbsolute_ofLocation _) (isAbsolute_ofLocation _)).2 ⟨hin, rfl⟩, ?_⟩
  rw [isEmpty_joined fun s hs => isPiece_of_mem_below hs, List.isEmpty_iff]
  unfold below
  rw [hmoves, hmovesUpper, List.drop_eq_nil_iff]
  constructor
  · exact fun hle => congrArg ofLocation (hupper.eq_of_length_le hle)
  · exact fun heq => by rw [← hmovesUpper, heq, hmoves]

/-! ## The search -/

/-- What the search does at a directory once its patterns are known. -/
def judge (d : Disk) (start dir : Path) (rest : List Path) : Option (List String) → Query Path
  | none => rootAmong d start rest
  | some patterns => do
    let name := ((start.stripPrefix? dir).getD start).slashText
    if name.isEmpty then return dir
    if ← Query.ofExcept (isMember patterns name) then return dir else return start

theorem rootAmong_cons (d : Disk) (start dir : Path) (rest : List Path) : rootAmong d start (dir :: rest) =
    load d dir >>= fun m => judge d start dir rest (m.bind (·.workspaces)) := by
  rw [rootAmong]
  rfl

theorem steady_judge {start dir : Path} {rest : List Path} (hrest : Steady d known (rootAmong d start rest))
    (patterns? : Option (List String)) : Steady d known (judge d start dir rest patterns?) := by
  rcases patterns? with _ | patterns
  · exact hrest
  · rw [judge]
    split
    · exact agree_pure rfl
    · refine steady_bind (steady_ofExcept _) fun isIn => ?_
      split <;> exact agree_pure rfl

theorem answer_judge (start dir : Path) (rest : List Path) (patterns : List String) :
    (judge d start dir rest (some patterns)).answer known =
      if ((start.stripPrefix? dir).getD start).slashText.isEmpty then .ok dir
      else isMember patterns ((start.stripPrefix? dir).getD start).slashText >>= fun isIn =>
        .ok (if isIn then dir else start) := by
  rw [judge]
  split
  · rfl
  · rw [Query.answer_bind, Query.answer_ofExcept]
    rcases isMember patterns ((start.stripPrefix? dir).getD start).slashText with e | _ | _ <;> rfl

theorem steady_rootAmong (start : Path) {dirs : List Path} (h : ∀ dir ∈ dirs, dir.IsPlain) :
    Steady d known (rootAmong d start dirs) := by
  induction dirs with
  | nil => exact agree_pure rfl
  | cons dir rest ih =>
    rw [rootAmong_cons]
    refine steady_load_bind (.inl (h dir (List.mem_cons_self ..))) fun m m' hm => ?_
    have hdeclared : m.bind (·.workspaces) = m'.bind (·.workspaces) := by
      obtain ⟨rfl, rfl⟩ | ⟨x, p, rfl, rfl⟩ := hm.cases <;> rfl
    rw [hdeclared]
    exact steady_judge (ih fun x hx => h x (List.mem_cons_of_mem _ hx)) _

/-- Among directories on the way up from `start` the search tells the root of its workspace, unless it cannot be told. -/
theorem rootAmong_cases {start : Path} (hstart : start.IsPlain) {dirs : List Path}
    (hdirs : ∀ dir ∈ dirs, dir ∈ start.ancestors) :
    (∃ e, (rootAmong d start dirs).answer known = .error e) ∧ Untold d known start dirs ∨
    ∃ found, (rootAmong d start dirs).answer known = .ok found ∧ ¬ Untold d known start dirs ∧
      ∀ x, RootOf d known start dirs x ↔ x = found := by
  induction dirs with
  | nil =>
    have hway : ∀ x, ¬ OnWay d known [] x := by
      rintro x ⟨before, after, hsplit, -⟩
      simp at hsplit
    refine .inr ⟨start, rfl, ?_, fun x => ⟨?_, ?_⟩⟩
    · rintro (⟨h, -⟩ | ⟨⟨h, -⟩, -⟩) <;> exact hway _ h
    · rintro (_ | _ | ⟨⟨h, -⟩, -⟩ | _)
      · rfl
      · rfl
      · exact absurd h (hway _)
      · rfl
    · rintro rfl
      exact .alone (List.forall_mem_nil _)
  | cons dir rest ih =>
    have hplain : ∀ x ∈ dir :: rest, x.IsPlain := fun x hx => isPlain_of_mem_ancestors hstart (hdirs x hx)
    have hrest : Steady d known (rootAmong d start rest) :=
      steady_rootAmong start fun x hx => hplain x (List.mem_cons_of_mem _ hx)
    obtain ⟨hname, hempty⟩ := name_of_mem_ancestors hstart (hdirs dir (List.mem_cons_self ..))
    rw [rootAmong_cons,
      (agree_load (.inl (hplain dir (List.mem_cons_self ..)))).answer_bind fun m => steady_judge hrest _]
    change (∃ e, manifestAt d known dir >>= _ = _) ∧ _ ∨ ∃ found, manifestAt d known dir >>= _ = _ ∧ _
    rcases hm : manifestAt d known dir with e | m
    · exact .inl ⟨⟨e, rfl⟩, .unreadable (onWay_cons.2 (.inl rfl)) (unreadable_iff.2 ⟨e, hm⟩)⟩
    · have hdeclared : declared d known dir = m.bind (·.workspaces) := by
        unfold declared
        rw [hm]
        rcases m with _ | m <;> rfl
      change (∃ e, (judge d start dir rest (m.bind (·.workspaces))).answer known = _) ∧ _ ∨
        ∃ found, (judge d start dir rest (m.bind (·.workspaces))).answer known = _ ∧ _
      rw [← hdeclared]
      rcases hpatterns : declared d known dir with _ | patterns
      · -- the directory is passed over
        rw [untold_of_none hpatterns hm]
        simp only [rootOf_of_none hpatterns]
        exact ih fun x hx => hdirs x (List.mem_cons_of_mem _ hx)
      · rw [untold_of_some hpatterns, answer_judge]
        simp only [rootOf_of_some hpatterns hname]
        by_cases heq : dir = start
        · -- its own patterns are not asked
          rw [if_pos (hempty.2 heq)]
          exact .inr ⟨dir, rfl, fun h => h.1 heq, fun x => by simp [heq]⟩
        · rw [if_neg (mt hempty.1 heq)]
          obtain ⟨⟨e, he⟩, hbad⟩ | ⟨isIn, hv, hgood, hin⟩ :=
            isMember_cases patterns ((start.stripPrefix? dir).getD start).slashText
          · rw [he]
            exact .inl ⟨⟨e, rfl⟩, heq, hbad⟩
          · rw [hv]
            refine .inr ⟨_, rfl, fun ⟨_, text, hmem, ht⟩ => hgood text hmem ht, fun x => ?_⟩
            simp only [← hin]
            rcases isIn with _ | _ <;> simp [heq]

/-! ## The root -/

theorem RootOf.mem_ancestors {start root : Path} (h : RootOf d known start start.ancestors root) :
    root ∈ start.ancestors := by
  rcases h with - | - | ⟨⟨⟨before, after, hsplit, -⟩, -⟩, -⟩ | -
  · exact mem_ancestors_self start
  · exact mem_ancestors_self start
  · rw [hsplit]
    simp
  · exact mem_ancestors_self start

theorem create_ok {ms : Manifests} {resolver : Resolve} {p start : Path} {s : Project}
    (hp : d.canonicalize p = .ok start) (h : (Project.create d resolver p).answer ms = .ok s) :
    ∃ found, (root d start).answer ms = .ok found ∧ s = ⟨start, found, resolver⟩ := by
  unfold Project.create at h
  rw [hp] at h
  change (root d start >>= fun found => pure ⟨start, found, resolver⟩ : Query Project).answer ms = _ at h
  rw [Query.answer_bind] at h
  rcases hr : (root d start).answer ms with e | found
  · rw [hr] at h
    cases h
  · rw [hr] at h
    cases h
    exact ⟨found, rfl, rfl⟩

/-- The root of the workspace of a directory. It can be told unless a manifest on the way up to the one that governs the
directory cannot be read, or a pattern is malformed that would have to be asked. It is the directory or lies above it, so
that the directory of a project has a name in its workspace. -/
theorem root_decided {ms : Manifests} (he : Extends d known ms) {start : Path} (hstart : start.IsPlain) :
    (∀ found, (root d start).answer ms = .ok found ↔
      ¬ Untold d known start start.ancestors ∧ RootOf d known start start.ancestors found) ∧
    ((∃ e, (root d start).answer ms = .error e) ↔ Untold d known start start.ancestors) ∧
    (∀ found, (root d start).answer ms = .ok found → found ∈ start.ancestors) ∧
    ∀ resolver p s, d.canonicalize p = .ok start → (Project.create d resolver p).answer ms = .ok s →
      s.start = start ∧ (root d start).answer ms = .ok s.root ∧ ∃ name, s.relative s.start = .ok name := by
  have hsteady : Steady d known (root d start) :=
    steady_rootAmong start fun dir hdir => isPlain_of_mem_ancestors hstart hdir
  rw [hsteady.answer_eq he]
  have hcases : (∃ e, (root d start).answer known = .error e) ∧ Untold d known start start.ancestors ∨
      ∃ found, (root d start).answer known = .ok found ∧ ¬ Untold d known start start.ancestors ∧
        ∀ x, RootOf d known start start.ancestors x ↔ x = found := rootAmong_cases hstart fun _ h => h
  have hok : ∀ found, (root d start).answer known = .ok found ↔
      ¬ Untold d known start start.ancestors ∧ RootOf d known start start.ancestors found := by
    intro found
    obtain ⟨⟨e, herror⟩, huntold⟩ | ⟨x, hx, htold, hroot⟩ := hcases
    · rw [herror]
      simp [huntold]
    · rw [hx, hroot]
      simp [htold, eq_comm]
  have herror : (∃ e, (root d start).answer known = .error e) ↔ Untold d known start start.ancestors := by
    obtain ⟨h, huntold⟩ | ⟨x, hx, htold, -⟩ := hcases
    · exact iff_of_true h huntold
    · rw [hx]
      simp [htold]
  have habove : ∀ found, (root d start).answer known = .ok found → found ∈ start.ancestors := fun found hfound =>
    ((hok found).1 hfound).2.mem_ancestors
  refine ⟨hok, herror, habove, fun resolver p s hp hs => ?_⟩
  obtain ⟨found, hfound, rfl⟩ := create_ok hp hs
  rw [hsteady.answer_eq he] at hfound
  refine ⟨rfl, hfound, ((start.stripPrefix? found).getD start).slashText, ?_⟩
  show nameBelow start found = _
  unfold nameBelow
  rw [(name_of_mem_ancestors hstart (habove found hfound)).1]

end

/-- A workspace with a package that is a member of it and one that is left out. -/
def shop : Disk where
  entries := [(["shop"], .directory),
    (["shop", "package.json"], .file (.text "\x7b\"workspaces\":[\"./packages/*\",\"!packages/old\"]\x7d")),
    (["shop", "packages"], .directory), (["shop", "packages", "api"], .directory),
    (["shop", "packages", "old"], .directory)]
  here := []

/-- A workspace whose last pattern is malformed. -/
def brokenShop : Disk where
  entries := [(["shop"], .directory),
    (["shop", "package.json"], .file (.text "\x7b\"workspaces\":[\"packages/*\",\"packages/***\"]\x7d")),
    (["shop", "packages"], .directory), (["shop", "packages", "api"], .directory)]
  here := []

theorem root_decided_shop :
    (⟨"/shop/packages/api"⟩ : Path).IsPlain ∧ (⟨"/shop/packages/old"⟩ : Path).IsPlain ∧
    RootOf shop .empty ⟨"/shop/packages/api"⟩ (⟨"/shop/packages/api"⟩ : Path).ancestors ⟨"/shop"⟩ ∧
    RootOf shop .empty ⟨"/shop/packages/old"⟩ (⟨"/shop/packages/old"⟩ : Path).ancestors ⟨"/shop/packages/old"⟩ ∧
    Untold brokenShop .empty ⟨"/shop/packages/api"⟩ (⟨"/shop/packages/api"⟩ : Path).ancestors := by
  have hapi : (⟨"/shop/packages/api"⟩ : Path).IsPlain := shop.isPlain_of_canonicalize Disk.spelled_nil
    (ok_of_toOption (show (shop.canonicalize ⟨"/shop/packages/api"⟩).toOption = some _ by decide +kernel))
  have hold : (⟨"/shop/packages/old"⟩ : Path).IsPlain := shop.isPlain_of_canonicalize Disk.spelled_nil
    (ok_of_toOption (show (shop.canonicalize ⟨"/shop/packages/old"⟩).toOption = some _ by decide +kernel))
  refine ⟨hapi, hold, (((root_decided (extends_refl .empty) hapi).1 _).1 ?_).2,
    (((root_decided (extends_refl .empty) hold).1 _).1 ?_).2, (root_decided (extends_refl .empty) hapi).2.1.1 ?_⟩
  · exact ok_of_toOption (by decide +kernel)
  · exact ok_of_toOption (by decide +kernel)
  · have hfails : ((root brokenShop ⟨"/shop/packages/api"⟩).answer .empty).toOption = none := by decide +kernel
    rcases hr : (root brokenShop ⟨"/shop/packages/api"⟩).answer .empty with e | found
    · exact ⟨e, rfl⟩
    · rw [hr] at hfails
      cases hfails

end Stowage.Workspace
