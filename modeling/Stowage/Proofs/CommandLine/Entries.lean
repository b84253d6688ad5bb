/-
The entry points that are given on a command line. Each operand is one, by the name that it gives or by the stem of its
file; of several operands of one name the last one counts, and all of them take the place of an entry point of that name
in the configuration. What is left is compiled, and the archive gets a start script for it.
-/
import Stowage.CommandLine.Run
import Stowage.Proofs.Bundle.Launchers
import Stowage.Proofs.Config.Entries

namespace Stowage

open CommandLine

/-! ## Operands -/

theorem cutEquals_eq_none {text : List Char} (h : '=' ∉ text) : cutEquals text = none := by
  induction text with
  | nil => rfl
  | cons c rest ih =>
    rw [List.mem_cons, not_or] at h
    rw [cutEquals]
    · rw [ih h.2]
      rfl
    · exact fun hc => h.1 hc.symm

/-- An operand without a name has the one of its file. -/
theorem entryOfText_plain {path : String} (h : '=' ∉ path.toList) :
    entryOfText path = ((⟨path⟩ : Path).fileStem.getD path, ⟨path⟩) := by
  have hdrop : path.toList.dropWhile (· = '=') = path.toList := by
    rcases htext : path.toList with _ | ⟨c, rest⟩
    · rfl
    · rw [htext, List.mem_cons, not_or] at h
      exact List.dropWhile_cons_of_neg (by simpa using Ne.symm h.1)
  unfold entryOfText
  rw [cutEquals_eq_none h]
  dsimp only
  rw [hdrop, String.ofList_toList]

namespace Command

/-- The settings of a bundle whose command line is `g` with the overrides `later`, on top of the configuration `c`. -/
def settings (g : Given) (c later : Config) : BundleSettings :=
  (c.merge later).toSettings (directory (g.value? "dir"))

variable {g : Given} {c later : Config}

theorem entries_overrides (h : overrides g = .ok later) : later.entries = entries g.operands := by
  unfold overrides at h
  rcases hformat : setting g "format" Archive.Format.ofString? with e | format
  · rw [hformat] at h
    cases h
  rcases hlevel : setting g "level" natural? with e | level
  · rw [hformat, hlevel] at h
    cases h
  rcases htype : setting g "source-type" SourceType.ofString? with e | sourceType
  · rw [hformat, hlevel, htype] at h
    cases h
  rw [hformat, hlevel, htype] at h
  cases h
  rfl

theorem entries_settings (h : overrides g = .ok later) : (settings g c later).entries =
    Json.putAll (c.entries.getD []) (Json.putAll [] (g.operands.map entryOfText)) := by
  show (c.merge later).entries.getD [] = _
  rw [Config.entries_merge, entries_overrides h]
  unfold entries given?
  rcases g.operands with _ | ⟨text, rest⟩ <;> rfl

theorem distinct_settings (c later : Config) (hc : c.Distinct) :
    ((settings g c later).entries.map Prod.fst).Nodup := hc.merge later

/-- The entry points of a bundle are the last operand of each name, and those of the configuration whose names no
operand has. -/
theorem mem_entries_settings (h : overrides g = .ok later) (hc : c.Distinct) {n : String} {p : Path} :
    (n, p) ∈ (settings g c later).entries ↔
      (∃ before text after, g.operands = before ++ text :: after ∧ entryOfText text = (n, p) ∧
        ∀ t ∈ after, (entryOfText t).1 ≠ n) ∨
      (n, p) ∈ c.entries.getD [] ∧ ∀ t ∈ g.operands, (entryOfText t).1 ≠ n := by
  have hempty : (([] : List (String × Path)).map Prod.fst).Nodup := List.nodup_nil
  have hgiven : ∀ n, (Json.putAll [] (g.operands.map entryOfText)).reverse.lookup n =
      (g.operands.map entryOfText).reverse.lookup n := by
    intro n
    rw [Named.lookup_reverse (Json.nodup_putAll hempty _), Json.lookup_putAll]
    exact Option.or_none
  have hnone : (g.operands.map entryOfText).reverse.lookup n = none ↔
      ∀ t ∈ g.operands, (entryOfText t).1 ≠ n := by
    rw [List.lookup_eq_none_iff]
    simp only [List.mem_reverse, List.forall_mem_map, bne_iff_ne, ne_comm]
  have hsome : (g.operands.map entryOfText).reverse.lookup n = some p ↔
      ∃ before text after, g.operands = before ++ text :: after ∧ entryOfText text = (n, p) ∧
        ∀ t ∈ after, (entryOfText t).1 ≠ n := by
    rw [Named.lookup_reverse_eq_some]
    constructor
    · rintro ⟨before, after, hsplit, hafter⟩
      obtain ⟨before, rest, hoperands, rfl, hrest⟩ := List.map_eq_append_iff.1 hsplit
      obtain ⟨text, after, rfl, htext, rfl⟩ := List.map_eq_cons_iff.1 hrest
      exact ⟨before, text, after, hoperands, htext,
        fun t ht => hafter _ (List.mem_map_of_mem ht)⟩
    · rintro ⟨before, text, after, hoperands, htext, hafter⟩
      refine ⟨before.map entryOfText, after.map entryOfText, ?_, List.forall_mem_map.2 hafter⟩
      rw [hoperands, List.map_append, List.map_cons, htext]
  rw [Named.mem_iff_lookup (distinct_settings c later hc), entries_settings h, Json.lookup_putAll, hgiven,
    Named.mem_iff_lookup hc, ← hnone, ← hsome]
  rcases (g.operands.map entryOfText).reverse.lookup n with _ | q
  · simp
  · simp

/-! ## Running the command -/

theorem gives_action {α : Type} {context : Option String} {a : Action α} {w w' : World} {x : α} :
    Gives (Run.action context a) w x w' ↔ Gives a w x w' := by
  unfold Gives
  show ((a.run.run w).1.mapError _, (a.run.run w).2) = (.ok x, w') ↔ _
  rcases a.run.run w with ⟨e | y, w₁⟩
  · exact ⟨fun h => (nomatch h), fun h => (nomatch h)⟩
  · show (Except.ok y, w₁) = (.ok x, w') ↔ (Except.ok y, w₁) = (.ok x, w')
    rw [Prod.mk.injEq, Prod.mk.injEq, Except.ok.injEq, Except.ok.injEq]

theorem gives_config {α : Type} {r : Except ConfigFault α} {w w' : World} {x : α} :
    Gives (Run.config r) w x w' ↔ r = .ok x ∧ w' = w := by
  rcases r with e | y
  · exact ⟨fun h => absurd h gives_throw, fun h => (nomatch h.1)⟩
  · refine gives_pure.trans (and_congr_left fun _ => ?_)
    rw [Except.ok.injEq, eq_comm]

variable {arguments : List String} {dir : Path} {file : Option Path} {w w' : World} {answer : Answer}

/-- A bundle that succeeds has a configuration to start from. -/
theorem gives_bundleService (h : Gives (bundleService dir file later) w answer w') : ∃ c report,
    Config.start w.disk dir file = .ok c ∧ answer = .bundled report ∧
      Gives (Stowage.bundle compileScripts ((c.merge later).toSettings dir)) w report w' := by
  unfold bundleService at h
  obtain ⟨v, w₁, hv, h₁⟩ := gives_bind.1 h
  obtain ⟨rfl, rfl⟩ := gives_get.1 hv
  rcases file with _ | file
  · obtain ⟨found, w₂, hfound, h₂⟩ := gives_bind.1 h₁
    obtain ⟨hfound, rfl⟩ := gives_config.1 hfound
    obtain ⟨report, w₃, hreport, h₃⟩ := gives_bind.1 h₂
    obtain ⟨rfl, rfl⟩ := gives_pure.1 h₃
    exact ⟨found.getD .empty, report, congrArg (Except.map _) hfound, rfl, gives_action.1 hreport⟩
  · obtain ⟨found, w₂, hfound, h₂⟩ := gives_bind.1 h₁
    obtain ⟨hfound, rfl⟩ := gives_config.1 hfound
    obtain ⟨report, w₃, hreport, h₃⟩ := gives_bind.1 h₂
    obtain ⟨rfl, rfl⟩ := gives_pure.1 h₃
    rcases hl : Config.load w₂.disk file with e | c
    · rw [hl] at hfound
      cases hfound
    · rw [hl] at hfound
      cases hfound
      exact ⟨c, report, hl, rfl, gives_action.1 hreport⟩

theorem runArguments_bundle (hg : Given.ofArguments bundleSwitches arguments = .ok g)
    (h : overrides g = .ok later) : runArguments ("bundle" :: arguments) =
      bundleService (directory (g.value? "dir")) ((g.value? "config").map Path.mk) later := by
  have hcommand : ofArguments ("bundle" :: arguments) =
      .ok (.bundle (directory (g.value? "dir")) ((g.value? "config").map Path.mk) later) := by
    show ofBundleArguments arguments = _
    unfold ofBundleArguments
    rw [hg]
    show (overrides g >>= fun _ => _) = _
    rw [h]
    rfl
  unfold runArguments
  rw [hcommand]
  rfl

/-- Of the paths on a command line those are kept whose name no later operand has, be it given or the stem of a file,
besides those that the configuration has under another name. What is kept is compiled and gets a start script. -/
theorem bundle_keeps_last (hg : Given.ofArguments bundleSwitches arguments = .ok g)
    (hlater : overrides g = .ok later) (hpaths : (g.operands.map fun t => (entryOfText t).2).Nodup)
    (hc : Config.start w.disk (directory (g.value? "dir")) ((g.value? "config").map Path.mk) = .ok c) :
    (∀ before text after, g.operands = before ++ text :: after →
      ((∃ e ∈ (settings g c later).entries, e.2 = (entryOfText text).2) ↔
        (∀ t ∈ after, (entryOfText t).1 ≠ (entryOfText text).1) ∨
        ∃ e ∈ c.entries.getD [], e.2 = (entryOfText text).2 ∧ ∀ t ∈ g.operands, (entryOfText t).1 ≠ e.1)) ∧
    ∀ answer w', Gives (runArguments ("bundle" :: arguments)) w answer w' → ∃ report l,
      answer = .bundled report ∧
      Bundle.Launches Compile.transpile (settings g c later) w report l ∧
      ∀ e ∈ (settings g c later).entries, ∃ source output, l.Starts (settings g c later) e source output := by
  have hdistinct := Config.distinct_of_start hc
  constructor
  · intro before text after hsplit
    constructor
    · rintro ⟨⟨n, p⟩, he, hp⟩
      rcases (mem_entries_settings hlater hdistinct).1 he with
        ⟨before', text', after', hsplit', htext', hafter'⟩ | ⟨he, hno⟩
      · left
        -- the paths tell the operands apart, so this is the operand that the entry point comes from
        have hmem : text ∈ g.operands := hsplit ▸ List.mem_append_right _ (List.mem_cons_self ..)
        have hmem' : text' ∈ g.operands := hsplit' ▸ List.mem_append_right _ (List.mem_cons_self ..)
        obtain rfl : text' = text := List.inj_on_of_nodup_map hpaths hmem' hmem (by rw [htext']; exact hp)
        have hnodup : (before ++ text' :: after).Nodup := hsplit ▸ hpaths.of_map _
        have hno := (List.nodup_cons.1 (List.nodup_middle.1 hnodup)).1
        rw [List.mem_append, not_or] at hno
        obtain ⟨-, -, rfl⟩ := (List.append_cons_inj_of_notMem hno.1 hno.2).1 (hsplit.symm.trans hsplit')
        rw [htext']
        exact hafter'
      · exact .inr ⟨(n, p), he, hp, hno⟩
    · rintro (hlast | ⟨e, he, hp, hno⟩)
      · exact ⟨entryOfText text, (mem_entries_settings hlater hdistinct).2
          (.inl ⟨before, text, after, hsplit, rfl, hlast⟩), rfl⟩
      · exact ⟨e, (mem_entries_settings hlater hdistinct).2 (.inr ⟨he, hno⟩), hp⟩
  · intro answer w' h
    rw [runArguments_bundle hg hlater] at h
    obtain ⟨c', report, hc', rfl, hbundle⟩ := gives_bundleService h
    obtain rfl := Except.ok.inj (hc.symm.trans hc')
    obtain ⟨l, hl⟩ := Bundle.exists_launches hbundle
    exact ⟨report, l, rfl, hl, hl.starts (distinct_settings _ _ (Config.distinct_of_start hc))⟩

/-! ### Files of one name in two directories -/

/-- Two directories with an index, and a script beside them. -/
def indexed : Disk where
  entries := [
    (["a"], .directory),
    (["a", "index.js"], .file (.text "1;")),
    (["b"], .directory),
    (["b", "index.js"], .file (.text "2;")),
    (["c.js"], .file (.text "3;")),
    (["package.json"], .file (.text "\x7b\"name\":\"app\"\x7d"))]
  here := []

def indexedArguments : List String := ["-o", "out", "a/index.js", "b/index.js", "x=c.js"]

def indexedGiven : Given := ⟨[("output", some "out")], ["a/index.js", "b/index.js", "x=c.js"]⟩

def indexedOverrides : Config :=
  { Config.empty with
    entries := some [("index", ⟨"b/index.js"⟩), ("x", ⟨"c.js"⟩)]
    output := some ⟨"out"⟩ }

/-- Of two indexes the one that is given last is bundled. -/
theorem bundle_keeps_last_indexed :
    (¬ ∃ e ∈ (settings indexedGiven .empty indexedOverrides).entries, e.2 = ⟨"a/index.js"⟩) ∧
    ∃ report w' l, Gives (runArguments ("bundle" :: indexedArguments)) ⟨indexed, []⟩ (.bundled report) w' ∧
      Bundle.Launches Compile.transpile (settings indexedGiven .empty indexedOverrides) ⟨indexed, []⟩ report l ∧
      ∃ e ∈ (settings indexedGiven .empty indexedOverrides).entries, e.2 = ⟨"b/index.js"⟩ ∧
        ∃ source output, l.Starts (settings indexedGiven .empty indexedOverrides) e source output := by
  have hg : Given.ofArguments bundleSwitches indexedArguments = .ok indexedGiven :=
    ok_of_toOption (by decide +kernel)
  have hlater : overrides indexedGiven = .ok indexedOverrides := ok_of_toOption (by decide +kernel)
  have hc : Config.start indexed (directory (indexedGiven.value? "dir"))
      ((indexedGiven.value? "config").map Path.mk) = .ok .empty := ok_of_toOption (by decide +kernel)
  have hpaths : (indexedGiven.operands.map fun t => (entryOfText t).2).Nodup := by decide +kernel
  have hrun : shown (runArguments ("bundle" :: indexedArguments)) ⟨indexed, []⟩
      (fun _ _ => ()) = some () := by decide +kernel
  have ha : (entryOfText "a/index.js").2 = ⟨"a/index.js"⟩ := congrArg Prod.snd (entryOfText_plain (by decide))
  have hb : (entryOfText "b/index.js").2 = ⟨"b/index.js"⟩ := congrArg Prod.snd (entryOfText_plain (by decide))
  obtain ⟨hkept, hruns⟩ := bundle_keeps_last (w := ⟨indexed, []⟩) hg hlater hpaths hc
  constructor
  · rw [← ha, hkept [] "a/index.js" ["b/index.js", "x=c.js"] rfl]
    rintro (hlast | ⟨e, he, -⟩)
    · exact hlast "b/index.js" (List.mem_cons_self ..) (by decide +kernel)
    · exact absurd he List.not_mem_nil
  · obtain ⟨answer, w', h, -⟩ := exists_gives hrun
    obtain ⟨report, l, rfl, hl, hstarts⟩ := hruns answer w' h
    obtain ⟨e, he, hpath⟩ := (hkept ["a/index.js"] "b/index.js" ["x=c.js"] rfl).2 (.inl (by decide +kernel))
    exact ⟨report, w', l, h, hl, e, he, hpath.trans hb, hstarts e he⟩

end Command

end Stowage
