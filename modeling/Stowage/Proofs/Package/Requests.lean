/-
Requests for manifests, one after another, while the disk may change in between. What a request was told of a location is
what every later one is told; a location of which none was told anything is read, and a manifest that cannot be read is
not kept. On a disk that stays as it is no request can tell that anything is kept.
-/
import Stowage.Proofs.Package.Manifests
import Stowage.Proofs.Path.Below
import Mathlib.Data.Set.Card

open Stowage.Path

namespace Stowage.Manifests

open Query

/-! ## Requests -/

/-- A request for the manifest of a location, on the disk as it is then. -/
structure Request where
  disk : Disk
  location : Path
  /-- The location has to have a manifest. -/
  isNeeded : Bool

namespace Request

def ask (r : Request) : Query (Option Manifest) :=
  if r.isNeeded then some <$> require r.disk r.location else load r.disk r.location

/-- What the request is told if `m` is what is known of its location. -/
def told (r : Request) (m : Option Manifest) : Except Error (Option Manifest) :=
  if r.isNeeded ∧ m = none then .error (.manifestNotFound (manifestPath r.location)) else .ok m

end Request

/-- The manifests that are known after some requests, whether they failed or not. -/
def afterRequests (rs : List Request) : Manifests := rs.foldl (fun ms r => r.ask.after ms) .empty

/-- A request for a spelling of the location was told `m`. -/
def Told (rs : List Request) (p : Path) (m : Option Manifest) : Prop := ∃ before r after, rs = before ++ r :: after ∧
  r.location.same p = true ∧ r.ask.answer (afterRequests before) = r.told m

theorem afterRequests_concat (rs : List Request) (r : Request) :
    afterRequests (rs ++ [r]) = r.ask.after (afterRequests rs) := by
  unfold afterRequests
  rw [List.foldl_append]
  rfl

/-- What a request does: it is told what is known of its location, or what is read there and kept from then on. -/
theorem run_ask (r : Request) (ms : Manifests) :
    r.ask.run.run ms = match ms.lookup? r.location with
      | some m => (r.told m, ms)
      | none => match readAt r.disk r.location with
        | .ok m => (r.told m, ms.insert r.location m)
        | .error e => (.error e, ms) := by
  have hload := run_load r.disk ms r.location
  unfold Request.ask Request.told
  rcases hn : r.isNeeded with _ | _
  · rw [if_neg Bool.false_ne_true, hload]
    rcases ms.lookup? r.location with _ | m
    · rcases readAt r.disk r.location with e | m <;> rfl
    · rfl
  · rw [if_pos rfl, map_eq_bind_pure_comp, require, Query.run_bind, answer_bind, after_bind]
    unfold answer after
    rw [hload]
    rcases ms.lookup? r.location with _ | m
    · dsimp only
      rcases readAt r.disk r.location with e | _ | m <;> rfl
    · rcases m with _ | m <;> rfl

section
variable {r : Request} {ms : Manifests} {m : Option Manifest}

theorem Request.told_some (r : Request) (m : Manifest) : r.told (some m) = .ok (some m) := if_neg (by simp)

theorem Request.told_none (r : Request) : r.told none =
    if r.isNeeded then .error (.manifestNotFound (manifestPath r.location)) else .ok none := by
  simp [told]

theorem Request.told_injective (r : Request) : Function.Injective r.told := by
  intro m m' h
  rcases m with _ | m <;> rcases m' with _ | m'
  · rfl
  · rw [told_none, told_some] at h
    split at h <;> cases h
  · rw [told_none, told_some] at h
    split at h <;> cases h
  · rw [told_some, told_some] at h
    exact Except.ok.inj h

/-- A request that is told something fails only because nothing is there. -/
theorem Request.eq_of_told_error {e : Error} (h : r.told m = .error e) :
    r.isNeeded = true ∧ m = none ∧ e = .manifestNotFound (manifestPath r.location) := by
  unfold told at h
  split at h
  · rename_i hn
    cases h
    exact ⟨hn.1, hn.2, rfl⟩
  · cases h

theorem readAt_ne_notFound {d : Disk} {p q : Path} : readAt d p ≠ .error (.manifestNotFound q) := by
  intro h
  dsimp only [readAt] at h
  split at h
  · split at h
    · unfold Manifest.parse at h
      split at h <;> cases h
    · cases h
  · cases h

/-- A request is told what is known, or what is read and kept, or it fails to read and leaves all as it is. -/
theorem ask_cases (r : Request) (ms : Manifests) :
    (∃ m, ms.lookup? r.location = some m ∧ r.ask.answer ms = r.told m ∧ r.ask.after ms = ms) ∨
    (∃ m, ms.lookup? r.location = none ∧ readAt r.disk r.location = .ok m ∧ r.ask.answer ms = r.told m ∧
      r.ask.after ms = ms.insert r.location m) ∨
    ∃ e, ms.lookup? r.location = none ∧ readAt r.disk r.location = .error e ∧ (∀ m, .error e ≠ r.told m) ∧
      r.ask.answer ms = .error e ∧ r.ask.after ms = ms := by
  unfold answer after
  rw [run_ask]
  rcases ms.lookup? r.location with _ | known
  · rcases hr : readAt r.disk r.location with e | found
    · refine .inr (.inr ⟨e, rfl, rfl, fun m htold => ?_, rfl, rfl⟩)
      obtain ⟨-, -, rfl⟩ := Request.eq_of_told_error htold.symm
      exact readAt_ne_notFound hr
    · exact .inr (.inl ⟨found, rfl, rfl, rfl, rfl⟩)
  · exact .inl ⟨known, rfl, rfl, rfl⟩

end

section
variable {r : Request} {ms : Manifests}

theorem answer_of_known {m : Option Manifest} (h : ms.lookup? r.location = some m) :
    r.ask.answer ms = r.told m ∧ r.ask.after ms = ms := by
  unfold answer after
  rw [run_ask, h]
  exact ⟨rfl, rfl⟩

theorem answer_of_unknown (h : ms.lookup? r.location = none) :
    r.ask.answer ms = (readAt r.disk r.location).bind r.told := by
  unfold answer
  rw [run_ask, h]
  rcases readAt r.disk r.location with e | m <;> rfl

/-- A request that fails is told that nothing is there, or leaves all as it is. -/
theorem answer_error_cases {e : Error} (h : r.ask.answer ms = .error e) :
    e = .manifestNotFound (manifestPath r.location) ∧ .error e = r.told none ∨
      ms.lookup? r.location = none ∧ r.ask.after ms = ms := by
  have htold : ∀ m, r.ask.answer ms = r.told m →
      e = .manifestNotFound (manifestPath r.location) ∧ .error e = r.told none := by
    intro m hm
    have herror := hm.symm.trans h
    obtain ⟨-, rfl, he⟩ := Request.eq_of_told_error herror
    exact ⟨he, herror.symm⟩
  rcases ask_cases r ms with ⟨m, -, hm, -⟩ | ⟨m, -, -, hm, -⟩ | ⟨-, hl, -, -, -, hafter⟩
  · exact .inl (htold m hm)
  · exact .inl (htold m hm)
  · exact .inr ⟨hl, hafter⟩

end

/-! ## What is known after some requests -/

theorem lookup?_of_same (ms : Manifests) {p q : Path} (h : p.same q = true) : ms.lookup? p = ms.lookup? q := by
  have hpq : ∀ x : Path, x.same p = x.same q := fun x => by
    rw [Bool.eq_iff_iff, same_iff, same_iff, same_iff.1 h]
  unfold lookup?
  simp only [hpq]

section
variable {rs : List Request} {r : Request} {p q : Path} {m : Option Manifest}

theorem told_concat : Told (rs ++ [r]) p m ↔
    Told rs p m ∨ r.location.same p = true ∧ r.ask.answer (afterRequests rs) = r.told m := by
  constructor
  · rintro ⟨before, x, after, hsplit, hsame, hx⟩
    rcases List.eq_nil_or_concat after with rfl | ⟨after, y, rfl⟩
    · obtain ⟨rfl, hrx⟩ := List.append_inj' hsplit rfl
      cases hrx
      exact .inr ⟨hsame, hx⟩
    · rw [List.concat_eq_append, ← List.cons_append, ← List.append_assoc] at hsplit
      obtain ⟨rfl, -⟩ := List.append_inj' hsplit rfl
      exact .inl ⟨before, x, after, rfl, hsame, hx⟩
  · rintro (⟨before, x, after, rfl, hsame, hx⟩ | ⟨hsame, hx⟩)
    · exact ⟨before, x, after ++ [r], by simp, hsame, hx⟩
    · exact ⟨rs, r, [], rfl, hsame, hx⟩

/-- What is known of a location is what a request was told of it. -/
theorem lookup?_afterRequests : (afterRequests rs).lookup? p = some m ↔ Told rs p m := by
  induction rs using List.reverseRecOn generalizing p m with
  | nil =>
    constructor
    · intro h
      cases h
    · rintro ⟨before, x, after, hsplit, -⟩
      simp at hsplit
  | append_singleton rs r ih =>
    rw [told_concat, ← ih, afterRequests_concat]
    rcases ask_cases r (afterRequests rs) with ⟨known, hl, hanswer, hafter⟩ | ⟨found, hl, -, hanswer, hafter⟩ |
      ⟨e, -, -, hnot, hanswer, hafter⟩
    · rw [hanswer, hafter]
      refine ⟨.inl, ?_⟩
      rintro (h | ⟨hsame, htold⟩)
      · exact h
      · rw [← lookup?_of_same _ hsame, hl, r.told_injective htold]
    · rw [hanswer, hafter, lookup?_insert, r.told_injective.eq_iff]
      by_cases hsame : r.location.same p = true
      · rw [← lookup?_of_same _ hsame, hl, if_pos hsame]
        simp [hsame]
      · rw [if_neg hsame]
        simp [hsame]
    · rw [hanswer, hafter]
      exact ⟨.inl, fun h => h.resolve_right fun hr => hnot m hr.2⟩

/-- What a request is told was read from the disk of a request. -/
theorem exists_read_of_told (h : Told rs p m) :
    ∃ r ∈ rs, r.location.same p = true ∧ readAt r.disk r.location = .ok m := by
  induction rs using List.reverseRecOn generalizing p m with
  | nil =>
    rw [← lookup?_afterRequests] at h
    cases h
  | append_singleton rs r ih =>
    have hold : ∀ q, Told rs q m → q.same p = true →
        ∃ x ∈ rs ++ [r], x.location.same p = true ∧ readAt x.disk x.location = .ok m := by
      intro q hq hsame
      obtain ⟨x, hx, hxq, hread⟩ := ih hq
      exact ⟨x, List.mem_append_left _ hx, same_iff.2 ((same_iff.1 hxq).trans (same_iff.1 hsame)), hread⟩
    rcases told_concat.1 h with h | ⟨hsame, htold⟩
    · exact hold p h (same_refl p)
    · rcases ask_cases r (afterRequests rs) with ⟨known, hl, hanswer, -⟩ | ⟨found, -, hr, hanswer, -⟩ |
        ⟨e, -, -, hnot, hanswer, -⟩
      · rw [hanswer] at htold
        exact hold r.location (lookup?_afterRequests.1 (r.told_injective htold ▸ hl)) hsame
      · rw [hanswer] at htold
        exact ⟨r, List.mem_append_right _ (List.mem_singleton_self r), hsame, r.told_injective htold ▸ hr⟩
      · exact absurd (hanswer.symm.trans htold) (hnot m)

theorem lookup?_eq_none {ms : Manifests} : ms.lookup? p = none ↔ ∀ e ∈ ms.found, ¬ e.1.same p = true := by
  unfold lookup?
  rw [Option.map_eq_none_iff, List.find?_eq_none]

/-- A location is kept once, however it is spelled. -/
theorem nodup_found (rs : List Request) : ((afterRequests rs).found.map (·.1.components)).Nodup := by
  induction rs using List.reverseRecOn with
  | nil => exact List.nodup_nil
  | append_singleton rs r ih =>
    rw [afterRequests_concat]
    rcases ask_cases r (afterRequests rs) with ⟨-, -, -, hafter⟩ | ⟨found, hl, -, -, hafter⟩ | ⟨-, -, -, -, -, hafter⟩
    · rwa [hafter]
    · rw [hafter, insert, List.map_append, List.nodup_append]
      refine ⟨ih, List.nodup_singleton _, fun c hc c' hc' => ?_⟩
      obtain ⟨e, he, rfl⟩ := List.mem_map.1 hc
      obtain rfl := List.mem_singleton.1 hc'
      exact fun heq => lookup?_eq_none.1 hl e he (same_iff.2 heq)
    · rwa [hafter]

/-- As many locations are kept as there are different ones of which a request was told something. -/
theorem size_afterRequests (rs : List Request) :
    (afterRequests rs).size = Set.ncard {c | ∃ p m, Told rs p m ∧ p.components = c} := by
  have hset : {c | ∃ p m, Told rs p m ∧ p.components = c} =
      ↑((afterRequests rs).found.map (·.1.components)).toFinset := by
    ext c
    simp only [Set.mem_ofPred_eq, List.coe_toFinset, List.mem_map]
    constructor
    · rintro ⟨p, m, htold, rfl⟩
      rw [← lookup?_afterRequests] at htold
      by_contra hnone
      have hl := lookup?_eq_none.2 fun e he hsame => hnone ⟨e, he, same_iff.1 hsame⟩
      rw [htold] at hl
      cases hl
    · rintro ⟨e, he, rfl⟩
      rcases hl : (afterRequests rs).lookup? e.1 with _ | m
      · exact absurd (same_refl e.1) (lookup?_eq_none.1 hl e he)
      · exact ⟨e.1, m, lookup?_afterRequests.1 hl, rfl⟩
  rw [hset, Set.ncard_coe_finset, List.toFinset_card_of_nodup (nodup_found rs), List.length_map]
  rfl

end

/-! ## Spellings of one location -/

/-- The spelling does not end in a separator, nor in one and a dot. -/
def Bare (p : Path) : Prop := ¬ ['/'] <:+ p.text.toList ∧ ¬ ['/', '.'] <:+ p.text.toList

/-- A text is cut at its last separator, if it has one. -/
theorem exists_last_segment (cs : List Char) : '/' ∉ cs ∨ ∃ a b, cs = a ++ '/' :: b ∧ '/' ∉ b := by
  by_cases hmem : '/' ∈ cs
  · obtain ⟨b, a, hsplit, hb⟩ := List.eq_append_cons_of_mem (List.mem_reverse.2 hmem)
    refine .inr ⟨a.reverse, b.reverse, ?_, by rwa [List.mem_reverse]⟩
    rw [← List.reverse_reverse cs, hsplit]
    simp
  · exact .inl hmem

/-- The last piece of a bare spelling leads somewhere. -/
theorem getLast?_pieces_of_bare {p : Path} (h : Bare p) (hmoves : p.moves ≠ []) : p.pieces.getLast? ≠ some "." := by
  have hdot : ∀ {s : List Char}, String.ofList s = "." → s = ['.'] := fun {s} hs => by
    rw [← String.toList_ofList (l := s), hs]
    rfl
  unfold moves at hmoves
  unfold pieces at hmoves ⊢
  intro hlast
  rcases exists_last_segment p.text.toList with hplain | ⟨a, b, htext, hb⟩
  · -- a single piece
    rw [segments_plain hplain] at hmoves hlast
    by_cases hnil : p.text.toList = []
    · simp [hnil] at hlast
    · rw [List.filter_cons_of_pos (by simpa using hnil)] at hmoves hlast
      simp only [List.filter_nil, List.map_cons, List.map_nil, List.getLast?_singleton, Option.some.injEq] at hlast
      simp [hlast] at hmoves
  · rw [htext, segments_append, segments_plain hb] at hlast
    have hne : b ≠ [] := by
      rintro rfl
      exact h.1 ⟨a, htext.symm⟩
    rw [List.filter_append, List.filter_cons_of_pos (by simpa using hne), List.map_append] at hlast
    simp only [List.filter_nil, List.map_cons, List.map_nil, List.getLast?_concat, Option.some.injEq] at hlast
    refine h.2 ⟨a, ?_⟩
    rw [htext, hdot hlast]

/-- A bare spelling does not ask for a directory at its end. -/
theorem tidy_of_bare {p : Path} (h : Bare p) (hmoves : p.moves ≠ []) : Disk.tidy p.steps = p.moves := by
  have hslash : p.text.toList.getLast? ≠ some '/' := by
    intro hlast
    obtain ⟨t, ht⟩ := List.getLast?_eq_some_iff.1 hlast
    exact h.1 ⟨t, ht.symm⟩
  refine Disk.tidy_steps ?_
  rw [steps_eq, if_neg hslash]
  exact getLast?_pieces_of_bare h hmoves

/-- Manifests that say the same and were read from spellings of one path. -/
def Alike (m m' : Manifest) : Prop := m.facts = m'.facts ∧ m.path.same m'.path = true

section
variable {d : Disk} {p q : Path}

theorem moves_ne_nil_of_fileName {n : String} (h : p.fileName = some n) : p.moves ≠ [] :=
  List.ne_nil_of_mem (List.mem_of_getLast? (fileName_eq_some.1 h).1)

theorem manifestPath_of_same (h : p.same q = true) : (manifestPath p).same (manifestPath q) = true := by
  have hname := fileName_of_same h
  unfold manifestPath
  by_cases hn : p.fileName = some manifestName
  · rwa [if_pos hn, if_pos (hname ▸ hn)]
  · have hextend : ∀ x : Path, x / manifestName = x.extend [manifestName] := fun _ => rfl
    have hpiece : ∀ n ∈ [manifestName], IsPiece n := List.forall_mem_singleton.2 isPiece_manifestName
    rw [if_neg hn, if_neg (hname ▸ hn), same_iff, hextend, hextend, components_extend p hpiece,
      components_extend q hpiece, same_iff.1 h]

theorem find_manifestPath_of_bare (hp : Bare p) (hq : Bare q) (h : p.same q = true) :
    d.find (manifestPath p) = d.find (manifestPath q) := by
  by_cases hn : p.fileName = some manifestName
  · have hn' : q.fileName = some manifestName := fileName_of_same h ▸ hn
    unfold manifestPath Disk.find
    rw [if_pos hn, if_pos hn', d.locate_of_same h (tidy_of_bare hp (moves_ne_nil_of_fileName hn))
      (tidy_of_bare hq (moves_ne_nil_of_fileName hn'))]
  · exact find_manifestPath d h hn

theorem path_of_readAt {m : Manifest} (h : readAt d p = .ok (some m)) : m.path = manifestPath p := by
  dsimp only [readAt] at h
  split at h
  · split at h
    · unfold Manifest.parse at h
      split at h <;> cases h
      rfl
    · cases h
  · cases h

/-- Bare spellings of one location have one manifest. -/
theorem alike_of_read (hp : Bare p) (hq : Bare q) (h : p.same q = true) {m : Option Manifest} (hm : readAt d p = .ok m) :
    ∃ m', readAt d q = .ok m' ∧ Option.Rel Alike m m' := by
  obtain ⟨m', hm', hfacts⟩ := readAt_of_find d (find_manifestPath_of_bare hp hq h) hm
  refine ⟨m', hm', ?_⟩
  rcases m with _ | m <;> rcases m' with _ | m'
  · exact .none
  · cases hfacts
  · cases hfacts
  · refine .some ⟨Option.some.inj hfacts, ?_⟩
    rw [path_of_readAt hm, path_of_readAt hm']
    exact manifestPath_of_same h

end

/-- Alike manifests are told alike. -/
theorem matches_told (r : Request) {m m' : Option Manifest} (h : Option.Rel Alike m m') :
    Matches (Option.Rel Alike) (r.told m) (r.told m') := by
  cases h with
  | some h =>
    rw [r.told_some, r.told_some]
    exact .ok (.some h)
  | none =>
    rw [r.told_none]
    split
    · exact .error _
    · exact .ok .none

theorem matches_bind_told (r : Request) (read : Except Error (Option Manifest)) :
    Matches (Option.Rel Alike) (read.bind r.told) (read.bind r.told) := by
  rcases read with e | _ | m
  · exact .error e
  · exact matches_told r .none
  · exact matches_told r (.some ⟨rfl, same_refl m.path⟩)

/-! ## What requests are told -/

/-- Requests in a row on a disk that may change. Whatever one was told of a location each later one is told, and no later
one changes what is known. A location of which none was told anything is read. A request that fails changes nothing, and its
location is still read by the next one, unless it fails because there has to be a manifest and there is none: that there is
none is kept. If the disk stays as it is each request is told what is on the disk. As many locations are kept as there are
different ones of which a request was told something. -/
theorem requests_kept (rs : List Request) :
    (∀ (r : Request) m, Told rs r.location m →
      r.ask.answer (afterRequests rs) = r.told m ∧ afterRequests (rs ++ [r]) = afterRequests rs) ∧
    (∀ r : Request, (∀ m, ¬ Told rs r.location m) →
      r.ask.answer (afterRequests rs) = (readAt r.disk r.location).bind r.told) ∧
    (∀ (r : Request) e, r.ask.answer (afterRequests rs) = .error e →
      e = .manifestNotFound (manifestPath r.location) ∧ Told (rs ++ [r]) r.location none ∨
      afterRequests (rs ++ [r]) = afterRequests rs ∧ ∀ m, ¬ Told (rs ++ [r]) r.location m) ∧
    (∀ d, (∀ r ∈ rs, r.disk = d ∧ Bare r.location) → ∀ r : Request, r.disk = d → Bare r.location →
      Matches (Option.Rel Alike) (r.ask.answer (afterRequests rs)) ((readAt d r.location).bind r.told)) ∧
    (afterRequests rs).size = Set.ncard {c | ∃ p m, Told rs p m ∧ p.components = c} := by
  have hkept : ∀ (r : Request) m, Told rs r.location m →
      r.ask.answer (afterRequests rs) = r.told m ∧ afterRequests (rs ++ [r]) = afterRequests rs := by
    intro r m htold
    rw [afterRequests_concat]
    exact answer_of_known (lookup?_afterRequests.2 htold)
  have hfresh : ∀ r : Request, (∀ m, ¬ Told rs r.location m) →
      r.ask.answer (afterRequests rs) = (readAt r.disk r.location).bind r.told := fun r hnone =>
    answer_of_unknown (Option.eq_none_iff_forall_ne_some.2 fun m hm => hnone m (lookup?_afterRequests.1 hm))
  refine ⟨hkept, hfresh, fun r e hfails => ?_, fun d hrs r hd hbare => ?_, size_afterRequests rs⟩
  · rw [afterRequests_concat]
    rcases answer_error_cases hfails with ⟨he, htold⟩ | ⟨hl, hafter⟩
    · exact .inl ⟨he, told_concat.2 (.inr ⟨same_refl _, hfails.trans htold⟩)⟩
    · refine .inr ⟨hafter, fun m htold => ?_⟩
      rw [← lookup?_afterRequests, afterRequests_concat, hafter, hl] at htold
      cases htold
  · by_cases hknown : ∃ m, Told rs r.location m
    · obtain ⟨m, htold⟩ := hknown
      obtain ⟨x, hx, hsame, hread⟩ := exists_read_of_told htold
      obtain ⟨hxd, hxbare⟩ := hrs x hx
      obtain ⟨m', hread', halike⟩ := alike_of_read hxbare hbare hsame hread
      rw [(hkept r m htold).1, ← hxd, hread']
      exact matches_told r halike
    · rw [hfresh r (not_exists.1 hknown), hd]
      exact matches_bind_told r _

/-- A directory without a manifest. -/
def bareDisk : Disk where
  entries := [(["e"], .directory)]
  here := []

/-- The directory with a manifest of this text. -/
def diskWith (text : String) : Disk where
  entries := [(["e"], .directory), (["e", "package.json"], .file (.text text))]
  here := []

/-- The directory has to have a manifest and has none. -/
def needed : Request := ⟨bareDisk, ⟨"/e"⟩, true⟩

/-- It has one now. -/
def filled : Request := ⟨diskWith "\x7b\"name\":\"e\"\x7d", ⟨"/e"⟩, false⟩

/-- Its manifest is broken off. -/
def torn : Request := ⟨diskWith "\x7b", ⟨"/e"⟩, false⟩

theorem requests_kept_changed :
    (∃ m, Told [filled] needed.location (some m) ∧ needed.ask.answer (afterRequests [filled]) = .ok (some m)) ∧
    (∃ e, torn.ask.answer (afterRequests []) = .error e ∧ afterRequests [torn] = afterRequests []) ∧
    filled.ask.answer (afterRequests [torn]) = (readAt filled.disk filled.location).bind filled.told ∧
    Matches (Option.Rel Alike) (filled.ask.answer (afterRequests [filled]))
      ((readAt filled.disk filled.location).bind filled.told) ∧
    (afterRequests [filled]).size = Set.ncard {c | ∃ p m, Told [filled] p m ∧ p.components = c} := by
  obtain ⟨m, hm⟩ : ∃ m, (afterRequests [filled]).lookup? needed.location = some (some m) := by
    have h : ((afterRequests [filled]).lookup? needed.location).map Option.isSome = some true := by decide +kernel
    obtain ⟨m, hm, hsome⟩ := Option.map_eq_some_iff.1 h
    obtain ⟨m, rfl⟩ := Option.isSome_iff_exists.1 hsome
    exact ⟨m, hm⟩
  have htold := lookup?_afterRequests.1 hm
  obtain ⟨e, hfails⟩ : ∃ e, torn.ask.answer (afterRequests []) = .error e := by
    have h : (torn.ask.answer (afterRequests [])).toOption.isNone = true := by decide +kernel
    rcases hr : torn.ask.answer (afterRequests []) with e | m
    · exact ⟨e, rfl⟩
    · rw [hr] at h
      cases h
  have hbare : Bare filled.location := ⟨by decide, by decide⟩
  have hunknown : ((afterRequests [torn]).lookup? torn.location).isSome = false := by decide +kernel
  obtain ⟨hkept, -, -, hsteady, hsize⟩ := requests_kept [filled]
  rcases (requests_kept []).2.2.1 torn e hfails with ⟨-, hnone⟩ | ⟨hafter, huntold⟩
  · have hl : (afterRequests [torn]).lookup? torn.location = some none := lookup?_afterRequests.2 hnone
    rw [hl] at hunknown
    cases hunknown
  · refine ⟨⟨m, htold, ?_⟩, ⟨e, hfails, hafter⟩, ?_, ?_, hsize⟩
    · rw [(hkept needed _ htold).1, needed.told_some]
    · exact (requests_kept [torn]).2.1 filled huntold
    · exact hsteady filled.disk (List.forall_mem_singleton.2 ⟨rfl, hbare⟩) filled rfl hbare

/-- That a needed manifest is not there is kept, although the request fails: it is not found when it is there. -/
theorem requests_kept_absent :
    needed.ask.answer (afterRequests []) = .error (.manifestNotFound ⟨"/e/package.json"⟩) ∧
      afterRequests [needed] ≠ afterRequests [] ∧
      filled.ask.answer (afterRequests [needed]) = .ok none ∧
      ∃ m, readAt filled.disk filled.location = .ok (some m) := by
  have hread : readAt needed.disk needed.location = .ok none := by
    unfold readAt
    exact if_neg (by decide +kernel)
  have hneeded : needed.ask.answer (afterRequests []) = needed.told none := by
    rw [answer_of_unknown rfl, hread]
    rfl
  have htold : Told [needed] filled.location none := ⟨[], needed, [], rfl, same_refl _, hneeded⟩
  have hfile : manifestPath needed.location = ⟨"/e/package.json"⟩ := by decide +kernel
  refine ⟨?_, fun h => ?_, ?_, ?_⟩
  · rw [hneeded, needed.told_none, hfile]
    rfl
  · have hsize : ¬ (afterRequests [needed]).size = (afterRequests []).size := by decide +kernel
    exact hsize (congrArg size h)
  · rw [(answer_of_known (lookup?_afterRequests.2 htold)).1, filled.told_none]
    rfl
  · obtain ⟨m, hm, hsome⟩ := exists_ok_of_toOption
      (show (readAt filled.disk filled.location).toOption.map Option.isSome = some true by decide +kernel)
    obtain ⟨m, rfl⟩ := Option.isSome_iff_exists.1 hsome
    exact ⟨m, hm⟩

end Stowage.Manifests
