/-
The reasons of a trace against the log of what was added: every name that was added stands in them once,
with the kind of the first time and with each parent once.
-/
import Stowage.Trace.Result
import Stowage.Proofs.Named

namespace Stowage.Trace

/-- What was added, in order: a name, a kind and the file that the name is needed by. -/
abbrev Log := List (String × ReasonKind × Option String)

namespace Reasons

/-- The reasons with all that a log holds. -/
def addAll (rs : Reasons) (log : Log) : Reasons := log.foldl (fun rs e => rs.add e.1 e.2.1 e.2.2) rs

theorem addAll_append (rs : Reasons) (log log' : Log) :
    rs.addAll (log ++ log') = (rs.addAll log).addAll log' := List.foldl_append ..

/-- A reason after its path was reached once more. -/
def merge (r : Reason) (parent : Option String) : Reason :=
  ⟨r.kind, r.parents ++ parent.toList.filter fun q => !r.parents.contains q⟩

theorem mem_parents_merge {r : Reason} {parent : Option String} {q : String} :
    q ∈ (merge r parent).parents ↔ q ∈ r.parents ∨ parent = some q := by
  unfold merge
  rcases parent with _ | x
  · simp
  · by_cases h : x ∈ r.parents
    · simp only [Option.toList_some, List.filter_cons, List.contains_iff_mem.2 h, Bool.not_true,
        Bool.false_eq_true, if_false, List.filter_nil, List.append_nil, Option.some.injEq]
      exact ⟨.inl, fun hq => hq.elim id fun hx => hx ▸ h⟩
    · have hc : r.parents.contains x = false := by simpa using h
      simp only [Option.toList_some, List.filter_cons, hc, Bool.not_false, if_true,
        List.filter_nil, List.mem_append, List.mem_singleton, Option.some.injEq, eq_comm]

theorem nodup_parents_merge {r : Reason} (h : r.parents.Nodup) (parent : Option String) :
    (merge r parent).parents.Nodup := by
  unfold merge
  refine List.nodup_append.2 ⟨h, ?_, ?_⟩
  · rcases parent with _ | x
    · exact List.nodup_nil
    · exact (List.nodup_singleton x).filter _
  · rintro a ha b hb rfl
    simp only [List.mem_filter, List.contains_iff_mem.2 ha] at hb
    exact absurd hb.2 (by decide)

theorem lookup_add (rs : Reasons) (path : String) (kind : ReasonKind) (parent : Option String)
    (n : String) : (rs.add path kind parent).lookup n =
      if n = path then
        some (((rs.lookup path).map fun r => merge r parent).getD ⟨kind, parent.toList⟩)
      else rs.lookup n := by
  induction rs with
  | nil =>
    by_cases h : n = path
    · subst h; simp [add]
    · rw [add, Named.lookup_cons_of_ne h, if_neg h]
  | cons e rest ih =>
    obtain ⟨p, r⟩ := e
    unfold add
    by_cases hp : p = path
    · subst hp
      rw [if_pos rfl]
      by_cases h : n = p
      · subst h; simp [merge]
      · rw [Named.lookup_cons_of_ne h, Named.lookup_cons_of_ne h, if_neg h]
    · rw [if_neg hp, Named.lookup_cons_of_ne (Ne.symm hp)]
      by_cases h : n = p
      · subst h
        rw [if_neg hp, List.lookup_cons_self, List.lookup_cons_self]
      · rw [Named.lookup_cons_of_ne h, Named.lookup_cons_of_ne h, ih]

theorem keys_add (rs : Reasons) (path : String) (kind : ReasonKind) (parent : Option String) :
    (rs.add path kind parent).map Prod.fst =
      if path ∈ rs.map Prod.fst then rs.map Prod.fst else rs.map Prod.fst ++ [path] := by
  induction rs with
  | nil => simp [add]
  | cons e rest ih =>
    obtain ⟨p, r⟩ := e
    unfold add
    by_cases hp : p = path
    · simp [hp]
    · rw [if_neg hp, List.map_cons, List.map_cons, ih]
      by_cases hm : path ∈ rest.map Prod.fst
      · rw [if_pos hm, if_pos (List.mem_cons_of_mem _ hm)]
      · rw [if_neg hm, if_neg (List.not_mem_cons_of_ne_of_not_mem (Ne.symm hp) hm)]
        rfl

/-- The reasons are those of a log. -/
structure OfLog (rs : Reasons) (log : Log) : Prop where
  nodup : (rs.map Prod.fst).Nodup
  absent : ∀ n, rs.lookup n = none ↔ ∀ e ∈ log, e.1 ≠ n
  /-- The kind is the one of the first time. -/
  kind : ∀ {n r}, rs.lookup n = some r →
    ∃ before q after, log = before ++ (n, r.kind, q) :: after ∧ ∀ e ∈ before, e.1 ≠ n
  parents : ∀ {n r}, rs.lookup n = some r →
    r.parents.Nodup ∧ ∀ q, q ∈ r.parents ↔ ∃ k, (n, k, some q) ∈ log

theorem ofLog_nil : OfLog [] [] :=
  ⟨List.nodup_nil, fun _ => by simp, fun h => (nomatch h), fun h => (nomatch h)⟩

theorem OfLog.add {rs : Reasons} {log : Log} (h : OfLog rs log) (path : String) (kind : ReasonKind)
    (parent : Option String) : OfLog (rs.add path kind parent) (log ++ [(path, kind, parent)]) := by
  refine ⟨?_, fun n => ?_, fun {n r} hn => ?_, fun {n r} hn => ?_⟩
  · rw [keys_add]
    split
    · exact h.nodup
    · rename_i hp
      refine List.nodup_append.2 ⟨h.nodup, List.nodup_singleton _, fun a ha b hb hab => ?_⟩
      rw [List.mem_singleton] at hb
      exact hp (hb ▸ hab ▸ ha)
  · rw [lookup_add]
    by_cases hp : n = path
    · rw [if_pos hp]
      exact ⟨fun hc => (nomatch hc), fun hall => absurd hp.symm (hall (path, kind, parent) (by simp))⟩
    · rw [if_neg hp, h.absent n]
      simp [Ne.symm hp, or_imp, forall_and]
  · rw [lookup_add] at hn
    have later : ∀ {r₀ : Reason}, rs.lookup n = some r₀ → ∃ before q after,
        log ++ [(path, kind, parent)] = before ++ (n, r₀.kind, q) :: after ∧
          ∀ e ∈ before, e.1 ≠ n := by
      intro r₀ hl
      obtain ⟨before, q, after, hlog, hb⟩ := h.kind hl
      exact ⟨before, q, after ++ [(path, kind, parent)], by rw [hlog]; simp, hb⟩
    split at hn
    · rename_i hp
      subst hp
      rcases hl : rs.lookup n with _ | r₀
      · rw [hl] at hn
        cases hn
        exact ⟨log, parent, [], rfl, (h.absent n).1 hl⟩
      · rw [hl] at hn
        cases hn
        obtain ⟨before, q, after, hlog, hb⟩ := later hl
        exact ⟨before, q, after, hlog, hb⟩
    · exact later hn
  · rw [lookup_add] at hn
    simp only [List.mem_append, List.mem_singleton, Prod.mk.injEq]
    split at hn
    · rename_i hp
      subst hp
      rcases hl : rs.lookup n with _ | r₀
      · rw [hl] at hn
        cases hn
        have hno : ∀ k q, (n, k, q) ∉ log := fun k q hm => (h.absent n).1 hl _ hm rfl
        rcases parent with _ | x <;> simp [hno, eq_comm]
      · obtain ⟨hnd, hpar⟩ := h.parents hl
        rw [hl] at hn
        cases hn
        refine ⟨nodup_parents_merge hnd parent, fun q => ?_⟩
        show q ∈ (merge r₀ parent).parents ↔ _
        rw [mem_parents_merge, hpar]
        constructor
        · rintro (⟨k, hk⟩ | rfl)
          · exact ⟨k, .inl hk⟩
          · exact ⟨kind, .inr ⟨rfl, rfl, rfl⟩⟩
        · rintro ⟨k, hk | ⟨-, -, hq⟩⟩
          · exact .inl ⟨k, hk⟩
          · exact .inr hq.symm
    · rename_i hp
      obtain ⟨hnd, hpar⟩ := h.parents hn
      exact ⟨hnd, fun q => by simp [hpar, hp]⟩

theorem ofLog_addAll (log : Log) : OfLog (addAll [] log) log := by
  induction log using List.reverseRecOn with
  | nil => exact ofLog_nil
  | append_singleton log e ih =>
    rw [addAll_append]
    exact ih.add e.1 e.2.1 e.2.2

theorem OfLog.mem_keys {rs : Reasons} {log : Log} (h : OfLog rs log) {n : String} :
    n ∈ rs.map Prod.fst ↔ ∃ k q, (n, k, q) ∈ log := by
  have hl : n ∈ rs.map Prod.fst ↔ rs.lookup n ≠ none := by
    rw [ne_eq, List.lookup_eq_none_iff, List.mem_map]
    push Not
    refine exists_congr fun e => and_congr_right fun _ => ?_
    rw [ne_eq, bne_iff_ne, not_not]
    exact eq_comm
  rw [hl, ne_eq, h.absent]
  constructor
  · intro hn
    by_contra hno
    exact hn fun e he hen => hno ⟨e.2.1, e.2.2, hen ▸ he⟩
  · rintro ⟨k, q, hm⟩ hall
    exact hall _ hm rfl

end Reasons
end Stowage.Trace
