/-
The members of objects. A name that is put again takes the new value, so of several values the last one counts and no
name is there twice, however an object is read.
-/
import Stowage.Json.Reader
import Stowage.Proofs.Named

namespace Stowage.Json

variable {α σ : Type} {k n : String}

/-! ## Putting members -/

theorem lookup_put (k : String) (x : α) (ms : List (String × α)) (n : String) :
    (put k x ms).lookup n = if n = k then some x else ms.lookup n := by
  induction ms with
  | nil => rw [put, Named.lookup_cons]
  | cons m rest ih =>
    obtain ⟨p, y⟩ := m
    rw [put]
    by_cases hp : p = k
    · subst hp
      rw [if_pos rfl, Named.lookup_cons, Named.lookup_cons]
      split <;> rfl
    · rw [if_neg hp, Named.lookup_cons, Named.lookup_cons, ih]
      by_cases hn : n = p
      · rw [if_pos hn, if_neg (hn ▸ hp), if_pos hn]
      · rw [if_neg hn, if_neg hn]

theorem keys_put (k : String) (x : α) (ms : List (String × α)) : (put k x ms).map Prod.fst =
    if k ∈ ms.map Prod.fst then ms.map Prod.fst else ms.map Prod.fst ++ [k] := by
  induction ms with
  | nil => rfl
  | cons m rest ih =>
    obtain ⟨p, y⟩ := m
    rw [put]
    by_cases hp : p = k
    · simp [hp]
    · rw [if_neg hp, List.map_cons, List.map_cons, ih]
      simp only [List.mem_cons, Ne.symm hp, false_or]
      split <;> rfl

theorem put_of_notMem {x : α} {ms : List (String × α)} (h : k ∉ ms.map Prod.fst) :
    put k x ms = ms ++ [(k, x)] := by
  induction ms with
  | nil => rfl
  | cons m rest ih =>
    obtain ⟨p, y⟩ := m
    rw [List.map_cons, List.mem_cons, not_or] at h
    rw [put, if_neg (Ne.symm h.1), ih h.2]
    rfl

theorem mem_put {x : α} {ms : List (String × α)} {m : String × α} (h : m ∈ put k x ms) : m = (k, x) ∨ m ∈ ms := by
  induction ms with
  | nil => exact .inl (List.mem_singleton.1 h)
  | cons p rest ih =>
    rw [put] at h
    split at h
    · rename_i hp
      rcases List.mem_cons.1 h with rfl | h
      · exact .inl (hp ▸ rfl)
      · exact .inr (List.mem_cons_of_mem _ h)
    · rcases List.mem_cons.1 h with rfl | h
      · exact .inr (List.mem_cons_self ..)
      · exact (ih h).imp_right (List.mem_cons_of_mem _)

theorem nodup_put {x : α} {ms : List (String × α)} (h : (ms.map Prod.fst).Nodup) :
    ((put k x ms).map Prod.fst).Nodup := by
  rw [keys_put]
  split
  · exact h
  · rename_i hk
    exact List.nodup_append.2 ⟨h, List.nodup_singleton k, fun a ha b hb hab =>
      hk (List.mem_singleton.1 hb ▸ hab ▸ ha)⟩

/-- Members on top of others. -/
def putAll (earlier later : List (String × α)) : List (String × α) :=
  later.foldl (fun acc m => put m.1 m.2 acc) earlier

/-- Of several values of a name the last one counts. -/
theorem lookup_putAll (earlier later : List (String × α)) (n : String) :
    (putAll earlier later).lookup n = (later.reverse.lookup n).or (earlier.lookup n) := by
  induction later generalizing earlier with
  | nil => rfl
  | cons m rest ih =>
    show (putAll (put m.1 m.2 earlier) rest).lookup n = _
    rw [ih, lookup_put, List.reverse_cons, List.lookup_append, Named.lookup_cons]
    rcases rest.reverse.lookup n with _ | y
    · by_cases hn : n = m.1
      · simp [hn]
      · simp [hn]
    · rfl

theorem mem_putAll {earlier later : List (String × α)} {m : String × α} (h : m ∈ putAll earlier later) :
    m ∈ earlier ∨ m ∈ later := by
  induction later generalizing earlier with
  | nil => exact .inl h
  | cons p rest ih =>
    rcases ih h with hm | hm
    · exact (mem_put hm).elim (fun heq => .inr (heq ▸ List.mem_cons_self ..)) .inl
    · exact .inr (List.mem_cons_of_mem _ hm)

theorem nodup_putAll {earlier : List (String × α)} (h : (earlier.map Prod.fst).Nodup)
    (later : List (String × α)) : ((putAll earlier later).map Prod.fst).Nodup := by
  induction later generalizing earlier with
  | nil => exact h
  | cons m rest ih => exact ih (nodup_put h)

theorem putAll_of_nodup {earlier later : List (String × α)}
    (h : ((earlier ++ later).map Prod.fst).Nodup) : putAll earlier later = earlier ++ later := by
  induction later generalizing earlier with
  | nil => exact (List.append_nil _).symm
  | cons m rest ih =>
    have hm : m.1 ∉ earlier.map Prod.fst := by
      rw [List.map_append, List.map_cons] at h
      exact fun hin => (List.nodup_append.1 h).2.2 _ hin _ (List.mem_cons_self ..) rfl
    show putAll (put m.1 m.2 earlier) rest = _
    rw [put_of_notMem hm, ih (by rwa [List.append_assoc]), List.append_assoc]
    rfl

theorem merge_of_nodup {ms : List (String × α)} (h : (ms.map Prod.fst).Nodup) : merge ms = ms :=
  putAll_of_nodup h

/-! ## Reading members -/

/-- A result has the property if there is one. -/
def Allows (P : α → Prop) (r : Except Fault α) : Prop := ∀ x, r = .ok x → P x

section
variable {P : α → Prop} {β : Type} {Q : β → Prop}

theorem allows_ok {x : α} (h : P x) : Allows P (.ok x) := by
  intro y hy
  cases hy
  exact h

theorem allows_error (f : Fault) : Allows P (.error f) := fun _ h => nomatch h

theorem allows_bind {r : Except Fault α} {k : α → Except Fault β} (hr : Allows P r)
    (hk : ∀ x, P x → Allows Q (k x)) : Allows Q (r >>= k) := by
  rcases r with f | x
  · exact allows_error f
  · exact hk x (hr x rfl)

theorem allows_bind' {r : Except Fault α} {k : α → Except Fault β} (hk : ∀ x, Allows Q (k x)) :
    Allows Q (r >>= k) :=
  allows_bind (P := fun _ => True) (fun _ _ => trivial) fun x _ => hk x

end

/-- What the reader gives has the property. -/
def Yields (P : α → Prop) (r : Reader α) : Prop := ∀ cs, Allows (fun x => P x.1) (r cs)

section
variable {P : σ → Prop} {s : σ}

theorem yields_members (quote : Reader String) {member : σ → String → Reader σ}
    (hmember : ∀ s name, P s → Yields P (member s name)) (fuel : Nat) (isFirst : Bool) (hs : P s) :
    Yields P (members quote member fuel isFirst s) := by
  induction fuel generalizing isFirst s with
  | zero => exact fun _ => allows_error _
  | succ fuel ih =>
    intro cs
    unfold members
    extract_lets one
    have hone : ∀ cs, Allows (fun x => P x.1) (one cs) := by
      intro cs
      unfold one
      split
      · exact allows_error _
      · exact allows_bind' fun _ => allows_bind (hmember s _ hs _) fun x hx => ih false hx _
      · exact allows_error _
    split
    · exact allows_error _
    · exact allows_ok hs
    · split
      · exact hone _
      · split
        · exact hone _
        · exact allows_error _

theorem yields_recordItems {fields : List (FieldReader σ)}
    (hfields : ∀ f ∈ fields, ∀ s, P s → Yields P (f.read s)) (isFirst : Bool) (hs : P s) :
    Yields P (recordItems fields isFirst s) := by
  induction fields generalizing isFirst s with
  | nil =>
    intro cs
    unfold recordItems
    split
    · exact allows_error _
    · exact allows_ok hs
    · exact allows_error _
  | cons f fields ih =>
    rw [List.forall_mem_cons] at hfields
    intro cs
    unfold recordItems
    extract_lets one
    have hone : ∀ cs, Allows (fun x => P x.1) (one cs) := fun cs =>
      allows_bind (hfields.1 s hs cs) fun x hx => ih hfields.2 false hx _
    split
    · exact allows_error _
    · split
      · exact ih hfields.2 isFirst hs _
      · exact allows_error _
    · split
      · exact hone _
      · split
        · exact allows_error _
        · split
          · exact allows_error _
          · exact allows_error _
          · exact hone _

/-- What every field keeps holds of a record. -/
theorem yields_record {fields : List (FieldReader σ)}
    (hfields : ∀ f ∈ fields, ∀ s, P s → Yields P (f.read s)) (hs : P s) : Yields P (record fields s) := by
  intro cs
  unfold record
  split
  · refine allows_bind (P := fun x => P x.1.1) ?_ fun x hx => allows_ok hx
    refine yields_members quoted (P := fun t : σ × List String => P t.1) (fun t name ht cs => ?_) _ _ hs _
    dsimp only
    split
    · exact allows_bind' fun _ => allows_bind' fun _ => allows_ok ht
    · rename_i f hf
      split
      · exact allows_error _
      · exact allows_bind' fun _ =>
          allows_bind (hfields f (List.mem_of_find?_eq_some hf) t.1 ht _) fun x hx => allows_ok hx
  · exact yields_recordItems hfields true hs _
  · exact allows_error _

end

theorem yields_asOption {P : α → Prop} {inner : Reader α} (h : Yields P inner) :
    Yields (fun o => ∀ x, o = some x → P x) (asOption inner) := by
  intro cs
  unfold asOption
  split
  · exact allows_bind' fun _ => allows_ok nofun
  · exact allows_bind (h _) fun x hx => allows_ok fun y hy => Option.some.inj hy ▸ hx

/-- An object holds each name once. -/
theorem yields_asMap (item : Reader α) :
    Yields (fun ms : List (String × α) => (ms.map Prod.fst).Nodup) (asMap item) := by
  intro cs
  unfold asMap
  split
  · refine yields_members quoted (s := []) (P := fun ms : List (String × α) => (ms.map Prod.fst).Nodup)
      (fun ms name hms cs => ?_) _ _ List.nodup_nil _
    exact allows_bind' fun _ => allows_bind' fun _ => allows_ok (nodup_put hms)
  · exact allows_error _

theorem allows_parse {P : α → Prop} {reader : Reader α} (h : Yields P reader) (text : String) :
    Allows P (parse reader text) := by
  refine allows_bind (h text.toList) fun x hx => ?_
  dsimp only
  split
  · exact allows_ok hx
  · exact allows_error _

end Stowage.Json
