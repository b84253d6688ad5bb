/-
Specifiers are split into the name of a package and the path inside it without loss: put together again they are the
specifier. The name has as many separators as it may have, none without a scope and one with it, and the specifier is cut
between characters, where the bytes of its parts say.
-/
import Stowage.Proofs.Package.Patterns
import Stowage.Proofs.Package.Straight

open Stowage.Path

namespace Stowage.Specifier

open Exports (IsSlice isSlice_append)

/-! ## Separators -/

/-- The number of separators that the name of a package may have: one after a scope. -/
def mostSlashes (s : List Char) : Nat := if s.head? = some '@' then 1 else 0

section
variable {a s : List Char} {parts : List Char × Option (List Char)}

theorem mostSlashes_scope (h : a.head? = some '@') : mostSlashes a = 1 := if_pos h

theorem mostSlashes_bare (h : a.head? ≠ some '@') : mostSlashes a = 0 := if_neg h

theorem mostSlashes_append (a t : List Char) : mostSlashes (a ++ '/' :: t) = mostSlashes a := by
  rcases a with _ | ⟨c, a⟩ <;> rfl

theorem count_slash_append (ha : '/' ∉ a) (t : List Char) : (a ++ '/' :: t).count '/' = t.count '/' + 1 := by
  rw [List.count_append, List.count_eq_zero.2 ha, List.count_cons_self, Nat.zero_add]

theorem Splits.rejoins (h : Splits s parts) : s = parts.1 ++ (parts.2.map ('/' :: ·)).getD [] := by
  cases h <;> simp

/-- The name takes in as many separators as it may have. -/
theorem Splits.count_slash (h : Splits s parts) : parts.1.count '/' = min (s.count '/') (mostSlashes s) := by
  cases h with
  | name hat ha | scope hat ha => rw [List.count_eq_zero.2 ha, Nat.zero_min]
  | below hat ha t => rw [mostSlashes_append, mostSlashes_bare hat, Nat.min_zero, List.count_eq_zero.2 ha]
  | scopedName hat ha hb =>
    rw [mostSlashes_append, mostSlashes_scope hat, count_slash_append ha, List.count_eq_zero.2 hb]
    rfl
  | scopedBelow hat ha hb t =>
    rw [mostSlashes_append, mostSlashes_scope hat, count_slash_append ha, count_slash_append ha, count_slash_append hb,
      List.count_eq_zero.2 hb]
    omega

/-- Nothing is below the package exactly if there are no more separators than its name may have. -/
theorem Splits.snd_eq_none (h : Splits s parts) : parts.2 = none ↔ s.count '/' ≤ mostSlashes s := by
  cases h with
  | name hat ha | scope hat ha =>
    rw [List.count_eq_zero.2 ha]
    exact iff_of_true rfl (Nat.zero_le _)
  | below hat ha t =>
    rw [mostSlashes_append, mostSlashes_bare hat, count_slash_append ha]
    exact iff_of_false (Option.some_ne_none t) (by omega)
  | scopedName hat ha hb =>
    rw [mostSlashes_append, mostSlashes_scope hat, count_slash_append ha, List.count_eq_zero.2 hb]
    exact iff_of_true rfl (Nat.le_refl 1)
  | scopedBelow hat ha hb t =>
    rw [mostSlashes_append, mostSlashes_scope hat, count_slash_append ha, count_slash_append hb]
    exact iff_of_false (Option.some_ne_none t) (by omega)

end

/-! ## Bytes -/

/-- The number of bytes of some characters. -/
def bytes (cs : List Char) : Nat := (String.ofList cs).utf8ByteSize

theorem bytes_append_slash (a b : List Char) : bytes (a ++ '/' :: b) = bytes a + 1 + bytes b := by
  have hone : (String.ofList ['/']).utf8ByteSize = 1 := by decide
  unfold bytes
  rw [← List.singleton_append, String.ofList_append, String.ofList_append, String.utf8ByteSize_append,
    String.utf8ByteSize_append, hone, Nat.add_assoc]

/-- Where the name of a package ends, in bytes, told by the parts between the separators of a specifier: after the first
part, and after the second one where the first one is a scope. A scope alone has no end. -/
def nameEnd : List (List Char) → Option Nat
  | [] => none
  | a :: rest =>
    if a.head? = some '@' then rest.head?.map fun b => bytes a + 1 + bytes b
    else some (bytes a)

theorem Splits.nameEnd_segments {s : List Char} {parts : List Char × Option (List Char)} (h : Splits s parts) :
    nameEnd (segments s) = if parts.2 = none ∧ '/' ∉ s ∧ s.head? = some '@' then none else some (bytes parts.1) := by
  cases h with
  | name hat ha => simp [segments_plain ha, nameEnd, hat]
  | below hat ha t => simp [segments_append, segments_plain ha, nameEnd, hat]
  | scope hat ha => simp [segments_plain ha, nameEnd, hat, ha]
  | scopedName hat ha hb =>
    simp [segments_append, segments_plain ha, segments_plain hb, nameEnd, hat, bytes_append_slash]
  | scopedBelow hat ha hb t =>
    simp [segments_append, segments_plain ha, segments_plain hb, nameEnd, hat, bytes_append_slash]

/-- All that is done with the bytes of a specifier. It is the name itself if no end of the name comes before its own end.
Otherwise the name is cut out up to its end, and what is below the package after the separator there. -/
structure CutsWhole (s name : String) (sub : Option String) : Prop where
  uncut : sub = none ↔ ∀ stop, nameEnd (segments s.toList) = some stop → s.utf8ByteSize ≤ stop
  stop : ∀ t, sub = some t → nameEnd (segments s.toList) = some name.utf8ByteSize
  head : ∀ t, sub = some t → IsSlice s 0 name.utf8ByteSize name
  tail : ∀ t, sub = some t → IsSlice s (name.utf8ByteSize + 1) s.utf8ByteSize t

section
variable {s t : String}

theorem toList_fst_split (s : String) : (split s).1.toList = (splitChars s.toList).1 := String.toList_ofList

theorem snd_split_eq_none : (split s).2 = none ↔ (splitChars s.toList).2 = none := Option.map_eq_none_iff

theorem fst_split_of_none (h : (split s).2 = none) : (split s).1 = s := by
  have hrejoins := (splits_splitChars s.toList).rejoins
  rw [snd_split_eq_none.1 h] at hrejoins
  rw [← String.toList_inj, toList_fst_split]
  exact (hrejoins.trans (List.append_nil _)).symm

theorem rejoin_split (h : (split s).2 = some t) : s = (split s).1 ++ "/" ++ t := by
  obtain ⟨cs, (hcs : (splitChars s.toList).2 = some cs), rfl⟩ := Option.map_eq_some_iff.1 h
  have hrejoins := (splits_splitChars s.toList).rejoins
  rw [hcs] at hrejoins
  have hsub : (String.ofList cs).toList = cs := String.toList_ofList
  rw [← String.toList_inj, String.toList_append, String.toList_append, toList_fst_split, hsub, List.append_assoc]
  exact hrejoins

theorem utf8ByteSize_slash : "/".utf8ByteSize = 1 := by decide

theorem utf8ByteSize_split (h : (split s).2 = some t) :
    s.utf8ByteSize = (split s).1.utf8ByteSize + 1 + t.utf8ByteSize := by
  conv_lhs => rw [rejoin_split h]
  rw [String.utf8ByteSize_append, String.utf8ByteSize_append, utf8ByteSize_slash]

theorem nameEnd_split (h : (split s).2 = some t) :
    nameEnd (segments s.toList) = some (split s).1.utf8ByteSize := by
  have hsome : (splitChars s.toList).2 ≠ none := fun hnone => by
    rw [snd_split_eq_none.2 hnone] at h
    cases h
  rw [(splits_splitChars s.toList).nameEnd_segments, if_neg fun h => hsome h.1]
  rfl

theorem cutsWhole (s : String) : CutsWhole s (split s).1 (split s).2 where
  uncut := by
    constructor
    · intro hnone stop hstop
      rw [(splits_splitChars s.toList).nameEnd_segments] at hstop
      have hname : bytes (splitChars s.toList).1 = s.utf8ByteSize :=
        congrArg String.utf8ByteSize (fst_split_of_none hnone)
      split at hstop
      · cases hstop
      · rw [← Option.some.inj hstop, hname]
    · intro hstops
      -- a specifier with a path inside the package is longer than its name
      rcases hsub : (split s).2 with _ | t
      · rfl
      · have hle := hstops _ (nameEnd_split hsub)
        have hsize := utf8ByteSize_split hsub
        omega
  stop _ h := nameEnd_split h
  head t h := by
    have hslice := isSlice_append "" (split s).1 ("/" ++ t)
    simpa [← String.append_assoc, ← rejoin_split h] using hslice
  tail t h := by
    have hslice := isSlice_append ((split s).1 ++ "/") t ""
    rw [utf8ByteSize_split h]
    simpa [← rejoin_split h, utf8ByteSize_slash] using hslice

end

/-! ## The last part of a name -/

theorem basename_last (name : String) : '/' ∉ (basename name).toList ∧
    ∃ before, name = before ++ basename name ∧ (before = "" ∨ before.toList.getLast? = some '/') := by
  have hsplit := List.takeWhile_append_dropWhile (p := (· ≠ '/')) (l := name.toList.reverse)
  unfold basename
  refine ⟨fun h => ?_, String.ofList (name.toList.reverse.dropWhile (· ≠ '/')).reverse, ?_, ?_⟩
  · rw [String.toList_ofList, List.mem_reverse] at h
    simpa using List.mem_takeWhile_imp h
  · rw [← String.ofList_append, ← List.reverse_append, hsplit, List.reverse_reverse, String.ofList_toList]
  · rcases hdrop : name.toList.reverse.dropWhile (· ≠ '/') with _ | ⟨c, r⟩
    · exact .inl rfl
    · have hc := List.head?_dropWhile_not (fun x => decide (x ≠ '/')) name.toList.reverse
      rw [hdrop] at hc
      exact .inr (by simpa using hc)

/-! ## Splitting -/

/-- Without a path inside the package the specifier is the name, and with one it is the name, a separator and that path. The
name has no separator, but for one after a scope, and nothing is inside the package exactly if the specifier has no more of
them. The last part of a name is what follows its last separator. The specifier is cut between characters. -/
theorem split_lossless (s : String) :
    ((split s).2 = none → (split s).1 = s) ∧
    (∀ sub, (split s).2 = some sub → s = (split s).1 ++ "/" ++ sub) ∧
    (split s).1.toList.count '/' = min (s.toList.count '/') (if s.toList.head? = some '@' then 1 else 0) ∧
    ((split s).2 = none ↔ s.toList.count '/' < if s.toList.head? = some '@' then 2 else 1) ∧
    (∀ name, '/' ∉ (basename name).toList ∧
      ∃ before, name = before ++ basename name ∧ (before = "" ∨ before.toList.getLast? = some '/')) ∧
    CutsWhole s (split s).1 (split s).2 := by
  have hsplits := splits_splitChars s.toList
  refine ⟨fst_split_of_none, fun _ => rejoin_split, ?_, ?_, basename_last, cutsWhole s⟩
  · rw [toList_fst_split]
    exact hsplits.count_slash
  · rw [snd_split_eq_none, hsplits.snd_eq_none, mostSlashes]
    split <;> omega

example : split "@é/ü/x" = ("@é/ü", some "x") ∧ split "@é//" = ("@é/", some "") ∧ split "é/" = ("é", some "") ∧
    split "@é/" = ("@é/", none) ∧ basename "@é/ü" = "ü" := by decide +kernel

end Stowage.Specifier
