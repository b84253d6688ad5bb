/-
Where sources are compiled to: at their place below the root, with the extension of the output if they are
scripts. Two sources have one output exactly if they are scripts in one directory that differ in nothing but the
extension.
-/
import Stowage.Compile.Compiler
import Stowage.Proofs.Disk.WellNamed
import Stowage.Proofs.Path.Extension

open Stowage.Path

namespace Stowage.Compile

/-- Scripts in one directory with one stem. -/
structure Twins (p q : Path) : Prop where
  left : isScript p = true
  right : isScript q = true
  directory : p.parent? = q.parent?
  stem : p.fileStem = q.fileStem

variable {root workDir source output : Path} {format : SourceType}

/-! ## Names of outputs -/

/-- The name that a source is compiled to. -/
def outputName (format : SourceType) (n : String) : String :=
  if (splitExtension n).2.any scriptExtensions.contains then
    extended (splitExtension n).1 format.extension
  else n

theorem extension_ok (format : SourceType) : format.extension.toList ≠ [] ∧
    '/' ∉ format.extension.toList ∧ '.' ∉ format.extension.toList ∧
    scriptExtensions.contains format.extension = true := by
  cases format <;> decide

/-- The parts of the name of a script. -/
theorem script_parts {n : String} (h : (splitExtension n).2.any scriptExtensions.contains = true) :
    ∃ stem ext, splitExtension n = (stem, some ext) ∧ n = extended stem ext ∧ stem.toList ≠ [] := by
  obtain ⟨ext, hext, -⟩ := (Option.any_eq_true _ _).1 h
  have hsplit : splitExtension n = ((splitExtension n).1, some ext) := by rw [← hext]
  obtain ⟨hn, hstem, -⟩ := eq_extended_of_split hsplit
  exact ⟨_, ext, hsplit, hn, hstem⟩

theorem isName_outputName (format : SourceType) {n : String} (hn : IsName n) :
    IsName (outputName format n) := by
  obtain ⟨hne, hslash, hdot, -⟩ := extension_ok format
  unfold outputName
  split
  · exact isName_extended (notMem_stem hn.no_slash) hne hslash hdot
  · exact hn

/-- The names of an output are names. -/
theorem isName_output {work : Location} {ns : List String} {n : String} (hwork : ∀ m ∈ work, IsName m)
    (hns : ∀ m ∈ ns, IsName m) (hn : IsName n) :
    ∀ m ∈ work ++ ns ++ [outputName format n], IsName m := by
  intro m hm
  simp only [List.mem_append, List.mem_singleton] at hm
  rcases hm with (hm | hm) | rfl
  · exact hwork m hm
  · exact hns m hm
  · exact isName_outputName format hn

/-- An output is called like a script exactly if its source is. -/
theorem isScript_outputName (format : SourceType) (n : String) :
    (splitExtension (outputName format n)).2.any scriptExtensions.contains =
      (splitExtension n).2.any scriptExtensions.contains := by
  obtain ⟨-, -, hdot, hscript⟩ := extension_ok format
  unfold outputName
  split
  · rename_i h
    obtain ⟨stem, ext, hsplit, -, hstem⟩ := script_parts h
    rw [h, hsplit, split_extended hstem hdot]
    exact hscript
  · rfl

theorem outputName_eq_iff {m n : String} : outputName format m = outputName format n ↔
    m = n ∨ (splitExtension m).2.any scriptExtensions.contains = true ∧
      (splitExtension n).2.any scriptExtensions.contains = true ∧
      (splitExtension m).1 = (splitExtension n).1 := by
  constructor
  · intro h
    have hscript := congrArg (fun x => (splitExtension x).2.any scriptExtensions.contains) h
    simp only [isScript_outputName] at hscript
    unfold outputName at h
    by_cases hm : (splitExtension m).2.any scriptExtensions.contains = true
    · rw [if_pos hm, if_pos (hscript ▸ hm)] at h
      exact .inr ⟨hm, hscript ▸ hm, extended_injective _ h⟩
    · rw [if_neg hm, if_neg (hscript ▸ hm)] at h
      exact .inl h
  · rintro (rfl | ⟨hm, hn, hstem⟩)
    · rfl
    · unfold outputName
      rw [if_pos hm, if_pos hn, hstem]

/-! ## Paths of outputs -/

theorem compiledPath_ok : compiledPath root workDir source format = .ok output ↔
    ∃ rest, source.stripPrefix? root = some rest ∧ output =
      if isScript source then (workDir / rest.slashText).withExtension format.extension
      else workDir / rest.slashText := by
  unfold compiledPath
  rcases source.stripPrefix? root with _ | rest
  · exact ⟨fun h => (nomatch h), fun ⟨_, h, _⟩ => (nomatch h)⟩
  · constructor
    · exact fun h => ⟨rest, rfl, (Except.ok.inj h).symm⟩
    · rintro ⟨_, hrest, rfl⟩
      cases hrest
      rfl

section
variable {top work : Location} {names : List String} (hwork : ∀ n ∈ work, IsName n)

/-- A source has an output if it lies below the root. -/
theorem compiledPath_ofLocation (htop : ∀ n ∈ top, IsName n) {loc : Location}
    (hloc : ∀ n ∈ loc, IsName n)
    (h : compiledPath (ofLocation top) workDir (ofLocation loc) format = .ok output) :
    ∃ names, loc = top ++ names ∧ output =
      if isScript (ofLocation loc) then (workDir / joined names).withExtension format.extension
      else workDir / joined names := by
  have hmoves : ∀ {l : Location}, (∀ n ∈ l, IsName n) → (ofLocation l).moves = l := fun hl =>
    moves_ofLocation fun n hn => (hl n hn).toIsPiece
  obtain ⟨rest, hrest, houtput⟩ := compiledPath_ok.1 h
  have hstarts : (ofLocation loc).startsWith (ofLocation top) = true := by
    by_contra hno
    unfold stripPrefix? at hrest
    rw [if_neg hno] at hrest
    cases hrest
  obtain ⟨q, hq, hbelow⟩ := moves_stripPrefix hstarts
  have hsplit := moves_eq_of_startsWith (isAbsolute_ofLocation loc) (isAbsolute_ofLocation top) hstarts
  rw [hmoves hloc, hmoves htop] at hsplit
  rw [hrest, Option.some.injEq] at hq
  subst hq
  rw [slashText_eq, hbelow] at houtput
  exact ⟨_, hsplit, houtput⟩

include hwork

theorem join_joined (hnames : ∀ n ∈ names, IsName n) (hne : names ≠ []) :
    ofLocation work / joined names = ofLocation (work ++ names) := by
  have hpieces : ∀ n ∈ names, IsPiece n := fun n hn => (hnames n hn).toIsPiece
  have hrelative : (⟨joined names⟩ : Path).isAbsolute = false := by
    unfold isAbsolute
    rw [beq_eq_false_iff_ne]
    exact head_joined hpieces
  refine eq_of_toList ?_
  show ((ofLocation work).join ⟨joined names⟩).text.toList = _
  rw [toList_join _ _ hrelative, toList_ofLocation_joined, toList_ofLocation_joined,
    if_neg (by simp)]
  by_cases hw : work = []
  · subst hw; rfl
  · have hpiecesWork : ∀ n ∈ work, IsPiece n := fun n hn => (hwork n hn).toIsPiece
    obtain ⟨c, r, hr⟩ := List.exists_cons_of_ne_nil (mt (joined_eq_nil hpiecesWork).1 hw)
    have hlast : ('/' :: (joined work).toList).getLast? ≠ some '/' := by
      rw [hr, List.getLast?_cons_cons, ← hr]
      exact getLast?_joined hpiecesWork
    have happend : joined (work ++ names) = joined work ++ "/" ++ joined names := by
      unfold joined
      rw [String.intercalate_append_of_ne_nil hw hne]
    rw [if_neg hlast, happend]
    simp

/-- A source below the root goes to its place in the directory of the output. -/
theorem output_concat {dir ns : List String} {n : String} (hdir : ∀ m ∈ dir, IsName m)
    (hns : ∀ m ∈ ns, IsName m) (hn : IsName n) :
    (if isScript (ofLocation (dir ++ [n])) then
      (ofLocation work / joined (ns ++ [n])).withExtension format.extension
      else ofLocation work / joined (ns ++ [n])) =
    ofLocation (work ++ ns ++ [outputName format n]) := by
  have hnames : ∀ m ∈ ns ++ [n], IsName m := by
    intro m hm
    rcases List.mem_append.1 hm with hm | hm
    · exact hns m hm
    · rw [List.mem_singleton.1 hm]; exact hn
  have hpieces : ∀ m ∈ work ++ ns, IsPiece m := by
    intro m hm
    rcases List.mem_append.1 hm with hm | hm
    · exact (hwork m hm).toIsPiece
    · exact (hns m hm).toIsPiece
  have hscript : isScript (ofLocation (dir ++ [n])) =
      (splitExtension n).2.any scriptExtensions.contains := by
    unfold isScript extension
    rw [fileName_ofLocation (fun m hm => (hdir m hm).toIsPiece) hn]
    rfl
  rw [hscript, join_joined hwork hnames (by simp), ← List.append_assoc]
  unfold outputName
  split
  · exact withExtension_ofLocation hpieces hn (extension_ok format).1
  · rfl

/-- A separator at the end does not count. -/
theorem stem_slash (hne : work ≠ []) : (ofLocation work / "").stem = (ofLocation work).stem := by
  have hpieces : ∀ n ∈ work, IsPiece n := fun n hn => (hwork n hn).toIsPiece
  have htext : (ofLocation work / "").text.toList = (ofLocation work).text.toList ++ ['/'] := by
    show ((ofLocation work).join ⟨""⟩).text.toList = _
    obtain ⟨c, r, hr⟩ := List.exists_cons_of_ne_nil (mt (joined_eq_nil hpieces).1 hne)
    have hlast : ('/' :: (joined work).toList).getLast? ≠ some '/' := by
      rw [hr, List.getLast?_cons_cons, ← hr]
      exact getLast?_joined hpieces
    rw [toList_join _ _ (by decide), toList_ofLocation_joined, if_neg (by simp), if_neg hlast]
    rfl
  unfold stem
  rw [htext, List.reverse_append, List.reverse_singleton, List.singleton_append, dropTail_slash,
    if_neg]
  rw [List.reverse_eq_nil_iff, toList_ofLocation_joined]
  simp

theorem withExtension_slash (hne : work ≠ []) (ext : String) :
    (ofLocation work / "").withExtension ext = (ofLocation work).withExtension ext := by
  have hpieces : ∀ n ∈ work, IsPiece n := fun n hn => (hwork n hn).toIsPiece
  have hmoves : (ofLocation work / "").moves = (ofLocation work).moves := by
    rw [moves_join_segment (by decide), show (⟨""⟩ : Path).moves = [] from rfl, List.append_nil]
  have hname : (ofLocation work / "").fileName = (ofLocation work).fileName := by
    have habs := isAbsolute_join_name (ofLocation work) "" (isAbsolute_ofLocation work)
    unfold fileName
    rw [components_of_absolute habs, components_of_absolute (isAbsolute_ofLocation work), hmoves]
  unfold withExtension fileStem
  rw [hname, stem_slash hwork hne]
  rcases h : (ofLocation work).fileName with _ | n
  · -- without a name the path would be left with its separator
    obtain ⟨ws, w, rfl⟩ := List.eq_nil_or_concat work |>.resolve_left hne
    rw [List.concat_eq_append] at h
    rw [fileName_ofLocation (fun m hm => hpieces m (by simp [hm])) (hwork w (by simp))] at h
    cases h
  · rfl

/-- The output of the root itself has no more names than the directory of the output. -/
theorem length_moves_output_root (format : SourceType) (b : Bool) :
    (if b then (ofLocation work / joined []).withExtension format.extension
      else ofLocation work / joined []).moves.length ≤ work.length := by
  have hpieces : ∀ n ∈ work, IsPiece n := fun n hn => (hwork n hn).toIsPiece
  have hempty : joined [] = "" := rfl
  rw [hempty]
  split
  · rcases List.eq_nil_or_concat work with rfl | ⟨ws, w, rfl⟩
    · cases format <;> decide
    · rw [List.concat_eq_append] at hpieces hwork ⊢
      have hw : IsName w := hwork w (by simp)
      have hws : ∀ m ∈ ws, IsPiece m := fun m hm => hpieces m (by simp [hm])
      obtain ⟨hext, hslash, hdot, -⟩ := extension_ok format
      have hname := isName_extended (notMem_stem hw.no_slash) hext hslash hdot
      rw [withExtension_slash hwork (by simp), withExtension_ofLocation hws hw hext,
        moves_ofLocation]
      · simp
      · intro m hm
        rcases List.mem_append.1 hm with hm | hm
        · exact hws m hm
        · rw [List.mem_singleton.1 hm]; exact hname.toIsPiece
  · rw [moves_join_segment (by decide), show (⟨""⟩ : Path).moves = [] from rfl, List.append_nil,
      moves_ofLocation hpieces]

end

/-! ## Sources with one output -/

theorem ofLocation_injective {l m : Location} (hl : ∀ n ∈ l, IsName n) (hm : ∀ n ∈ m, IsName n)
    (h : ofLocation l = ofLocation m) : l = m := by
  have hmoves := congrArg moves h
  rwa [moves_ofLocation fun n hn => (hl n hn).toIsPiece,
    moves_ofLocation fun n hn => (hm n hn).toIsPiece] at hmoves

theorem Twins.symm {p q : Path} (h : Twins p q) : Twins q p :=
  ⟨h.right, h.left, h.directory.symm, h.stem.symm⟩

/-- Locations below one directory are twins if their names are scripts with one stem. -/
theorem twins_concat_iff {dir dir' : Location} {m n : String} (hdir : ∀ x ∈ dir, IsName x)
    (hdir' : ∀ x ∈ dir', IsName x) (hm : IsName m) (hn : IsName n) :
    Twins (ofLocation (dir ++ [m])) (ofLocation (dir' ++ [n])) ↔
      dir = dir' ∧ (splitExtension m).2.any scriptExtensions.contains = true ∧
        (splitExtension n).2.any scriptExtensions.contains = true ∧
        (splitExtension m).1 = (splitExtension n).1 := by
  have hpieces : ∀ {l : Location} {x : String}, (∀ n ∈ l, IsName n) → IsName x →
      ∀ y ∈ l ++ [x], IsPiece y := by
    intro l x hl hx y hy
    rcases List.mem_append.1 hy with hy | hy
    · exact (hl y hy).toIsPiece
    · rw [List.mem_singleton.1 hy]; exact hx.toIsPiece
  have hname := fileName_ofLocation (fun x hx => (hdir x hx).toIsPiece) hm
  have hname' := fileName_ofLocation (fun x hx => (hdir' x hx).toIsPiece) hn
  have hscript : ∀ {p : Path} {x : String}, p.fileName = some x →
      isScript p = (splitExtension x).2.any scriptExtensions.contains := by
    intro p x hx
    unfold isScript extension
    rw [hx]
    rfl
  have hparent := parent?_ofLocation (hpieces hdir hm)
  have hparent' := parent?_ofLocation (hpieces hdir' hn)
  have hstem : ∀ {p : Path} {x : String}, p.fileName = some x →
      p.fileStem = some (splitExtension x).1 := fun hx => by unfold fileStem; rw [hx]; rfl
  constructor
  · intro h
    have hd := h.directory
    have hs := h.stem
    rw [hparent, hparent', Option.some.injEq] at hd
    rw [hstem hname, hstem hname', Option.some.injEq] at hs
    exact ⟨ofLocation_injective hdir hdir' hd, hscript hname ▸ h.left, hscript hname' ▸ h.right, hs⟩
  · rintro ⟨rfl, hleft, hright, hs⟩
    exact ⟨hscript hname ▸ hleft, hscript hname' ▸ hright, hparent.trans hparent'.symm,
      (hstem hname).trans ((congrArg some hs).trans (hstem hname').symm)⟩

section
variable {top work s t : Location} (htop : ∀ n ∈ top, IsName n) (hs : ∀ n ∈ s, IsName n)
  (ht : ∀ n ∈ t, IsName n) (hwork : ∀ n ∈ work, IsName n)
include hs ht

/-- A source below the root is no twin of the root. -/
theorem not_twins_root {names : List String} {n : String} (hnames : t = top ++ (names ++ [n]))
    (hroot : s = top) : ¬ Twins (ofLocation s) (ofLocation t) := by
  rintro ⟨-, -, hdirectory, -⟩
  have hparent : (ofLocation t).parent? = some (ofLocation (top ++ names)) := by
    rw [hnames, ← List.append_assoc]
    refine parent?_ofLocation fun m hm => ?_
    rw [List.append_assoc, ← hnames] at hm
    exact (ht m hm).toIsPiece
  subst hroot
  rw [hparent] at hdirectory
  rcases List.eq_nil_or_concat s with rfl | ⟨upper, x, rfl⟩
  · rw [parent?_ofLocation_nil] at hdirectory
    cases hdirectory
  · rw [List.concat_eq_append] at hdirectory hs
    rw [parent?_ofLocation fun m hm => (hs m hm).toIsPiece, Option.some.injEq] at hdirectory
    have hlength := congrArg List.length (ofLocation_injective (fun m hm => hs m (by simp [hm]))
      (fun m hm => ht m (by
        rw [hnames, List.concat_eq_append]
        simp only [List.mem_append] at hm ⊢
        tauto)) hdirectory)
    simp only [List.length_append, List.length_singleton] at hlength
    omega

include hwork

/-- The root and a source below it have different outputs. -/
theorem same_output_root_iff {names : List String} {n : String} (hnames : t = top ++ (names ++ [n]))
    (hroot : s = top) {p q : Path} (hq : q = ofLocation (work ++ names ++ [outputName format n]))
    (hp : p.moves.length ≤ work.length) :
    p.same q = true ↔ s = t ∨ Twins (ofLocation s) (ofLocation t) := by
  have houtput : ∀ m ∈ work ++ names ++ [outputName format n], IsName m :=
    isName_output hwork (fun m hm => ht m (by simp [hnames, hm])) (ht n (by simp [hnames]))
  constructor
  · intro hsame
    have hlength := congrArg List.length (moves_of_same hsame)
    rw [hq, moves_ofLocation fun m hm => (houtput m hm).toIsPiece] at hlength
    simp only [List.length_append, List.length_singleton] at hlength
    omega
  · rintro (he | htwins)
    · have hlength := congrArg List.length ((hroot.symm.trans he).trans hnames)
      simp at hlength
    · exact absurd htwins (not_twins_root hs ht hnames hroot)

/-- Of sources below the root the names of the outputs decide. -/
theorem same_output_concat_iff {as bs : List String} {x y : String} (hsa : s = top ++ (as ++ [x]))
    (htb : t = top ++ (bs ++ [y])) :
    (ofLocation (work ++ as ++ [outputName format x])).same
        (ofLocation (work ++ bs ++ [outputName format y])) = true ↔
      s = t ∨ Twins (ofLocation s) (ofLocation t) := by
  have has : ∀ m ∈ as, IsName m := fun m hm => hs m (by simp [hsa, hm])
  have hbs : ∀ m ∈ bs, IsName m := fun m hm => ht m (by simp [htb, hm])
  have hx : IsName x := hs x (by simp [hsa])
  have hy : IsName y := ht y (by simp [htb])
  have hsame : (ofLocation (work ++ as ++ [outputName format x])).same
      (ofLocation (work ++ bs ++ [outputName format y])) = true ↔
      as = bs ∧ outputName format x = outputName format y := by
    constructor
    · intro h
      have hleft : ∀ m ∈ work ++ as ++ [outputName format x], IsName m := isName_output hwork has hx
      have hright : ∀ m ∈ work ++ bs ++ [outputName format y], IsName m := isName_output hwork hbs hy
      have heq := ofLocation_injective hleft hright
        (eq_of_same_of_isPlain ⟨_, fun m hm => (hleft m hm).toIsPiece, rfl⟩
          ⟨_, fun m hm => (hright m hm).toIsPiece, rfl⟩ h)
      obtain ⟨hdir, hlast⟩ := List.append_inj' heq rfl
      exact ⟨List.append_cancel_left hdir, List.singleton_inj.1 hlast⟩
    · rintro ⟨rfl, hxy⟩
      rw [hxy]
      exact same_refl _
  have hdir : ∀ m ∈ top ++ as, IsName m := fun m hm => hs m (by
    rw [hsa, ← List.append_assoc]; exact List.mem_append_left _ hm)
  have hdir' : ∀ m ∈ top ++ bs, IsName m := fun m hm => ht m (by
    rw [htb, ← List.append_assoc]; exact List.mem_append_left _ hm)
  have htwins := twins_concat_iff hdir hdir' hx hy
  rw [List.append_assoc, List.append_assoc, ← hsa, ← htb, List.append_cancel_left_eq] at htwins
  have heq : s = t ↔ as = bs ∧ x = y := by
    rw [hsa, htb, List.append_cancel_left_eq]
    exact ⟨fun h => (List.append_inj' h rfl).imp_right List.singleton_inj.1,
      fun ⟨h, h'⟩ => by rw [h, h']⟩
  rw [hsame, htwins, heq, outputName_eq_iff, and_or_left]

include htop

/-- Two sources have one output exactly if they are the same or twins. -/
theorem same_output_iff {p q : Path}
    (hp : compiledPath (ofLocation top) (ofLocation work) (ofLocation s) format = .ok p)
    (hq : compiledPath (ofLocation top) (ofLocation work) (ofLocation t) format = .ok q) :
    p.same q = true ↔ s = t ∨ Twins (ofLocation s) (ofLocation t) := by
  obtain ⟨a, hsa, rfl⟩ := compiledPath_ofLocation htop hs hp
  obtain ⟨b, htb, rfl⟩ := compiledPath_ofLocation htop ht hq
  have hconcat : ∀ {l ns : Location} {n : String}, (∀ m ∈ l, IsName m) → l = top ++ (ns ++ [n]) →
      (if isScript (ofLocation l) then
        (ofLocation work / joined (ns ++ [n])).withExtension format.extension
        else ofLocation work / joined (ns ++ [n])) =
        ofLocation (work ++ ns ++ [outputName format n]) := by
    intro l ns n hl he
    have hdir : ∀ m ∈ top ++ ns, IsName m := fun m hm => hl m (by
      rw [he, ← List.append_assoc]; exact List.mem_append_left _ hm)
    rw [he, ← List.append_assoc]
    exact output_concat hwork hdir (fun m hm => hl m (by simp [he, hm])) (hl n (by simp [he]))
  rcases List.eq_nil_or_concat a with rfl | ⟨as, x, rfl⟩ <;>
    rcases List.eq_nil_or_concat b with rfl | ⟨bs, y, rfl⟩
  · -- both are the root
    rw [List.append_nil] at hsa htb
    subst hsa htb
    simp [same_refl]
  · rw [List.concat_eq_append] at htb ⊢
    rw [List.append_nil] at hsa
    exact same_output_root_iff hs ht hwork htb hsa (hconcat ht htb)
      (length_moves_output_root hwork format (isScript (ofLocation s)))
  · rw [List.concat_eq_append] at hsa ⊢
    rw [List.append_nil] at htb
    have hsym := same_output_root_iff ht hs hwork hsa htb (hconcat hs hsa)
      (length_moves_output_root hwork format (isScript (ofLocation t)))
    constructor
    · intro h
      exact (hsym.1 (same_symm h)).imp Eq.symm Twins.symm
    · intro h
      exact same_symm (hsym.2 (h.imp Eq.symm Twins.symm))
  · rw [List.concat_eq_append] at hsa htb ⊢
    rw [List.concat_eq_append, hconcat hs hsa, hconcat ht htb]
    exact same_output_concat_iff hs ht hwork hsa htb

end
end Stowage.Compile
