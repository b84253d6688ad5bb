/-
The compilers leave the directory that relative paths start from.
-/
import Stowage.Compile.Compiler
import Stowage.Proofs.World

namespace Stowage

open Stowage.Action

/-- A compiler that leaves the directory that relative paths start from, whatever it is asked for. -/
def Compiler.Stays (compiler : Compiler) : Prop := ∀ job, Action.Stays (compiler job)

theorem stays_copySources : Compiler.Stays copySources := by
  intro job
  have hcopy : ∀ (entry : String × Path) (output : Path), Action.Stays (do
      Action.change (Disk.copy (job.root.join entry.2) output)
      return (entry.1, output)) := fun entry output =>
    stays_bind (stays_change (Disk.stays_copy _ _)) fun _ => stays_pure _
  refine stays_bind (stays_mapM (fun entry => ?_) _) fun _ => stays_pure _
  dsimp only
  split
  · exact stays_bind (stays_change (Disk.stays_createDirectories _)) fun _ => hcopy entry _
  · exact hcopy entry _

namespace Compile

variable (transpile : Transpile) (root workDir : Path) (format : SourceType)

theorem stays_compileTo (source output : Path) :
    Action.Stays (compileTo transpile root workDir format source output) := by
  unfold compileTo
  split
  · exact stays_bind (stays_change (Disk.stays_copy _ _)) fun _ => stays_pure _
  · refine stays_bind (stays_ask _) fun text => ?_
    split
    · exact stays_throw _
    · exact stays_bind stays_disk fun d =>
        stays_bind (stays_change (Disk.stays_write _ _)) fun _ => stays_pure _

theorem stays_compileFile (source : Path) :
    Action.Stays (compileFile transpile root workDir format source) := by
  refine stays_bind (stays_ofExcept _) fun output => ?_
  dsimp only
  split
  · exact stays_bind (stays_change (Disk.stays_createDirectories _)) fun _ =>
      stays_compileTo transpile root workDir format source output
  · exact stays_compileTo transpile root workDir format source output

theorem stays_compileAll (fuel : Nat) (p : Progress) :
    Action.Stays (compileAll transpile root workDir format fuel p) := by
  induction fuel generalizing p with
  | zero =>
    unfold compileAll
    split
    · exact stays_pure _
    · exact stays_throw _
  | succ fuel ih =>
    unfold compileAll
    split
    · exact stays_pure _
    · exact stays_bind (stays_compileFile transpile root workDir format _) fun _ => ih _

theorem stays_enter (entries : List (String × Path)) :
    Action.Stays (enter root workDir format entries) := by
  induction entries with
  | nil => exact stays_pure _
  | cons e rest ih =>
    exact stays_bind (stays_ask _) fun source => stays_bind (stays_ofExcept _) fun output =>
      stays_bind ih fun _ => stays_pure _

end Compile

theorem stays_compile (transpile : Transpile) : Compiler.Stays (compile transpile) := by
  intro job
  refine stays_bind (stays_ask _) fun root => stays_bind stays_disk fun d =>
    stays_bind (stays_change (Disk.stays_createDirectories _)) fun _ =>
    stays_bind (stays_ask _) fun workDir =>
    stays_bind (Compile.stays_enter root workDir _ _) fun entries =>
    stays_bind (Compile.stays_compileAll transpile root workDir _ _ _) fun _ => ?_
  split
  · exact stays_bind (stays_throw _) fun _ => stays_pure _
  · exact stays_pure _

end Stowage
