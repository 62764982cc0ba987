import PageScript.Proofs.Compile.Accounting

/-! Directives that stay in the text (`require_stays`). -/

namespace PageScript

theorem Progress.markFile_eq_iff {progress : Progress} {file : Path} :
    progress.markFile file = progress ↔ progress.isCompiled file = true := by
  unfold markFile
  split
  · rename_i known
    exact iff_of_true rfl known
  · rename_i unknown
    refine iff_of_false (fun same => ?_) unknown
    have longer := congrArg (·.compiledFiles.length) same
    simp at longer

namespace Context

variable {context : Context} {expand : Expander} {flags : InclusionFlags} {base file : Path}
  {progress after : Progress} {target : Text}

private theorem require_of_no_pending {files : List Path}
    (found : context.targetFiles? flags base target = some files)
    (done : context.pendingFiles flags progress files = []) :
    context.require expand flags base progress target = some (some [], progress) := by
  have gathered : context.gather progress [] = ([], progress) := by
    simp [gather, passAll, Inclusion.dropDuplicates, Inclusion.clashes, Inclusion.clashesFrom,
      Inclusion.ordered]
  have parts : assembleParts flags [] = [] := by simp [assembleParts, Text.join, Text.allBlank]
  unfold require
  rw [found]
  dsimp only
  rw [done, if_neg (fun unreadable => by cases unreadable.2), gathered]
  exact congrArg (fun text => some (some text, progress)) parts

/-- A directive that stays leaves the state as it was exactly if it leads nowhere or its file was compiled
before. The same directive stays the next time exactly if it leads nowhere or is forced; otherwise nothing is
written for it. -/
theorem require_stays (stays : context.require expand flags base progress target = some (none, after)) :
    (after = progress ↔ context.targetFiles? flags base target = none ∨
      ∃ file, context.targetFiles? flags base target = some [file] ∧
        progress.isCompiled (context.tree.canonical file) = true) ∧
    context.require expand flags base after target =
      some (if context.targetFiles? flags base target = none ∨ flags.force then none else some [], after) := by
  rcases require_cases stays with ⟨nowhere, _, rfl⟩ | ⟨file, fault, found, unreadable, _, rfl⟩ |
    ⟨_, _, _, _, impossible⟩
  · refine ⟨iff_of_true rfl (.inl nowhere), ?_⟩
    unfold require
    rw [nowhere, if_pos (.inl rfl)]
  · have marked := progress.isCompiled_markFile (context.tree.canonical file)
    constructor
    · rw [Progress.markFile_eq_iff, found]
      simp
    · cases forced : flags.force with
      | false =>
        rw [if_neg (by simp [found])]
        refine require_of_no_pending found ?_
        simp [pendingFiles, forced, marked]
      | true =>
        rw [if_pos (.inr rfl)]
        have pending (state : Progress) :
            context.pendingFiles flags state [file] = [context.tree.canonical file] := by
          simp [pendingFiles, forced]
        unfold require at stays ⊢
        rw [found] at stays ⊢
        dsimp only at stays ⊢
        rw [pending] at stays ⊢
        split at stays
        · rename_i alone
          rw [if_pos alone]
          exact congrArg (fun state => some (none, state)) (Progress.markFile_eq_iff.mpr marked)
        · obtain ⟨_, _, same⟩ := Option.bind_eq_some_iff.mp stays
          cases same
  · cases impossible

def binaryContext : Context where
  tree := { entries := [(["a.js"], .binary)], home := [] }
  compiler := { modules := { root := ⟨"/"⟩, modules := [] }, widgets := .empty }
  settings := { side := .client }

def binaryMarked : Progress := ({} : Progress).markFile ⟨"/a.js"⟩

theorem require_stays_binary :
    binaryContext.require (fun _ _ _ => none) {} ⟨"/"⟩ {} "a".toList = some (none, binaryMarked) ∧
      binaryMarked ≠ {} ∧
      binaryContext.require (fun _ _ _ => none) {} ⟨"/"⟩ binaryMarked "a".toList =
        some (some [], binaryMarked) := by
  have stays : binaryContext.require (fun _ _ _ => none) {} ⟨"/"⟩ {} "a".toList =
      some (none, binaryMarked) := by
    rfl
  have found : binaryContext.targetFiles? {} ⟨"/"⟩ "a".toList = some [⟨"/a.js"⟩] := by decide +kernel
  obtain ⟨unchanged, later⟩ := require_stays stays
  rw [found] at unchanged later
  rw [if_neg (by decide)] at later
  refine ⟨stays, fun same => ?_, later⟩
  rcases unchanged.mp same with nowhere | ⟨_, single, compiled⟩
  · cases nowhere
  · cases single
    exact absurd compiled (by decide +kernel)

end Context

end PageScript
