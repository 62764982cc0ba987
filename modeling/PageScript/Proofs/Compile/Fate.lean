import PageScript.Proofs.Compile.Duplicates
import PageScript.Proofs.Compile.Positions
import PageScript.Proofs.Compile.Standing

/-! What becomes of the files that one `require` directive names (`gather_fate`). -/

namespace PageScript

open List

variable {context : Context} {file : Path} {fault : IoFault} {pending : List Path}

namespace Context

open Progress (Extends Overlooks foldl_related)

theorem passAll_notes {order : Nat} {progress : Progress} {files : List Path} {source : Text}
    {violation : Violation} (member : file ∈ files) (read : context.tree.read file = .ok source)
    (failed : (context.pass (some file) {} source).1 = .error violation) :
    violation.note (some file) ∈ (context.passAll order progress files).2.diagnostics := by
  induction files generalizing order progress with
  | nil => cases member
  | cons first rest ih =>
    unfold passAll
    rcases mem_cons.mp member with rfl | later
    · rw [read]
      dsimp only
      have same := context.pass_fst (some file) progress {} source
      cases passed : context.pass (some file) progress source with
      | mk answer next =>
        rw [passed, failed] at same
        dsimp only at same
        rw [same]
        have ignores := (Extends.stepwise []).toIgnoresNotes
        have kept := context.passAll_overlooked ignores.refl (fun _ => overlooks_of_ignores ignores _) order
          (next.report .structural (some file) violation.display) rest
        exact kept.subset (mem_append_right _ mem_cons_self)
    · cases context.tree.read first with
      | error fault => exact ih later
      | ok other =>
        dsimp only
        split
        · exact ih later
        · exact ih later

theorem gather_notes_dropped (progress : Progress) (dropped : context.Dropped pending file) :
    ∃ name first second, Inclusion.clashNote name first second file ∈
      (context.gather progress pending).2.diagnostics := by
  obtain ⟨listed, loses⟩ := dropped
  obtain ⟨inclusion, member, rfl⟩ := mem_map.mp listed
  obtain ⟨index, short, found⟩ := mem_iff_getElem.mp member
  have there : (context.inclusions pending)[index]? = some inclusion := by
    rw [getElem?_eq_getElem short, found]
  obtain ⟨clash, clashes, same⟩ := loses index inclusion there rfl
  have within : (inclusion, index) ∈ (context.inclusions pending).zipIdx :=
    mem_zipIdx_iff_getElem?.mpr there
  have here := Inclusion.pathAt_of_mem within
  refine ⟨clash.name, Inclusion.pathAt (context.inclusions pending) clash.first,
    Inclusion.pathAt (context.inclusions pending) clash.second, ?_⟩
  have note : clash.note context.compiler.duplicates (context.inclusions pending) ∈
      (context.gather progress pending).2.diagnostics := by
    unfold gather
    dsimp only
    rw [Inclusion.dropDuplicates_eq, context.passAll_fst 0 (pending.foldl Progress.markFile progress) {}]
    exact mem_append_right _ (mem_map_of_mem clashes)
  unfold Inclusion.Clash.note at note
  rwa [same, here] at note

/-- A file that is brought in cannot be read, or has a violation that is noted, or is dropped for a class
and noted, or is among those that are written. -/
theorem gather_fate (context : Context) (progress : Progress) (member : file ∈ pending) :
    (∃ fault, context.tree.read file = .error fault) ∨
    (∃ source violation, context.tree.read file = .ok source ∧
      (context.pass (some file) {} source).1 = .error violation ∧
      violation.note (some file) ∈ (context.gather progress pending).2.diagnostics) ∨
    (∃ name first second, Inclusion.clashNote name first second file ∈
      (context.gather progress pending).2.diagnostics) ∨
    ∃ inclusion ∈ (context.gather progress pending).1, inclusion.path = file := by
  cases read : context.tree.read file with
  | error fault => exact .inl ⟨fault, rfl⟩
  | ok source =>
    refine .inr ?_
    cases passed : (context.pass (some file) {} source).1 with
    | error violation =>
      refine .inl ⟨source, violation, rfl, passed, ?_⟩
      have kept := dropDuplicates_related (Extends.stepwise []).toIgnoresNotes
        context.compiler.duplicates
        (context.passAll 0 (pending.foldl Progress.markFile progress) pending).1
        (context.passAll 0 (pending.foldl Progress.markFile progress) pending).2
      exact kept.subset (passAll_notes member read passed)
    | ok code =>
      have valid : (context.fileCode? file).isSome = true := by
        rw [fileCode?_eq_some.mpr ⟨source, read, passed⟩]
        rfl
      by_cases dropped : context.Dropped pending file
      · exact .inr (.inl (gather_notes_dropped progress dropped))
      · have ordered := (mem_writingOrder_iff member valid).mpr dropped
        rw [← context.map_path_gather progress] at ordered
        exact .inr (.inr (mem_map.mp ordered))

/-- From one state to the other, nothing new was noted for a file. -/
def Silent (file : Path) (before after : Progress) : Prop :=
  ∀ note ∈ after.diagnostics, note.file = some file.text → note ∈ before.diagnostics

namespace Silent

variable {file : Path} {first second third : Progress}

theorem of_eq (same : second.diagnostics = first.diagnostics) : Silent file first second := by
  intro note member _
  rwa [← same]

private theorem refl (progress : Progress) : Silent file progress progress :=
  of_eq rfl

private theorem trans (left : Silent file first second) (right : Silent file second third) :
    Silent file first third :=
  fun note member about => left note (right note member about) about

private theorem report {other : Path} (apart : other ≠ file) (progress : Progress) (topic : Topic)
    (message : String) : Silent file progress (progress.report topic (some other) message) := by
  intro note member about
  rcases mem_append.mp member with old | new
  · exact old
  · rw [mem_singleton.mp new] at about
    exact absurd (congrArg Path.mk (Option.some.inj about)) apart

theorem markFile (progress : Progress) (other : Path) : Silent file progress (progress.markFile other) := by
  unfold Progress.markFile
  split
  · exact .refl progress
  · exact .of_eq rfl

theorem overlooks {other : Path} (apart : other ≠ file) : Overlooks (some other) (Silent file) :=
  ⟨.refl, fun left right => left.trans right, .report apart, fun _ _ _ => .of_eq rfl⟩

private theorem foldl_markFile (progress : Progress) (others : List Path) :
    Silent file progress (others.foldl Progress.markFile progress) :=
  foldl_related .refl (fun left right => left.trans right) (fun progress other _ => .markFile progress other) _

end Silent

theorem gather_silent (unreadable : context.tree.read file = .error fault) (progress : Progress)
    (pending : List Path) : Silent file progress (context.gather progress pending).2 := by
  have apart {other : Path} {source : Text} (read : context.tree.read other = .ok source) : other ≠ file := by
    rintro rfl
    rw [unreadable] at read
    cases read
  have passed := context.passAll_overlooked Silent.refl (fun read => Silent.overlooks (apart read)) 0
    (pending.foldl Progress.markFile progress) pending
  refine ((Silent.foldl_markFile progress pending).trans passed).trans
    (foldl_related .refl (fun left right => left.trans right) ?_ _)
  intro progress clash member
  obtain ⟨inclusion, within, same⟩ := Inclusion.pathAt_loser member
  obtain ⟨source, read, _⟩ := fileCode?_eq_some.mp (context.passAll_mem _ _ _ within).2
  have other := apart read
  rw [← same] at other
  exact .report other progress _ _

theorem gathers_silent (unreadable : context.tree.read file = .error fault) : context.Gathers (Silent file) :=
  ⟨.refl, fun left right => left.trans right, .markFile, gather_silent unreadable⟩

end Context

end PageScript
