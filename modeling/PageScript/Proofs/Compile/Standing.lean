import Mathlib.Logic.Relation
import PageScript.Proofs.Compile.Trace
import PageScript.Proofs.Tree.Canonical

/-!
At every moment of an expansion each list of files is finished, or one of its files is being written
and those before it are finished (`Standing`).
-/

open List

namespace PageScript

open Progress

open Relation (TransGen ReflTransGen)
open Event (groups finished)

variable {progress : Progress} {files pending : List Path} {file : Path} {context : Context}
  {trace : List Event}

theorem Progress.isCompiled_of_foldl_markFile
    (compiled : (files.foldl markFile progress).isCompiled file = true) :
    progress.isCompiled file = true ∨ ∃ other ∈ files, other.components = file.components := by
  induction files generalizing progress with
  | nil => exact .inl compiled
  | cons first rest ih =>
    rcases ih compiled with before | ⟨other, member, same⟩
    · unfold markFile at before
      split at before
      · exact .inl before
      · obtain ⟨other, member, same⟩ := any_eq_true.mp before
        rcases mem_append.mp member with old | new
        · exact .inl (any_eq_true.mpr ⟨other, old, same⟩)
        · refine .inr ⟨first, mem_cons_self, ?_⟩
          rw [← mem_singleton.mp new]
          exact beq_iff_eq.mp same
    · exact .inr ⟨other, mem_cons_of_mem _ member, same⟩

namespace Context

def requiredFiles (context : Context) (file : Path) : List Path :=
  match context.fileCode? file with
  | none => []
  | some code =>
      (Text.occurrences Directive.require code).flatMap fun directive =>
        ((context.targetFiles? (context.effectiveFlags directive) (file.parent?.getD ⟨""⟩)
          (Text.trim directive.target)).getD []).map context.tree.canonical

def Requires (context : Context) (file required : Path) : Prop :=
  required ∈ context.requiredFiles file

def Acyclic (context : Context) : Prop :=
  ∀ file, ¬ TransGen context.Requires file file

theorem requires_of_directive {code : Text} {directive : Directive.Require}
    (known : context.fileCode? file = some code)
    (member : directive ∈ Text.occurrences Directive.require code)
    (found : context.targetFiles? (context.effectiveFlags directive) (file.parent?.getD ⟨""⟩)
      (Text.trim directive.target) = some files) {required : Path}
    (named : required ∈ files.map context.tree.canonical) : context.Requires file required := by
  unfold Requires requiredFiles
  rw [known]
  refine mem_flatMap.mpr ⟨directive, member, ?_⟩
  rwa [found]

def inclusions (context : Context) (pending : List Path) : List Inclusion :=
  (context.passAll 0 {} pending).1

/-- A file could be included, but wherever it stands in a list, it declares a class that another file
of the list declares too, and is the one to be dropped. -/
def Dropped (context : Context) (pending : List Path) (file : Path) : Prop :=
  file ∈ (context.inclusions pending).map (·.path) ∧
  ∀ (index : Nat) inclusion, (context.inclusions pending)[index]? = some inclusion →
    inclusion.path = file →
    ∃ clash ∈ Inclusion.clashes context.compiler.duplicates (context.inclusions pending),
      clash.loser context.compiler.duplicates = index

def writingOrder (context : Context) (pending : List Path) : List Path :=
  (context.gather {} pending).1.map (·.path)

theorem passAll_fst (context : Context) (order : Nat) (left right : Progress) (files : List Path) :
    (context.passAll order left files).1 = (context.passAll order right files).1 := by
  rw [passAll_eq, passAll_eq]

theorem mem_passAll (context : Context) (order : Nat) (progress : Progress) (member : file ∈ files)
    (valid : (context.fileCode? file).isSome = true) :
    file ∈ (context.passAll order progress files).1.map (·.path) := by
  obtain ⟨code, known⟩ := Option.isSome_iff_exists.mp valid
  have held : (file, code) ∈ files.filterMap fun file => (context.fileCode? file).map (file, ·) :=
    mem_filterMap.mpr ⟨file, member, by rw [known]; rfl⟩
  obtain ⟨index, found⟩ := mem_iff_getElem?.mp held
  rw [passAll_eq, map_map]
  exact mem_map.mpr ⟨((file, code), order + index), mem_zipIdx_iff_le_and_getElem?_sub.mpr (by simp [found]), rfl⟩

private theorem gather_fst (context : Context) (progress : Progress) (pending : List Path) :
    (context.gather progress pending).1 = (context.gather {} pending).1 := by
  unfold gather
  dsimp only
  rw [context.passAll_fst 0 _ (pending.foldl markFile {})]
  rfl

theorem map_path_gather (context : Context) (progress : Progress) (pending : List Path) :
    (context.gather progress pending).1.map (·.path) = context.writingOrder pending := by
  rw [gather_fst, writingOrder]

private theorem mem_ordered {inclusions : List Inclusion} {inclusion : Inclusion} :
    inclusion ∈ Inclusion.ordered inclusions ↔ inclusion ∈ inclusions := by
  refine ⟨mem_of_mem_ordered, fun member => ?_⟩
  obtain ⟨index, short, found⟩ := mem_iff_getElem.mp member
  refine mem_filterMap.mpr ⟨index, ?_, ?_⟩
  · exact mem_mergeSort.mpr (mem_range.mpr short)
  · rw [getElem?_eq_getElem short, found]

theorem mem_writingOrder_iff (member : file ∈ pending) (valid : (context.fileCode? file).isSome = true) :
    file ∈ context.writingOrder pending ↔ ¬ context.Dropped pending file := by
  have listed : (context.passAll 0 (pending.foldl markFile {}) pending).1 =
      context.inclusions pending := context.passAll_fst 0 _ _ pending
  have included : file ∈ (context.inclusions pending).map (·.path) :=
    context.mem_passAll 0 {} member valid
  unfold writingOrder gather
  dsimp only
  rw [listed, Dropped, and_iff_right included]
  push Not
  constructor
  · intro member
    obtain ⟨inclusion, within, rfl⟩ := mem_map.mp member
    obtain ⟨⟨original, index⟩, found, kept⟩ := mem_filterMap.mp (mem_ordered.mp within)
    dsimp only at kept
    split at kept
    · cases kept
    · rename_i free
      cases kept
      refine ⟨index, original, mem_zipIdx_iff_getElem?.mp found, rfl, ?_⟩
      intro clash member same
      refine free (contains_iff_mem.mpr ?_)
      exact mem_map.mpr ⟨clash, member, same⟩
  · rintro ⟨index, original, found, rfl, free⟩
    refine mem_map.mpr ⟨{ original with order := index }, mem_ordered.mpr ?_, rfl⟩
    refine mem_filterMap.mpr ⟨(original, index), mem_zipIdx_iff_getElem?.mpr found, ?_⟩
    dsimp only
    rw [if_neg]
    intro loses
    obtain ⟨clash, member, same⟩ := mem_map.mp (contains_iff_mem.mp loses)
    exact free clash member same

theorem mem_of_mem_writingOrder (member : file ∈ context.writingOrder pending) : file ∈ pending := by
  obtain ⟨inclusion, within, rfl⟩ := mem_map.mp member
  exact (context.gather_mem _ _ within).1

/-- What the lists of a trace say about the files that are compiled since the start. -/
structure Accounts (context : Context) (start : Progress) (trace : List Event)
    (progress : Progress) : Prop where
  /-- A file that can be included is compiled because it was so at the start or is in a list. -/
  known : ∀ path, (context.fileCode? (context.tree.canonical path)).isSome = true →
    progress.isCompiled (context.tree.canonical path) = true →
    start.isCompiled (context.tree.canonical path) = true ∨
      ∃ pending ∈ groups trace, context.tree.canonical path ∈ pending
  marked : ∀ pending ∈ groups trace, ∀ file ∈ pending, progress.isCompiled file = true
  once : ∀ left ∈ groups trace, ∀ right ∈ groups trace, ∀ file ∈ left, file ∈ right → left = right
  brought : ∀ file ∈ finished trace, ∃ pending ∈ groups trace, file ∈ context.writingOrder pending

/-- How far the lists are that have been brought in: each is finished, or one of its files is being
written, and those before it in the list are finished. -/
structure Standing (context : Context) (start : Progress) (turns : List Turn) (trace : List Event)
    (progress : Progress) : Prop extends Accounts context start trace progress where
  settled : ∀ pending ∈ groups trace, (∀ file ∈ context.writingOrder pending, file ∈ finished trace) ∨
    ∃ turn ∈ turns, turn.files = context.writingOrder pending
  underWay : ∀ turn ∈ turns, ∃ pending ∈ groups trace, turn.files = context.writingOrder pending
  done : ∀ turn ∈ turns, ∀ file ∈ turn.files, file ∈ finished trace ↔ file ∈ turn.earlier
  apart : turns.Pairwise fun inner outer => ∀ file ∈ inner.files, file ∉ outer.files
  nested : turns.IsChain fun inner outer => ∀ file ∈ inner.files, context.Requires outer.file file

/-- The same between two files of one more list, the innermost: those before are finished. -/
structure Between (context : Context) (start : Progress) (turns : List Turn) (own : List Path)
    (earlier rest : List Path) (trace : List Event) (progress : Progress) : Prop
    extends Accounts context start trace progress where
  listed : own ∈ groups trace
  order : earlier ++ rest = context.writingOrder own
  begun : ∀ file ∈ earlier ++ rest, file ∈ finished trace ↔ file ∈ earlier
  settled : ∀ pending ∈ groups trace, (∀ file ∈ context.writingOrder pending, file ∈ finished trace) ∨
    earlier ++ rest = context.writingOrder pending ∨
    ∃ turn ∈ turns, turn.files = context.writingOrder pending
  underWay : ∀ turn ∈ turns, ∃ pending ∈ groups trace, turn.files = context.writingOrder pending
  done : ∀ turn ∈ turns, ∀ file ∈ turn.files, file ∈ finished trace ↔ file ∈ turn.earlier
  outside : ∀ turn ∈ turns, ∀ file ∈ earlier ++ rest, file ∉ turn.files
  apart : turns.Pairwise fun inner outer => ∀ file ∈ inner.files, file ∉ outer.files
  required : ∀ turn, turns.head? = some turn → ∀ file ∈ earlier ++ rest,
    context.Requires turn.file file
  nested : turns.IsChain fun inner outer => ∀ file ∈ inner.files, context.Requires outer.file file

def resume (earlier rest : List Path) (turns : List Turn) : List Turn :=
  match rest with
  | [] => turns
  | file :: later => { earlier, file, later } :: turns

variable {context : Context} {start : Progress}

theorem standing_start (context : Context) (start : Progress) :
    context.Standing start [] [] start where
  known _ _ compiled := .inl compiled
  marked _ member := nomatch member
  once _ member := nomatch member
  brought _ member := nomatch member
  settled _ member := nomatch member
  underWay _ member := nomatch member
  done _ member := nomatch member
  apart := .nil
  nested := .nil

theorem Accounts.not_mem_of_fresh (accounts : context.Accounts start trace progress)
    (fresh : ∀ file ∈ pending, progress.isCompiled file = false) :
    ∀ list ∈ groups trace, ∀ file ∈ list, file ∉ pending := by
  intro list member file within again
  have compiled := accounts.marked list member file within
  rw [fresh file again] at compiled
  cases compiled

theorem Accounts.bring {before after : Progress} (accounts : context.Accounts start trace before)
    (fresh : ∀ file ∈ pending, before.isCompiled file = false)
    (canonical : ∀ file ∈ pending, ∃ path, file = context.tree.canonical path)
    (quiet : Quiet (pending.foldl markFile before) after) :
    context.Accounts start (trace ++ [.opened pending]) after := by
  have new := accounts.not_mem_of_fresh fresh
  constructor
  · intro path valid compiled
    rw [Event.groups_opened]
    rw [quiet.isCompiled] at compiled
    rcases isCompiled_of_foldl_markFile compiled with old | ⟨other, member, same⟩
    · rcases accounts.known path valid old with atStart | ⟨list, member, within⟩
      · exact .inl atStart
      · exact .inr ⟨list, mem_append_left _ member, within⟩
    · obtain ⟨spelling, rfl⟩ := canonical other member
      rw [← Tree.canonical_eq_of_components same]
      exact .inr ⟨pending, mem_append_right _ mem_cons_self, member⟩
  · intro list member file within
    rw [quiet.isCompiled]
    rw [Event.groups_opened] at member
    rcases mem_append.mp member with old | last
    · exact before.foldl_markFile_keeps pending file (accounts.marked list old file within)
    · rw [mem_singleton.mp last] at within
      exact before.isCompiled_foldl_markFile within
  · intro left leftMember right rightMember file inLeft inRight
    rw [Event.groups_opened] at leftMember rightMember
    rcases mem_append.mp leftMember with leftOld | leftNew <;>
      rcases mem_append.mp rightMember with rightOld | rightNew
    · exact accounts.once left leftOld right rightOld file inLeft inRight
    · rw [mem_singleton.mp rightNew] at inRight
      exact absurd inRight (new left leftOld file inLeft)
    · rw [mem_singleton.mp leftNew] at inLeft
      exact absurd inLeft (new right rightOld file inRight)
    · rw [mem_singleton.mp leftNew, mem_singleton.mp rightNew]
  · intro file member
    rw [Event.finished_opened] at member
    rw [Event.groups_opened]
    obtain ⟨list, old, within⟩ := accounts.brought file member
    exact ⟨list, mem_append_left _ old, within⟩

theorem Accounts.ended {code : Text} (accounts : context.Accounts start trace progress)
    (listed : ∃ pending ∈ groups trace, file ∈ context.writingOrder pending) :
    context.Accounts start (trace ++ [.ended file code]) progress := by
  constructor
  · rw [Event.groups_ended]
    exact accounts.known
  · rw [Event.groups_ended]
    exact accounts.marked
  · rw [Event.groups_ended]
    exact accounts.once
  · rw [Event.groups_ended, Event.finished_ended]
    intro other member
    rcases mem_append.mp member with old | last
    · exact accounts.brought other old
    · rw [mem_singleton.mp last]
      exact listed

theorem leads_of_nested {inner : Turn} {outer : List Turn}
    (nested : (inner :: outer).IsChain fun inner outer =>
      ∀ file ∈ inner.files, context.Requires outer.file file)
    {turn : Turn} (member : turn ∈ inner :: outer) :
    ReflTransGen context.Requires turn.file inner.file := by
  induction outer generalizing inner with
  | nil => rw [mem_singleton.mp member]
  | cons next more ih =>
    obtain ⟨requires, others⟩ := isChain_cons_cons.mp nested
    rcases mem_cons.mp member with rfl | within
    · exact .refl
    · exact (ih others within).tail (requires _ (mem_append_right _ mem_cons_self))

namespace Standing

variable {turns : List Turn} {trace : List Event} {progress : Progress}

theorem congr {other : List Event} (standing : context.Standing start turns trace progress)
    (lists : groups other = groups trace) (ends : finished other = finished trace) :
    context.Standing start turns other progress := by
  constructor
  · constructor
    · rw [lists]
      exact standing.known
    · rw [lists]
      exact standing.marked
    · rw [lists]
      exact standing.once
    · rw [lists, ends]
      exact standing.brought
  · rw [lists, ends]
    exact standing.settled
  · rw [lists]
    exact standing.underWay
  · rw [ends]
    exact standing.done
  · exact standing.apart
  · exact standing.nested

theorem markMissing {marked : List Path} (standing : context.Standing start turns trace progress)
    (canonical : ∀ file ∈ marked, ∃ path, file = context.tree.canonical path)
    (missing : ∀ file ∈ marked, context.fileCode? file = none) :
    context.Standing start turns trace (marked.foldl markFile progress) where
  known path valid compiled := by
    rcases isCompiled_of_foldl_markFile compiled with old | ⟨other, member, same⟩
    · exact standing.known path valid old
    · obtain ⟨spelling, rfl⟩ := canonical other member
      rw [← Tree.canonical_eq_of_components same, missing _ member] at valid
      cases valid
  marked pending member file within :=
    progress.foldl_markFile_keeps marked file (standing.marked pending member file within)
  once := standing.once
  brought := standing.brought
  settled := standing.settled
  underWay := standing.underWay
  done := standing.done
  apart := standing.apart
  nested := standing.nested

end Standing

variable {turns : List Turn} {trace : List Event} {progress : Progress}

theorem Between.standing {own earlier rest : List Path}
    (between : context.Between start turns own earlier rest trace progress) :
    context.Standing start (resume earlier rest turns) trace progress := by
  obtain ⟨accounts, listed, order, begun, settled, underWay, done, outside, apart, required, nested⟩ :=
    between
  cases rest with
  | nil =>
    refine ⟨accounts, ?_, underWay, done, apart, nested⟩
    intro pending member
    rcases settled pending member with ended | same | inside
    · exact .inl ended
    · rw [← same]
      refine .inl fun file within => (begun file within).mpr ?_
      rwa [append_nil] at within
    · exact .inr inside
  | cons file later =>
    refine ⟨accounts, ?_, ?_, ?_, pairwise_cons.mpr ⟨outside, apart⟩, ?_⟩
    · intro pending member
      rcases settled pending member with ended | same | ⟨turn, inside, files⟩
      · exact .inl ended
      · exact .inr ⟨_, mem_cons_self, same⟩
      · exact .inr ⟨turn, mem_cons_of_mem _ inside, files⟩
    · exact forall_mem_cons.mpr ⟨⟨own, listed, order⟩, underWay⟩
    · exact forall_mem_cons.mpr ⟨begun, done⟩
    · cases turns with
      | nil => exact .singleton _
      | cons outer others => exact isChain_cons_cons.mpr ⟨required outer rfl, nested⟩

namespace Standing

theorem bring {after : Progress} (standing : context.Standing start turns trace progress)
    (fresh : ∀ file ∈ pending, progress.isCompiled file = false)
    (canonical : ∀ file ∈ pending, ∃ path, file = context.tree.canonical path)
    (quiet : Quiet (pending.foldl markFile progress) after)
    (required : ∀ turn, turns.head? = some turn → ∀ file ∈ pending,
      context.Requires turn.file file) :
    context.Standing start (resume [] (context.writingOrder pending) turns)
      (trace ++ [.opened pending]) after := by
  have new := standing.toAccounts.not_mem_of_fresh fresh
  have accounts := standing.toAccounts.bring fresh canonical quiet
  suffices between : context.Between start turns pending [] (context.writingOrder pending)
      (trace ++ [.opened pending]) after from between.standing
  refine ⟨accounts, ?_, rfl, ?_, ?_, ?_, ?_, ?_, standing.apart, ?_, standing.nested⟩
  · rw [Event.groups_opened]
    exact mem_append_right _ mem_cons_self
  · intro file within
    rw [Event.finished_opened]
    constructor
    · intro ended
      obtain ⟨list, old, ordered⟩ := standing.brought file ended
      exact absurd (mem_of_mem_writingOrder within)
        (new list old file (mem_of_mem_writingOrder ordered))
    · intro none
      cases none
  · intro list member
    rw [Event.groups_opened] at member
    rw [Event.finished_opened]
    rcases mem_append.mp member with old | last
    · exact (standing.settled list old).imp_right .inr
    · rw [mem_singleton.mp last]
      exact .inr (.inl rfl)
  · intro turn inside
    rw [Event.groups_opened]
    obtain ⟨list, old, files⟩ := standing.underWay turn inside
    exact ⟨list, mem_append_left _ old, files⟩
  · rw [Event.finished_opened]
    exact standing.done
  · intro turn inside file within again
    obtain ⟨list, old, files⟩ := standing.underWay turn inside
    rw [files] at again
    exact new list old file (mem_of_mem_writingOrder again) (mem_of_mem_writingOrder within)
  · intro turn head file within
    exact required turn head file (mem_of_mem_writingOrder within)

theorem advance {earlier later : List Path}
    (standing : context.Standing start (⟨earlier, file, later⟩ :: turns) trace progress) (code : Text) :
    context.Standing start (resume (earlier ++ [file]) later turns)
      (trace ++ [.ended file code]) progress := by
  obtain ⟨⟨own, listed, order⟩, underWay⟩ := forall_mem_cons.mp standing.underWay
  obtain ⟨begun, done⟩ := forall_mem_cons.mp standing.done
  obtain ⟨outside, apart⟩ := pairwise_cons.mp standing.apart
  have files : (earlier ++ [file]) ++ later = earlier ++ file :: later := append_assoc ..
  have within : file ∈ earlier ++ file :: later := mem_append_right _ mem_cons_self
  have accounts : context.Accounts start (trace ++ [.ended file code]) progress := by
    refine standing.toAccounts.ended ⟨own, listed, ?_⟩
    rw [← order]
    exact within
  suffices between : context.Between start turns own (earlier ++ [file]) later
      (trace ++ [.ended file code]) progress from between.standing
  refine ⟨accounts, ?_, files.trans order, ?_, ?_, ?_, ?_, ?_, apart, ?_, standing.nested.of_cons⟩
  · rwa [Event.groups_ended]
  · intro other inList
    rw [files] at inList
    rw [Event.finished_ended, mem_append, begun other inList, mem_append]
  · rw [Event.groups_ended, Event.finished_ended, files]
    intro list member
    rcases standing.settled list member with ended | ⟨turn, inside, same⟩
    · exact .inl fun other ordered => mem_append_left _ (ended other ordered)
    · rcases mem_cons.mp inside with rfl | inside
      · exact .inr (.inl same)
      · exact .inr (.inr ⟨turn, inside, same⟩)
  · rw [Event.groups_ended]
    exact underWay
  · intro turn inside other inFiles
    have differs : other ≠ file := by
      rintro rfl
      exact outside turn inside other within inFiles
    rw [Event.finished_ended, mem_append, mem_singleton, or_iff_left differs]
    exact done turn inside other inFiles
  · rw [files]
    exact outside
  · intro turn head other inList
    rw [files] at inList
    cases turns with
    | nil => cases head
    | cons outer others =>
      cases head
      exact (isChain_cons_cons.mp standing.nested).1 other inList

end Standing

end Context

end PageScript
