import PageScript.Compile.Expansion
import PageScript.Proofs.Asset

/-! Jobs that only note modules for later (`expandUses_deferred`). -/

open List

namespace PageScript

variable {context : Context} {ignored : List String}

namespace Progress

def isSettled (ignored : List String) (progress : Progress) (name : String) : Bool :=
  ignored.contains name || progress.compiledModules.contains name ||
    progress.deferredModules.contains name

/-- The names that are to be noted of those that are mentioned, in the order of first mention. -/
def waiting (ignored : List String) (progress : Progress) (names : List String) : List String :=
  (firstsBy id names).filter (! progress.isSettled ignored ·)

def deferAll (progress : Progress) (names : List String) : Progress :=
  { progress with
    deferredModules := progress.deferredModules ++ names
    assets := progress.assets.addAll (names.map (⟨·, .module⟩)) }

/-- What the mention of a module does. -/
def mention (ignored : List String) (progress : Progress) (name : String) : Progress :=
  if ignored.contains name || progress.compiledModules.contains name then progress
  else progress.deferModule name

private theorem mention_eq (ignored : List String) (progress : Progress) (name : String) :
    progress.mention ignored name =
      if progress.isSettled ignored name then progress else progress.deferAll [name] := by
  unfold mention isSettled deferModule
  cases ignored.contains name || progress.compiledModules.contains name with
  | true => rfl
  | false => rfl

private theorem foldl_mention (progress : Progress) (names : List String) :
    names.foldl (mention ignored) progress = progress.deferAll (progress.waiting ignored names) := by
  induction names generalizing progress with
  | nil => simp [waiting, firstsBy, deferAll, AssetSet.addAll]
  | cons first rest ih =>
    rw [foldl_cons, ih, mention_eq]
    by_cases settled : progress.isSettled ignored first = true
    · have same : progress.waiting ignored (first :: rest) = progress.waiting ignored rest := by
        rw [waiting, firstsBy, filter_cons_of_neg (by simp [settled]), filter_filter, waiting]
        refine filter_congr fun other _ => ?_
        by_cases again : other = first <;> simp [again, settled]
      rw [if_pos settled, same]
    · have more : progress.waiting ignored (first :: rest) =
          first :: (progress.deferAll [first]).waiting ignored rest := by
        rw [waiting, firstsBy, filter_cons_of_pos (by simp [settled]), filter_filter, waiting]
        refine congrArg _ (filter_congr fun other _ => ?_)
        simp [isSettled, deferAll, Bool.and_assoc]
      rw [if_neg settled, more]
      simp [deferAll, AssetSet.addAll]

end Progress

namespace Context

open Progress Text

theorem useAll_deferred (deferred : context.settings.buildModules = false) (progress : Progress)
    (names : List String) :
    useAll (context.useModule context.useFuel []) progress names =
      some ([], names.foldl (mention context.settings.ignored) progress) := by
  induction names generalizing progress with
  | nil => rfl
  | cons name rest ih =>
    have used : context.useModule context.useFuel [] progress name =
        some ([], progress.mention context.settings.ignored name) := by
      unfold useFuel useModule useOne mention
      rw [deferred]
      split <;> rfl
    rw [useAll, used, Option.bind_eq_bind, Option.bind_some]
    dsimp only
    rw [ih]
    rfl

theorem useDirectives_deferred (deferred : context.settings.buildModules = false) (progress : Progress)
    (pieces : List (Piece (List Text))) :
    context.useDirectives progress pieces =
      some (writePieces (fun _ _ => []) pieces,
        ((pieces.filterMap Piece.value?).flatten.map String.ofList).foldl
          (mention context.settings.ignored) progress) := by
  unfold useDirectives
  induction pieces generalizing progress with
  | nil => rfl
  | cons piece rest ih =>
    cases piece with
    | plain c =>
      rw [weave?, ih]
      rfl
    | found lexeme names =>
      rw [weave?, useAll_deferred deferred, Option.bind_some]
      dsimp only [filterMap_cons, Piece.value?]
      rw [ih, flatten_cons, map_append, foldl_append]
      rfl

/-- Where modules are not built, the script is left without its `use` directives, whatever the modules and
the files are. The names that it mentions and that are neither ignored nor compiled nor noted are noted
once each, in the order of first mention, and are assets from then on. Nothing else is changed. -/
theorem expandUses_deferred (deferred : context.settings.buildModules = false) (progress : Progress)
    (code : Text) :
    let fresh := progress.waiting context.settings.ignored
      ((Directive.usedModules code).map String.ofList)
    context.expandUses progress code = some (Directive.dropUses code, { progress with
        deferredModules := progress.deferredModules ++ fresh
        assets := progress.assets.addAll (fresh.map (⟨·, .module⟩)) }) ∧
      fresh.Nodup ∧
      (∀ name, name ∈ fresh ↔ name ∈ (Directive.usedModules code).map String.ofList ∧
        name ∉ context.settings.ignored ∧ name ∉ progress.compiledModules ∧
        name ∉ progress.deferredModules) ∧
      ∀ name ∈ fresh, (progress.assets.addAll (fresh.map (⟨·, .module⟩))).contains name = true := by
  intro fresh
  refine ⟨?_, ?_, ?_, ?_⟩
  · rw [expandUses, useDirectives_deferred deferred]
    exact congrArg (fun after => some (Directive.dropUses code, after)) (foldl_mention progress _)
  · have distinct := nodup_firstsBy id ((Directive.usedModules code).map String.ofList)
    rw [map_id] at distinct
    exact distinct.filter _
  · intro name
    have mentioned : name ∈ firstsBy id ((Directive.usedModules code).map String.ofList) ↔
        name ∈ (Directive.usedModules code).map String.ofList := by
      refine ⟨fun member => (firstsBy_sublist id _).subset member, fun member => ?_⟩
      have kept := mem_map_firstsBy id member
      rwa [map_id] at kept
    refine mem_filter.trans ?_
    rw [mentioned]
    simp [isSettled, and_assoc]
  · intro name member
    exact progress.assets.contains_addAll (mem_map_of_mem (f := (⟨·, .module⟩)) member)

/-- A name that is a path already keeps its kind, and one that is noted is not noted again. -/
theorem expandUses_deferred_twice :
    ∃ context : Context, ∃ progress : Progress, context.settings.buildModules = false ∧
      (context.expandUses progress "@lx:use B, A;x@lx:use C, A, B;".toList).map
          (fun answer => (answer.1, answer.2.deferredModules, answer.2.assets.items)) =
        some (['x'], ["C", "B", "A"], [⟨"A", .script⟩, ⟨"B", .module⟩]) := by
  let context : Context := {
    tree := { entries := [], home := [] }
    compiler := { modules := { root := ⟨"/"⟩, modules := [] }, widgets := .empty }
    settings := { side := .client, buildModules := false } }
  let progress : Progress := { deferredModules := ["C"], assets := ({} : AssetSet).add "A" .script }
  have expanded := (expandUses_deferred (rfl : context.settings.buildModules = false) progress
    "@lx:use B, A;x@lx:use C, A, B;".toList).1
  exact ⟨context, progress, rfl, by rw [expanded]; decide +kernel⟩

end Context

end PageScript
