import Mathlib.Data.List.Nodup
import PageScript.Asset
import PageScript.Proofs.Lists

/-! A set that registrations and merges have made is the set of all that was registered, in order. -/

open List

namespace PageScript.AssetSet

variable {a b : AssetSet} {met others : List Asset}

def paths (assets : AssetSet) : List String :=
  assets.items.map (·.path)

structure Sound (assets : AssetSet) : Prop where
  distinct : assets.paths.Nodup
  index : ∀ path, assets.contains path = true ↔ path ∈ assets.paths

theorem Sound.add {assets : AssetSet} (sound : assets.Sound) (path : String) (kind : AssetKind) :
    (assets.add path kind).Sound := by
  unfold AssetSet.add
  by_cases known : assets.contains path = true
  · rwa [if_pos known]
  · have fresh : path ∉ assets.paths := fun member => known ((sound.index path).mpr member)
    rw [if_neg known]
    constructor
    · rw [paths, map_append, map_singleton, ← concat_eq_append, nodup_concat]
      exact ⟨fresh, sound.distinct⟩
    · intro other
      have before := sound.index other
      simp only [contains, paths, contains_iff_mem, mem_cons, map_append,
        mem_append, map_cons, map_nil, not_mem_nil, or_false] at before ⊢
      rw [before, or_comm]

theorem items_add (assets : AssetSet) (path : String) (kind : AssetKind) :
    assets.items <+: (assets.add path kind).items := by
  unfold add
  split
  · exact prefix_refl _
  · exact prefix_append _ _

theorem addAll_append (assets : AssetSet) (first second : List Asset) :
    assets.addAll (first ++ second) = (assets.addAll first).addAll second :=
  foldl_append

/-- Of some assets, those that adding them makes new items of a set. -/
def fresh (assets : AssetSet) (others : List Asset) : List Asset :=
  (firstsBy Asset.path others).filter (! assets.contains ·.path)

theorem addAll_eq (assets : AssetSet) (others : List Asset) :
    assets.addAll others =
      ⟨assets.items ++ assets.fresh others,
        ((assets.fresh others).map (·.path)).reverse ++ assets.seen⟩ := by
  induction others generalizing assets with
  | nil => simp [addAll, fresh, firstsBy]
  | cons first rest ih =>
    change (assets.add first.path first.kind).addAll rest = _
    rw [ih]
    by_cases known : assets.contains first.path = true
    · have same : assets.fresh (first :: rest) = assets.fresh rest := by
        rw [fresh, firstsBy, filter_cons_of_neg (by simp [known]), filter_filter, fresh]
        refine filter_congr fun other _ => ?_
        by_cases again : other.path = first.path <;> simp [again, known]
      rw [add, if_pos known, same]
    · have more : assets.fresh (first :: rest) =
          first :: (assets.add first.path first.kind).fresh rest := by
        rw [fresh, firstsBy, filter_cons_of_pos (by simp [known]), filter_filter, fresh, add,
          if_neg known]
        refine congrArg _ (filter_congr fun other _ => ?_)
        simp [contains, Bool.and_comm]
      rw [more, add, if_neg known]
      simp

theorem contains_addAll (assets : AssetSet) {asset : Asset} (member : asset ∈ others) :
    (assets.addAll others).contains asset.path = true := by
  rw [addAll_eq, contains, contains_iff_mem, mem_append, mem_reverse]
  by_cases known : assets.contains asset.path = true
  · exact .inr (contains_iff_mem.mp known)
  · obtain ⟨first, kept, same⟩ := mem_map.mp (mem_map_firstsBy Asset.path member)
    rw [← same] at known ⊢
    exact .inl (mem_map_of_mem (mem_filter.mpr ⟨kept, by simp [known]⟩))

theorem addAll_firstsBy (assets : AssetSet) (others : List Asset) :
    assets.addAll (firstsBy Asset.path others) = assets.addAll others := by
  rw [addAll_eq, addAll_eq, fresh, firstsBy_of_nodup _ (nodup_firstsBy _ others)]
  rfl

theorem items_addAll_empty (met : List Asset) :
    (({} : AssetSet).addAll met).items = firstsBy Asset.path met := by
  rw [addAll_eq]
  exact filter_eq_self.mpr fun _ _ => rfl

/-- What was registered, in order, in the making of a set. -/
inductive Gathers : List Asset → AssetSet → Prop
  | empty : Gathers [] {}
  | add {met : List Asset} {assets : AssetSet} (gathers : Gathers met assets) (asset : Asset) :
      Gathers (met ++ [asset]) (assets.add asset.path asset.kind)
  | merge {met others : List Asset} {assets other : AssetSet} (gathers : Gathers met assets)
      (gathered : Gathers others other) : Gathers (met ++ others) (assets.merge other)

theorem Gathers.eq_addAll (gathers : Gathers met a) : a = ({} : AssetSet).addAll met := by
  induction gathers with
  | empty => rfl
  | add _ asset ih =>
    rw [addAll_append, ← ih]
    rfl
  | merge _ _ left right =>
    rw [addAll_append, ← left, right, AssetSet.merge, items_addAll_empty, addAll_firstsBy]

theorem Gathers.sound (gathers : Gathers met a) : a.Sound := by
  have made := gathers.eq_addAll
  constructor
  · rw [paths, made, items_addAll_empty]
    exact nodup_firstsBy _ met
  · intro path
    rw [made, addAll_eq, contains, paths, contains_iff_mem, append_nil, mem_reverse]
    rfl

theorem merge_of_known (known : ∀ asset ∈ b.items, a.contains asset.path = true) : a.merge b = a := by
  have none : a.fresh b.items = [] := by
    refine filter_eq_nil_iff.mpr fun asset member => ?_
    simp [known asset ((firstsBy_sublist _ _).subset member)]
  rw [merge, addAll_eq, none]
  simp

end PageScript.AssetSet
