import PageScript.Keyed
import PageScript.Proofs.Lists

/-! Lists of pairs as maps from keys, and the order of their keys. -/

open List

namespace PageScript.Keyed

variable {α : Type}
variable {key other : String} {value : α} {keyed added : Keyed α} {entry : String × α}

theorem get?_put_self (key : String) (value : α) (keyed : Keyed α) :
    get? (put key value keyed) key = some value := by
  induction keyed with
  | nil => simp [put, get?]
  | cons entry rest ih =>
    obtain ⟨other, old⟩ := entry
    unfold get? at ih
    rw [put]
    by_cases before : key < other
    · simp [before, get?]
    · by_cases same : key = other
      · simp [same, get?]
      · have differs : (key == other) = false := by simp [same]
        simp [before, same, get?, lookup_cons, differs, ih]

theorem get?_put_of_ne (differs : other ≠ key) (value : α) (keyed : Keyed α) :
    get? (put key value keyed) other = get? keyed other := by
  have unequal : (other == key) = false := by simp [differs]
  induction keyed with
  | nil => simp [put, get?, lookup_cons, unequal]
  | cons entry rest ih =>
    obtain ⟨first, old⟩ := entry
    unfold get? at ih
    rw [put]
    by_cases before : key < first
    · simp [before, get?, lookup_cons, unequal]
    · by_cases same : key = first
      · subst same
        simp [get?, lookup_cons, unequal]
      · rw [if_neg before, if_neg same]
        unfold get?
        rw [lookup_cons, lookup_cons, ih]

theorem mem_put (member : entry ∈ put key value keyed) : entry = (key, value) ∨ entry ∈ keyed := by
  induction keyed with
  | nil => exact .inl (mem_singleton.mp member)
  | cons first rest ih =>
    obtain ⟨other, old⟩ := first
    rw [put] at member
    split at member
    · exact mem_cons.mp member
    split at member
    · exact (mem_cons.mp member).imp_right (mem_cons_of_mem _)
    · rcases mem_cons.mp member with rfl | later
      · exact .inr mem_cons_self
      · exact (ih later).imp_right (mem_cons_of_mem _)

theorem keys_put_perm (fresh : key ∉ keys keyed) (value : α) :
    (keys (put key value keyed)).Perm (key :: keys keyed) := by
  induction keyed with
  | nil => exact .refl _
  | cons entry rest ih =>
    obtain ⟨other, old⟩ := entry
    rw [put]
    by_cases before : key < other
    · rw [if_pos before]
      exact .refl _
    · by_cases same : key = other
      · exact absurd (by simp [keys, same]) fresh
      · rw [if_neg before, if_neg same]
        have absent : key ∉ keys rest := fun within => fresh (mem_cons_of_mem _ within)
        exact ((ih absent).cons other).trans (.swap key other (keys rest))

theorem putAll_append (first second keyed : Keyed α) :
    putAll (first ++ second) keyed = putAll second (putAll first keyed) :=
  foldl_append

theorem keys_putAll_perm (distinct : (keys added).Nodup) (apart : ∀ key ∈ keys added, key ∉ keys keyed) :
    (keys (putAll added keyed)).Perm (keys added ++ keys keyed) := by
  induction added generalizing keyed with
  | nil => exact .refl _
  | cons entry rest ih =>
    obtain ⟨key, value⟩ := entry
    obtain ⟨new, others⟩ := nodup_cons.mp distinct
    have grown := keys_put_perm (apart key mem_cons_self) value
    have still : ∀ other ∈ keys rest, other ∉ keys (put key value keyed) := by
      intro other member again
      rcases mem_cons.mp (grown.mem_iff.mp again) with same | old
      · rw [same] at member
        exact new member
      · exact apart other (mem_cons_of_mem _ member) old
    exact (ih others still).trans ((grown.append_left (keys rest)).trans perm_middle)

theorem keys_putAll_nil_perm (distinct : (keys added).Nodup) :
    (keys (putAll added [])).Perm (keys added) := by
  have perm : (keys (putAll added [])).Perm (keys added ++ []) :=
    keys_putAll_perm distinct fun _ _ => not_mem_nil
  rwa [append_nil] at perm

private theorem get?_putAll_of_absent (absent : key ∉ keys added) :
    get? (putAll added keyed) key = get? keyed key := by
  induction added generalizing keyed with
  | nil => rfl
  | cons entry rest ih =>
    obtain ⟨other, value⟩ := entry
    have others : key ∉ keys rest := fun within => absent (mem_cons_of_mem _ within)
    have differs : key ≠ other := fun same => absent (by simp [keys, same])
    exact (ih others).trans (get?_put_of_ne differs value keyed)

theorem get?_cons_self (key : String) (value : α) (rest : Keyed α) :
    get? ((key, value) :: rest) key = some value :=
  lookup_cons_self

theorem get?_cons_of_ne (differs : key ≠ other) (value : α) (rest : Keyed α) :
    get? ((other, value) :: rest) key = get? rest key := by
  unfold get?
  rw [lookup_cons, beq_eq_false_iff_ne.mpr differs]

theorem get?_of_not_mem (absent : key ∉ keys keyed) : get? keyed key = none := by
  rw [Option.eq_none_iff_forall_ne_some]
  intro value found
  exact absent (mem_map_of_mem (mem_of_lookup found))

theorem mem_putAll (member : entry ∈ putAll added keyed) : entry ∈ added ∨ entry ∈ keyed := by
  induction added generalizing keyed with
  | nil => exact .inr member
  | cons first rest ih =>
    rcases ih member with within | old
    · exact .inl (mem_cons_of_mem _ within)
    · rcases mem_put old with rfl | before
      · exact .inl mem_cons_self
      · exact .inr before

theorem ne_of_mem (absent : key ∉ keys keyed) (member : entry ∈ keyed) : entry.1 ≠ key := by
  rintro rfl
  exact absent (mem_map_of_mem member)

theorem mem_iff_get? (distinct : (keys keyed).Nodup) :
    (key, value) ∈ keyed ↔ get? keyed key = some value := by
  refine ⟨fun member => ?_, mem_of_lookup⟩
  induction keyed with
  | nil => cases member
  | cons entry rest ih =>
    obtain ⟨new, others⟩ := nodup_cons.mp distinct
    rcases mem_cons.mp member with rfl | later
    · exact get?_cons_self key value rest
    · exact (get?_cons_of_ne (ne_of_mem new later) entry.2 rest).trans (ih others later)

private theorem get?_putAll_of_mem_keys (member : key ∈ keys added) :
    ∃ value, get? (putAll added keyed) key = some value ∧ (key, value) ∈ added := by
  induction added generalizing keyed with
  | nil => cases member
  | cons entry rest ih =>
    by_cases later : key ∈ keys rest
    · obtain ⟨value, found, within⟩ := ih later
      exact ⟨value, found, mem_cons_of_mem _ within⟩
    · rcases mem_cons.mp member with rfl | within
      · exact ⟨_, (get?_putAll_of_absent later).trans (get?_put_self _ _ _), mem_cons_self⟩
      · exact absurd within later

theorem get?_putAll_of_mem (distinct : (keys added).Nodup) (member : (key, value) ∈ added) :
    get? (putAll added keyed) key = some value := by
  obtain ⟨other, found, within⟩ := get?_putAll_of_mem_keys (mem_map_of_mem member)
  rwa [mem_iff_get? distinct, (mem_iff_get? distinct).mp member, ← found, eq_comm] at within

theorem get?_putAll_nil_iff
    (functional : ∀ {key value other}, (key, value) ∈ added → (key, other) ∈ added → value = other) :
    get? (putAll added []) key = some value ↔ (key, value) ∈ added := by
  have mem {other : α} (found : get? (putAll added []) key = some other) : (key, other) ∈ added :=
    (mem_putAll (mem_of_lookup found)).resolve_right not_mem_nil
  refine ⟨mem, fun member => ?_⟩
  obtain ⟨other, found, within⟩ := get?_putAll_of_mem_keys (mem_map_of_mem member)
  rw [found, functional member within]

def Sorted (keyed : Keyed α) : Prop :=
  (keys keyed).Pairwise (· < ·)

theorem mem_keys_put (member : other ∈ keys (put key value keyed)) : other = key ∨ other ∈ keys keyed := by
  obtain ⟨entry, within, rfl⟩ := mem_map.mp member
  rcases mem_put within with rfl | old
  · exact .inl rfl
  · exact .inr (mem_map_of_mem old)

theorem Sorted.put (sorted : Sorted keyed) (key : String) (value : α) :
    Sorted (put key value keyed) := by
  induction keyed with
  | nil => exact pairwise_singleton _ _
  | cons entry rest ih =>
    obtain ⟨other, old⟩ := entry
    obtain ⟨first, later⟩ := pairwise_cons.mp sorted
    rw [Keyed.put]
    by_cases before : key < other
    · rw [if_pos before]
      refine pairwise_cons.mpr ⟨fun next member => ?_, sorted⟩
      rcases mem_cons.mp member with rfl | within
      · exact before
      · exact String.lt_trans before (first next within)
    · rw [if_neg before]
      by_cases same : key = other
      · rw [if_pos same, same]
        exact sorted
      · rw [if_neg same]
        refine pairwise_cons.mpr ⟨fun next member => ?_, ih later⟩
        rcases mem_keys_put member with rfl | within
        · exact Std.lt_of_le_of_ne (String.not_lt.mp before) (Ne.symm same)
        · exact first next within

theorem Sorted.putAll (sorted : Sorted keyed) (added : Keyed α) : Sorted (putAll added keyed) := by
  induction added generalizing keyed with
  | nil => exact sorted
  | cons entry rest ih => exact ih (sorted.put entry.1 entry.2)

theorem sorted_ofList (pairs : List (String × α)) : Sorted (ofList pairs) :=
  (show Sorted ([] : Keyed α) from .nil).putAll pairs

theorem Sorted.nodup (sorted : Sorted keyed) : (keys keyed).Nodup := by
  apply List.Pairwise.imp _ sorted
  rintro left right before rfl
  exact String.lt_irrefl left before

theorem Sorted.ext {other : Keyed α} (sorted : Sorted keyed) (ordered : Sorted other)
    (same : ∀ key, get? keyed key = get? other key) : keyed = other := by
  refine eq_of_pairwise (fun a b => a.1 < b.1)
    (fun before after => String.lt_irrefl _ (String.lt_trans before after))
    (pairwise_map.mp sorted) (pairwise_map.mp ordered) ?_
  rintro ⟨key, value⟩
  rw [mem_iff_get? sorted.nodup, mem_iff_get? ordered.nodup, same]

theorem put_of_last (last : ∀ other ∈ keys keyed, other < key) (value : α) :
    put key value keyed = keyed ++ [(key, value)] := by
  induction keyed with
  | nil => rfl
  | cons entry rest ih =>
    obtain ⟨other, old⟩ := entry
    have after : other < key := last other mem_cons_self
    have later : ¬ key < other := fun before => String.lt_irrefl _ (String.lt_trans before after)
    have apart : key ≠ other := by
      rintro rfl
      exact String.lt_irrefl _ after
    rw [put, if_neg later, if_neg apart, ih fun next member => last next (mem_cons_of_mem _ member)]
    rfl

theorem Sorted.last {rest : Keyed α} (sorted : Sorted (keyed ++ (key, value) :: rest)) :
    ∀ other ∈ keys keyed, other < key := by
  unfold Sorted keys at sorted
  rw [map_append, pairwise_append] at sorted
  intro other member
  exact sorted.2.2 other member key mem_cons_self

private theorem putAll_of_sorted (keyed added : Keyed α) (sorted : Sorted (keyed ++ added)) :
    putAll added keyed = keyed ++ added := by
  induction added generalizing keyed with
  | nil => exact (append_nil _).symm
  | cons entry rest ih =>
    obtain ⟨key, value⟩ := entry
    change putAll rest (put key value keyed) = _
    rw [put_of_last sorted.last, ih]
    · rw [append_assoc, singleton_append]
    · rwa [append_assoc, singleton_append]

theorem ofList_of_sorted (sorted : Sorted keyed) : ofList keyed = keyed :=
  putAll_of_sorted [] keyed sorted

theorem mem_putNew (member : entry ∈ putNew key value keyed) : entry = (key, value) ∨ entry ∈ keyed := by
  unfold putNew at member
  split at member
  · exact .inr member
  · exact mem_put member

/-- The keys go up, and each value stands under its own name. -/
structure Filed (name : α → String) (keyed : Keyed α) : Prop where
  sorted : Sorted keyed
  named : ∀ entry ∈ keyed, name entry.2 = entry.1

namespace Filed

variable {name : α → String}

theorem nil : Filed name [] :=
  ⟨.nil, forall_mem_nil _⟩

theorem putNew (filed : Filed name keyed) (value : α) :
    Filed name (putNew (name value) value keyed) := by
  constructor
  · unfold Keyed.putNew
    split
    · exact filed.sorted
    · exact filed.sorted.put _ _
  · intro entry member
    rcases mem_putNew member with rfl | old
    · rfl
    · exact filed.named entry old

theorem foldl_putNew (keyed added : Keyed α) (filed : Filed name (keyed ++ added)) :
    (added.map (·.2)).foldl (fun all value => Keyed.putNew (name value) value all) keyed =
      keyed ++ added := by
  induction added generalizing keyed with
  | nil => exact (append_nil _).symm
  | cons entry rest ih =>
    obtain ⟨key, value⟩ := entry
    have own : name value = key := filed.named (key, value) (by simp)
    have last := filed.sorted.last
    have absent : get? keyed key = none :=
      get?_of_not_mem fun member => String.lt_irrefl key (last key member)
    have filedNext : Keyed.putNew (name value) value keyed = keyed ++ [(key, value)] := by
      rw [own, Keyed.putNew, absent, if_neg (by simp), put_of_last last]
    rw [map_cons, foldl_cons, filedNext, ih]
    · rw [append_assoc, singleton_append]
    · rwa [append_assoc, singleton_append]

end Filed

end PageScript.Keyed
