import Mathlib.Data.List.Pairwise
import PageScript.Compile.Inclusion
import PageScript.Proofs.Lists

/-!
Files that declare the same class. A class is lost if the file that is favoured for it is dropped for
another one (`dropDuplicates_declares_iff`).
-/

open List

namespace PageScript

namespace DuplicatePolicy

/-- Of two files that declare a class the one at `index` stays: it comes first, or last. -/
def Favours (policy : DuplicatePolicy) (index other : Nat) : Prop :=
  match policy with
  | .firstWins => index ≤ other
  | .lastWins => other ≤ index

variable {policy : DuplicatePolicy} {index other third : Nat}

theorem Favours.refl (policy : DuplicatePolicy) (index : Nat) : policy.Favours index index := by
  cases policy <;> exact Nat.le_refl index

theorem Favours.antisymm (first : policy.Favours index other) (second : policy.Favours other index) :
    index = other := by
  cases policy <;> simp only [Favours] at first second <;> omega

theorem not_favours_trans (first : ¬ policy.Favours index other) (second : ¬ policy.Favours other third) :
    ¬ policy.Favours index third := by
  cases policy <;> simp only [Favours] at first second ⊢ <;> omega

end DuplicatePolicy

namespace Inclusion

open DuplicatePolicy (Favours)

variable {policy : DuplicatePolicy} {owners rest : List (String × Nat)} {inclusions : List Inclusion}
  {name class_ : String} {index position loser winner : Nat} {known others : String → Nat → Prop}
  {entry : Inclusion × Nat}

/-- A file declares a class for which another file is favoured. -/
def Loses (policy : DuplicatePolicy) (known : String → Nat → Prop) (index : Nat) : Prop :=
  ∃ name other, known name index ∧ known name other ∧ ¬ policy.Favours index other

private theorem loses_insert
    (grown : ∀ name index, known name index ↔ (name = class_ ∧ index = loser) ∨ others name index)
    (wins : others class_ winner) (beaten : ¬ policy.Favours loser winner) :
    Loses policy known index ↔ index = loser ∨ Loses policy others index := by
  constructor
  · rintro ⟨name, other, own, also, less⟩
    rcases (grown _ _).mp own with ⟨_, same⟩ | own
    · exact .inl same
    rcases (grown _ _).mp also with ⟨rfl, rfl⟩ | also
    · exact .inr ⟨_, winner, own, wins, DuplicatePolicy.not_favours_trans less beaten⟩
    · exact .inr ⟨name, other, own, also, less⟩
  · rintro (rfl | ⟨name, other, own, also, less⟩)
    · exact ⟨class_, winner, (grown _ _).mpr (.inl ⟨rfl, rfl⟩), (grown _ _).mpr (.inr wins), beaten⟩
    · exact ⟨name, other, (grown _ _).mpr (.inr own), (grown _ _).mpr (.inr also), less⟩

def Known (owners ahead : List (String × Nat)) (name : String) (index : Nat) : Prop :=
  owners.lookup name = some index ∨ (name, index) ∈ ahead

private theorem lookup_owner : ((class_, position) :: owners).lookup name = some index ↔
    (name = class_ ∧ index = position) ∨ (name ≠ class_ ∧ owners.lookup name = some index) := by
  rw [lookup_cons]
  by_cases same : name = class_
  · simp [same, eq_comm]
  · simp [same, beq_false_of_ne same]

private theorem known_cons : Known owners ((class_, position) :: rest) name index ↔
    (name = class_ ∧ index = position) ∨ Known owners rest name index := by
  unfold Known
  rw [mem_cons, Prod.mk.injEq, or_left_comm]

private theorem known_owned (free : owners.lookup class_ = none) :
    Known owners ((class_, position) :: rest) = Known ((class_, position) :: owners) rest := by
  funext name index
  refine propext (known_cons.trans ?_)
  unfold Known
  rw [lookup_owner, or_assoc]
  by_cases same : name = class_
  · simp [same, free]
  · simp [same]

private theorem known_replaced {first : Nat} (owner : owners.lookup class_ = some first) :
    Known owners ((class_, position) :: rest) name index ↔
      (name = class_ ∧ index = first) ∨ Known ((class_, position) :: owners) rest name index := by
  rw [known_cons]
  unfold Known
  rw [lookup_owner]
  by_cases same : name = class_
  · simp [same, owner, eq_comm, or_left_comm]
  · simp [same]

private theorem mem_losers_from {ahead : List (String × Nat)} (sorted : ahead.Pairwise (·.2 ≤ ·.2))
    (earlier : ∀ name first, owners.lookup name = some first → ∀ later ∈ ahead, first ≤ later.2) :
    index ∈ (clashesFrom policy owners ahead).map (·.loser policy) ↔
      Loses policy (Known owners ahead) index := by
  induction ahead generalizing owners with
  | nil =>
    constructor
    · intro member
      cases member
    · rintro ⟨name, other, own | absent, also | absent, less⟩
      · rw [own] at also
        cases also
        exact absurd (.refl policy index) less
      all_goals cases absent
  | cons declaration rest ih =>
    obtain ⟨class_, position⟩ := declaration
    obtain ⟨after, sorted⟩ := pairwise_cons.mp sorted
    have before (name : String) (first : Nat) (owner : owners.lookup name = some first) :
        ∀ later ∈ rest, first ≤ later.2 :=
      fun later member => earlier name first owner later (mem_cons_of_mem _ member)
    have kept := @ih owners sorted before
    have replaced := @ih ((class_, position) :: owners) sorted (by
      intro name first owner
      rcases lookup_owner.mp owner with ⟨_, rfl⟩ | ⟨_, owner⟩
      · exact after
      · exact before name first owner)
    unfold clashesFrom
    cases owner : owners.lookup class_ with
    | none => rw [known_owned owner, ← replaced]
    | some first =>
      dsimp only
      split
      · rename_i same
        have unchanged : Known owners ((class_, position) :: rest) = Known owners rest := by
          funext name index
          refine propext (known_cons.trans (or_iff_right_of_imp ?_))
          rintro ⟨rfl, rfl⟩
          exact .inl (same ▸ owner)
        rw [unchanged, ← kept]
      · rename_i other
        have less : first < position :=
          Nat.lt_of_le_of_ne (earlier class_ first owner _ mem_cons_self) other
        rw [map_cons, mem_cons]
        -- The one that loses is no longer known to the scan, the other one is.
        cases policy with
        | firstWins =>
          have beaten : ¬ Favours .firstWins position first := Nat.not_le.mpr less
          rw [if_neg (by decide), kept]
          exact (loses_insert (fun _ _ => known_cons) (.inl owner) beaten).symm
        | lastWins =>
          have beaten : ¬ Favours .lastWins first position := Nat.not_le.mpr less
          rw [if_pos rfl, replaced]
          exact (loses_insert (fun _ _ => known_replaced owner)
            (.inl (lookup_owner.mpr (.inl ⟨rfl, rfl⟩))) beaten).symm

theorem zipIdx_sorted (inclusions : List Inclusion) : inclusions.zipIdx.Pairwise (·.2 < ·.2) := by
  rw [← pairwise_map, zipIdx_map_snd]
  exact pairwise_lt_range'

def Declares (inclusions : List Inclusion) (name : String) (index : Nat) : Prop :=
  ∃ entry ∈ inclusions.zipIdx, name ∈ entry.1.declared ∧ entry.2 = index

private theorem mem_losers : index ∈ (clashes policy inclusions).map (·.loser policy) ↔
    Loses policy (Declares inclusions) index := by
  have sorted : (inclusions.zipIdx.flatMap fun entry =>
      entry.1.declared.map (·, entry.2)).Pairwise (·.2 ≤ ·.2) := by
    rw [pairwise_flatMap]
    refine ⟨fun _ _ => pairwise_map.mpr (pairwise_of_forall fun _ _ => Nat.le_refl _), ?_⟩
    refine (zipIdx_sorted inclusions).imp ?_
    intro first second less left own right other
    obtain ⟨_, _, rfl⟩ := mem_map.mp own
    obtain ⟨_, _, rfl⟩ := mem_map.mp other
    exact Nat.le_of_lt less
  have known : Known [] (inclusions.zipIdx.flatMap fun entry => entry.1.declared.map (·, entry.2)) =
      Declares inclusions := by
    funext name index
    refine propext ⟨?_, ?_⟩
    · rintro (absent | member)
      · cases absent
      · obtain ⟨entry, within, own⟩ := mem_flatMap.mp member
        obtain ⟨_, declared, same⟩ := mem_map.mp own
        cases same
        exact ⟨entry, within, declared, rfl⟩
    · rintro ⟨entry, within, declared, rfl⟩
      exact .inr (mem_flatMap.mpr ⟨entry, within, mem_map_of_mem declared⟩)
  rw [← known]
  refine mem_losers_from sorted ?_
  intro name first owner
  cases owner

/-- A file is favoured for every class that it declares. -/
def Wins (policy : DuplicatePolicy) (inclusions : List Inclusion) (entry : Inclusion × Nat) : Prop :=
  ∀ name ∈ entry.1.declared, ∀ other ∈ inclusions.zipIdx, name ∈ other.1.declared →
    policy.Favours entry.2 other.2

private theorem kept_iff_wins (member : entry ∈ inclusions.zipIdx) :
    entry.2 ∉ (clashes policy inclusions).map (·.loser policy) ↔ Wins policy inclusions entry := by
  rw [mem_losers]
  constructor
  · intro wins name own other within also
    by_contra less
    exact wins ⟨name, other.2, ⟨entry, member, own, rfl⟩, ⟨other, within, also, rfl⟩, less⟩
  · rintro wins ⟨name, _, ⟨same, there, own, equal⟩, ⟨other, within, also, rfl⟩, less⟩
    have alike : same.1 = entry.1 := by
      have found := mem_zipIdx_iff_getElem?.mp there
      rw [equal, mem_zipIdx_iff_getElem?.mp member] at found
      exact (Option.some.inj found).symm
    exact less (wins name (alike ▸ own) other within also)

def survivors (policy : DuplicatePolicy) (inclusions : List Inclusion) : List (Inclusion × Nat) :=
  inclusions.zipIdx.filter fun entry =>
    ! ((clashes policy inclusions).map (·.loser policy)).contains entry.2

private theorem mem_survivors :
    entry ∈ survivors policy inclusions ↔ entry ∈ inclusions.zipIdx ∧ Wins policy inclusions entry := by
  rw [survivors, mem_filter, Bool.not_eq_true', ← Bool.not_eq_true, contains_iff_mem]
  exact and_congr_right kept_iff_wins

/-- The diagnostic of a class that is declared in two files, at the one that is dropped. -/
def clashNote (name : String) (first second dropped : Path) : Diagnostic where
  topic := .resolution
  message := s!"duplicate class {name} in {first.quoted} and {second.quoted}"
  file := some dropped.text

def Clash.note (policy : DuplicatePolicy) (inclusions : List Inclusion) (clash : Clash) : Diagnostic :=
  clashNote clash.name (pathAt inclusions clash.first) (pathAt inclusions clash.second)
    (pathAt inclusions (clash.loser policy))

theorem pathAt_of_mem (member : entry ∈ inclusions.zipIdx) :
    pathAt inclusions entry.2 = entry.1.path := by
  rw [pathAt, mem_zipIdx_iff_getElem?.mp member]
  rfl

theorem pathAt_loser {clash : Clash} (member : clash ∈ clashes policy inclusions) :
    ∃ inclusion ∈ inclusions, pathAt inclusions (clash.loser policy) = inclusion.path := by
  obtain ⟨_, _, ⟨entry, within, _, same⟩, _⟩ := mem_losers.mp (mem_map_of_mem member)
  exact ⟨entry.1, fst_mem_of_mem_zipIdx within, same ▸ pathAt_of_mem within⟩

theorem dropDuplicates_eq (policy : DuplicatePolicy) (inclusions : List Inclusion) (progress : Progress) :
    dropDuplicates policy inclusions progress =
      ((survivors policy inclusions).map fun entry => { entry.1 with order := entry.2 },
        { progress with diagnostics := progress.diagnostics ++
            (clashes policy inclusions).map (·.note policy inclusions) }) := by
  refine Prod.ext ?_ ?_
  · rw [survivors, ← filterMap_eq_map', filterMap_filter]
    refine congrArg (List.filterMap · inclusions.zipIdx) (funext fun entry => ?_)
    obtain ⟨inclusion, index⟩ := entry
    dsimp only
    cases ((clashes policy inclusions).map (·.loser policy)).contains index <;> rfl
  · unfold dropDuplicates
    generalize clashes policy inclusions = clashes
    induction clashes generalizing progress with
    | nil => simp
    | cons clash rest ih =>
      rw [map_cons, append_cons]
      exact ih (reportClash policy inclusions progress clash)

/-- The files that stay are those that are favoured for all their classes, in their order. No two of them
declare the same class, and each other file is named by a diagnostic. -/
theorem dropDuplicates_survivors (policy : DuplicatePolicy) (inclusions : List Inclusion)
    (progress : Progress) :
    ∃ (kept : List (Inclusion × Nat)) (notes : List Diagnostic),
      dropDuplicates policy inclusions progress =
        (kept.map fun entry => { entry.1 with order := entry.2 },
          { progress with diagnostics := progress.diagnostics ++ notes }) ∧
      kept.Sublist inclusions.zipIdx ∧
      kept.Pairwise (fun first second => ∀ name ∈ first.1.declared, name ∉ second.1.declared) ∧
      (∀ entry ∈ inclusions.zipIdx, entry ∈ kept ↔ Wins policy inclusions entry) ∧
      ∀ entry ∈ inclusions.zipIdx, entry ∉ kept →
        ∃ note ∈ notes, note.topic = .resolution ∧ note.file = some entry.1.path.text := by
  refine ⟨survivors policy inclusions, _, dropDuplicates_eq policy inclusions progress,
    List.filter_sublist, ?_, ?_, ?_⟩
  · refine ((zipIdx_sorted inclusions).sublist List.filter_sublist).imp_of_mem ?_
    intro first second own other less name declared also
    obtain ⟨there, wins⟩ := mem_survivors.mp own
    obtain ⟨within, again⟩ := mem_survivors.mp other
    have same := (wins name declared second within also).antisymm (again name also first there declared)
    omega
  · intro entry member
    exact mem_survivors.trans (and_iff_right member)
  · intro entry member dropped
    have loses : entry.2 ∈ (clashes policy inclusions).map (·.loser policy) := by
      by_contra wins
      exact dropped (mem_survivors.mpr ⟨member, (kept_iff_wins member).mp wins⟩)
    obtain ⟨clash, found, same⟩ := List.mem_map.mp loses
    refine ⟨clash.note policy inclusions, List.mem_map_of_mem found, rfl, ?_⟩
    rw [← pathAt_of_mem member, ← same]
    rfl

/-- A class is still declared exactly if a file that declares it is favoured for all its classes. -/
theorem dropDuplicates_declares_iff (policy : DuplicatePolicy) (inclusions : List Inclusion)
    (progress : Progress) (name : String) :
    (∃ kept ∈ (dropDuplicates policy inclusions progress).1, name ∈ kept.declared) ↔
      ∃ entry ∈ inclusions.zipIdx, name ∈ entry.1.declared ∧ Wins policy inclusions entry := by
  rw [dropDuplicates_eq]
  constructor
  · rintro ⟨_, member, declared⟩
    obtain ⟨entry, stays, rfl⟩ := List.mem_map.mp member
    obtain ⟨there, wins⟩ := mem_survivors.mp stays
    exact ⟨entry, there, declared, wins⟩
  · rintro ⟨entry, there, declared, wins⟩
    exact ⟨_, List.mem_map_of_mem (mem_survivors.mpr ⟨there, wins⟩), declared⟩

def declaring (declared : List String) : Inclusion where
  path := ⟨"/"⟩
  code := []
  declared := declared
  parents := []
  order := 0

/-- The third file is dropped for a class of the second one, which is dropped for a class of the first. -/
theorem dropDuplicates_loses_class :
    (dropDuplicates .firstWins ([["A"], ["A", "B"], ["B"]].map declaring) {}).1.map (·.declared) = [["A"]] := by
  decide +kernel

end Inclusion

end PageScript
