import Mathlib.Algebra.BigOperators.Group.Finset.Basic
import Mathlib.Algebra.Order.BigOperators.Group.List
import Mathlib.Algebra.Order.Group.Nat
import Mathlib.Algebra.Ring.Nat
import Mathlib.Logic.Relation
import PageScript.Compile.Inclusion
import PageScript.Proofs.Lists

/-! Inclusions that depend on each other, and how they are counted (`Inclusion.exactCount_shares`). -/

open List

namespace PageScript.Inclusion

open Relation (ReflTransGen TransGen)

variable {inclusions : List Inclusion} {index provider dependent : Nat} {counting : List Nat}

/-! ### Links -/

def FirstDeclares (inclusions : List Inclusion) (index : Nat) (name : String) : Prop :=
  (∃ inclusion, inclusions[index]? = some inclusion ∧ name ∈ inclusion.declared) ∧
    ∀ earlier < index, ∀ other, inclusions[earlier]? = some other → name ∉ other.declared

/-- A dependent extends a class that another inclusion, its provider, is the first to declare. -/
def Link (inclusions : List Inclusion) (provider dependent : Nat) : Prop :=
  provider ≠ dependent ∧ ∃ inclusion, inclusions[dependent]? = some inclusion ∧
    ∃ parent ∈ inclusion.parents, FirstDeclares inclusions provider parent

private theorem owner?_eq_some {name : String} :
    owner? inclusions name = some index ↔ FirstDeclares inclusions index name := by
  unfold owner? FirstDeclares
  rw [findIdx?_eq_some_iff_getElem]
  constructor
  · rintro ⟨within, declares, earliest⟩
    refine ⟨⟨inclusions[index], getElem?_eq_getElem within, by simpa using declares⟩, ?_⟩
    intro earlier before other found member
    obtain ⟨bound, rfl⟩ := List.getElem?_eq_some_iff.mp found
    exact earliest earlier before (by simpa using member)
  · rintro ⟨⟨inclusion, found, declares⟩, earliest⟩
    obtain ⟨within, rfl⟩ := List.getElem?_eq_some_iff.mp found
    refine ⟨within, by simpa using declares, ?_⟩
    intro earlier before again
    have bound : earlier < inclusions.length := Nat.lt_trans before within
    exact earliest earlier before _ (getElem?_eq_getElem bound) (by simpa using again)

theorem mem_dependents :
    dependent ∈ dependents inclusions provider ↔ Link inclusions provider dependent := by
  unfold dependents Link
  rw [mem_filterMap]
  constructor
  · rintro ⟨⟨inclusion, index⟩, member, kept⟩
    dsimp only at kept
    split at kept
    · rename_i linked
      cases kept
      obtain ⟨parent, extended, owned⟩ := any_eq_true.mp linked.2
      exact ⟨linked.1.symm, inclusion, mk_mem_zipIdx_iff_getElem?.mp member, parent, extended,
        owner?_eq_some.mp (eq_of_beq owned)⟩
    · cases kept
  · rintro ⟨apart, inclusion, found, parent, extended, first⟩
    refine ⟨(inclusion, dependent), mk_mem_zipIdx_iff_getElem?.mpr found, ?_⟩
    have owned : (owner? inclusions parent == some provider) = true :=
      beq_iff_eq.mpr (owner?_eq_some.mpr first)
    have any : inclusion.parents.any (fun name => owner? inclusions name == some provider) = true :=
      any_eq_true.mpr ⟨parent, extended, owned⟩
    exact if_pos ⟨apart.symm, any⟩

instance (inclusions : List Inclusion) (provider dependent : Nat) :
    Decidable (Link inclusions provider dependent) :=
  decidable_of_iff _ mem_dependents

theorem Link.dependent_lt (link : Link inclusions provider dependent) : dependent < inclusions.length := by
  obtain ⟨_, inclusion, found, _⟩ := link
  exact (List.getElem?_eq_some_iff.mp found).1

theorem Link.provider_lt (link : Link inclusions provider dependent) : provider < inclusions.length := by
  obtain ⟨_, _, _, _, _, ⟨inclusion, found, _⟩, _⟩ := link
  exact (List.getElem?_eq_some_iff.mp found).1

theorem nodup_dependents (inclusions : List Inclusion) (provider : Nat) :
    (dependents inclusions provider).Nodup := by
  unfold dependents
  rw [nodup_iff_pairwise_ne, pairwise_filterMap]
  have positions : inclusions.zipIdx.Pairwise fun left right => left.2 < right.2 := by
    rw [← pairwise_map (f := Prod.snd), zipIdx_map_snd]
    exact pairwise_lt_range'
  refine positions.imp ?_
  rintro ⟨left, first⟩ ⟨right, second⟩ before index kept other later
  dsimp only at kept later before
  split at kept <;> cases kept
  split at later <;> cases later
  omega

/-! ### Counting -/

section Counting

variable {dependents : Nat → List Nat} {before after : Counts}

/-- One inclusion depends on another, directly or through others. -/
abbrev Leads (dependents : Nat → List Nat) : Nat → Nat → Prop :=
  ReflTransGen fun provider dependent => dependent ∈ dependents provider

/-- Every count that is kept is one and the shares of the dependents. The share of a dependent is the
count kept for it, or nothing if it leads back. -/
def Settled (dependents : Nat → List Nat) (counts : Counts) : Prop :=
  ∀ index count, counts.lookup index = some count →
    ∃ share : Nat → Nat,
      (∀ item ∈ dependents index, counts.lookup item = some (share item) ∨
        share item = 0 ∧ Leads dependents item index) ∧
      count = ((dependents index).map share).sum + 1

/-- What counting does to the counts that are kept, while some inclusions are being counted. -/
structure Counted (dependents : Nat → List Nat) (counting : List Nat) (before after : Counts) :
    Prop where
  kept : ∀ index count, before.lookup index = some count → after.lookup index = some count
  settled : Settled dependents before → Settled dependents after
  pending : ∀ index ∈ counting, before.lookup index = none → after.lookup index = none

theorem Counted.refl (counting : List Nat) (counts : Counts) :
    Counted dependents counting counts counts :=
  ⟨fun _ _ => id, id, fun _ _ => id⟩

theorem Counted.trans {first second third : Counts} (begun : Counted dependents counting first second)
    (ended : Counted dependents counting second third) : Counted dependents counting first third :=
  ⟨fun index count known => ended.kept index count (begun.kept index count known),
    fun settled => ended.settled (begun.settled settled),
    fun index member absent => ended.pending index member (begun.pending index member absent)⟩

/-- A way to count is right for an inclusion: its answer is the count that is kept from then on, or
nothing if the inclusion is being counted. -/
def CountsRight (dependents : Nat → List Nat) (counting : List Nat)
    (count : Counts → Nat → Nat × Counts) (index : Nat) : Prop :=
  ∀ before value after, count before index = (value, after) →
    Counted dependents counting before after ∧
      (after.lookup index = some value ∨
        value = 0 ∧ index ∈ counting ∧ after.lookup index = none)

theorem sumWith_shares {count : Counts → Nat → Nat × Counts} {items : List Nat}
    (right : ∀ item ∈ items, CountsRight dependents counting count item)
    {sum : Nat} (done : sumWith 0 count before items = (sum, after)) :
    Counted dependents counting before after ∧
      (∀ item ∈ items, after.lookup item = some ((after.lookup item).getD 0) ∨
        (after.lookup item).getD 0 = 0 ∧ item ∈ counting) ∧
      sum = (items.map fun item => (after.lookup item).getD 0).sum := by
  induction items generalizing before sum with
  | nil =>
    cases done
    exact ⟨.refl _ _, forall_mem_nil _, rfl⟩
  | cons item rest ih =>
    rw [sumWith] at done
    cases begun : count before item with
    | mk value middle =>
      rw [begun] at done
      dsimp only at done
      cases ended : sumWith 0 count middle rest with
      | mk others last =>
        rw [ended] at done
        dsimp only at done
        rw [Nat.mod_zero] at done
        cases done
        obtain ⟨early, answer⟩ := right item mem_cons_self _ _ _ begun
        obtain ⟨late, shares, rfl⟩ :=
          ih (fun other member => right other (mem_cons_of_mem _ member)) ended
        refine ⟨early.trans late, forall_mem_cons.mpr ⟨?_, shares⟩, ?_⟩
        · rcases answer with known | ⟨_, busy, absent⟩
          · rw [late.kept item value known, Option.getD_some]
            exact .inl rfl
          · rw [late.pending item busy absent, Option.getD_none]
            exact .inr ⟨rfl, busy⟩
        · rw [map_cons, sum_cons]
          rcases answer with known | ⟨rfl, busy, absent⟩
          · rw [late.kept item value known, Option.getD_some]
          · rw [late.pending item busy absent, Option.getD_none]

theorem lookup_cons_of_ne {other value : Nat} (differs : other ≠ index) (counts : Counts) :
    ((index, value) :: counts).lookup other = counts.lookup other := by
  rw [lookup_cons, beq_false_of_ne differs]

theorem Counted.keep {share : Nat → Nat}
    (inner : Counted dependents (index :: counting) before after) (fresh : before.lookup index = none)
    (idle : index ∉ counting) (around : ∀ outer ∈ counting, Leads dependents outer index)
    (shares : ∀ item ∈ dependents index, after.lookup item = some (share item) ∨
      share item = 0 ∧ item ∈ index :: counting) :
    Counted dependents counting before
      ((index, ((dependents index).map share).sum + 1) :: after) := by
  have absent := inner.pending index mem_cons_self fresh
  generalize countIs : ((dependents index).map share).sum + 1 = count
  have kept : ∀ other value, after.lookup other = some value →
      ((index, count) :: after).lookup other = some value := by
    intro other value known
    rw [lookup_cons_of_ne]
    · exact known
    · rintro rfl
      rw [absent] at known
      cases known
  refine ⟨fun other value known => kept other value (inner.kept other value known), ?_, ?_⟩
  · intro settled other value known
    by_cases same : other = index
    · subst same
      rw [lookup_cons_self, Option.some.injEq] at known
      refine ⟨share, ?_, known.symm.trans countIs.symm⟩
      -- whatever was being counted when a dependent was asked leads to this one
      intro item member
      rcases shares item member with found | ⟨nothing, busy⟩
      · exact .inl (kept item _ found)
      · refine .inr ⟨nothing, ?_⟩
        rcases mem_cons.mp busy with rfl | outer
        · exact .refl
        · exact around item outer
    · rw [lookup_cons_of_ne same] at known
      obtain ⟨own, parts, whole⟩ := inner.settled settled other value known
      exact ⟨own, fun item member => (parts item member).imp_left (kept item _), whole⟩
  · intro other member known
    rw [lookup_cons_of_ne]
    · exact inner.pending other (mem_cons_of_mem _ member) known
    · rintro rfl
      exact idle member

/-- The inclusions that are being counted are distinct and lead to the one that is counted next, and
there is fuel for all that are not being counted yet. -/
structure Chain (dependents : Nat → List Nat) (size fuel : Nat) (counting : List Nat) (index : Nat) :
    Prop where
  bounded : ∀ provider, ∀ item ∈ dependents provider, item < size
  within : index < size
  distinct : counting.Nodup
  known : ∀ outer ∈ counting, outer < size
  around : ∀ outer ∈ counting, Leads dependents outer index
  enough : size < fuel + counting.length

theorem Chain.start {size fuel : Nat} (bounded : ∀ provider, ∀ item ∈ dependents provider, item < size)
    (within : index < size) (enough : size < fuel) : Chain dependents size fuel [] index :=
  ⟨bounded, within, nodup_nil, forall_mem_nil _, forall_mem_nil _, enough⟩

theorem Chain.deepen {size fuel item : Nat} (chain : Chain dependents size (fuel + 1) counting index)
    (idle : index ∉ counting) (member : item ∈ dependents index) :
    Chain dependents size fuel (index :: counting) item where
  bounded := chain.bounded
  within := chain.bounded index item member
  distinct := nodup_cons.mpr ⟨idle, chain.distinct⟩
  known := forall_mem_cons.mpr ⟨chain.within, chain.known⟩
  around := forall_mem_cons.mpr ⟨.single member, fun outer among => (chain.around outer among).tail member⟩
  enough := by
    have enough := chain.enough
    rw [length_cons]
    omega

theorem countOf_right {size fuel : Nat} (chain : Chain dependents size fuel counting index) :
    CountsRight dependents counting (countOf 0 dependents fuel counting) index := by
  induction fuel generalizing counting index with
  | zero =>
    -- more inclusions would be being counted than there are
    have fits := (subperm_of_subset chain.distinct fun outer member =>
      mem_range.mpr (chain.known outer member)).length_le
    have enough := chain.enough
    rw [length_range] at fits
    omega
  | succ fuel ih =>
    intro before value after done
    rw [countOf] at done
    cases found : before.lookup index with
    | some count =>
      rw [found] at done
      cases done
      exact ⟨.refl _ _, .inl found⟩
    | none =>
      rw [found] at done
      dsimp only at done
      by_cases busy : counting.contains index = true
      · rw [if_pos busy] at done
        cases done
        exact ⟨.refl _ _, .inr ⟨rfl, by simpa using busy, found⟩⟩
      · rw [if_neg busy] at done
        have idle : index ∉ counting := by simpa using busy
        cases summed : sumWith 0 (countOf 0 dependents fuel (index :: counting)) before
            (dependents index) with
        | mk sum middle =>
          rw [summed] at done
          dsimp only at done
          rw [Nat.mod_zero] at done
          cases done
          obtain ⟨counted, shares, rfl⟩ :=
            sumWith_shares (fun _ member => ih (chain.deepen idle member)) summed
          exact ⟨counted.keep found idle chain.around shares, .inl lookup_cons_self⟩

theorem countAll_counted {size : Nat}
    (bounded : ∀ provider, ∀ item ∈ dependents provider, item < size) {fuel : Nat}
    (enough : size < fuel) {indices : List Nat} (within : ∀ index ∈ indices, index < size)
    (before : Counts) :
    Counted dependents [] before (countAll 0 dependents fuel before indices) ∧
      ∀ index ∈ indices, ∃ count,
        (countAll 0 dependents fuel before indices).lookup index = some count := by
  induction indices generalizing before with
  | nil => exact ⟨.refl _ _, forall_mem_nil _⟩
  | cons index rest ih =>
    rw [countAll]
    obtain ⟨first, others⟩ := forall_mem_cons.mp within
    obtain ⟨begun, answer⟩ := countOf_right (.start bounded first enough) before _ _ rfl
    obtain ⟨ended, found⟩ := ih others (countOf 0 dependents fuel [] before index).2
    refine ⟨begun.trans ended, forall_mem_cons.mpr ⟨?_, found⟩⟩
    rcases answer with known | ⟨_, busy, _⟩
    · exact ⟨_, ended.kept index _ known⟩
    · cases busy

end Counting

/-! ### Counts -/

/-- The count of an inclusion in numbers without a limit, which are the numbers modulo zero. -/
def exactCount (inclusions : List Inclusion) (index : Nat) : Nat :=
  ((countsModulo 0 inclusions).lookup index).getD 0

private theorem exactCounts_counted (inclusions : List Inclusion) :
    Counted (dependents inclusions) [] [] (countsModulo 0 inclusions) ∧
      ∀ index ∈ List.range inclusions.length, ∃ count,
        (countsModulo 0 inclusions).lookup index = some count := by
  refine countAll_counted ?_ (Nat.lt_succ_self inclusions.length) (fun _ => mem_range.mp) []
  exact fun _ _ member => (mem_dependents.mp member).dependent_lt

theorem lookup_exactCounts (within : index < inclusions.length) :
    (countsModulo 0 inclusions).lookup index = some (exactCount inclusions index) := by
  obtain ⟨value, known⟩ := (exactCounts_counted inclusions).2 index (mem_range.mpr within)
  rw [exactCount, known, Option.getD_some]

/-- The count of an inclusion is one and the shares of its dependents: the share of a dependent is its
count, or nothing if the dependent leads back. -/
theorem exactCount_shares (within : index < inclusions.length) :
    ∃ share : Nat → Nat,
      (∀ dependent ∈ dependents inclusions index, share dependent = exactCount inclusions dependent ∨
        share dependent = 0 ∧ ReflTransGen (Link inclusions) dependent index) ∧
      exactCount inclusions index = ((dependents inclusions index).map share).sum + 1 := by
  have settled : Settled (dependents inclusions) (countsModulo 0 inclusions) := by
    refine (exactCounts_counted inclusions).1.settled ?_
    intro other value known
    cases known
  obtain ⟨share, parts, whole⟩ := settled index _ (lookup_exactCounts within)
  refine ⟨share, ?_, whole⟩
  intro dependent member
  rcases parts dependent member with known | ⟨nothing, back⟩
  · rw [exactCount, known, Option.getD_some]
    exact .inl rfl
  · exact .inr ⟨nothing, ReflTransGen.mono (fun _ _ => mem_dependents.mp) _ _ back⟩

theorem exactCount_lt_of_link (link : Link inclusions provider dependent)
    (apart : ¬ ReflTransGen (Link inclusions) dependent provider) :
    exactCount inclusions dependent < exactCount inclusions provider := by
  obtain ⟨share, parts, whole⟩ := exactCount_shares link.provider_lt
  have member := mem_dependents.mpr link
  have own : share dependent = exactCount inclusions dependent :=
    (parts dependent member).resolve_right fun back => apart back.2
  have part : share dependent ≤ ((dependents inclusions provider).map share).sum :=
    le_sum_of_mem (mem_map_of_mem member)
  omega

theorem exactCount_eq_of_acyclic (acyclic : ∀ index, ¬ TransGen (Link inclusions) index index)
    (within : index < inclusions.length) :
    exactCount inclusions index =
      1 + ∑ dependent ∈ Finset.range inclusions.length with Link inclusions index dependent,
        exactCount inclusions dependent := by
  obtain ⟨share, parts, whole⟩ := exactCount_shares within
  have own : ∀ dependent ∈ dependents inclusions index,
      share dependent = exactCount inclusions dependent := by
    intro dependent member
    refine (parts dependent member).resolve_right fun back => ?_
    exact acyclic index (TransGen.head' (mem_dependents.mp member) back.2)
  have linked : (Finset.range inclusions.length).filter (Link inclusions index ·) =
      (dependents inclusions index).toFinset := by
    ext dependent
    rw [Finset.mem_filter, Finset.mem_range, mem_toFinset, mem_dependents]
    exact ⟨And.right, fun link => ⟨link.dependent_lt, link⟩⟩
  rw [whole, map_congr_left own, linked,
    sum_toFinset _ (nodup_dependents inclusions index), Nat.add_comm]

/-! ### Words -/

section Words

variable {dependents : Nat → List Nat} {modulus fuel : Nat}

/-- Counts as words keep them. -/
def reduce (modulus : Nat) (counts : Counts) : Counts :=
  counts.map fun kept => (kept.1, kept.2 % modulus)

def reduced (modulus : Nat) (answer : Nat × Counts) : Nat × Counts :=
  (answer.1 % modulus, reduce modulus answer.2)

private theorem lookup_reduce (counts : Counts) :
    (reduce modulus counts).lookup index = (counts.lookup index).map (· % modulus) := by
  induction counts with
  | nil => rfl
  | cons kept rest ih =>
    change lookup index ((kept.1, kept.2 % modulus) :: reduce modulus rest) = _
    rw [lookup_cons, lookup_cons, ih]
    cases index == kept.1 <;> rfl

private theorem sumWith_reduce {exact words : Counts → Nat → Nat × Counts} {items : List Nat}
    (same : ∀ item ∈ items, ∀ before,
      words (reduce modulus before) item = reduced modulus (exact before item)) (before : Counts) :
    sumWith modulus words (reduce modulus before) items =
      reduced modulus (sumWith 0 exact before items) := by
  induction items generalizing before with
  | nil => simp [sumWith, reduced]
  | cons item rest ih =>
    obtain ⟨first, others⟩ := forall_mem_cons.mp same
    rw [sumWith, sumWith, first before]
    dsimp only [reduced]
    rw [ih others]
    simp only [reduced, Nat.mod_zero, Nat.add_mod_mod, Nat.mod_add_mod]

private theorem countOf_reduce (before : Counts) :
    countOf modulus dependents fuel counting (reduce modulus before) index =
      reduced modulus (countOf 0 dependents fuel counting before index) := by
  induction fuel generalizing counting index before with
  | zero => simp [countOf, reduced]
  | succ fuel ih =>
    rw [countOf, countOf, lookup_reduce]
    cases before.lookup index with
    | some count => rfl
    | none =>
      dsimp only [Option.map_none]
      split
      · simp [reduced]
      · rw [sumWith_reduce fun item _ before => ih before]
        simp only [reduced, reduce, Nat.mod_zero, Nat.mod_add_mod, map_cons]

private theorem countAll_reduce (before : Counts) (indices : List Nat) :
    countAll modulus dependents fuel (reduce modulus before) indices =
      reduce modulus (countAll 0 dependents fuel before indices) := by
  induction indices generalizing before with
  | nil => rfl
  | cons index rest ih =>
    rw [countAll, countAll, countOf_reduce]
    exact ih _

end Words

theorem count_eq_mod (inclusions : List Inclusion) (index : Nat) :
    count inclusions index = exactCount inclusions index % wordSize := by
  have words : counts inclusions = reduce wordSize (countsModulo 0 inclusions) :=
    countAll_reduce [] _
  rw [count, exactCount, words, lookup_reduce]
  cases (countsModulo 0 inclusions).lookup index with
  | none => rfl
  | some count => rfl

end PageScript.Inclusion
