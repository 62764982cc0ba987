import Mathlib.Algebra.Order.BigOperators.Group.Finset
import Mathlib.Data.Finset.Max
import PageScript.Proofs.Compile.Counting

/-!
How large reference counts become. A count is at most one more than the sum of the smaller counts, also
where inheritance has cycles (`Inclusion.count_within`); a tower of 65 inclusions goes beyond a word.
-/

open List

namespace PageScript.Inclusion

variable {inclusions : List Inclusion} {index limit : Nat}

private theorem sum_lt_two_pow (size : Nat → Nat) {items : Finset Nat}
    (bounded : ∀ item ∈ items, size item ≤ 1 + ∑ other ∈ items with size other < size item, size other) :
    ∑ item ∈ items, size item < 2 ^ items.card := by
  -- the largest size is met last, when the others are already bounded
  induction items using Finset.induction_on_max_value size with
  | empty => simp
  | insert largest items new below ih =>
    have others : ∑ item ∈ items, size item < 2 ^ items.card := by
      refine ih fun item member => ?_
      have apart := bounded item (Finset.mem_insert_of_mem member)
      rwa [Finset.filter_insert, if_neg (Nat.not_lt.mpr (below item member))] at apart
    have last := bounded largest (Finset.mem_insert_self largest items)
    rw [Finset.filter_insert, if_neg (Nat.lt_irrefl _)] at last
    have fewer : ∑ other ∈ items with size other < size largest, size other ≤ ∑ item ∈ items, size item :=
      Finset.sum_le_sum_of_subset (Finset.filter_subset _ items)
    rw [Finset.sum_insert new, Finset.card_insert_of_notMem new, Nat.pow_succ]
    omega

private theorem exactCount_le_smaller (within : index < inclusions.length) :
    exactCount inclusions index ≤ 1 + ∑ other ∈ Finset.range inclusions.length with
      exactCount inclusions other < exactCount inclusions index, exactCount inclusions other := by
  obtain ⟨share, parts, whole⟩ := exactCount_shares within
  -- a dependent that shares its count has a smaller one, so cycles do no harm
  have shared : ∀ dependent ∈ dependents inclusions index, share dependent ≤
      if exactCount inclusions dependent < exactCount inclusions index then exactCount inclusions dependent else 0 := by
    intro dependent member
    rcases parts dependent member with own | ⟨nothing, _⟩
    · have part : share dependent ≤ ((dependents inclusions index).map share).sum :=
        le_sum_of_mem (mem_map_of_mem member)
      rw [if_pos (by omega), own]
    · omega
  have among : (dependents inclusions index).toFinset ⊆ Finset.range inclusions.length := by
    intro dependent member
    exact Finset.mem_range.mpr (mem_dependents.mp (mem_toFinset.mp member)).dependent_lt
  calc exactCount inclusions index = 1 + ∑ dependent ∈ (dependents inclusions index).toFinset,
        share dependent := by
        rw [whole, sum_toFinset _ (nodup_dependents inclusions index), Nat.add_comm]
    _ ≤ _ := by
        rw [Finset.sum_filter]
        refine Nat.add_le_add_left (le_trans (Finset.sum_le_sum fun dependent member =>
          shared dependent (mem_toFinset.mp member)) ?_) 1
        exact Finset.sum_le_sum_of_subset among

private theorem exactCount_le_two_pow (within : index < inclusions.length) :
    exactCount inclusions index ≤ 2 ^ (inclusions.length - 1) := by
  have smaller := exactCount_le_smaller within
  generalize countIs : exactCount inclusions index = bound at smaller ⊢
  have sum : ∑ other ∈ Finset.range inclusions.length with exactCount inclusions other < bound,
      exactCount inclusions other < 2 ^ ((Finset.range inclusions.length).filter
        (exactCount inclusions · < bound)).card := by
    refine sum_lt_two_pow (exactCount inclusions) fun item member => ?_
    obtain ⟨known, below⟩ := Finset.mem_filter.mp member
    rw [Finset.filter_filter, Finset.filter_congr fun other _ =>
      and_iff_right_of_imp fun less => less.trans below]
    exact exactCount_le_smaller (Finset.mem_range.mp known)
  have fewer : ((Finset.range inclusions.length).filter (exactCount inclusions · < bound)).card ≤
      inclusions.length - 1 := by
    refine Nat.le_sub_one_of_lt ?_
    have lost : (Finset.range inclusions.length).filter (exactCount inclusions · < bound) ⊂
        Finset.range inclusions.length :=
      Finset.filter_ssubset.mpr ⟨index, Finset.mem_range.mpr within, Nat.not_lt.mpr countIs.ge⟩
    simpa using Finset.card_lt_card lost
  exact smaller.trans (Nat.add_comm 1 _ ▸ sum.trans_le (Nat.pow_le_pow_right Nat.two_pos fewer))

theorem exactCount_pos (within : index < inclusions.length) : 1 ≤ exactCount inclusions index := by
  obtain ⟨_, _, whole⟩ := exactCount_shares within
  omega

/-- Up to 64 inclusions the words that counts are kept in are large enough. -/
theorem count_eq_exactCount (few : inclusions.length ≤ 64) (within : index < inclusions.length) :
    count inclusions index = exactCount inclusions index := by
  rw [count_eq_mod]
  refine Nat.mod_eq_of_lt ((exactCount_le_two_pow within).trans_lt ?_)
  exact Nat.pow_lt_pow_right (by decide) (by omega)

section Words

variable {dependents : Nat → List Nat} {counting : List Nat} {size fuel : Nat}

/-- The sum of the counts, added one after another to a first value. There is none if a sum on the way
reaches the limit. -/
def sumWithin (limit : Nat) (count : Counts → Nat → Option (Nat × Counts)) :
    Nat → Counts → List Nat → Option (Nat × Counts)
  | sum, counts, [] => some (sum, counts)
  | sum, counts, index :: rest => do
      let (first, counts) ← count counts index
      if sum + first < limit then sumWithin limit count (sum + first) counts rest else none

/-- Counting in words that hold the numbers below a limit. -/
def countWithin (limit : Nat) (dependents : Nat → List Nat) :
    Nat → List Nat → Counts → Nat → Option (Nat × Counts)
  | 0, _, counts, _ => some (0, counts)
  | fuel + 1, counting, counts, index =>
      match counts.lookup index with
      | some count => some (count, counts)
      | none =>
          if counting.contains index then some (0, counts)
          else do
            let (sum, counts) ←
              sumWithin limit (countWithin limit dependents fuel (index :: counting)) 1 counts
                (dependents index)
            return (sum, (index, sum) :: counts)

def countAllWithin (limit : Nat) (dependents : Nat → List Nat) (fuel : Nat) :
    Counts → List Nat → Option Counts
  | counts, [] => some counts
  | counts, index :: rest => do
      let (_, counts) ← countWithin limit dependents fuel [] counts index
      countAllWithin limit dependents fuel counts rest

def Below (size limit : Nat) (counts : Counts) : Prop :=
  ∀ index < size, ∀ count, counts.lookup index = some count → count < limit

private theorem sumWithin_eq {count : Counts → Nat → Nat × Counts}
    {counted : Counts → Nat → Option (Nat × Counts)} {items : List Nat}
    (right : ∀ item ∈ items, CountsRight dependents counting count item)
    (same : ∀ item ∈ items, ∀ before, Below size limit (count before item).2 →
      counted before item = some (count before item))
    {before : Counts} {start : Nat} (below : Below size limit (sumWith 0 count before items).2)
    (fits : start + (sumWith 0 count before items).1 < limit) :
    sumWithin limit counted start before items =
      some (start + (sumWith 0 count before items).1, (sumWith 0 count before items).2) := by
  induction items generalizing before start with
  | nil => rfl
  | cons item rest ih =>
    rw [sumWith] at below fits ⊢
    dsimp only at below fits ⊢
    rw [Nat.mod_zero] at fits ⊢
    obtain ⟨_, others⟩ := forall_mem_cons.mp right
    obtain ⟨first, later⟩ := forall_mem_cons.mp same
    -- what is kept by then is still kept in the end
    have begun : Below size limit (count before item).2 := by
      intro index within value known
      exact below index within value ((sumWith_shares others rfl).1.kept index value known)
    rw [sumWithin, first before begun]
    change (if start + (count before item).1 < limit then _ else none) = _
    rw [if_pos (by omega), ih others later below (by omega), Nat.add_assoc]

private theorem countWithin_eq (chain : Chain dependents size fuel counting index)
    {before : Counts} (below : Below size limit (countOf 0 dependents fuel counting before index).2) :
    countWithin limit dependents fuel counting before index =
      some (countOf 0 dependents fuel counting before index) := by
  induction fuel generalizing counting index before with
  | zero => rfl
  | succ fuel ih =>
    rw [countWithin]
    rw [countOf] at below ⊢
    cases found : before.lookup index with
    | some count => rfl
    | none =>
      rw [found] at below
      dsimp only at below ⊢
      by_cases busy : counting.contains index = true
      · rw [if_pos busy, if_pos busy]
      · rw [if_neg busy, Nat.mod_zero] at below
        rw [if_neg busy, if_neg busy, Nat.mod_zero]
        have idle : index ∉ counting := by simpa using busy
        have right := fun item (member : item ∈ dependents index) =>
          countOf_right (chain.deepen idle member)
        have fits := below index chain.within _ lookup_cons_self
        have begun : Below size limit (sumWith 0 (countOf 0 dependents fuel (index :: counting)) before
            (dependents index)).2 := by
          intro other within value known
          refine below other within value ?_
          rw [lookup_cons_of_ne]
          · exact known
          · rintro rfl
            rw [(sumWith_shares right rfl).1.pending other mem_cons_self found] at known
            cases known
        rw [sumWithin_eq right (fun item member before => ih (chain.deepen idle member)) begun
          (Nat.add_comm _ 1 ▸ fits), Nat.add_comm 1]
        rfl

private theorem countAllWithin_eq (bounded : ∀ provider, ∀ item ∈ dependents provider, item < size)
    (enough : size < fuel) {indices : List Nat} (within : ∀ index ∈ indices, index < size)
    {before : Counts} (below : Below size limit (countAll 0 dependents fuel before indices)) :
    countAllWithin limit dependents fuel before indices =
      some (countAll 0 dependents fuel before indices) := by
  induction indices generalizing before with
  | nil => rfl
  | cons index rest ih =>
    rw [countAll] at below ⊢
    obtain ⟨first, others⟩ := forall_mem_cons.mp within
    have begun : Below size limit (countOf 0 dependents fuel [] before index).2 := by
      intro other known value found
      exact below other known value ((countAll_counted bounded enough others _).1.kept other value found)
    rw [countAllWithin, countWithin_eq (.start bounded first enough) begun]
    exact ih others below

private theorem sumWithin_words {count : Counts → Nat → Nat × Counts}
    {counted : Counts → Nat → Option (Nat × Counts)} {items : List Nat}
    (same : ∀ item ∈ items, ∀ before answer, counted before item = some answer →
      count before item = answer)
    {before after : Counts} {start total : Nat} (fits : start < limit)
    (done : sumWithin limit counted start before items = some (total, after)) :
    (start + (sumWith limit count before items).1) % limit = total ∧
      (sumWith limit count before items).2 = after := by
  induction items generalizing before start with
  | nil =>
    cases done
    exact ⟨Nat.mod_eq_of_lt fits, rfl⟩
  | cons item rest ih =>
    obtain ⟨here, later⟩ := forall_mem_cons.mp same
    obtain ⟨⟨first, middle⟩, begun, ended⟩ := Option.bind_eq_some_iff.mp done
    dsimp only at ended
    split at ended
    · rename_i within
      obtain ⟨sum, kept⟩ := ih later within ended
      rw [sumWith, here before _ begun]
      refine ⟨?_, kept⟩
      rw [← sum, Nat.add_mod_mod, Nat.add_assoc]
    · cases ended

/-- Where no sum goes beyond the words, nothing is lost by counting in them. -/
theorem countWithin_words (wide : 1 < limit) {before : Counts} {answer : Nat × Counts}
    (done : countWithin limit dependents fuel counting before index = some answer) :
    countOf limit dependents fuel counting before index = answer := by
  induction fuel generalizing counting index before answer with
  | zero =>
    cases done
    rfl
  | succ fuel ih =>
    rw [countWithin] at done
    rw [countOf]
    cases found : before.lookup index with
    | some count =>
      rw [found] at done
      cases done
      rfl
    | none =>
      rw [found] at done
      dsimp only at done ⊢
      by_cases busy : counting.contains index = true
      · rw [if_pos busy] at done ⊢
        cases done
        rfl
      · rw [if_neg busy] at done ⊢
        obtain ⟨⟨total, after⟩, summed, kept⟩ := Option.bind_eq_some_iff.mp done
        cases kept
        obtain ⟨sum, same⟩ := sumWithin_words (fun _ _ _ _ => ih) wide summed
        rw [Nat.add_comm, sum, same]

private theorem countAllWithin_words (wide : 1 < limit) {indices : List Nat} {before after : Counts}
    (done : countAllWithin limit dependents fuel before indices = some after) :
    countAll limit dependents fuel before indices = after := by
  induction indices generalizing before with
  | nil =>
    cases done
    rfl
  | cons index rest ih =>
    obtain ⟨answer, begun, ended⟩ := Option.bind_eq_some_iff.mp done
    rw [countAll, countWithin_words wide begun]
    exact ih ended

end Words

/-- The counts as they come out in words that hold the numbers below a limit, if no sum reaches it. -/
def countsWithin (limit : Nat) (inclusions : List Inclusion) : Option Counts :=
  countAllWithin limit (dependents inclusions) (inclusions.length + 1) []
    (List.range inclusions.length)

/-- Each of three inclusions extends all before it, and a fourth extends the first and is extended by
it. -/
def braided : List Inclusion :=
  [{ path := ⟨"a.js"⟩, code := [], declared := ["A"], parents := ["D"], order := 0 },
    { path := ⟨"b.js"⟩, code := [], declared := ["B"], parents := ["A"], order := 1 },
    { path := ⟨"c.js"⟩, code := [], declared := ["C"], parents := ["A", "B"], order := 2 },
    { path := ⟨"d.js"⟩, code := [], declared := ["D"], parents := ["A", "B", "C"], order := 3 }]

def tierName (level : Nat) : String :=
  String.ofList (replicate level 'C')

/-- Inclusions each of which extends all before it. -/
def tower (height : Nat) : List Inclusion :=
  (List.range height).map fun level =>
    { path := ⟨tierName level⟩, code := [], declared := [tierName level]
      parents := (List.range level).map tierName, order := level }

theorem tierName_inj {left right : Nat} (same : tierName left = tierName right) : left = right := by
  have lists := congrArg List.length (String.ofList_injective same)
  rwa [length_replicate, length_replicate] at lists

theorem link_tower {height provider dependent : Nat} :
    Link (tower height) provider dependent ↔ provider < dependent ∧ dependent < height := by
  have tier (level : Nat) (inclusion : Inclusion) :
      (tower height)[level]? = some inclusion ↔ level < height ∧
        inclusion = { path := ⟨tierName level⟩, code := [], declared := [tierName level], order := level
                      parents := (List.range level).map tierName } := by
    unfold tower
    by_cases within : level < height
    · simp [within, eq_comm]
    · simp [within]
  constructor
  · rintro ⟨_, inclusion, found, parent, extended, ⟨owner, declared, first⟩, _⟩
    obtain ⟨below, rfl⟩ := (tier dependent inclusion).mp found
    obtain ⟨_, rfl⟩ := (tier provider owner).mp declared
    obtain ⟨level, lower, rfl⟩ := mem_map.mp extended
    rw [← tierName_inj (mem_singleton.mp first)]
    exact ⟨mem_range.mp lower, below⟩
  · rintro ⟨lower, below⟩
    refine ⟨Nat.ne_of_lt lower, _, (tier dependent _).mpr ⟨below, rfl⟩, tierName provider,
      mem_map_of_mem (mem_range.mpr lower),
      ⟨_, (tier provider _).mpr ⟨by omega, rfl⟩, mem_singleton_self _⟩, ?_⟩
    intro earlier before other found again
    obtain ⟨_, rfl⟩ := (tier earlier other).mp found
    have same := tierName_inj (mem_singleton.mp again)
    omega

private theorem exactCount_tower_step {height level : Nat} (within : level < height) :
    exactCount (tower height) level =
      1 + ∑ other ∈ Finset.range height with level < other, exactCount (tower height) other := by
  have size : (tower height).length = height := by simp [tower]
  have rises {low high : Nat} (path : Relation.TransGen (Link (tower height)) low high) : low < high := by
    induction path with
    | single link => exact (link_tower.mp link).1
    | tail _ link ih => exact Nat.lt_trans ih (link_tower.mp link).1
  rw [exactCount_eq_of_acyclic (fun index cycle => Nat.lt_irrefl index (rises cycle)) (by rwa [size]),
    size]
  refine congrArg (1 + ·) (Finset.sum_congr (Finset.filter_congr fun other known => ?_) fun _ _ => rfl)
  rw [link_tower]
  exact and_iff_left (Finset.mem_range.mp known)

theorem exactCount_tower {height level : Nat} (within : level < height) :
    exactCount (tower height) level = 2 ^ (height - 1 - level) := by
  -- from the top down, each count is the double of the one above
  induction above : height - 1 - level generalizing level with
  | zero =>
    have none : (Finset.range height).filter (level < ·) = ∅ :=
      Finset.filter_eq_empty_iff.mpr fun other known => by
        have := Finset.mem_range.mp known
        omega
    rw [exactCount_tower_step within, none]
    rfl
  | succ rest ih =>
    have next : exactCount (tower height) (level + 1) = 2 ^ rest := ih (by omega) (by omega)
    have split : (Finset.range height).filter (level < ·) =
        insert (level + 1) ((Finset.range height).filter (level + 1 < ·)) := by
      ext other
      simp only [Finset.mem_filter, Finset.mem_insert, Finset.mem_range]
      omega
    rw [exactCount_tower_step (by omega)] at next
    rw [exactCount_tower_step within, split, Finset.sum_insert (by simp),
      exactCount_tower_step (by omega), next, Nat.pow_succ]
    omega

end PageScript.Inclusion
