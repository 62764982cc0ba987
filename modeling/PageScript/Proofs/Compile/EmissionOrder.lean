import PageScript.Proofs.Compile.CountBounds

/-! The order in which inclusions are written out (`Inclusion.emissionOrder_providers`). -/

open List

namespace PageScript.Inclusion

open Relation (ReflTransGen TransGen)

variable {inclusions : List Inclusion}

def orderAt (inclusions : List Inclusion) (index : Nat) : Nat :=
  (inclusions[index]?.map (·.order)).getD 0

def Precedes (inclusions : List Inclusion) (left right : Nat) : Prop :=
  count inclusions right < count inclusions left ∨
    count inclusions left = count inclusions right ∧
      (orderAt inclusions left < orderAt inclusions right ∨
        orderAt inclusions left = orderAt inclusions right ∧ left < right)

private theorem emissionOrder_perm (inclusions : List Inclusion) :
    (emissionOrder inclusions).Perm (List.range inclusions.length) :=
  mergeSort_perm _ _

/-- The key by which inclusions are sorted: its order puts `Precedes` first. -/
def notAfter (inclusions : List Inclusion) (left right : Nat) : Bool :=
  count inclusions right < count inclusions left ||
    (count inclusions left == count inclusions right &&
      orderAt inclusions left ≤ orderAt inclusions right)

private theorem notAfter_iff {left right : Nat} :
    notAfter inclusions left right = true ↔
      count inclusions right < count inclusions left ∨
        count inclusions left = count inclusions right ∧
          orderAt inclusions left ≤ orderAt inclusions right := by
  simp [notAfter]

private theorem emissionOrder_eq (inclusions : List Inclusion) :
    emissionOrder inclusions = (List.range inclusions.length).mergeSort (notAfter inclusions) :=
  rfl

private theorem notAfter_trans (inclusions : List Inclusion) (first second third : Nat)
    (left : notAfter inclusions first second = true)
    (right : notAfter inclusions second third = true) : notAfter inclusions first third = true := by
  rw [notAfter_iff] at left right ⊢
  omega

private theorem notAfter_total (inclusions : List Inclusion) (left right : Nat) :
    (notAfter inclusions left right || notAfter inclusions right left) = true := by
  rw [Bool.or_eq_true, notAfter_iff, notAfter_iff]
  omega

/-- Of two inclusions the one that precedes the other is written out first: where the key decides by its
order, and otherwise since sorting is stable. -/
theorem pair_sublist_emissionOrder {left right : Nat} (withinLeft : left < inclusions.length)
    (withinRight : right < inclusions.length) (precedes : Precedes inclusions left right) :
    [left, right].Sublist (emissionOrder inclusions) := by
  have apart : left ≠ right := by
    rintro rfl
    unfold Precedes at precedes
    omega
  rw [emissionOrder_eq]
  by_cases tied : notAfter inclusions right left = true
  · have ranked : [left, right].Sublist (List.range inclusions.length) := by
      rcases pair_sublist_or (mem_range.mpr withinLeft) (mem_range.mpr withinRight) apart
        with found | turned
      · exact found
      · have before := pairwise_pair.mp (List.pairwise_lt_range.sublist turned)
        rw [notAfter_iff] at tied
        unfold Precedes at precedes
        omega
    refine pair_sublist_mergeSort (notAfter_trans inclusions) (notAfter_total inclusions) ?_ ranked
    rw [notAfter_iff]
    unfold Precedes at precedes
    omega
  · have sorted := pairwise_mergeSort (notAfter_trans inclusions) (notAfter_total inclusions)
      (List.range inclusions.length)
    have listed (index : Nat) (within : index < inclusions.length) :
        index ∈ (List.range inclusions.length).mergeSort (notAfter inclusions) :=
      mem_mergeSort.mpr (mem_range.mpr within)
    rcases pair_sublist_or (listed left withinLeft) (listed right withinRight) apart
      with found | turned
    · exact found
    · exact absurd (pairwise_pair.mp (sorted.sublist turned)) tied

private theorem count_lt_of_link {provider dependent : Nat} (few : inclusions.length ≤ 64)
    (link : Link inclusions provider dependent)
    (apart : ¬ ReflTransGen (Link inclusions) dependent provider) :
    count inclusions dependent < count inclusions provider := by
  rw [count_eq_exactCount few link.dependent_lt, count_eq_exactCount few link.provider_lt]
  exact exactCount_lt_of_link link apart

theorem count_eq_of_acyclic {index : Nat} (acyclic : ∀ index, ¬ TransGen (Link inclusions) index index)
    (within : index < inclusions.length) :
    count inclusions index =
      (1 + ∑ dependent ∈ Finset.range inclusions.length with Link inclusions index dependent,
        count inclusions dependent) % wordSize := by
  rw [count_eq_mod, exactCount_eq_of_acyclic acyclic within, Nat.add_mod, Finset.sum_nat_mod,
    ← Nat.add_mod]
  simp only [count_eq_mod]

def knotted : List Inclusion :=
  [{ path := ⟨"a.js"⟩, code := [], declared := ["C"], parents := ["A"], order := 0 },
    { path := ⟨"b.js"⟩, code := [], declared := ["A"], parents := ["B"], order := 1 },
    { path := ⟨"c.js"⟩, code := [], declared := ["B"], parents := ["A"], order := 2 },
    { path := ⟨"d.js"⟩, code := [], declared := ["D"], parents := [], order := 3 }]

def stacked : List Inclusion :=
  [{ path := ⟨"a.js"⟩, code := [], declared := ["A"], parents := [], order := 0 },
    { path := ⟨"b.js"⟩, code := [], declared := ["B"], parents := ["A"], order := 1 },
    { path := ⟨"c.js"⟩, code := [], declared := ["C"], parents := ["B", "A"], order := 2 }]

private theorem stacked_acyclic (index : Nat) : ¬ TransGen (Link stacked) index index := by
  have onward : ∀ provider < 3, ∀ dependent < 3,
      Link stacked provider dependent → provider < dependent := by
    decide +kernel
  have rises : ∀ {provider dependent : Nat}, TransGen (Link stacked) provider dependent →
      provider < dependent := by
    intro provider dependent path
    induction path with
    | single link => exact onward _ link.provider_lt _ link.dependent_lt link
    | tail _ link ih => exact Nat.lt_trans ih (onward _ link.provider_lt _ link.dependent_lt link)
  exact fun cycle => Nat.lt_irrefl index (rises cycle)

end PageScript.Inclusion
