/-! Facts about lists: words over an alphabet, first items by key. -/

open List

namespace PageScript

variable {α β : Type} {left right : List α}

theorem append_eq_append_cons {first second left right : List α} {member : α}
    (split : first ++ second = left ++ member :: right) :
    (∃ more, first = left ++ member :: more) ∨
      ∃ more, left = first ++ more ∧ second = more ++ member :: right := by
  rcases append_eq_append_iff.mp split with ⟨more, leftIs, secondIs⟩ | ⟨more, firstIs, rightIs⟩
  · exact .inr ⟨more, leftIs, secondIs⟩
  · cases more with
    | nil =>
      refine .inr ⟨[], ?_, rightIs.symm⟩
      rw [firstIs]
      simp only [append_nil]
    | cons head tail =>
      rw [cons_append, List.cons.injEq] at rightIs
      rw [rightIs.1]
      exact .inl ⟨tail, firstIs⟩

theorem singleton_eq_append_cons {only member : α}
    (split : [only] = left ++ member :: right) : left = [] ∧ only = member := by
  cases left with
  | nil =>
    cases split
    exact ⟨rfl, rfl⟩
  | cons first rest => cases rest <;> cases split

theorem flatMap_of_perm {gives : α → List β} {sorted left right : List α} {only : α}
    (perm : sorted.Perm (left ++ only :: right))
    (others : ∀ other ∈ left ++ right, gives other = []) : sorted.flatMap gives = gives only := by
  have member : only ∈ sorted := perm.mem_iff.mpr (by simp)
  obtain ⟨before, after, rfl⟩ := append_of_mem member
  have rest : (before ++ after).Perm (left ++ right) :=
    (perm_middle.symm.trans (perm.trans perm_middle)).cons_inv
  have nothing : ∀ other ∈ before ++ after, gives other = [] := fun other within =>
    others other (rest.mem_iff.mp within)
  have first : before.flatMap gives = [] :=
    flatMap_eq_nil_iff.mpr fun other within => nothing other (mem_append_left _ within)
  have last : after.flatMap gives = [] :=
    flatMap_eq_nil_iff.mpr fun other within => nothing other (mem_append_right _ within)
  rw [flatMap_append, flatMap_cons, first, last, nil_append, append_nil]

theorem mem_of_lookup [BEq α] [LawfulBEq α] {items : List (α × β)} {key : α} {value : β}
    (found : items.lookup key = some value) : (key, value) ∈ items := by
  obtain ⟨before, after, rfl, _⟩ := lookup_eq_some_iff.mp found
  exact mem_append_right before mem_cons_self

theorem pair_sublist_or {items : List α} {left right : α} (first : left ∈ items)
    (second : right ∈ items) (apart : left ≠ right) :
    [left, right].Sublist items ∨ [right, left].Sublist items := by
  obtain ⟨before, after, rfl⟩ := append_of_mem first
  rcases mem_append.mp second with earlier | later
  · have front : [right].Sublist before := singleton_sublist.mpr earlier
    exact .inr (front.append (singleton_sublist.mpr mem_cons_self))
  · have back := (mem_cons.mp later).resolve_left apart.symm
    have tail : [left, right].Sublist (left :: after) :=
      (singleton_sublist.mpr back).cons_cons left
    exact .inl (tail.trans (sublist_append_right before _))

theorem countP_lt {fewer more : α → Bool} {items : List α} {item : α}
    (weaker : ∀ other, fewer other = true → more other = true) (member : item ∈ items)
    (lost : fewer item = false) (had : more item = true) :
    items.countP fewer < items.countP more := by
  obtain ⟨before, after, rfl⟩ := append_of_mem member
  have first : before.countP fewer ≤ before.countP more := countP_mono_left fun other _ => weaker other
  have last : after.countP fewer ≤ after.countP more := countP_mono_left fun other _ => weaker other
  simp only [countP_append, countP_cons, lost, had, Bool.false_eq_true, if_false, if_true]
  omega

def wordsUpTo (alphabet : List α) : Nat → List (List α)
  | 0 => [[]]
  | length + 1 => [] :: alphabet.flatMap fun letter => (wordsUpTo alphabet length).map (letter :: ·)

theorem mem_wordsUpTo {alphabet word : List α} {length : Nat}
    (spelled : ∀ letter ∈ word, letter ∈ alphabet) (short : word.length ≤ length) :
    word ∈ wordsUpTo alphabet length := by
  induction length generalizing word with
  | zero =>
    rw [eq_nil_of_length_eq_zero (Nat.le_zero.mp short)]
    exact mem_cons_self
  | succ length ih =>
    cases word with
    | nil => exact mem_cons_self
    | cons letter word =>
      obtain ⟨first, others⟩ := forall_mem_cons.mp spelled
      refine mem_cons_of_mem _ (mem_flatMap.mpr ⟨letter, first, ?_⟩)
      exact mem_map_of_mem (ih others (Nat.le_of_succ_le_succ short))

theorem length_wordsUpTo_le (alphabet : List α) (length : Nat) :
    (wordsUpTo alphabet length).length ≤ Nat.pow (alphabet.length + 1) length := by
  induction length with
  | zero => exact Nat.le_refl 1
  | succ length ih =>
    have longer : (wordsUpTo alphabet (length + 1)).length =
        alphabet.length * (wordsUpTo alphabet length).length + 1 := by
      simp only [wordsUpTo, length_cons, length_flatMap, length_map, map_const', sum_replicate_nat]
    have positive : 0 < Nat.pow (alphabet.length + 1) length := Nat.pow_pos (Nat.succ_pos _)
    calc (wordsUpTo alphabet (length + 1)).length
        = alphabet.length * (wordsUpTo alphabet length).length + 1 := longer
      _ ≤ alphabet.length * Nat.pow (alphabet.length + 1) length +
            Nat.pow (alphabet.length + 1) length :=
          Nat.add_le_add (Nat.mul_le_mul_left _ ih) positive
      _ = Nat.pow (alphabet.length + 1) (length + 1) := by
          rw [← Nat.succ_mul, Nat.mul_comm]
          rfl

theorem eq_of_pairwise (r : α → α → Prop) (asymm : ∀ {a b}, r a b → ¬ r b a)
    (first : left.Pairwise r) (second : right.Pairwise r) (same : ∀ a, a ∈ left ↔ a ∈ right) :
    left = right := by
  have distinct : ∀ {a b : α}, r a b → a ≠ b := by
    rintro a b before rfl
    exact asymm before before
  have perm := (perm_ext_iff_of_nodup (first.imp distinct) (second.imp distinct)).mpr same
  exact perm.eq_of_pairwise (fun _ _ _ _ before after => absurd after (asymm before)) first second

section Firsts

variable {κ : Type} [DecidableEq κ] (key : α → κ)

/-- The members of a list whose key none before them has. -/
def firstsBy : List α → List α
  | [] => []
  | item :: rest => item :: (firstsBy rest).filter (key · ≠ key item)

variable {items : List α} {item : α}

theorem firstsBy_sublist (items : List α) : (firstsBy key items).Sublist items := by
  induction items with
  | nil => exact .slnil
  | cons first rest ih => exact (filter_sublist.trans ih).cons_cons first

theorem nodup_firstsBy (items : List α) : ((firstsBy key items).map key).Nodup := by
  induction items with
  | nil => exact .nil
  | cons first rest ih =>
    rw [firstsBy, map_cons, nodup_cons]
    refine ⟨?_, ih.sublist (filter_sublist.map key)⟩
    intro again
    obtain ⟨other, kept, same⟩ := mem_map.mp again
    exact of_decide_eq_true (mem_filter.mp kept).2 same

theorem firstsBy_of_nodup (distinct : (items.map key).Nodup) : firstsBy key items = items := by
  induction items with
  | nil => rfl
  | cons first rest ih =>
    rw [map_cons, nodup_cons] at distinct
    rw [firstsBy, ih distinct.2, filter_eq_self.mpr]
    intro other member
    refine decide_eq_true fun same => distinct.1 ?_
    rw [← same]
    exact mem_map_of_mem member

theorem find?_firstsBy (items : List α) (wanted : κ) :
    (firstsBy key items).find? (key · == wanted) = items.find? (key · == wanted) := by
  induction items with
  | nil => rfl
  | cons first rest ih =>
    rw [firstsBy, find?_cons, find?_cons]
    cases here : key first == wanted with
    | true => rfl
    | false =>
      dsimp only
      rw [← ih, find?_filter]
      refine congrArg (find? · _) (funext fun other => ?_)
      by_cases same : key other = wanted
      · subst same
        simp [Ne.symm (ne_of_beq_false here)]
      · simp [same]

theorem mem_map_firstsBy (member : item ∈ items) : key item ∈ (firstsBy key items).map key := by
  have found : (items.find? (key · == key item)).isSome = true :=
    find?_isSome.mpr ⟨item, member, beq_self_eq_true _⟩
  rw [← find?_firstsBy key] at found
  obtain ⟨first, kept, same⟩ := find?_isSome.mp found
  exact mem_map.mpr ⟨first, kept, eq_of_beq same⟩

end Firsts

end PageScript
