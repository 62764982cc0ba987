import PageScript.Text.Expect

/-! Facts about reading a text from its start. -/

open List

namespace PageScript

variable {sep : Char} {text rest : Text} {p : Char → Bool}

private theorem inRanges_of_apart {left right : List (Nat × Nat)}
    (apart : (left.all fun l => right.all fun r => l.2 < r.1 || r.2 < l.1) = true) {code : Nat}
    (inside : inRanges left code = true) : inRanges right code = false := by
  obtain ⟨l, among, within⟩ := any_eq_true.mp inside
  refine any_eq_false.mpr fun r other again => ?_
  have away := all_eq_true.mp (all_eq_true.mp apart l among) r other
  simp only [Bool.or_eq_true, Bool.and_eq_true, decide_eq_true_eq] at away within again
  omega

theorem isWord_of_isBlank {c : Char} (blank : isBlank c = true) : isWord c = false := by
  have beyond : inRanges wordRanges c.toNat = false :=
    inRanges_of_apart (by decide +kernel) blank
  unfold isWord
  split
  · rename_i ascii
    simp only [isBlank, inRanges, any_cons, any_nil, Bool.or_eq_true, Bool.and_eq_true,
      decide_eq_true_eq, Bool.or_false] at blank
    have low : c.toNat < 33 := by omega
    have known : ∀ code < 33, ((Char.ofNat code).isAlphanum || Char.ofNat code == '_') = false := by
      decide
    have plain := known c.toNat low
    rwa [Char.ofNat_toNat] at plain
  · exact beyond

namespace Text

theorem length_le_byteLength (text : Text) : text.length ≤ byteLength text := by
  induction text with
  | nil => exact Nat.le_refl 0
  | cons c rest ih =>
    have positive := c.utf8Size_pos
    rw [length_cons, byteLength_cons]
    omega

theorem byteLength_toList (text : String) : byteLength text.toList = text.utf8ByteSize := by
  suffices whole : ∀ chars : Text, byteLength chars = (String.ofList chars).utf8ByteSize by
    rw [whole, String.ofList_toList]
  intro chars
  induction chars with
  | nil => simp
  | cons c rest ih =>
    rw [byteLength_cons, ih, ← singleton_append, String.ofList_append,
      String.utf8ByteSize_append]
    simp

theorem splitOn_ne_nil (sep : Char) (text : Text) : splitOn sep text ≠ [] := by
  induction text with
  | nil => exact cons_ne_nil _ _
  | cons c rest ih =>
    rw [splitOn]
    split
    · exact cons_ne_nil _ _
    · split <;> exact cons_ne_nil _ _

theorem length_splitOn_le (sep : Char) (text : Text) : (splitOn sep text).length ≤ text.length + 1 := by
  induction text with
  | nil => exact Nat.le_refl 1
  | cons c rest ih =>
    rw [splitOn]
    split
    · exact Nat.le_add_left 1 _
    · rename_i part parts split
      rw [split, length_cons] at ih
      split <;> simp only [length_cons] <;> omega

theorem splitOn_of_not_mem (whole : sep ∉ text) : splitOn sep text = [text] := by
  induction text with
  | nil => rfl
  | cons c rest ih =>
    obtain ⟨differs, others⟩ := ne_and_not_mem_of_not_mem_cons whole
    rw [splitOn, ih others]
    exact if_neg differs.symm

theorem splitOn_append_cons (sep : Char) (left right : Text) :
    splitOn sep (left ++ sep :: right) = splitOn sep left ++ splitOn sep right := by
  induction left with
  | nil =>
    change splitOn sep (sep :: right) = [] :: splitOn sep right
    rw [splitOn]
    split
    · rename_i nothing
      exact absurd nothing (splitOn_ne_nil sep right)
    · rename_i some
      rw [if_pos rfl, some]
  | cons c left ih =>
    rw [cons_append, splitOn, ih, splitOn]
    cases parts : splitOn sep left with
    | nil => exact absurd parts (splitOn_ne_nil sep left)
    | cons first others =>
      rw [cons_append]
      by_cases same : c = sep
      · simp [same]
      · simp [same]

theorem splitOn_append {first : Text} (whole : sep ∉ first) (rest : Text) :
    splitOn sep (first ++ sep :: rest) = first :: splitOn sep rest := by
  rw [splitOn_append_cons, splitOn_of_not_mem whole]
  rfl

theorem not_mem_of_mem_splitOn {part : Text} (member : part ∈ splitOn sep text) : sep ∉ part := by
  induction text generalizing part with
  | nil =>
    rw [mem_singleton.mp member]
    exact not_mem_nil
  | cons c rest ih =>
    rw [splitOn] at member
    split at member
    · rw [mem_singleton.mp member]
      exact not_mem_nil
    · rename_i first others split
      rw [split] at ih
      split at member
      · rcases mem_cons.mp member with rfl | later
        · exact not_mem_nil
        · exact ih later
      · rename_i differs
        rcases mem_cons.mp member with rfl | later
        · rw [mem_cons, not_or]
          exact ⟨fun same => differs same.symm, ih mem_cons_self⟩
        · exact ih (mem_cons_of_mem _ later)

theorem dropBytes?_add (left right : Text) (bytes : Nat) :
    dropBytes? (byteLength left + bytes) (left ++ right) = dropBytes? bytes right := by
  induction left with
  | nil => rw [byteLength_nil, Nat.zero_add, nil_append]
  | cons c left ih =>
    have positive := c.utf8Size_pos
    rw [byteLength_cons, cons_append]
    obtain ⟨size, same⟩ : ∃ size, c.utf8Size + byteLength left + bytes = size + 1 :=
      ⟨c.utf8Size + byteLength left + bytes - 1, by omega⟩
    have remaining : size + 1 - c.utf8Size = byteLength left + bytes := by omega
    rw [same, dropBytes?, if_pos (by omega), remaining, ih]

theorem dropBytes?_append (left right : Text) :
    dropBytes? (byteLength left) (left ++ right) = some right := by
  rw [← Nat.add_zero (byteLength left), dropBytes?_add, dropBytes?]

theorem dropBytes?_eq_some {bytes : Nat} :
    dropBytes? bytes text = some rest ↔ ∃ before, text = before ++ rest ∧ byteLength before = bytes := by
  constructor
  · intro found
    fun_induction dropBytes? bytes text with
    | case1 text =>
      cases found
      exact ⟨[], rfl, rfl⟩
    | case2 => cases found
    | case3 bytes c text fits ih =>
      obtain ⟨before, rfl, size⟩ := ih found
      exact ⟨c :: before, rfl, by rw [byteLength_cons]; omega⟩
    | case4 => cases found
  · rintro ⟨before, rfl, rfl⟩
    exact dropBytes?_append before rest

theorem after?_eq_some {start : Text} : after? start text = some rest ↔ text = start ++ rest := by
  induction start generalizing text with
  | nil => simp [after?]
  | cons s start ih =>
    cases text with
    | nil => simp [after?]
    | cons c text =>
      rw [after?]
      split
      · rename_i same
        rw [ih, same, cons_append, List.cons.injEq, eq_self, true_and]
      · rename_i other
        simp [Ne.symm other]

theorem expect_append (start : String) (rest : Text) :
    expect start (start.toList ++ rest) = some rest :=
  after?_eq_some.mpr rfl

theorem blanks_eq (text : Text) :
    ∃ gap, text = gap ++ blanks text ∧ ∀ c ∈ gap, isBlank c = true :=
  ⟨text.takeWhile isBlank, takeWhile_append_dropWhile.symm, all_eq_true.mp all_takeWhile⟩

theorem blanks1_eq_some (found : blanks1 text = some rest) :
    ∃ gap, text = gap ++ rest ∧ ∀ c ∈ gap, isBlank c = true := by
  cases text with
  | nil => cases found
  | cons c text =>
    rw [blanks1] at found
    split at found
    · rename_i blank
      cases found
      obtain ⟨gap, whole, blanks⟩ := blanks_eq text
      refine ⟨c :: gap, ?_, ?_⟩
      · rw [cons_append, ← whole]
      · exact forall_mem_cons.mpr ⟨blank, blanks⟩
    · cases found

theorem run1?_eq_some {taken : Text} (found : run1? p text = some (taken, rest)) :
    text = taken ++ rest ∧ ∀ c ∈ taken, p c = true := by
  unfold run1? at found
  split at found
  · cases found
  · rename_i c cs start
    cases found
    rw [← start]
    exact ⟨takeWhile_append_dropWhile.symm, all_eq_true.mp all_takeWhile⟩

theorem run_ended (ended : ∀ c ∈ rest.head?, p c = false) :
    rest.takeWhile p = [] ∧ rest.dropWhile p = rest := by
  cases rest with
  | nil => exact ⟨rfl, rfl⟩
  | cons c rest => simp [ended c rfl]

theorem blanks_append {gap : Text} (blank : ∀ c ∈ gap, isBlank c = true)
    (ended : ∀ c ∈ rest.head?, isBlank c = false) : blanks (gap ++ rest) = rest := by
  rw [blanks, dropWhile_append_of_pos blank]
  exact (run_ended ended).2

theorem blanks1_append {gap : Text} (some : gap ≠ []) (blank : ∀ c ∈ gap, isBlank c = true)
    (ended : ∀ c ∈ rest.head?, isBlank c = false) : blanks1 (gap ++ rest) = .some rest := by
  cases gap with
  | nil => exact absurd rfl some
  | cons c gap =>
    obtain ⟨first, others⟩ := forall_mem_cons.mp blank
    rw [cons_append, blanks1, if_pos first, blanks_append others ended]

theorem run1?_append {run : Text} (some : run ≠ []) (inside : ∀ c ∈ run, p c = true)
    (ended : ∀ c ∈ rest.head?, p c = false) : run1? p (run ++ rest) = .some (run, rest) := by
  have stops := run_ended ended
  rw [run1?, takeWhile_append_of_pos inside, dropWhile_append_of_pos inside, stops.1,
    stops.2, append_nil]
  cases run with
  | nil => exact absurd rfl some
  | cons c run => rfl

theorem name_eq_some {found : Text} (named : name text = some (found, rest)) :
    text = found ++ rest ∧ ∀ c ∈ found, (isNameStart c || isNameRest c) = true := by
  unfold name nameOf at named
  split at named
  · rename_i c text
    split at named
    · rename_i starts
      cases named
      constructor
      · rw [cons_append, takeWhile_append_dropWhile]
      · refine forall_mem_cons.mpr ⟨by rw [starts, Bool.true_or], fun c member => ?_⟩
        rw [all_eq_true.mp all_takeWhile c member, Bool.or_true]
    · cases named
  · cases named

theorem name_append {named : Text} (whole : name named = some (named, []))
    (ended : ∀ c ∈ rest.head?, isNameRest c = false) : name (named ++ rest) = some (named, rest) := by
  obtain ⟨first, last⟩ := run_ended ended
  cases named with
  | nil => cases whole
  | cons c others =>
    obtain ⟨starts, same⟩ := Option.ite_none_right_eq_some.mp whole
    have kept : others.takeWhile isNameRest = others :=
      (List.cons.inj (congrArg Prod.fst (Option.some.inj same))).2
    have inside : ∀ d ∈ others, isNameRest d = true := fun d member =>
      all_eq_true.mp all_takeWhile d (kept.symm ▸ member)
    rw [cons_append, name, nameOf, if_pos starts, takeWhile_append_of_pos inside,
      dropWhile_append_of_pos inside, first, last, append_nil]

theorem trim_eq (text : Text) :
    ∃ before after, text = before ++ trim text ++ after ∧ (∀ c ∈ before, isBlank c = true) ∧
      ∀ c ∈ after, isBlank c = true := by
  obtain ⟨before, front, leading⟩ := blanks_eq text
  obtain ⟨after, back, trailing⟩ := blanks_eq (blanks text).reverse
  refine ⟨before, after.reverse, ?_, leading, fun c member => trailing c (mem_reverse.mp member)⟩
  have ended : blanks text = trim text ++ after.reverse := by
    have turned := congrArg List.reverse back
    rw [reverse_reverse, reverse_append] at turned
    exact turned
  rw [append_assoc, ← ended]
  exact front

end Text

end PageScript
