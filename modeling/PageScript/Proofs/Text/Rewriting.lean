import PageScript.Text.Cut

/-! Texts that are rewritten part by part, and the lines of their places (`newlines_origin`). -/

open List

namespace PageScript.Text

theorem newlines_append (left right : Text) :
    newlines (left ++ right) = newlines left + newlines right :=
  count_append

theorem newlines_newline (rest : Text) : newlines ('\n' :: rest) = newlines rest + 1 :=
  count_cons_self

theorem newlines_cons_of_ne {c : Char} (other : c ≠ '\n') (rest : Text) :
    newlines (c :: rest) = newlines rest :=
  count_cons_of_ne other

theorem newlines_eq_zero {text : Text} (flat : '\n' ∉ text) : newlines text = 0 :=
  count_eq_zero.mpr flat

/-- A text in parts, each with what it became. -/
abbrev Rewriting := List (Text × Text)

namespace Rewriting

variable (text : Text) {rewritings : List Rewriting} {code final : Text}

def source (parts : Rewriting) : Text :=
  parts.flatMap Prod.fst

def result (parts : Rewriting) : Text :=
  parts.flatMap Prod.snd

def kept (text : Text) : Rewriting :=
  text.map fun c => ([c], [c])

def gained : Rewriting → Nat
  | [] => 0
  | (old, new) :: rest => (newlines new - newlines old) + gained rest

def lost : Rewriting → Nat
  | [] => 0
  | (old, new) :: rest => (newlines old - newlines new) + lost rest

/-- The parts before a place in the result. Of the part around it, what it wrote before the place is
new. -/
def upTo : Rewriting → Nat → Rewriting
  | [], _ => []
  | (old, new) :: rest, place =>
      if place < new.length then [([], new.take place)]
      else (old, new) :: upTo rest (place - new.length)

def around? : Rewriting → Nat → Option (Text × Text)
  | [], _ => none
  | (old, new) :: rest, place =>
      if place < new.length then some (old, new) else around? rest (place - new.length)

theorem source_cons (old new : Text) (rest : Rewriting) :
    source ((old, new) :: rest) = old ++ source rest := rfl

theorem result_cons (old new : Text) (rest : Rewriting) :
    result ((old, new) :: rest) = new ++ result rest := rfl

theorem source_append (left right : Rewriting) :
    source (left ++ right) = source left ++ source right :=
  flatMap_append

theorem result_append (left right : Rewriting) :
    result (left ++ right) = result left ++ result right :=
  flatMap_append

theorem source_kept : source (kept text) = text := by
  rw [source, kept, flatMap_map]
  exact flatMap_singleton' text

theorem result_kept : result (kept text) = text := by
  rw [result, kept, flatMap_map]
  exact flatMap_singleton' text

private theorem newlines_result (parts : Rewriting) :
    newlines parts.result + parts.lost = newlines parts.source + parts.gained := by
  induction parts with
  | nil => rfl
  | cons part rest ih =>
    obtain ⟨old, new⟩ := part
    rw [source_cons, result_cons, newlines_append, newlines_append, gained, lost]
    omega

private theorem result_upTo (parts : Rewriting) (place : Nat) :
    (parts.upTo place).result = parts.result.take place := by
  induction parts generalizing place with
  | nil => exact (take_nil).symm
  | cons part rest ih =>
    obtain ⟨old, new⟩ := part
    rw [upTo, result_cons]
    by_cases inside : place < new.length
    · rw [if_pos inside, result_cons, take_append_of_le_length (Nat.le_of_lt inside)]
      exact append_nil _
    · have whole : new.take place = new := take_of_length_le (Nat.le_of_not_lt inside)
      rw [if_neg inside, result_cons, ih, take_append, whole]

private theorem source_upTo (parts : Rewriting) (place : Nat) :
    (parts.upTo place).source <+: parts.source := by
  induction parts generalizing place with
  | nil => exact prefix_refl _
  | cons part rest ih =>
    obtain ⟨old, new⟩ := part
    rw [upTo]
    by_cases inside : place < new.length
    · rw [if_pos inside]
      exact nil_prefix
    · rw [if_neg inside, source_cons, source_cons]
      exact (prefix_append_right_inj old).mpr (ih (place - new.length))

private theorem head?_of_kept {parts : Rewriting} {place : Nat} {c : Char}
    (around : parts.around? place = some ([c], [c])) :
    (parts.source.drop (parts.upTo place).source.length).head? = some c ∧
      (parts.result.drop place).head? = some c := by
  induction parts generalizing place with
  | nil => cases around
  | cons part rest ih =>
    obtain ⟨old, new⟩ := part
    rw [around?] at around
    rw [upTo, source_cons, result_cons]
    by_cases inside : place < new.length
    · rw [if_pos inside] at around ⊢
      cases around
      rw [Nat.lt_one_iff.mp inside]
      exact ⟨rfl, rfl⟩
    · rw [if_neg inside] at around ⊢
      obtain ⟨before, after⟩ := ih around
      have outside : new.length ≤ place := Nat.le_of_not_lt inside
      rw [source_cons, length_append, drop_length_add_append, drop_append,
        drop_of_length_le outside]
      exact ⟨before, after⟩

/-- Parts are taken out, and everything else stays as it is. -/
def Erases (parts : Rewriting) : Prop :=
  ∀ part ∈ parts, part.2 = [] ∨ ∃ c, part = ([c], [c])

theorem erases_kept : Erases (kept text) := by
  intro part member
  obtain ⟨c, _, rfl⟩ := mem_map.mp member
  exact .inr ⟨c, rfl⟩

theorem forall_upTo {holds : Text × Text → Prop} {parts : Rewriting} (each : ∀ part ∈ parts, holds part)
    (within : ∀ part ∈ parts, ∀ place, place < part.2.length → holds ([], part.2.take place))
    (place : Nat) : ∀ part ∈ parts.upTo place, holds part := by
  induction parts generalizing place with
  | nil => exact each
  | cons part rest ih =>
    obtain ⟨first, others⟩ := forall_mem_cons.mp each
    obtain ⟨own, inner⟩ := forall_mem_cons.mp within
    rw [upTo]
    by_cases inside : place < part.2.length
    · rw [if_pos inside]
      exact forall_mem_singleton.mpr (own place inside)
    · rw [if_neg inside]
      exact forall_mem_cons.mpr ⟨first, ih others inner _⟩

theorem Erases.take_eq_nil {parts : Rewriting} (erases : Erases parts) {part : Text × Text}
    (member : part ∈ parts) {place : Nat} (inside : place < part.2.length) : part.2.take place = [] := by
  rcases erases part member with empty | ⟨c, rfl⟩
  · rw [empty, take_nil]
  · rw [Nat.lt_one_iff.mp inside]
    rfl

theorem Erases.upTo {parts : Rewriting} (erases : Erases parts) (place : Nat) :
    Erases (parts.upTo place) :=
  forall_upTo erases (fun _ member _ inside => .inl (erases.take_eq_nil member inside)) place

theorem Erases.gained {parts : Rewriting} (erases : Erases parts) : parts.gained = 0 := by
  induction parts with
  | nil => rfl
  | cons part rest ih =>
    obtain ⟨old, new⟩ := part
    obtain ⟨first, others⟩ := forall_mem_cons.mp erases
    rw [Rewriting.gained, ih others]
    rcases first with empty | ⟨c, same⟩
    · dsimp only at empty
      rw [empty]
      exact Nat.zero_sub _
    · cases same
      exact Nat.sub_self _

/-- No part has more or less line ends than before. -/
def Balanced (parts : Rewriting) : Prop :=
  ∀ part ∈ parts, newlines part.2 = newlines part.1

theorem balanced_kept : Balanced (kept text) := by
  intro part member
  obtain ⟨c, _, rfl⟩ := mem_map.mp member
  rfl

theorem Balanced.gained_lost {parts : Rewriting} (balanced : Balanced parts) :
    parts.gained = 0 ∧ parts.lost = 0 := by
  induction parts with
  | nil => exact ⟨rfl, rfl⟩
  | cons part rest ih =>
    obtain ⟨old, new⟩ := part
    obtain ⟨first, others⟩ := forall_mem_cons.mp balanced
    obtain ⟨noGain, noLoss⟩ := ih others
    dsimp only at first
    rw [Rewriting.gained, Rewriting.lost, noGain, noLoss, first, Nat.sub_self]
    exact ⟨rfl, rfl⟩

theorem Balanced.upTo {parts : Rewriting} (balanced : Balanced parts) (erases : Erases parts)
    (place : Nat) : Balanced (parts.upTo place) := by
  refine forall_upTo balanced (fun part member place inside => ?_) place
  rw [erases.take_eq_nil member inside]

section

variable {α : Type} (parts : Text → α → Rewriting) (recognise : Recogniser α)
  {pieces : List (Piece α)}

/-- The pieces of a text as parts: a character stays, and an occurrence is in parts of its own. -/
def ofPieces (pieces : List (Piece α)) : Rewriting :=
  pieces.flatMap fun
    | .plain c => [([c], [c])]
    | .found lexeme value => parts lexeme value

theorem source_ofPieces
    (same : ∀ lexeme value, .found lexeme value ∈ pieces → (parts lexeme value).source = lexeme) :
    (ofPieces parts pieces).source = pieces.flatMap Piece.source := by
  rw [source, ofPieces, flatMap_assoc]
  refine congrArg List.flatten (map_congr_left fun piece member => ?_)
  cases piece with
  | plain c => rfl
  | found lexeme value => exact same lexeme value member

theorem result_ofPieces {write : Text → α → Text}
    (same : ∀ lexeme value, .found lexeme value ∈ pieces →
      (parts lexeme value).result = write lexeme value) :
    (ofPieces parts pieces).result = writePieces write pieces := by
  rw [result, ofPieces, flatMap_assoc]
  refine congrArg List.flatten (map_congr_left fun piece member => ?_)
  cases piece with
  | plain c => rfl
  | found lexeme value => exact same lexeme value member

private theorem forall_ofPieces {holds : Text × Text → Prop} (plain : ∀ c, holds ([c], [c]))
    (each : ∀ lexeme value, .found lexeme value ∈ pieces → ∀ part ∈ parts lexeme value, holds part) :
    ∀ part ∈ ofPieces parts pieces, holds part := by
  intro part member
  obtain ⟨piece, among, within⟩ := mem_flatMap.mp member
  cases piece with
  | plain c => exact mem_singleton.mp within ▸ plain c
  | found lexeme value => exact each lexeme value among part within

theorem balanced_ofPieces
    (each : ∀ lexeme value, .found lexeme value ∈ pieces → Balanced (parts lexeme value)) :
    Balanced (ofPieces parts pieces) :=
  forall_ofPieces parts (fun _ => rfl) each

theorem erases_ofPieces
    (each : ∀ lexeme value, .found lexeme value ∈ pieces → Erases (parts lexeme value)) :
    Erases (ofPieces parts pieces) :=
  forall_ofPieces parts (fun c => .inr ⟨c, rfl⟩) each

def replacing (recognise : Recogniser α) (write : α → Text) (code : Text) : Rewriting :=
  ofPieces (fun lexeme value => [(lexeme, write value)]) (cut recognise code)

theorem source_replacing (write : α → Text) (code : Text) :
    (replacing recognise write code).source = code := by
  rw [replacing, source_ofPieces, flatMap_source_cut]
  exact fun lexeme _ _ => append_nil lexeme

theorem result_replacing (write : α → Text) (code : Text) :
    (replacing recognise write code).result = replace recognise write code :=
  result_ofPieces _ fun _ value _ => append_nil (write value)

theorem erases_replacing (code : Text) : Erases (replacing recognise (fun _ => []) code) := by
  refine erases_ofPieces _ fun lexeme value _ part member => ?_
  rw [mem_singleton.mp member]
  exact .inl rfl

end

def Lead (code : Text) : List Rewriting → Text → Prop
  | [], final => code = final
  | parts :: earlier, final => parts.result = final ∧ Lead code earlier parts.source

/-- What comes before a place in the result, rewriting by rewriting. -/
def trace : List Rewriting → Nat → List Rewriting
  | [], _ => []
  | parts :: earlier, place => parts.upTo place :: trace earlier (parts.upTo place).source.length

/-- The place that a place in the result comes from. -/
def origin : List Rewriting → Nat → Nat
  | [], place => place
  | parts :: earlier, place => origin earlier (parts.upTo place).source.length

def allGained : List Rewriting → Nat
  | [] => 0
  | parts :: others => parts.gained + allGained others

def allLost : List Rewriting → Nat
  | [] => 0
  | parts :: others => parts.lost + allLost others

/-- At a place stands a character that no rewriting wrote. -/
def Untouched : List Rewriting → Nat → Prop
  | [], _ => True
  | parts :: earlier, place =>
      (∃ c, parts.around? place = some ([c], [c])) ∧
        Untouched earlier (parts.upTo place).source.length

theorem newlines_origin (lead : Lead code rewritings final) (place : Nat) :
    newlines (final.take place) + allLost (trace rewritings place) =
      newlines (code.take (origin rewritings place)) + allGained (trace rewritings place) := by
  induction rewritings generalizing final place with
  | nil =>
    cases lead
    rfl
  | cons parts earlier ih =>
    obtain ⟨rfl, before⟩ := lead
    have here := newlines_result (parts.upTo place)
    have rest := ih before (parts.upTo place).source.length
    rw [result_upTo] at here
    rw [(prefix_iff_eq_take.mp (source_upTo parts place)).symm] at rest
    rw [trace, origin, allLost, allGained]
    omega

theorem Untouched.head?
    (lead : Lead code rewritings final) {place : Nat} (untouched : Untouched rewritings place) :
    (code.drop (origin rewritings place)).head? = (final.drop place).head? := by
  induction rewritings generalizing final place with
  | nil =>
    cases lead
    rfl
  | cons parts earlier ih =>
    obtain ⟨rfl, before⟩ := lead
    obtain ⟨⟨c, around⟩, rest⟩ := untouched
    obtain ⟨old, new⟩ := head?_of_kept around
    rw [origin, ih before rest, old, new]

end Rewriting

end PageScript.Text
