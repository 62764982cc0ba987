import PageScript.Proofs.Text.Cut

/-! Reading a filled text is reading the text and filling what was read (`run_fill`). -/

open List

namespace PageScript

open Text Option Bool

variable {c d : Char} {part text taken rest : Text} {p q : Char → Bool} {start : String}
  {left right : Nat}

namespace Text

/-- A placeholder: a character for private use, which is neither a word character nor white space. -/
def isHole (c : Char) : Bool :=
  0xE000 ≤ c.toNat && c.toNat ≤ 0xF8FF && ! isWord c && ! isBlank c

def isOpening (c : Char) : Bool :=
  ['{', '[', '\x22', '@'].contains c

def isEnding (c : Char) : Bool :=
  ['}', ']', '\x22', '>'].contains c

/-- What is said of all characters of a text is decided along the text. -/
instance (priority := 2000) {property : Char → Prop} [DecidablePred property] (text : Text) :
    Decidable (∀ c ∈ text, property c) :=
  List.decidableBAll property text

def Free (text : Text) : Prop :=
  ∀ c ∈ text, isHole c = false

instance (text : Text) : Decidable (Free text) :=
  List.decidableBAll (fun c => isHole c = false) text

private theorem known_of_isHole (hole : isHole c = true) :
    128 ≤ c.toNat ∧ isWord c = false ∧ isBlank c = false := by
  simp only [isHole, and_eq_true, decide_eq_true_eq, not_eq_true'] at hole
  obtain ⟨⟨⟨low, _⟩, word⟩, blank⟩ := hole
  exact ⟨by omega, word, blank⟩

private theorem isHole_of_ascii (known : c.toNat < 128) : isHole c = false := by
  rw [← not_eq_true]
  intro hole
  have beyond := (known_of_isHole hole).1
  omega

theorem ne_of_isHole (hole : isHole c = true) (known : d.toNat < 128) : c ≠ d := by
  rintro rfl
  rw [isHole_of_ascii known] at hole
  cases hole

theorem Free.append {left right : Text} (first : Free left) (second : Free right) :
    Free (left ++ right) := by
  intro c member
  rcases mem_append.mp member with early | late
  · exact first c early
  · exact second c late

theorem Free.sublist (free : Free text) (within : part.Sublist text) : Free part :=
  fun c member => free c (within.mem member)

theorem Free.takeWhile (free : Free (text.takeWhile q)) (each : ∀ c, p c = true → q c = true) :
    Free (text.takeWhile p) := by
  rw [← takeWhile_append_dropWhile (p := p) (l := text), takeWhile_append_of_pos
    fun c member => each c (all_eq_true.mp all_takeWhile c member)] at free
  exact free.sublist (sublist_append_left _ _)

theorem Free.countP (free : Free text) : text.countP isHole = 0 :=
  countP_eq_zero.mpr fun c member => by simp [free c member]

theorem Free.of_countP (none : text.countP isHole = 0) : Free text :=
  fun c member => by simpa using countP_eq_zero.mp none c member

def holes (text : Text) : Text :=
  text.filter isHole

theorem holes_append (left right : Text) : holes (left ++ right) = holes left ++ holes right :=
  filter_append left right

theorem Free.holes (free : Free text) : holes text = [] :=
  filter_eq_nil_iff.mpr fun c member => by simp [free c member]

private theorem countP_of_holes {left right : Text} (same : holes left = holes right) :
    left.countP isHole = right.countP isHole := by
  rw [countP_eq_length_filter, countP_eq_length_filter]
  exact congrArg List.length same

def Fresh (before after : Text) : Prop :=
  after.countP isHole ≤ before.countP isHole

theorem Fresh.of_holes {before after : Text} (same : holes after = holes before) :
    Fresh before after :=
  Nat.le_of_eq (countP_of_holes same)

theorem Fresh.length_le {before after : Text} (fresh : Fresh before after) :
    (holes after).length ≤ (holes before).length := by
  rwa [Fresh, countP_eq_length_filter, countP_eq_length_filter] at fresh

/-- A class of characters that placeholders are not in, nor what their texts start with. -/
structure Stops (p : Char → Bool) : Prop where
  hole : ∀ c, isHole c = true → p c = false
  opening : ∀ c, isOpening c = true → p c = false

theorem Stops.intro (hole : ∀ c, isHole c = true → p c = false)
    (opening : ['{', '[', '\x22', '@'].all (! p ·) = true) : Stops p where
  hole := hole
  opening c first := by
    have member : c ∈ ['{', '[', '\x22', '@'] := contains_iff_mem.mp first
    simpa using all_eq_true.mp opening c member

theorem Stops.isHole (stops : Stops p) (inside : p c = true) : isHole c = false := by
  rw [← not_eq_true]
  intro hole
  rw [stops.hole c hole] at inside
  cases inside

theorem Stops.free (stops : Stops p) (found : run1? p text = some (taken, rest)) : Free taken :=
  fun c member => stops.isHole ((run1?_eq_some found).2 c member)

theorem isBlank_stops : Stops isBlank :=
  .intro (fun _ hole => (known_of_isHole hole).2.2) (by decide)

theorem isWord_stops : Stops isWord :=
  .intro (fun _ hole => (known_of_isHole hole).2.1) (by decide)

theorem isInlineBlank_stops : Stops isInlineBlank :=
  .intro (fun _ hole => by simp [isInlineBlank, ne_of_isHole hole (d := ' ') (by decide),
    ne_of_isHole hole (d := '\t') (by decide)]) (by decide)

theorem eq_stops (known : d.toNat < 128) (other : isOpening d = false) : Stops (· == d) where
  hole c hole := by simp [ne_of_isHole hole known]
  opening c first := by
    rw [beq_eq_false_iff_ne]
    rintro rfl
    rw [other] at first
    cases first

theorem Stops.or_eq (stops : Stops p) (known : d.toNat < 128) (other : isOpening d = false) :
    Stops fun c => p c || c == d where
  hole c hole := by rw [stops.hole c hole, (eq_stops known other).hole c hole]; rfl
  opening c first := by rw [stops.opening c first, (eq_stops known other).opening c first]; rfl

theorem isNameRest_stops : Stops isNameRest :=
  isWord_stops.or_eq (by decide) (by decide)

theorem isLabel_stops : Stops isLabel :=
  (isWord_stops.or_eq (by decide) (by decide)).or_eq (by decide) (by decide)

theorem toNat_of_isAlpha (letter : c.isAlpha = true) : c.toNat < 128 := by
  have known : (65 ≤ c.toNat ∧ c.toNat ≤ 90) ∨ 97 ≤ c.toNat ∧ c.toNat ≤ 122 := by
    refine (or_eq_true_iff.mp letter).imp (fun upper => ?_) (fun lower => ?_)
    · obtain ⟨low, high⟩ := of_decide_eq_true upper
      exact ⟨UInt32.le_iff_toNat_le.mp low, UInt32.le_iff_toNat_le.mp high⟩
    · obtain ⟨low, high⟩ := and_eq_true_iff.mp lower
      exact ⟨UInt32.le_iff_toNat_le.mp (of_decide_eq_true low),
        UInt32.le_iff_toNat_le.mp (of_decide_eq_true high)⟩
  omega

private theorem isNameStart_stops : Stops isNameStart := by
  refine .intro (fun c hole => ?_) (by decide)
  have beyond := (known_of_isHole hole).1
  have letter : c.isAlpha = false :=
    eq_false_iff.mpr fun letter => Nat.not_lt.mpr beyond (toNat_of_isAlpha letter)
  simp [isNameStart, letter, ne_of_isHole hole (d := '_') (by decide),
    ne_of_isHole hole (d := '$') (by decide)]

theorem isBlank_of_isNameStart (start : isNameStart c = true) : isBlank c = false := by
  refine eq_false_iff.mpr fun blank => ?_
  rcases or_eq_true_iff.mp start with either | dollar
  · rcases or_eq_true_iff.mp either with letter | bar
    · have word := isWord_of_isBlank blank
      rw [isWord, if_pos (toNat_of_isAlpha letter), Char.isAlphanum, letter] at word
      cases word
    · rw [eq_of_beq bar] at blank
      cases blank
  · rw [eq_of_beq dollar] at blank
    cases blank

/-! ### Reading up to a place -/

def Past (p : Char → Bool) (text rest : Text) : Prop :=
  ∃ front, text = front ++ rest ∧ ∀ c ∈ front, p c = true

namespace Past

variable {p : Char → Bool} {first second third text rest : Text}

theorem refl (text : Text) : Past p text text :=
  ⟨[], rfl, fun _ none => by cases none⟩

theorem trans (early : Past p first second) (late : Past p second third) : Past p first third := by
  obtain ⟨left, rfl, passed⟩ := early
  obtain ⟨right, rfl, later⟩ := late
  refine ⟨left ++ right, (append_assoc _ _ _).symm, fun c member => ?_⟩
  rcases mem_append.mp member with before | after
  · exact passed c before
  · exact later c after

theorem dropWhile (each : ∀ c, q c = true → p c = true) (text : Text) :
    Past p text (text.dropWhile q) :=
  ⟨text.takeWhile q, takeWhile_append_dropWhile.symm, fun c member =>
    each c (all_eq_true.mp all_takeWhile c member)⟩

theorem after? {start : Text} (each : ∀ c ∈ start, p c = true)
    (found : after? start text = some rest) : Past p text rest :=
  ⟨start, after?_eq_some.mp found, each⟩

theorem blanks (each : ∀ c, isBlank c = true → p c = true) (text : Text) :
    Past p text (blanks text) :=
  dropWhile each text

theorem blanks1 (each : ∀ c, isBlank c = true → p c = true)
    (found : blanks1 text = some rest) : Past p text rest := by
  obtain ⟨gap, whole, blank⟩ := blanks1_eq_some found
  exact ⟨gap, whole, fun c member => each c (blank c member)⟩

theorem run1? (each : ∀ c, q c = true → p c = true) (found : run1? q text = some (taken, rest)) :
    Past p text rest := by
  obtain ⟨whole, inside⟩ := run1?_eq_some found
  exact ⟨taken, whole, fun c member => each c (inside c member)⟩

theorem name (each : ∀ c, (isNameStart c || isNameRest c) = true → p c = true)
    (found : name text = some (taken, rest)) : Past p text rest := by
  obtain ⟨whole, inside⟩ := name_eq_some found
  exact ⟨taken, whole, fun c member => each c (inside c member)⟩

theorem suffix (past : Past p text rest) : rest <:+ text := by
  obtain ⟨front, rfl, _⟩ := past
  exact suffix_append front rest

private theorem mem_takeWhile (past : Past p text rest) (member : c ∈ rest.takeWhile p) :
    c ∈ text.takeWhile p := by
  obtain ⟨front, rfl, passed⟩ := past
  rw [takeWhile_append_of_pos passed]
  exact mem_append_right front member

theorem mono (each : ∀ c, p c = true → q c = true) (past : Past p text rest) : Past q text rest := by
  obtain ⟨front, whole, passed⟩ := past
  exact ⟨front, whole, fun c member => each c (passed c member)⟩

end Past

/-- A character that stands for itself and is passed over on the way to a semicolon. -/
def isCalm (c : Char) : Bool :=
  c != ';' && ! isHole c

theorem isHole_of_isCalm (calm : isCalm c = true) : isHole c = false := by
  simpa using (and_eq_true_iff.mp calm).2

theorem Stops.isCalm (stops : Stops p) (semicolon : p ';' = false) (c : Char) (inside : p c = true) :
    isCalm c = true := by
  have plain := stops.isHole inside
  have other : c ≠ ';' := by
    rintro rfl
    rw [semicolon] at inside
    cases inside
  simp [Text.isCalm, plain, other]

theorem isCalm_of_isBlank (c : Char) (blank : isBlank c = true) : isCalm c = true :=
  isBlank_stops.isCalm (by decide) c blank

private theorem isCalm_of_isNameRest (c : Char) (inside : isNameRest c = true) : isCalm c = true :=
  isNameRest_stops.isCalm (by decide) c inside

theorem isCalm_of_isNameStart (c : Char) (inside : (isNameStart c || isNameRest c) = true) :
    isCalm c = true := by
  rcases or_eq_true_iff.mp inside with start | rest
  · exact isNameStart_stops.isCalm (by decide) c start
  · exact isCalm_of_isNameRest c rest

theorem upToSemicolon_eq_some {body : Text} (found : upToSemicolon text = some (body, rest)) :
    text = body ++ ';' :: rest ∧ body = text.takeWhile (· != ';') := by
  unfold upToSemicolon at found
  split at found
  · rename_i c rest' dropped
    cases found
    have stop : c = ';' := by
      have head := head_dropWhile_not (· != ';') (l := text) (by rw [dropped]; simp)
      simpa [dropped] using head
    rw [stop] at dropped
    exact ⟨by rw [← dropped, takeWhile_append_dropWhile], rfl⟩
  · cases found

theorem upToSemicolon_append {body : Text} (whole : text = body ++ ';' :: rest)
    (inside : ∀ c ∈ body, (c != ';') = true) : upToSemicolon text = some (body, rest) := by
  unfold upToSemicolon
  rw [whole, takeWhile_append_of_pos inside, dropWhile_append_of_pos inside]
  simp

/-- No placeholder stands between the start of a directive and the next semicolon. -/
def Unreached (start : String) (text : Text) : Prop :=
  ∀ part, part <:+ text → start.toList <+: part → Free (part.takeWhile (· != ';'))

theorem forall_drop_iff {property : Text → Prop} :
    (∀ position ≤ text.length, property (text.drop position)) ↔
      ∀ part, part <:+ text → property part := by
  constructor
  · rintro each part ⟨front, rfl⟩
    have here := each front.length (by simp)
    rwa [drop_left] at here
  · exact fun each position _ => each _ (drop_suffix position text)

instance (start : String) (text : Text) : Decidable (Unreached start text) :=
  have (part : Text) : Decidable (start.toList <+: part → Free (part.takeWhile (· != ';'))) :=
    inferInstance
  decidable_of_iff _ forall_drop_iff

theorem Unreached.free (unreached : Unreached start text) (within : part <:+ text)
    (begun : start.toList <+: part) (past : Past isCalm part rest) :
    Free (rest.takeWhile (· != ';')) := by
  have wide : Past (· != ';') part rest := past.mono fun c calm => (and_eq_true_iff.mp calm).1
  exact fun c member => unreached part within begun c (wide.mem_takeWhile member)

theorem holes_content (found : content text = some rest) : holes rest = holes text := by
  have blank : Free (text.takeWhile isBlank) := fun c member =>
    isHole_of_isCalm (isCalm_of_isBlank c (all_eq_true.mp all_takeWhile c member))
  have whole := (takeWhile_append_dropWhile (p := isBlank) (l := text)).symm
  have split : holes text = holes (text.dropWhile isBlank) := by
    conv => lhs; rw [whole, holes_append, blank.holes, nil_append]
  unfold content at found
  split at found
  · rename_i nothing
    obtain ⟨last, ended, same⟩ := map_eq_some_iff.mp found
    rw [nothing, append_nil] at whole
    rw [whole] at ended
    rw [split, nothing, ← same]
    exact Free.holes (forall_mem_singleton.mpr (blank last (mem_of_getLast? ended)))
  · rename_i c more remaining
    cases found
    rw [split, remaining]

end Text

structure Filling where
  text : Char → Text
  same : ∀ c, isHole c = false → text c = [c]
  opens : ∀ c, isHole c = true → ∃ first rest, text c = first :: rest ∧ isOpening first = true
  ends : ∀ c, isHole c = true → ∃ front last, text c = front ++ [last] ∧ isEnding last = true

namespace Filling

variable (filling : Filling)

def fill (text : Text) : Text :=
  text.flatMap filling.text

@[simp] theorem fill_nil : filling.fill [] = [] := rfl

theorem fill_cons (c : Char) (rest : Text) :
    filling.fill (c :: rest) = filling.text c ++ filling.fill rest := rfl

@[simp] theorem fill_append (left right : Text) :
    filling.fill (left ++ right) = filling.fill left ++ filling.fill right :=
  flatMap_append

theorem fill_plain (plain : isHole c = false) (rest : Text) :
    filling.fill (c :: rest) = c :: filling.fill rest := by
  rw [fill_cons, filling.same c plain, singleton_append]

theorem text_ne_nil (c : Char) : filling.text c ≠ [] := by
  cases hole : isHole c with
  | true =>
    obtain ⟨first, rest, same, _⟩ := filling.opens c hole
    rw [same]
    exact cons_ne_nil first rest
  | false =>
    rw [filling.same c hole]
    exact cons_ne_nil c []

theorem fill_eq_self (free : Free text) : filling.fill text = text := by
  induction text with
  | nil => rfl
  | cons c rest ih =>
    obtain ⟨plain, others⟩ := forall_mem_cons.mp free
    rw [fill_plain filling plain, ih others]

def both (found : Text × Text) : Text × Text :=
  (filling.fill found.1, filling.fill found.2)

/-! ### Runs -/

/-- A run is filled with its text: what it passes over is passed over once it is filled, and where it
stops the filled text stops it. -/
theorem run_fill (through : ∀ c ∈ text.takeWhile p, ∀ d ∈ filling.text c, p d = true)
    (stops : ∀ c, p c = false → ∃ first rest, filling.text c = first :: rest ∧ p first = false) :
    (filling.fill text).takeWhile p = filling.fill (text.takeWhile p) ∧
      (filling.fill text).dropWhile p = filling.fill (text.dropWhile p) := by
  induction text with
  | nil => exact ⟨rfl, rfl⟩
  | cons c rest ih =>
    rw [fill_cons]
    cases kept : p c with
    | false =>
      obtain ⟨first, more, same, out⟩ := stops c kept
      rw [same, cons_append, takeWhile_cons_of_neg (by simp [out]),
        dropWhile_cons_of_neg (by simp [out]), takeWhile_cons_of_neg (by simp [kept]),
        dropWhile_cons_of_neg (by simp [kept]), fill_cons, same, cons_append]
      exact ⟨rfl, rfl⟩
    | true =>
      rw [takeWhile_cons_of_pos kept] at through ⊢
      obtain ⟨here, later⟩ := forall_mem_cons.mp through
      obtain ⟨taken, left⟩ := ih later
      rw [takeWhile_append_of_pos here, dropWhile_append_of_pos here, taken, left,
        dropWhile_cons_of_pos kept]
      exact ⟨rfl, rfl⟩

theorem run_stops (stops : Stops p) (text : Text) :
    (filling.fill text).takeWhile p = filling.fill (text.takeWhile p) ∧
      (filling.fill text).dropWhile p = filling.fill (text.dropWhile p) := by
  refine run_fill filling (fun c member => ?_) (fun c out => ?_)
  · have kept := all_eq_true.mp all_takeWhile c member
    rw [filling.same c (stops.isHole kept)]
    exact forall_mem_singleton.mpr kept
  · cases hole : isHole c with
    | true =>
      obtain ⟨first, rest, same, opening⟩ := filling.opens c hole
      exact ⟨first, rest, same, stops.opening first opening⟩
    | false => exact ⟨c, [], filling.same c hole, out⟩

/-- A run without placeholders is the same once the text is filled, if a placeholder would not end it. -/
theorem run_free (free : Free (text.takeWhile p)) (holes : ∀ c, isHole c = true → p c = true) :
    (filling.fill text).takeWhile p = text.takeWhile p ∧
      (filling.fill text).dropWhile p = filling.fill (text.dropWhile p) := by
  rw [← filling.fill_eq_self free]
  refine filling.run_fill (fun c member => ?_) (fun c out => ?_)
  · rw [filling.same c (free c member)]
    exact forall_mem_singleton.mpr (all_eq_true.mp all_takeWhile c member)
  · have plain : isHole c = false := by
      rw [← not_eq_true]
      intro hole
      rw [holes c hole] at out
      cases out
    exact ⟨c, [], filling.same c plain, out⟩

theorem blanks_fill (text : Text) :
    blanks (filling.fill text) = filling.fill (blanks text) :=
  (filling.run_stops isBlank_stops text).2

theorem gaps_fill (text : Text) : gaps (filling.fill text) = filling.fill (gaps text) :=
  (filling.run_stops isInlineBlank_stops text).2

theorem run1?_fill (stops : Stops p) (text : Text) :
    run1? p (filling.fill text) = (run1? p text).map filling.both := by
  obtain ⟨taken, left⟩ := filling.run_stops stops text
  unfold run1?
  rw [taken, left]
  cases run : text.takeWhile p with
  | nil => rfl
  | cons c more =>
    have kept : p c = true := all_eq_true.mp all_takeWhile c (run ▸ mem_cons_self)
    have plain := stops.isHole kept
    rw [fill_plain filling plain]
    dsimp only [map_some, both]
    rw [fill_plain filling plain]

/-- The first character of a filled text is in a class that stops at placeholders if the first character
of the text is, and then it is that character. -/
theorem fill_cons_cases (stops : Stops p) (c : Char) (rest : Text) :
    (p c = true ∧ filling.fill (c :: rest) = c :: filling.fill rest) ∨
      (p c = false ∧ ∃ d more, filling.fill (c :: rest) = d :: more ∧ p d = false) := by
  cases hole : isHole c with
  | true =>
    obtain ⟨first, more, same, opening⟩ := filling.opens c hole
    exact .inr ⟨stops.hole c hole, first, more ++ filling.fill rest,
      by rw [fill_cons, same, cons_append], stops.opening first opening⟩
  | false =>
    have filled := fill_plain filling hole rest
    cases kept : p c with
    | true => exact .inl ⟨rfl, filled⟩
    | false => exact .inr ⟨rfl, c, _, filled, kept⟩

theorem head?_fill (known : d.toNat < 128) (other : isOpening d = false) (text : Text) :
    ((filling.fill text).head? == some d) = (text.head? == some d) := by
  cases text with
  | nil => rfl
  | cons c rest =>
    rcases filling.fill_cons_cases (eq_stops known other) c rest with
      ⟨_, filled⟩ | ⟨out, first, more, filled, differs⟩
    · rw [filled]
      rfl
    · rw [filled]
      exact differs.trans out.symm

theorem blanks1_fill (text : Text) :
    blanks1 (filling.fill text) = (blanks1 text).map filling.fill := by
  cases text with
  | nil => rfl
  | cons c rest =>
    rcases filling.fill_cons_cases isBlank_stops c rest with ⟨kept, filled⟩ | ⟨out, d, more, filled, other⟩
    · rw [filled, blanks1, blanks1, if_pos kept, if_pos kept, blanks_fill, map_some]
    · simp [filled, blanks1, out, other]

theorem gaps1_fill (text : Text) :
    gaps1 (filling.fill text) = (gaps1 text).map filling.fill := by
  cases text with
  | nil => rfl
  | cons c rest =>
    rcases filling.fill_cons_cases isInlineBlank_stops c rest with
      ⟨kept, filled⟩ | ⟨out, d, more, filled, other⟩
    · rw [filled, gaps1, gaps1, if_pos kept, if_pos kept, gaps_fill, map_some]
    · simp [filled, gaps1, out, other]

theorem name_fill (text : Text) :
    name (filling.fill text) = (name text).map filling.both := by
  cases text with
  | nil => rfl
  | cons c rest =>
    unfold name nameOf
    rcases filling.fill_cons_cases isNameStart_stops c rest with
      ⟨kept, filled⟩ | ⟨out, d, more, filled, other⟩
    · obtain ⟨taken, left⟩ := filling.run_stops isNameRest_stops rest
      have plain := isNameStart_stops.isHole kept
      rw [filled]
      dsimp only
      rw [if_pos kept, if_pos kept, taken, left, map_some, both, fill_plain filling plain]
    · rw [filled]
      dsimp only
      rw [out, other]
      rfl

/-! ### Markers -/

theorem after?_fill {start : Text} (known : ∀ s ∈ start, isHole s = false ∧ isOpening s = false)
    (text : Text) :
    after? start (filling.fill text) = (after? start text).map filling.fill := by
  induction start generalizing text with
  | nil => rfl
  | cons s start ih =>
    obtain ⟨⟨plain, other⟩, later⟩ := forall_mem_cons.mp known
    cases text with
    | nil => rfl
    | cons c rest =>
      cases hole : isHole c with
      | true =>
        obtain ⟨first, more, same, opening⟩ := filling.opens c hole
        have differs : s ≠ first := by
          rintro rfl
          rw [other] at opening
          cases opening
        have apart : s ≠ c := by
          rintro rfl
          rw [plain] at hole
          cases hole
        rw [fill_cons, same, cons_append, after?, after?, if_neg differs,
          if_neg apart]
        rfl
      | false =>
        rw [fill_plain filling hole, after?, after?]
        split
        · exact ih later rest
        · rfl

/-- Also a marker that starts like the text of a placeholder is not missed or made up where none
stands. -/
theorem after?_fill_cons {s : Char} {start : Text}
    (known : ∀ s ∈ start, isHole s = false ∧ isOpening s = false) (plain : isHole c = false)
    (rest : Text) :
    after? (s :: start) (filling.fill (c :: rest)) =
      (after? (s :: start) (c :: rest)).map filling.fill := by
  rw [fill_plain filling plain, after?, after?]
  split
  · exact filling.after?_fill known rest
  · rfl

theorem expect_fill (known : ∀ s ∈ start.toList, isHole s = false ∧ isOpening s = false) (text : Text) :
    expect start (filling.fill text) = (expect start text).map filling.fill :=
  filling.after?_fill known text

theorem expect_fill_cons (known : ∀ s ∈ start.toList.tail, isHole s = false ∧ isOpening s = false)
    (plain : isHole c = false) (rest : Text) :
    expect start (filling.fill (c :: rest)) =
      (expect start (c :: rest)).map filling.fill := by
  unfold expect
  cases same : start.toList with
  | nil => rfl
  | cons s more =>
    rw [same] at known
    exact filling.after?_fill_cons known plain rest

/-- No marker starts in the text of a placeholder that does not have it, whatever follows: what that text
ends with does not come in the marker before its end. -/
theorem after?_inside {marker : Text} (whole : ∀ d ∈ marker.dropLast, isEnding d = false)
    (hole : isHole c = true) (absent : ¬ marker <:+: filling.text c) (more : part ≠ [])
    (within : part <:+ filling.text c) (rest : Text) : after? marker (part ++ rest) = none := by
  rw [eq_none_iff_forall_ne_some]
  intro after found
  rcases append_eq_append_iff.mp (after?_eq_some.mp found) with
    ⟨extra, split, _⟩ | ⟨extra, split, _⟩
  · cases extra with
    | nil =>
      rw [append_nil] at split
      exact absent (split ▸ within.isInfix)
    | cons d extra =>
      obtain ⟨front, last, same, ending⟩ := filling.ends c hole
      have member : last ∈ part := by
        obtain ⟨start, joined⟩ := within
        rw [same] at joined
        obtain ⟨others, d, taken⟩ := (eq_nil_or_concat part).resolve_left more
        rw [taken, concat_eq_append, ← append_assoc] at joined
        have ended := (append_inj' joined rfl).2
        rw [taken, concat_eq_append, ended]
        exact mem_append_right others mem_cons_self
      have inside : last ∈ marker.dropLast := by
        rw [split, dropLast_append_of_ne_nil (cons_ne_nil d extra)]
        exact mem_append_left _ member
      rw [whole last inside] at ending
      cases ending
  · have start : marker <+: part := ⟨extra, split.symm⟩
    exact absent (start.isInfix.trans within.isInfix)

theorem cutAt?_fill {first : Char} {marker : Text}
    (known : ∀ s ∈ marker, isHole s = false ∧ isOpening s = false)
    (whole : ∀ d ∈ (first :: marker).dropLast, isEnding d = false) (plain : isHole first = false)
    (absent : ∀ c, isHole c = true → ¬ first :: marker <:+: filling.text c) (text : Text) :
    cutAt? (first :: marker) (filling.fill text) =
      (cutAt? (first :: marker) text).map filling.both := by
  induction text with
  | nil => rfl
  | cons c rest ih =>
    cases hole : isHole c with
    | false =>
      have here := filling.after?_fill_cons (s := first) known hole rest
      rw [fill_plain filling hole] at here ⊢
      rw [cutAt?, cutAt?, here]
      cases after? (first :: marker) (c :: rest) with
      | some after => rfl
      | none =>
        dsimp only [map_none]
        rw [ih, Option.map_map, Option.map_map]
        congr 1
        funext found
        exact Prod.ext (fill_plain filling hole found.1).symm rfl
    | true =>
      have differs : first ≠ c := by
        rintro rfl
        rw [plain] at hole
        cases hole
      have missing : after? (first :: marker) (c :: rest) = none := by
        rw [after?, if_neg differs]
      -- the marker is looked for at every place of the text of the placeholder
      suffices passes : ∀ part, part <:+ filling.text c →
          cutAt? (first :: marker) (part ++ filling.fill rest) =
            (cutAt? (first :: marker) rest).map fun found =>
              (part ++ filling.fill found.1, filling.fill found.2) by
        rw [fill_cons, passes _ (suffix_refl _), cutAt?, missing, Option.map_map]
        rfl
      intro part within
      induction part with
      | nil => exact ih
      | cons d part ih' =>
        have here := filling.after?_inside whole hole
          (absent c hole) (cons_ne_nil d part) within (filling.fill rest)
        rw [cons_append] at here ⊢
        rw [cutAt?, here, ih' ((suffix_cons d part).trans within), Option.map_map]
        rfl

private theorem upToSemicolon_fill
    (calm : ∀ c ∈ text.takeWhile (· != ';'), isHole c = true → ';' ∉ filling.text c) :
    upToSemicolon (filling.fill text) = (upToSemicolon text).map filling.both := by
  have through : ∀ c ∈ text.takeWhile (· != ';'), ∀ d ∈ filling.text c, (d != ';') = true := by
    intro c member d inside
    rw [bne_iff_ne]
    rintro rfl
    cases hole : isHole c with
    | true => exact calm c member hole inside
    | false =>
      rw [filling.same c hole, mem_singleton] at inside
      have kept := all_eq_true.mp all_takeWhile c member
      rw [← inside] at kept
      cases kept
  have stops : ∀ c, (c != ';') = false →
      ∃ first rest, filling.text c = first :: rest ∧ (first != ';') = false := by
    intro c stop
    have same : c = ';' := by simpa using stop
    exact ⟨';', [], by rw [same, filling.same ';' rfl], rfl⟩
  obtain ⟨taken, left⟩ := filling.run_fill through stops
  unfold upToSemicolon
  rw [taken, left]
  cases dropped : text.dropWhile (· != ';') with
  | nil => rfl
  | cons c rest =>
    have stop : c = ';' := by
      have head := head_dropWhile_not (· != ';') (l := text) (by rw [dropped]; simp)
      simpa [dropped] using head
    rw [stop, fill_plain filling rfl]
    rfl

theorem upToSemicolon_free (free : Free (text.takeWhile (· != ';'))) :
    upToSemicolon (filling.fill text) =
      (upToSemicolon text).map fun found => (found.1, filling.fill found.2) := by
  rw [filling.upToSemicolon_fill fun c member hole => by
    rw [free c member] at hole
    cases hole]
  cases found : upToSemicolon text with
  | none => rfl
  | some answer =>
    obtain ⟨body, rest⟩ := answer
    obtain ⟨_, rfl⟩ := upToSemicolon_eq_some found
    rw [map_some, map_some, both, filling.fill_eq_self free]

/-- Where a directive may start, what stands for placeholders up to the next semicolon has none. -/
def Calm (start : String) (text : Text) : Prop :=
  ∀ part, part <:+ text → start.toList <+: part → ∀ c ∈ part.takeWhile (· != ';'),
    isHole c = true → ';' ∉ filling.text c

instance (start : String) (text : Text) : Decidable (filling.Calm start text) :=
  have (part : Text) : Decidable (start.toList <+: part → ∀ c ∈ part.takeWhile (· != ';'),
      isHole c = true → ';' ∉ filling.text c) :=
    @instDecidableForall _ _ _ (List.decidableBAll _ _)
  decidable_of_iff _ forall_drop_iff

variable {filling} in
theorem Calm.within (calm : filling.Calm start text) (within : part <:+ text) : filling.Calm start part :=
  fun _ inside => calm _ (inside.trans within)

variable {filling} in
theorem Calm.inside (calm : filling.Calm start text) (within : part <:+: text) : filling.Calm start part := by
  obtain ⟨before, after, rfl⟩ := within
  intro inner ⟨front, same⟩ begun c member
  have longer : inner ++ after <:+ before ++ part ++ after :=
    ⟨before ++ front, by rw [← same]; simp only [append_assoc]⟩
  refine calm (inner ++ after) longer (begun.trans (prefix_append inner after)) c ?_
  rw [takeWhile_append]
  split
  · exact mem_append_left _ ((takeWhile_sublist _).mem member)
  · exact member

variable {filling} in
/-- From the start of a directive on, a filled text is read up to the semicolon as the text is. -/
theorem Calm.upToSemicolon (calm : filling.Calm start text) (begun : start.toList <+: text)
    (past : Past Text.isCalm text rest) :
    upToSemicolon (filling.fill rest) = (upToSemicolon rest).map filling.both := by
  refine filling.upToSemicolon_fill fun c member hole => ?_
  have wide : Past (· != ';') text rest := past.mono fun c calm => (and_eq_true_iff.mp calm).1
  exact calm text (suffix_refl text) begun c (wide.mem_takeWhile member) hole

theorem content_fill (text : Text) :
    content (filling.fill text) = (content text).map filling.fill := by
  have left := (filling.run_stops isBlank_stops text).2
  unfold content
  rw [left]
  cases rest : text.dropWhile isBlank with
  | nil =>
    have whole : text.takeWhile isBlank = text := by
      rw [← append_nil (text.takeWhile isBlank), ← rest, takeWhile_append_dropWhile]
    have blank : ∀ c ∈ text, isBlank c = true := by
      rw [← whole]
      exact all_eq_true.mp all_takeWhile
    have free : Free text := fun c member => isBlank_stops.isHole (blank c member)
    rw [fill_nil, filling.fill_eq_self free]
    dsimp only
    cases last : text.getLast? with
    | none => rfl
    | some c =>
      have plain := free c (mem_of_getLast? last)
      rw [map_some, map_some, fill_plain filling plain, fill_nil]
  | cons c more =>
    obtain ⟨d, others, filled⟩ := exists_cons_of_ne_nil (show filling.fill (c :: more) ≠ [] by
      rw [fill_cons]
      simp [filling.text_ne_nil c])
    rw [filled]
    dsimp only [map_some]
    rw [filled]

/-- What stands right before a place of a filled text: what stands there in the text, or the end of what
a placeholder stands for. -/
theorem head?_reverse_fill (left : Text) :
    (filling.fill left).reverse.head? = left.reverse.head? ∨
      ∃ c last, left.reverse.head? = some c ∧ isHole c = true ∧
        (filling.fill left).reverse.head? = some last ∧ isEnding last = true := by
  rw [head?_reverse, head?_reverse]
  rcases eq_nil_or_concat left with rfl | ⟨front, c, rfl⟩
  · exact .inl rfl
  · rw [concat_eq_append, fill_append, fill_cons, fill_nil, append_nil, getLast?_concat]
    cases hole : isHole c with
    | true =>
      obtain ⟨start, last, same, ending⟩ := filling.ends c hole
      exact .inr ⟨c, last, rfl, hole, by rw [same, ← append_assoc, getLast?_concat], ending⟩
    | false => exact .inl (by rw [filling.same c hole, getLast?_concat])

/-! ### Positions -/

def place (text : Text) (position : Nat) : Nat :=
  (filling.fill (text.take position)).length

theorem place_append (left right : Text) :
    filling.place (left ++ right) left.length = (filling.fill left).length := by
  rw [place, take_left]

theorem take_place (text : Text) (position : Nat) :
    (filling.fill text).take (filling.place text position) = filling.fill (text.take position) := by
  conv => lhs; rw [← take_append_drop position text, fill_append]
  rw [place, take_append_drop]
  exact take_left

theorem drop_place (text : Text) (position : Nat) :
    (filling.fill text).drop (filling.place text position) = filling.fill (text.drop position) := by
  conv => lhs; rw [← take_append_drop position text, fill_append]
  rw [place, take_append_drop]
  exact drop_left

theorem place_add (text : Text) (position count : Nat) :
    filling.place text (position + count) =
      filling.place text position + filling.place (text.drop position) count := by
  rw [place, place, place, take_add, fill_append, length_append]

theorem place_succ {position : Nat} (next : text.drop position = c :: rest) (plain : isHole c = false) :
    filling.place text (position + 1) = filling.place text position + 1 := by
  rw [place_add, next, place, place, take_succ_cons, fill_plain filling plain]
  rfl

theorem place_le (before : left ≤ right) : filling.place text left ≤ filling.place text right := by
  rw [← Nat.add_sub_cancel' before, place_add]
  exact Nat.le_add_right _ _

private theorem place_lt (before : left < right) (within : right ≤ text.length) :
    filling.place text left < filling.place text right := by
  obtain ⟨c, rest, next⟩ := exists_cons_of_ne_nil
    (show text.drop left ≠ [] by rw [Ne, drop_eq_nil_iff]; omega)
  have one : 0 < filling.place (text.drop left) 1 := by
    rw [place, next, take_succ_cons, take_zero, fill_cons, fill_nil, append_nil]
    exact length_pos_iff.mpr (filling.text_ne_nil c)
  have step := filling.place_add text left 1
  have more : filling.place text (left + 1) ≤ filling.place text right := filling.place_le before
  omega

theorem place_lt_iff (within : right ≤ text.length) :
    filling.place text left < filling.place text right ↔ left < right := by
  refine ⟨fun before => ?_, fun before => filling.place_lt before within⟩
  rw [← Nat.not_le]
  intro after
  exact absurd (filling.place_le after) (Nat.not_le.mpr before)

def OneLine : Prop :=
  ∀ c, isHole c = true → '\n' ∉ filling.text c

theorem count_newline_fill (flat : filling.OneLine) (text : Text) :
    (filling.fill text).count '\n' = text.count '\n' := by
  induction text with
  | nil => rfl
  | cons c rest ih =>
    rw [fill_cons, count_append, ih]
    cases hole : isHole c with
    | true =>
      have other := ne_of_isHole hole (by decide : '\n'.toNat < 128)
      rw [count_eq_zero.mpr (flat c hole), count_cons_of_ne other, Nat.zero_add]
    | false =>
      rw [filling.same c hole, ← count_append]
      rfl

end Filling

end PageScript
