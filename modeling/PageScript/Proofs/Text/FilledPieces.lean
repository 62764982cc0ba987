import PageScript.Proofs.Text.Fill
import PageScript.Proofs.Text.Stretch

/-! A filled text is cut into the filled pieces of the text (`cut_fill`). -/

open List

namespace PageScript

open Text Piece Option

namespace Text

variable {α : Type} {recognise : Recogniser α} {text : Text} {pieces : List (Piece α)}
  {starts : List String}

/-- What a recogniser finds starts with a marker. -/
def Begins (marker : Text) (recognise : Recogniser α) : Prop :=
  ∀ before text found, recognise before text = some found → marker <+: text

theorem Begins.of_expect (start : String)
    (missing : ∀ before text, expect start text = none → recognise before text = none) :
    Begins start.toList recognise := by
  intro before text found seen
  cases begun : expect start text with
  | none =>
    rw [missing before text begun] at seen
    cases seen
  | some rest =>
    rw [after?_eq_some.mp begun]
    exact prefix_append _ rest

theorem Begins.eq_none {marker before : Text} (begins : Begins marker recognise)
    (missing : after? marker text = none) : recognise before text = none := by
  rw [eq_none_iff_forall_ne_some]
  intro found seen
  obtain ⟨rest, same⟩ := begins before text found seen
  rw [after?_eq_some.mpr same.symm] at missing
  cases missing

/-- Placeholders stand outside everything that a recogniser finds. -/
def Apart (recognise : Recogniser α) (text : Text) : Prop :=
  ∀ lexeme value, .found lexeme value ∈ cut recognise text → Free lexeme

/-- What a recogniser finds is a nonempty start of the text without placeholders. -/
def FindsFree (recognise : Recogniser α) : Prop :=
  ∀ before text value rest, recognise before text = some (value, rest) →
    ∃ lexeme, lexeme ≠ [] ∧ text = lexeme ++ rest ∧ Free lexeme

theorem FindsFree.consumes (finds : FindsFree recognise) : Consumes recognise := by
  intro before text value rest seen
  obtain ⟨lexeme, more, whole, _⟩ := finds before text value rest seen
  exact ⟨lexeme, more, whole⟩

theorem FindsFree.apart (finds : FindsFree recognise) (text : Text) : Apart recognise text := by
  intro lexeme value member
  obtain ⟨left, right, pieces⟩ := append_of_mem member
  obtain ⟨other, _, whole, free⟩ := finds _ _ _ _ (finds.consumes.cut pieces)
  rwa [append_cancel_right whole]

/-- What is found starts like a directive and goes on to the next semicolon. -/
def Terminated (starts : List String) (recognise : Recogniser α) : Prop :=
  ∀ before text value rest, recognise before text = some (value, rest) →
    (∃ start ∈ starts, start.toList <+: text) ∧
      ∃ middle body, Past isCalm text middle ∧ upToSemicolon middle = some (body, rest)

theorem Terminated.consumes (terminated : Terminated starts recognise) :
    Consumes recognise := by
  intro before text value rest seen
  obtain ⟨_, middle, body, ⟨front, rfl, _⟩, ended⟩ := terminated before text value rest seen
  refine ⟨front ++ (body ++ [';']), by simp, ?_⟩
  rw [(upToSemicolon_eq_some ended).1]
  simp only [append_assoc, singleton_append]

theorem Terminated.apart (terminated : Terminated starts recognise)
    (unreached : ∀ start ∈ starts, Unreached start text) : Apart recognise text := by
  intro lexeme value member
  obtain ⟨left, right, pieces⟩ := append_of_mem member
  have whole := flatMap_source_cut recognise text
  rw [pieces, flatMap_append, flatMap_cons] at whole
  obtain ⟨⟨start, known, begun⟩, middle, body, past, ended⟩ :=
    terminated _ _ _ _ (terminated.consumes.cut pieces)
  have inside := (unreached start known).free ⟨_, whole⟩ begun past
  obtain ⟨split, rfl⟩ := upToSemicolon_eq_some ended
  obtain ⟨front, spread, calm⟩ := past
  have same : lexeme = front ++ (middle.takeWhile (· != ';') ++ [';']) := by
    refine (append_left_inj (right.flatMap source)).mp ?_
    rw [spread, append_assoc, append_assoc, singleton_append, ← split]
  rw [same]
  refine .append (fun c member => isHole_of_isCalm (calm c member)) (inside.append ?_)
  exact forall_mem_singleton.mpr rfl

theorem holes_writePieces {write : Text → α → Text}
    (each : ∀ lexeme value, .found lexeme value ∈ pieces → holes (write lexeme value) = holes lexeme) :
    holes (writePieces write pieces) = holes (pieces.flatMap source) := by
  induction pieces with
  | nil => rfl
  | cons first rest ih =>
    have later := ih fun lexeme value member => each lexeme value (mem_cons_of_mem first member)
    rw [flatMap_cons, holes_append, ← later, ← singleton_append, writePieces_append,
      holes_append]
    cases first with
    | plain c => rfl
    | found lexeme value =>
      rw [writePieces_found, writePieces, flatMap_nil, append_nil,
        each lexeme value mem_cons_self]
      rfl

end Text

namespace Filling

variable {α β γ δ σ : Type} {recognise : Recogniser α} {text : Text} {pieces : List (Piece α)}
  {change : α → α} {inside : Char → List (Piece α)} (filling : Filling)
  {step : σ → Text → α → Option (Text × σ)} {state final : σ}

theorem bind_carry {first : Option β} {before : β → γ} {next : γ → Option δ} {same : β → Option δ}
    {after : δ → δ} (each : ∀ read, first = some read → next (before read) = (same read).map after) :
    (first.map before).bind next = (first.bind same).map after := by
  cases first with
  | none => rfl
  | some read => exact each read rfl

/-- At the places of a text outside its placeholders, a recogniser answers in the filled text as it does
in the text itself, up to a change of its values. -/
def Follows (recognise : Recogniser α) (change : α → α) (text : Text) : Prop :=
  ∀ left c right, text = left ++ c :: right → isHole c = false →
    recognise (filling.fill left).reverse (filling.fill (c :: right)) =
      (recognise left.reverse (c :: right)).map fun found => (change found.1, filling.fill found.2)

/-- At the places that cutting a text comes to, a recogniser answers in the filled text as it does in the
text itself, up to a change of its values. -/
structure Answers (recognise : Recogniser α) (change : α → α) (text : Text) : Prop where
  absent : ∀ left c right, text = left ++ c :: right → isHole c = false →
    recognise left.reverse (c :: right) = none →
      recognise (filling.fill left).reverse (filling.fill (c :: right)) = none
  found : ∀ left lexeme right value, text = left ++ (lexeme ++ right) → lexeme ≠ [] →
    .found lexeme value ∈ cut recognise text →
    recognise left.reverse (lexeme ++ right) = some (value, right) →
      recognise (filling.fill left).reverse (filling.fill lexeme ++ filling.fill right) =
        some (change value, filling.fill right)

/-- What a recogniser makes of the text of each placeholder, whatever stands around it. A placeholder
itself is nothing to it. -/
structure Reads (recognise : Recogniser α) (inside : Char → List (Piece α)) : Prop where
  same : ∀ c, isHole c = false → inside c = [.plain c]
  unseen : ∀ c, isHole c = true → ∀ before rest, recognise before (c :: rest) = none
  hole : ∀ c, isHole c = true → ∀ before rest,
    cutFrom recognise before 0 (filling.text c ++ rest) =
      inside c ++ cutFrom recognise ((filling.text c).reverse ++ before) 0 rest

def chars (c : Char) : List (Piece α) :=
  (filling.text c).map .plain

def piece (inside : Char → List (Piece α)) (change : α → α) : Piece α → List (Piece α)
  | .plain c => inside c
  | .found lexeme value => [.found (filling.fill lexeme) (change value)]

theorem chars_same (c : Char) (plain : isHole c = false) :
    (filling.chars c : List (Piece α)) = [.plain c] := by
  rw [chars, filling.same c plain]
  rfl

theorem Reads.of_silent
    (unseen : ∀ c, isHole c = true → ∀ before rest, recognise before (c :: rest) = none)
    (silent : ∀ c, isHole c = true → ∀ rest, Silent recognise (filling.text c) rest) :
    filling.Reads recognise filling.chars where
  same := filling.chars_same
  unseen := unseen
  hole c hole before rest := cutFrom_silent (silent c hole rest) before

theorem Reads.of_begins {first : Char} {marker : Text}
    (begins : Begins (first :: marker) recognise) (plain : isHole first = false)
    (whole : ∀ d ∈ (first :: marker).dropLast, isEnding d = false)
    (absent : ∀ c, isHole c = true → ¬ first :: marker <:+: filling.text c) :
    filling.Reads recognise filling.chars := by
  refine .of_silent filling (fun c hole before rest => ?_) (fun c hole rest before part more within => ?_)
  · refine begins.eq_none ?_
    rw [after?, if_neg]
    rintro rfl
    rw [plain] at hole
    cases hole
  · exact begins.eq_none (filling.after?_inside whole hole (absent c hole) more within rest)

variable {filling}

theorem Follows.answers (follows : filling.Follows recognise change text)
    (unseen : ∀ c, isHole c = true → ∀ before rest, recognise before (c :: rest) = none) :
    filling.Answers recognise change text where
  absent left c right whole plain none := by
    rw [follows left c right whole plain, none]
    rfl
  found left lexeme right value whole more member seen := by
    obtain ⟨c, rest, rfl⟩ := exists_cons_of_ne_nil more
    have plain : isHole c = false := by
      rw [← Bool.not_eq_true]
      intro hole
      rw [cons_append, unseen c hole] at seen
      cases seen
    have here := follows left c (rest ++ right) whole plain
    rw [cons_append] at seen
    rw [seen, ← cons_append, fill_append] at here
    exact here

private theorem cut_fill_of (consumes : Consumes recognise) (reads : filling.Reads recognise inside)
    (answers : filling.Answers recognise change text) :
    cut recognise (filling.fill text) =
      (cut recognise text).flatMap (filling.piece inside change) := by
  suffices from_ : ∀ left right, text = left ++ right →
      cutFrom recognise left.reverse 0 right <:+ cut recognise text →
      cutFrom recognise (filling.fill left).reverse 0 (filling.fill right) =
        (cutFrom recognise left.reverse 0 right).flatMap (filling.piece inside change) from
    from_ [] text rfl (suffix_refl _)
  intro left right whole within
  -- the rest gets shorter with each piece, by as much as an occurrence takes
  induction size : right.length using Nat.strongRecOn generalizing left right with
  | _ _ ih =>
    cases right with
    | nil => rfl
    | cons c rest =>
      have next : text = left ++ [c] ++ rest := by rw [whole, append_assoc]; rfl
      have shorter : rest.length < (c :: rest).length := Nat.lt_succ_self _
      have later := ih rest.length (size ▸ shorter) (left ++ [c]) rest next
      cases seen : recognise left.reverse (c :: rest) with
      | none =>
        rw [cutFrom, seen] at within ⊢
        have beyond := later (by
          rw [reverse_append]
          exact (suffix_cons _ _).trans within) rfl
        rw [fill_append, reverse_append, reverse_append] at beyond
        cases hole : isHole c with
        | true =>
          rw [fill_cons, reads.hole c hole]
          dsimp only
          rw [flatMap_cons, piece]
          rw [fill_cons, fill_nil, append_nil] at beyond
          exact congrArg (inside c ++ ·) beyond
        | false =>
          have here := answers.absent left c rest whole hole seen
          rw [fill_plain filling hole] at here beyond ⊢
          rw [cutFrom, here]
          dsimp only
          rw [flatMap_cons, piece, reads.same c hole]
          exact congrArg (plain c :: ·) beyond
      | some found =>
        obtain ⟨value, after⟩ := found
        obtain ⟨lexeme, more, split⟩ := consumes _ _ _ _ seen
        have fewer : after.length < (c :: rest).length := by
          have positive := length_pos_iff.mpr more
          rw [split, length_append]
          omega
        have filled : filling.fill lexeme ≠ [] := by
          obtain ⟨d, others, rfl⟩ := exists_cons_of_ne_nil more
          rw [fill_cons]
          simp [filling.text_ne_nil d]
        rw [split] at seen within whole ⊢
        rw [cutFrom_found more seen] at within ⊢
        have here := answers.found left lexeme after value whole more
          (within.subset mem_cons_self) seen
        have beyond := ih after.length (size ▸ fewer) (left ++ lexeme) after
          (by rw [whole, append_assoc])
          (by
            rw [reverse_append]
            exact (suffix_cons _ _).trans within) rfl
        rw [fill_append, cutFrom_found filled here, flatMap_cons, piece]
        rw [fill_append, reverse_append, reverse_append] at beyond
        exact congrArg (found (filling.fill lexeme) (change value) :: ·) beyond

theorem cut_fill (consumes : Consumes recognise) (reads : filling.Reads recognise inside)
    (follows : filling.Follows recognise change text) :
    cut recognise (filling.fill text) =
      (cut recognise text).flatMap (filling.piece inside change) :=
  cut_fill_of consumes reads (follows.answers reads.unseen)

private theorem writePieces_piece {write other : Text → α → Text} {target : Char → Text}
    (plain : ∀ c, writePieces other (inside c) = target c)
    (each : ∀ lexeme value, .found lexeme value ∈ pieces →
      other (filling.fill lexeme) (change value) = (write lexeme value).flatMap target) :
    writePieces other (pieces.flatMap (filling.piece inside change)) =
      (writePieces write pieces).flatMap target := by
  induction pieces with
  | nil => rfl
  | cons first rest ih =>
    have later := ih fun lexeme value member => each lexeme value (mem_cons_of_mem first member)
    rw [flatMap_cons, writePieces_append, later]
    cases first with
    | plain c =>
      rw [piece, plain]
      rfl
    | found lexeme value =>
      rw [piece, writePieces_found, writePieces_found, each lexeme value mem_cons_self,
        flatMap_append]
      exact congrArg (· ++ _) (append_nil _)

private theorem writePieces_chars (write : Text → α → Text) (c : Char) :
    writePieces write (filling.chars c) = filling.text c :=
  writePieces_plain write _

theorem replace_fill (consumes : Consumes recognise) (reads : filling.Reads recognise filling.chars)
    (follows : filling.Follows recognise change text) {write : α → Text}
    (each : ∀ value, write (change value) = filling.fill (write value)) :
    Text.replace recognise write (filling.fill text) =
      filling.fill (Text.replace recognise write text) := by
  unfold Text.replace
  rw [cut_fill consumes reads follows]
  exact writePieces_piece (writePieces_chars _) fun _ value _ => each value

private theorem weave_chars (step : σ → Text → α → Text × σ) (state : σ) (text : Text)
    (rest : List (Piece α)) :
    weave step state (text.map .plain ++ rest) =
      (text ++ (weave step state rest).1, (weave step state rest).2) := by
  induction text with
  | nil => rfl
  | cons c text ih =>
    rw [map_cons, cons_append, weave, ih]
    rfl

theorem weave_fill {step : σ → Text → α → Text × σ}
    (each : ∀ state lexeme value, .found lexeme value ∈ pieces →
      step state (filling.fill lexeme) value =
        (filling.fill (step state lexeme value).1, (step state lexeme value).2)) (state : σ) :
    weave step state (pieces.flatMap (filling.piece filling.chars id)) =
      (filling.fill (weave step state pieces).1, (weave step state pieces).2) := by
  induction pieces generalizing state with
  | nil => rfl
  | cons first rest ih =>
    have later := ih fun state lexeme value member =>
      each state lexeme value (mem_cons_of_mem first member)
    rw [flatMap_cons]
    cases first with
    | plain c =>
      rw [piece, chars, weave_chars, later]
      rfl
    | found lexeme value =>
      have here := each state lexeme value mem_cons_self
      rw [piece, singleton_append, weave, id_eq, here]
      dsimp only
      rw [later, weave]
      dsimp only
      rw [fill_append]

theorem holes_sublist_weave? (free : ∀ lexeme value, .found lexeme value ∈ pieces → Free lexeme)
    (woven : weave? step state pieces = some (text, final)) :
    (holes (pieces.flatMap source)).Sublist (holes text) := by
  induction pieces generalizing state text with
  | nil => exact nil_sublist _
  | cons first rest ih =>
    have others : ∀ lexeme value, .found lexeme value ∈ rest → Free lexeme :=
      fun lexeme value member => free lexeme value (mem_cons_of_mem first member)
    rw [flatMap_cons, holes_append]
    cases first with
    | plain c =>
      rw [weave?_plain, map_eq_some_iff] at woven
      obtain ⟨⟨written, last⟩, walked, same⟩ := woven
      cases same
      rw [← singleton_append, holes_append]
      exact (List.Sublist.refl _).append (ih others walked)
    | found lexeme value =>
      rw [weave?_found, bind_eq_some_iff] at woven
      obtain ⟨⟨written, next⟩, _, woven⟩ := woven
      obtain ⟨⟨beyond, last⟩, walked, same⟩ := map_eq_some_iff.mp woven
      cases same
      have none : holes (found lexeme value).source = [] :=
        (free lexeme value mem_cons_self).holes
      rw [none, holes_append]
      exact (nil_sublist _).append (ih others walked)

private theorem countP_le_weave? (free : ∀ lexeme value, .found lexeme value ∈ pieces → Free lexeme)
    (woven : weave? step state pieces = some (text, final)) :
    (pieces.flatMap source).countP isHole ≤ text.countP isHole := by
  rw [countP_eq_length_filter, countP_eq_length_filter]
  exact (holes_sublist_weave? free woven).length_le

theorem weave?_fill (free : ∀ lexeme value, .found lexeme value ∈ pieces → Free lexeme) {state : σ}
    (fresh : ∀ text final, weave? step state pieces = some (text, final) →
      text.countP isHole = (pieces.flatMap source).countP isHole) :
    weave? step state (pieces.flatMap (filling.piece filling.chars id)) =
      (weave? step state pieces).map fun woven => (filling.fill woven.1, woven.2) := by
  induction pieces generalizing state with
  | nil => rfl
  | cons first rest ih =>
    have others : ∀ lexeme value, .found lexeme value ∈ rest → Free lexeme :=
      fun lexeme value member => free lexeme value (mem_cons_of_mem first member)
    rw [flatMap_cons, weave?_append]
    cases first with
    | plain c =>
      have later := @ih others state fun text final walked => by
        have whole := fresh (c :: text) final (by rw [weave?_plain, walked]; rfl)
        rw [flatMap_cons, countP_append, ← singleton_append, countP_append]
          at whole
        exact Nat.add_left_cancel whole
      have passed : weave? step state (filling.chars c) = some (filling.text c, state) := by
        rw [chars, weave?_of_no_value _ _ _ (filterMap_value?_plain _), flatMap_map]
        exact congrArg (fun text => some (text, state)) (flatMap_singleton' _)
      rw [piece, passed, bind_some]
      dsimp only
      rw [later, weave?_plain, Option.map_map, Option.map_map]
      rfl
    | found lexeme value =>
      have plain := free lexeme value mem_cons_self
      rw [piece, id_eq, filling.fill_eq_self plain, weave?_found, weave?_found]
      cases stepped : step state lexeme value with
      | none => rfl
      | some answer =>
        obtain ⟨written, next⟩ := answer
        have known : ∀ text final, weave? step next rest = some (text, final) →
            written.countP isHole = 0 ∧
              text.countP isHole = (rest.flatMap source).countP isHole := by
          intro text final walked
          have whole := fresh (written ++ text) final (by
            rw [weave?_found, stepped, bind_some]
            dsimp only
            rw [walked]
            rfl)
          have fewer := countP_le_weave? others walked
          have none : (found lexeme value).source.countP isHole = 0 := plain.countP
          rw [flatMap_cons, countP_append, countP_append, none] at whole
          omega
        have later := @ih others next fun text final walked => (known text final walked).2
        rw [bind_some, bind_some]
        dsimp only [weave?, map_some, bind_some]
        rw [later]
        cases walked : weave? step next rest with
        | none => rfl
        | some answer =>
          obtain ⟨text, final⟩ := answer
          have unmarked : Free written := Free.of_countP (known text final walked).1
          dsimp only [map_some]
          rw [fill_append, filling.fill_eq_self unmarked, append_nil]

theorem weave?_cut_fill (consumes : Consumes recognise) (reads : filling.Reads recognise filling.chars)
    (answers : filling.Answers recognise id text) (apart : Apart recognise text)
    {state : σ}
    (fresh : ∀ {written final}, weave? step state (cut recognise text) = some (written, final) →
      Fresh text written) :
    weave? step state (cut recognise (filling.fill text)) =
      (weave? step state (cut recognise text)).map fun woven =>
        (filling.fill woven.1, woven.2) := by
  rw [cut_fill_of consumes reads answers]
  refine weave?_fill apart fun written final woven => ?_
  have fewer := countP_le_weave? apart woven
  have none : written.countP isHole ≤ text.countP isHole := fresh woven
  rw [flatMap_source_cut] at fewer ⊢
  omega

theorem holes_weave?_cut (apart : Apart recognise text) {written : Text}
    (woven : weave? step state (cut recognise text) = some (written, final))
    (fresh : Fresh text written) : holes written = holes text := by
  have kept := holes_sublist_weave? apart woven
  rw [flatMap_source_cut] at kept
  exact (kept.eq_of_length_le fresh.length_le).symm

theorem replace_fill_free (consumes : Consumes recognise)
    (reads : filling.Reads recognise filling.chars) (answers : filling.Answers recognise id text)
    (apart : Apart recognise text) {write : α → Text}
    (fresh : Fresh text (Text.replace recognise write text)) :
    Text.replace recognise write (filling.fill text) =
      filling.fill (Text.replace recognise write text) := by
  have own := weave?_writePieces (fun _ => write) (cut recognise text)
  have walked := weave?_cut_fill consumes reads answers apart fun {written final} woven => by
    rw [own] at woven
    cases woven
    exact fresh
  rw [own, weave?_writePieces, map_some] at walked
  exact congrArg Prod.fst (some.inj walked)

theorem holes_sublist_replace (apart : Apart recognise text) (write : α → Text) :
    (holes text).Sublist (holes (Text.replace recognise write text)) := by
  have kept := holes_sublist_weave? apart
    (weave?_writePieces (fun _ => write) (cut recognise text))
  rwa [flatMap_source_cut] at kept

end Filling

end PageScript
