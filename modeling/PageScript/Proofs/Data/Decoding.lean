import PageScript.Data.Decoder
import PageScript.Proofs.Data.Order
import PageScript.Proofs.Outcome

/-! Taking values from the documents of values (`dataWithin_yields`). -/

namespace PageScript

open List

open Document (ofData ofItems ofFields ofText)

/-- A value is taken from every source, and no alias is followed. -/
def Decoding.Yields {α : Type} (action : Decoding α) (value : α) : Prop :=
  ∀ source hops, action source hops = some (value, hops)

namespace Decoding

variable {α β : Type}

theorem bind_eq_some {source : Source} {hops left : Nat} {first : Decoding β} {next : β → Decoding α}
    {value : α} : (first >>= next) source hops = some (value, left) ↔
      ∃ middle between, first source hops = some (middle, between) ∧
        next middle source between = some (value, left) := by
  change (first source hops).bind (fun result => next result.1 source result.2) = _ ↔ _
  rw [Option.bind_eq_some_iff, Prod.exists]

theorem Yields.pure (value : α) : Yields (Pure.pure value) value :=
  fun _ _ => rfl

theorem Yields.bind {first : Decoding β} {next : β → Decoding α} {middle : β} {value : α}
    (begun : Yields first middle) (ended : Yields (next middle) value) : Yields (first >>= next) value := by
  intro source hops
  change (first source hops).bind (fun result => next result.1 source result.2) = _
  rw [begun source hops]
  exact ended source hops

theorem Yields.map {first : Decoding β} {middle : β} (begun : Yields first middle) (change : β → α) :
    Yields (do return change (← first)) (change middle) :=
  begun.bind (.pure _)

theorem Yields.mapM_cons {take : β → Decoding α} {item : β} {rest : List β} {value : α}
    {values : List α} (here : Yields (take item) value) (there : Yields (rest.mapM take) values) :
    Yields ((item :: rest).mapM take) (value :: values) := by
  rw [List.mapM_cons]
  exact here.bind (there.bind (.pure _))

theorem Yields.mapM {γ : Type} {take : β → Decoding α} {make : γ → β} {value : γ → α} {items : List γ}
    (each : ∀ item ∈ items, Yields (take (make item)) (value item)) :
    Yields ((items.map make).mapM take) (items.map value) := by
  induction items with
  | nil => exact .pure []
  | cons item rest ih =>
    obtain ⟨here, there⟩ := forall_mem_cons.mp each
    exact here.mapM_cons (ih there)

theorem Yields.decode? {source : Source} {decode : Decoder α} {value : α}
    (yields : Yields (decode ⟨source.root, source.depth⟩) value) : source.decode? decode = some value :=
  congrArg (Option.map Prod.fst) (yields source source.hops)

end Decoding

open Decoding (Yields)

namespace Document

theorem ofItems_eq_map (items : List Data) : ofItems items = items.map ofData := by
  induction items with
  | nil => rfl
  | cons item rest ih => rw [ofItems, ih, map_cons]

theorem ofFields_eq_map (fields : List (String × Data)) :
    ofFields fields = fields.map fun field => (ofText field.1, ofData field.2) := by
  induction fields with
  | nil => rfl
  | cons field rest ih =>
    obtain ⟨name, value⟩ := field
    rw [ofFields, ih, map_cons]

mutual

theorem dataWithin_yields : (data : Data) → (depth : Nat) → data.depth ≤ depth →
    Yields (dataWithin depth (ofData data)) data
  | .null, 0, _ | .null, _ + 1, _ => .pure _
  | .bool _, 0, _ | .bool _, _ + 1, _ => .pure _
  | .number _, 0, _ | .number _, _ + 1, _ => .pure _
  | .text _, 0, _ | .text _, _ + 1, _ => .pure _
  | .list items, depth + 1, within => by
      have inside := items_yield items depth (Nat.le_of_succ_le_succ within)
      exact (Yields.pure (Document.list (ofItems items))).bind (inside.map Data.list)
  | .record fields, depth + 1, within => by
      have inside := fields_yield fields depth (Nat.le_of_succ_le_succ within)
      exact (Yields.pure (Document.record (ofFields fields))).bind (inside.map Data.record)

theorem items_yield : (items : List Data) → (depth : Nat) → Data.depthOfItems items ≤ depth →
    Yields ((ofItems items).mapM (dataWithin depth)) items
  | [], _, _ => .pure _
  | item :: rest, depth, within =>
    (dataWithin_yields item depth (Nat.le_trans (Nat.le_max_left _ _) within)).mapM_cons
      (items_yield rest depth (Nat.le_trans (Nat.le_max_right _ _) within))

theorem fields_yield : (fields : List (String × Data)) → (depth : Nat) →
    Data.depthOfFields fields ≤ depth →
    Yields ((ofFields fields).mapM fun (key, value) => do
      return (← key.text, ← dataWithin depth value)) fields
  | [], _, _ => .pure _
  | (name, value) :: rest, depth, within => by
      have held := dataWithin_yields value depth (Nat.le_trans (Nat.le_max_left _ _) within)
      have others := fields_yield rest depth (Nat.le_trans (Nat.le_max_right _ _) within)
      refine Yields.mapM_cons ?_ others
      exact (Yields.pure name).bind (held.bind (.pure _))

end

end Document

namespace Part

variable {α γ : Type}

theorem text_yields (value : String) (depth : Nat) : Yields (text ⟨ofText value, depth⟩) value :=
  (Yields.pure (ofText value)).bind (.pure value)

theorem sortedData_yields {data : Data} {depth : Nat} (within : data.depth ≤ depth)
    (ordered : data.Every Data.Ordered) : Yields (sortedData ⟨ofData data, depth⟩) data := by
  have taken := (Document.dataWithin_yields data depth within).map Data.sorted
  rwa [Data.sorted_of_every data ordered] at taken

theorem list_yields {decode : Decoder α} {make : γ → Data} {value : γ → α} {items : List γ} {depth : Nat}
    (each : ∀ item ∈ items, Yields (decode ⟨ofData (make item), depth⟩) (value item)) :
    Yields (list decode ⟨ofData (.list (items.map make)), depth + 1⟩) (items.map value) := by
  have documents : ofData (.list (items.map make)) = .list (items.map fun item => ofData (make item)) := by
    rw [ofData, Document.ofItems_eq_map, map_map]
    rfl
  rw [documents]
  have inside : Yields ((items.map fun item => ofData (make item)).mapM fun document =>
      decode ⟨document, depth⟩) (items.map value) := Yields.mapM each
  exact (Yields.pure (Document.list _)).bind
    ((Yields.pure fun document => Part.mk document depth).bind inside)

theorem keyed_yields {decode : Decoder α} {value : String × Data → α} {fields : List (String × Data)}
    {depth : Nat}
    (each : ∀ field ∈ fields, Yields (decode ⟨ofData field.2, depth⟩) (value field)) :
    Yields (keyed decode ⟨ofData (.record fields), depth + 1⟩)
      (.ofList (fields.map fun field => (field.1, value field))) := by
  rw [ofData, Document.ofFields_eq_map]
  have inside : Yields ((fields.map fun field => (ofText field.1, ofData field.2)).mapM
      fun (key, value) => do return (← key.text, ← decode ⟨value, depth⟩))
      (fields.map fun field => (field.1, value field)) := by
    refine Yields.mapM fun field member => ?_
    exact (text_yields field.1 depth).bind ((each field member).bind (.pure _))
  exact (Yields.pure (Document.record _)).bind
    ((Yields.pure fun document => Part.mk document depth).bind (inside.map Keyed.ofList))

theorem fields_yields {names : List String} {fields : List (String × Data)} {depth : Nat}
    (known : ∀ field ∈ fields, field.1 ∈ names) (distinct : (fields.map (·.1)).Nodup) :
    Yields (Part.fields names ⟨ofData (.record fields), depth + 1⟩)
      (fields.map fun field => (field.1, ⟨ofData field.2, depth⟩)) := by
  rw [ofData, Document.ofFields_eq_map]
  have inside : Yields ((fields.map fun field => (ofText field.1, ofData field.2)).mapM
      fun entry => do return (← entry.1.text, Part.mk entry.2 depth))
      (fields.map fun field => (field.1, ⟨ofData field.2, depth⟩)) := by
    refine Yields.mapM fun field member => ?_
    exact (text_yields field.1 depth).bind (.pure _)
  have all : (fields.map fun field => (field.1, Part.mk (ofData field.2) depth)).filter
      (fun field => names.contains field.1) = fields.map fun field => (field.1, ⟨ofData field.2, depth⟩) := by
    rw [filter_eq_self]
    intro field member
    obtain ⟨given, within, rfl⟩ := mem_map.mp member
    exact contains_iff_mem.mpr (known given within)
  have once : (fields.map fun field => (field.1, Part.mk (ofData field.2) depth)).map (·.1) =
      fields.map (·.1) := by
    rw [map_map]
    rfl
  have named : Yields (do
      let all ← (fields.map fun field => (ofText field.1, ofData field.2)).mapM
        fun entry => do return (← entry.1.text, Part.mk entry.2 depth)
      let known := all.filter fun field => names.contains field.1
      if (known.map (·.1)).Nodup then return known else failure)
      (fields.map fun field => (field.1, ⟨ofData field.2, depth⟩)) := by
    refine inside.bind ?_
    dsimp only
    rw [all, once, if_pos distinct]
    exact .pure _
  intro source hops
  exact named source hops

end Part

theorem Tree.decode_eq_ok {α : Type} {tree : Tree} {path : Path} {format : Format} {decode : Decoder α}
    {value : α} : tree.decode path format decode = .ok value ↔ ∃ text source,
      tree.read path = .ok text ∧ Source.parse? format text = some source ∧
      source.decode? decode = some value := by
  constructor
  · intro done
    obtain ⟨text, read, done⟩ := bind_eq_ok.mp done
    split at done <;> cases done
    rename_i taken
    obtain ⟨source, parsed, taken⟩ := Option.bind_eq_some_iff.mp taken
    exact ⟨text, source, mapError_eq_ok.mp read, parsed, taken⟩
  · rintro ⟨text, source, read, parsed, taken⟩
    refine bind_eq_ok.mpr ⟨text, mapError_eq_ok.mpr read, ?_⟩
    rw [parsed, Option.bind_some, taken]
    rfl

end PageScript
