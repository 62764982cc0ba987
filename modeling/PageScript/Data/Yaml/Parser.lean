import PageScript.Data.Yaml.Token

/-! YAML documents from their tokens, aliases replaced by what they stand for. -/

namespace PageScript.Yaml

inductive Node where
  | scalar (text : String) (plain : Bool)
  | sequence (items : List Node)
  | mapping (pairs : List (Node × Node))
  | alias (anchor : Nat)
  | anchored (anchor : Nat) (node : Node)
  deriving Inhabited

abbrev Names := List (Text × Nat)

/-- The names after one more anchor, whose number is how many names there were. -/
def Names.add (names : Names) (name : Text) : Names :=
  (name, names.length) :: names.filter (·.1 != name)

def absent : Node := .scalar "" true

abbrev Reading (α : Type) := Option (α × Names × List Token)

/-- Which node may stand somewhere: one inside a flow collection, a block, or a block that may also be
a sequence without indentation of its own. -/
inductive Place where
  | flow
  | block
  | value
  deriving DecidableEq

def Place.starts (place : Place) : List Token → Bool
  | .scalar _ _ :: _ | .flowSequence :: _ | .flowMapping :: _ => true
  | .blockSequence :: _ | .blockMapping :: _ => place != .flow
  | .blockEntry :: _ => place == .value
  | _ => false

def startsWith (kinds : List Token) (tokens : List Token) : Bool :=
  match tokens with
  | token :: _ => kinds.contains token
  | [] => false

mutual

def optionalNode : Nat → Place → List Token → Names → List Token → Reading Node
  | 0, _, _, _, _ => none
  | fuel + 1, place, ends, names, tokens =>
      if startsWith ends tokens then some (absent, names, tokens)
      else node fuel place names tokens

def node : Nat → Place → Names → List Token → Reading Node
  | 0, _, _, _ => none
  | fuel + 1, place, names, tokens =>
      match tokens with
      | .alias name :: rest => (names.lookup name).map fun anchor => (.alias anchor, names, rest)
      | .anchor name :: rest =>
          let anchor := names.length
          if place.starts rest then
            (content fuel place (names.add name) rest).map fun (node, names, rest) =>
              (.anchored anchor node, names, rest)
          else some (.anchored anchor absent, names.add name, rest)
      | tokens => content fuel place names tokens

def content : Nat → Place → Names → List Token → Reading Node
  | 0, _, _, _ => none
  | fuel + 1, place, names, tokens =>
      match tokens with
      | .scalar text plain :: rest => some (.scalar (String.ofList text) plain, names, rest)
      | .flowSequence :: rest => flowItems fuel true names [] rest
      | .flowMapping :: rest => flowPairs fuel true names [] rest
      | .blockSequence :: rest => if place = .flow then none else blockItems fuel names [] rest
      | .blockMapping :: rest => if place = .flow then none else blockPairs fuel names [] rest
      | .blockEntry :: _ => if place = .value then plainItems fuel names [] tokens else none
      | _ => none

def blockItems : Nat → Names → List Node → List Token → Reading Node
  | 0, _, _, _ => none
  | fuel + 1, names, items, tokens =>
      match tokens with
      | .blockEntry :: rest =>
          match optionalNode fuel .block [.blockEntry, .blockEnd] names rest with
          | some (item, names, rest) => blockItems fuel names (item :: items) rest
          | none => none
      | .blockEnd :: rest => some (.sequence items.reverse, names, rest)
      | _ => none

def plainItems : Nat → Names → List Node → List Token → Reading Node
  | 0, _, _, _ => none
  | fuel + 1, names, items, tokens =>
      match tokens with
      | .blockEntry :: rest =>
          match optionalNode fuel .block [.blockEntry, .key, .value, .blockEnd] names rest with
          | some (item, names, rest) => plainItems fuel names (item :: items) rest
          | none => none
      | rest => some (.sequence items.reverse, names, rest)

def blockPairs : Nat → Names → List (Node × Node) → List Token → Reading Node
  | 0, _, _, _ => none
  | fuel + 1, names, pairs, tokens =>
      match tokens with
      | .blockEnd :: rest => some (.mapping pairs.reverse, names, rest)
      | .key :: rest =>
          match optionalNode fuel .value [.key, .value, .blockEnd] names rest with
          | none => none
          | some (key, names, rest) =>
              match rest with
              | .value :: rest =>
                  match optionalNode fuel .value [.key, .value, .blockEnd] names rest with
                  | some (item, names, rest) => blockPairs fuel names ((key, item) :: pairs) rest
                  | none => none
              | rest => blockPairs fuel names ((key, absent) :: pairs) rest
      | _ => none

def flowValue : Nat → List Token → Names → List Token → Reading Node
  | 0, _, _, _ => none
  | fuel + 1, ends, names, tokens =>
      match tokens with
      | .value :: rest => optionalNode fuel .flow ends names rest
      | rest => some (absent, names, rest)

/-- The items of a flow sequence. A single pair among them is a mapping of its own; the token where its
key is left out does not count. -/
def flowItems : Nat → Bool → Names → List Node → List Token → Reading Node
  | 0, _, _, _, _ => none
  | fuel + 1, first, names, items, tokens =>
      match tokens with
      | .flowSequenceEnd :: rest => some (.sequence items.reverse, names, rest)
      | tokens =>
          let due : Option (List Token) :=
            match first, tokens with
            | true, tokens => some tokens
            | false, .flowEntry :: rest => some rest
            | false, _ => none
          match due with
          | none => none
          | some (.flowSequenceEnd :: rest) => some (.sequence items.reverse, names, rest)
          | some (.key :: rest) =>
              let ends : List Token := [.value, .flowEntry, .flowSequenceEnd]
              let keyed : Reading Node :=
                if startsWith ends rest then some (absent, names, rest.tail)
                else node fuel .flow names rest
              match keyed with
              | none => none
              | some (key, names, rest) =>
                  match flowValue fuel [.flowEntry, .flowSequenceEnd] names rest with
                  | some (item, names, rest) =>
                      flowItems fuel false names (.mapping [(key, item)] :: items) rest
                  | none => none
          | some rest =>
              match node fuel .flow names rest with
              | some (item, names, rest) => flowItems fuel false names (item :: items) rest
              | none => none

def flowPairs : Nat → Bool → Names → List (Node × Node) → List Token → Reading Node
  | 0, _, _, _, _ => none
  | fuel + 1, first, names, pairs, tokens =>
      match tokens with
      | .flowMappingEnd :: rest => some (.mapping pairs.reverse, names, rest)
      | tokens =>
          let due : Option (List Token) :=
            match first, tokens with
            | true, tokens => some tokens
            | false, .flowEntry :: rest => some rest
            | false, _ => none
          match due with
          | none => none
          | some (.flowMappingEnd :: rest) => some (.mapping pairs.reverse, names, rest)
          | some (.key :: rest) =>
              match optionalNode fuel .flow [.value, .flowEntry, .flowMappingEnd] names rest with
              | none => none
              | some (key, names, rest) =>
                  match flowValue fuel [.flowEntry, .flowMappingEnd] names rest with
                  | some (item, names, rest) =>
                      flowPairs fuel false names ((key, item) :: pairs) rest
                  | none => none
          | some rest =>
              match node fuel .flow names rest with
              | some (key, names, rest) =>
                  flowPairs fuel false names ((key, absent) :: pairs) rest
              | none => none

end

/-- Reads a text of at most one document; without any, there is no node. Marks of a document's end may
only come after one. -/
def parse? (text : Text) : Option (Option Node) := do
  let tokens ← tokens? text
  let fuel := 5 * tokens.length + 8
  let complete (found : Reading Node) : Option (Option Node) :=
    match found with
    | some (node, _, rest) => if rest.all (· == .documentEnd) then some (some node) else none
    | none => none
  match tokens with
  | [] => some none
  | .documentStart :: rest =>
      if rest.isEmpty then some (some absent)
      else complete (optionalNode fuel .block [.documentStart, .documentEnd] [] rest)
  | tokens => complete (node fuel .block [] tokens)

namespace Node

def ofScalar (text : String) (plain : Bool) : Document :=
  if plain then
    .scalar { text := some text, value := plainValue? text, isNull := isNull text, isBlank := text.isEmpty }
  else .ofText text

mutual

def document : Node → Document
  | .scalar text plain => ofScalar text plain
  | .sequence items => .list (documents items)
  | .mapping pairs => .record (fields pairs)
  | .alias anchor => .alias anchor
  | .anchored _ node => document node

def documents : List Node → List Document
  | [] => []
  | item :: rest => document item :: documents rest

def fields : List (Node × Node) → List (Document × Document)
  | [] => []
  | (key, value) :: rest => (document key, document value) :: fields rest

end

mutual

def anchors : Node → List (Nat × Document)
  | .scalar _ _ => []
  | .sequence items => anchorsOfItems items
  | .mapping pairs => anchorsOfPairs pairs
  | .alias _ => []
  | .anchored anchor node => (anchor, document node) :: anchors node

def anchorsOfItems : List Node → List (Nat × Document)
  | [] => []
  | item :: rest => anchors item ++ anchorsOfItems rest

def anchorsOfPairs : List (Node × Node) → List (Nat × Document)
  | [] => []
  | (key, value) :: rest => anchors key ++ anchors value ++ anchorsOfPairs rest

end

mutual

/-- The size of a node: one for a scalar or an alias, and two for a collection beside its parts. -/
def size : Node → Nat
  | .scalar _ _ => 1
  | .sequence items => 2 + sizeOfItems items
  | .mapping pairs => 2 + sizeOfPairs pairs
  | .alias _ => 1
  | .anchored _ node => size node

def sizeOfItems : List Node → Nat
  | [] => 0
  | item :: rest => size item + sizeOfItems rest

def sizeOfPairs : List (Node × Node) → Nat
  | [] => 0
  | (key, value) :: rest => size key + size value + sizeOfPairs rest

end

end Node

end PageScript.Yaml
