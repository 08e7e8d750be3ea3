import Lineage.Yaml.Node
import Lineage.Yaml.Token.Reader

/-!
# Lineage.Yaml.Node.Reader

Building the tree of a document from its tokens.  `Yaml.read?` accepts a text
with at most one document.
-/

namespace Lineage.Yaml

/-- Where a node stands. -/
inductive Place where
  /-- In a block sequence, or as a whole document. -/
  | block
  /-- In a block mapping, where a sequence needs no indentation. -/
  | mapping
  /-- In a flow collection. -/
  | flow
deriving DecidableEq, Repr

mutual
/-- The node at the front of some tokens, and what follows it. -/
def readNode? (place : Place) (ts : List Token) : Option (Node × After ts) :=
  match ts with
  | .scalar s :: rest => some (.scalar s, ⟨rest, Nat.lt_succ_self _⟩)
  | .flowSequence :: rest =>
    match readFlowItems? rest with
    | some (items, ⟨r, h⟩) => some (.sequence items, ⟨r, Nat.lt_succ_of_lt h⟩)
    | none => none
  | .flowMapping :: rest =>
    match readFlowPairs? rest with
    | some (pairs, ⟨r, h⟩) => some (.mapping pairs, ⟨r, Nat.lt_succ_of_lt h⟩)
    | none => none
  | .dash :: rest =>
    if place = .mapping then
      match readItem? [.dash, .key, .value, .blockEnd] rest with
      | none => none
      | some (item, ⟨r, h⟩) =>
        match readDashes? r with
        | some (items, ⟨r', h'⟩) =>
          some (.sequence (item :: items), ⟨r', by simp only [List.length_cons]; omega⟩)
        | none => none
    else none
  | .blockSequence :: rest =>
    if place = .flow then none
    else
      match readBlockItems? rest with
      | some (items, ⟨r, h⟩) => some (.sequence items, ⟨r, Nat.lt_succ_of_lt h⟩)
      | none => none
  | .blockMapping :: rest =>
    if place = .flow then none
    else
      match readBlockPairs? rest with
      | some (pairs, ⟨r, h⟩) => some (.mapping pairs, ⟨r, Nat.lt_succ_of_lt h⟩)
      | none => none
  | _ => none
termination_by (ts.length, 0)

/-- The node at the front of some tokens, or nothing if one of `ends` is. -/
def readOptional? (place : Place) (ends : List Token) (ts : List Token) :
    Option (Node × Within ts) :=
  if ts.head?.any ends.contains then some (.empty, ⟨ts, Nat.le_refl _⟩)
  else
    match readNode? place ts with
    | some (node, ⟨r, h⟩) => some (node, ⟨r, Nat.le_of_lt h⟩)
    | none => none
termination_by (ts.length, 1)

/-- The item after a dash. -/
def readItem? (ends : List Token) (ts : List Token) : Option (Node × Within ts) :=
  readOptional? .block ends ts
termination_by (ts.length, 2)

/-- The items of a sequence in a mapping that is not indented further, as long
as dashes follow. -/
def readDashes? (ts : List Token) : Option (List Node × Within ts) :=
  match ts with
  | .dash :: rest =>
    match readItem? [.dash, .key, .value, .blockEnd] rest with
    | none => none
    | some (item, ⟨r, h⟩) =>
      match readDashes? r with
      | some (items, ⟨r', h'⟩) => some (item :: items, ⟨r', by simp only [List.length_cons]; omega⟩)
      | none => none
  | ts => some ([], ⟨ts, Nat.le_refl _⟩)
termination_by (ts.length, 3)

/-- The items of a block sequence, up to its end. -/
def readBlockItems? (ts : List Token) : Option (List Node × After ts) :=
  match ts with
  | .blockEnd :: rest => some ([], ⟨rest, Nat.lt_succ_self _⟩)
  | .dash :: rest =>
    match readItem? [.dash, .blockEnd] rest with
    | none => none
    | some (item, ⟨r, h⟩) =>
      match readBlockItems? r with
      | some (items, ⟨r', h'⟩) => some (item :: items, ⟨r', by simp only [List.length_cons]; omega⟩)
      | none => none
  | _ => none
termination_by (ts.length, 3)

/-- The value of a pair, nothing if its mark is missing. -/
def readValue? (place : Place) (ends : List Token) (ts : List Token) :
    Option (Node × Within ts) :=
  match ts with
  | .value :: rest =>
    match readOptional? place ends rest with
    | some (node, ⟨r, h⟩) => some (node, ⟨r, Nat.le_succ_of_le h⟩)
    | none => none
  | ts => some (.empty, ⟨ts, Nat.le_refl _⟩)
termination_by (ts.length, 2)

/-- The pairs of a block mapping, up to its end. -/
def readBlockPairs? (ts : List Token) : Option (List (Node × Node) × After ts) :=
  match ts with
  | .blockEnd :: rest => some ([], ⟨rest, Nat.lt_succ_self _⟩)
  | .key :: rest =>
    match readOptional? .mapping [.key, .value, .blockEnd] rest with
    | none => none
    | some (key, ⟨r, h⟩) =>
      match readValue? .mapping [.key, .value, .blockEnd] r with
      | none => none
      | some (value, ⟨r', h'⟩) =>
        match readBlockPairs? r' with
        | some (pairs, ⟨r'', h''⟩) =>
          some ((key, value) :: pairs, ⟨r'', by simp only [List.length_cons]; omega⟩)
        | none => none
  | _ => none
termination_by (ts.length, 3)

/-- The key of a pair in a flow sequence.  Where it is missing, the token that
shows this is lost. -/
def readPairKey? (ts : List Token) : Option (Node × After ts) :=
  match ts with
  | .value :: rest | .comma :: rest | .flowSequenceEnd :: rest =>
    some (.empty, ⟨rest, Nat.lt_succ_self _⟩)
  | ts => readNode? .flow ts
termination_by (ts.length, 1)

/-- The items of a flow sequence, after its beginning or a comma. -/
def readFlowItems? (ts : List Token) : Option (List Node × After ts) :=
  match ts with
  | .flowSequenceEnd :: rest => some ([], ⟨rest, Nat.lt_succ_self _⟩)
  | .key :: rest =>
    match readPairKey? rest with
    | none => none
    | some (key, ⟨r, h⟩) =>
      match readValue? .flow [.comma, .flowSequenceEnd] r with
      | none => none
      | some (value, ⟨r', h'⟩) =>
        match readMoreItems? r' with
        | some (items, ⟨r'', h''⟩) =>
          some (.mapping [(key, value)] :: items, ⟨r'', by simp only [List.length_cons]; omega⟩)
        | none => none
  | ts =>
    match readNode? .flow ts with
    | none => none
    | some (item, ⟨r, h⟩) =>
      match readMoreItems? r with
      | some (items, ⟨r', h'⟩) => some (item :: items, ⟨r', Nat.lt_trans h' h⟩)
      | none => none
termination_by (ts.length, 2)

/-- The further items of a flow sequence, after one of them. -/
def readMoreItems? (ts : List Token) : Option (List Node × After ts) :=
  match ts with
  | .flowSequenceEnd :: rest => some ([], ⟨rest, Nat.lt_succ_self _⟩)
  | .comma :: rest =>
    match readFlowItems? rest with
    | some (items, ⟨r, h⟩) => some (items, ⟨r, Nat.lt_succ_of_lt h⟩)
    | none => none
  | _ => none
termination_by (ts.length, 2)

/-- The pairs of a flow mapping, after its beginning or a comma. -/
def readFlowPairs? (ts : List Token) : Option (List (Node × Node) × After ts) :=
  match ts with
  | .flowMappingEnd :: rest => some ([], ⟨rest, Nat.lt_succ_self _⟩)
  | .key :: rest =>
    match readOptional? .flow [.value, .comma, .flowMappingEnd] rest with
    | none => none
    | some (key, ⟨r, h⟩) =>
      match readValue? .flow [.comma, .flowMappingEnd] r with
      | none => none
      | some (value, ⟨r', h'⟩) =>
        match readMorePairs? r' with
        | some (pairs, ⟨r'', h''⟩) =>
          some ((key, value) :: pairs, ⟨r'', by simp only [List.length_cons]; omega⟩)
        | none => none
  | ts =>
    match readNode? .flow ts with
    | none => none
    | some (key, ⟨r, h⟩) =>
      match readMorePairs? r with
      | some (pairs, ⟨r', h'⟩) => some ((key, .empty) :: pairs, ⟨r', Nat.lt_trans h' h⟩)
      | none => none
termination_by (ts.length, 2)

/-- The further pairs of a flow mapping, after one of them. -/
def readMorePairs? (ts : List Token) : Option (List (Node × Node) × After ts) :=
  match ts with
  | .flowMappingEnd :: rest => some ([], ⟨rest, Nat.lt_succ_self _⟩)
  | .comma :: rest =>
    match readFlowPairs? rest with
    | some (pairs, ⟨r, h⟩) => some (pairs, ⟨r, Nat.lt_succ_of_lt h⟩)
    | none => none
  | _ => none
termination_by (ts.length, 2)
end

/-- The content of a document whose mark has been read. -/
def readContent? (ts : List Token) : Option (Node × Within ts) :=
  if ts.isEmpty then some (.empty, ⟨ts, Nat.le_refl _⟩)
  else readOptional? .block [.documentStart, .documentEnd] ts

/-- The document that some tokens make, if there is one. -/
def readDocument? : List Token → Option (Option Node)
  | [] => some none
  | .documentStart :: rest =>
    (readContent? rest).bind fun (node, r) =>
      if r.val.all (· == .documentEnd) then some (some node) else none
  | ts =>
    (readNode? .block ts).bind fun (node, r) =>
      if r.val.all (· == .documentEnd) then some (some node) else none

/-- The document of a text, if it is well formed and has at most one.  A text
without any is read as `none`. -/
def read? (text : String) : Option (Option Node) := (tokens? text).bind readDocument?

end Lineage.Yaml
